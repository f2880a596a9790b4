import StartTech.PatchDb.Store

/-!
# Broadcasting revisions to subscribers

Subscribers are grouped by the pointer they watch. Each group holds the sending
ends of its channels and the last JSON dump that was made for it, which is
dropped when a revision is sent.

## Implementation notes

The map of groups is its lookup function. A sending end records what was sent
into its channel, which is what its receivers get to see; when they read it, and
that a bounded channel closes on a reader that falls behind, is left out.
-/

namespace StartTech.PatchDb

open Foundation ImblValue

/-- How dumps and revisions are written as JSON. -/
structure Serializer (Bytes : Type) where
  dump : Dump → Option Bytes
  revision : Revision → Option Bytes

structure UnboundedSender where
  id : Nat
  closed : Bool
  sent : List Revision

/-- Send into a channel; `none` when its receiver is gone. -/
def UnboundedSender.send (sender : UnboundedSender) (r : Revision) : Option UnboundedSender :=
  if sender.closed then none else some { sender with sent := sender.sent ++ [r] }

/-- A channel with several receivers. Each has an identity and sees what is sent from
some point on. -/
structure JsonSender (Bytes : Type) where
  receivers : List (Nat × Nat)
  sent : List (Option Bytes)

structure ScopedBroadcast (Bytes : Type) where
  unbounded : List UnboundedSender
  json : InOMap Nat (JsonSender Bytes)
  dump : Option Bytes

abbrev Broadcast (Bytes : Type) := List Text → Option (ScopedBroadcast Bytes)

variable {Bytes : Type} (ser : Serializer Bytes)

namespace ScopedBroadcast

def empty : ScopedBroadcast Bytes where
  unbounded := []
  json := []
  dump := none

def pruneUnbounded (listeners : ScopedBroadcast Bytes) : ScopedBroadcast Bytes :=
  { listeners with unbounded := listeners.unbounded.filter fun sender => !sender.closed }

def isEmpty (listeners : ScopedBroadcast Bytes) : Bool :=
  listeners.unbounded.isEmpty && listeners.json.isEmpty

def pruneJson (listeners : ScopedBroadcast Bytes) : ScopedBroadcast Bytes :=
  { listeners with json := listeners.json.filter fun e => !e.2.receivers.isEmpty }

/-- Hand a revision to every channel of the group. -/
def deliver (revision : Revision) (listeners : ScopedBroadcast Bytes) : ScopedBroadcast Bytes :=
  { listeners with
    unbounded := listeners.unbounded.filterMap fun sender => sender.send revision
    json := listeners.json.map fun e =>
      (e.1, { e.2 with sent := e.2.sent ++ [ser.revision revision] }) }

/-- What sending a revision does to the group at a pointer; an empty group goes away. -/
def send (ptr : List Text) (value : Revision) (listeners : ScopedBroadcast Bytes) :
    Option (ScopedBroadcast Bytes) :=
  let listeners : ScopedBroadcast Bytes := { listeners with dump := none }
  let listeners := listeners.pruneUnbounded.pruneJson
  if listeners.isEmpty then none
  else
    let revision := value.forPath ptr
    if revision.patch.isEmpty then some listeners else some (listeners.deliver ser revision)

/-- Drop closed channels, and the group with the last of them. -/
def retain (listeners : ScopedBroadcast Bytes) : Option (ScopedBroadcast Bytes) :=
  let listeners := listeners.pruneUnbounded
  if listeners.isEmpty then none else some listeners

/-- Subscribe a receiver to the channel of a capacity. -/
def attach (capacity id : Nat) (listeners : ScopedBroadcast Bytes) :
    Nat × ScopedBroadcast Bytes :=
  match InOMap.get listeners.json capacity with
  | some sender =>
    (sender.sent.length,
      { listeners with
        json := InOMap.set listeners.json capacity
          { sender with receivers := sender.receivers ++ [(id, sender.sent.length)] } })
  | none =>
    (0, { listeners with
          json := listeners.json ++ [(capacity, { receivers := [(id, 0)], sent := [] })] })

/-- The receiver with an identity goes away. -/
def close (id : Nat) (listeners : ScopedBroadcast Bytes) : ScopedBroadcast Bytes :=
  { listeners with
    unbounded := listeners.unbounded.map fun sender =>
      if sender.id = id then { sender with closed := true } else sender
    json := listeners.json.map fun e =>
      (e.1, { e.2 with receivers := e.2.receivers.filter fun r => r.1 != id }) }

end ScopedBroadcast

namespace Broadcast

def new : Broadcast Bytes := fun _ => none

def send (b : Broadcast Bytes) (value : Revision) : Broadcast Bytes :=
  fun ptr => (b ptr).bind (ScopedBroadcast.send ser ptr value)

def subscribe (b : Broadcast Bytes) (ptr : List Text) (id : Nat) : Broadcast Bytes :=
  let b : Broadcast Bytes := fun q => (b q).bind ScopedBroadcast.retain
  let listeners := (b ptr).getD .empty
  Function.update b ptr
    (some { listeners with
      unbounded := listeners.unbounded ++ [{ id, closed := false, sent := [] }] })

/-- The dump that is handed out, with the place in the channel from which the
subscriber sees revisions; `none` when the dump cannot be written. -/
def subscribeJson (b : Broadcast Bytes) (ptr : List Text) (dump : Dump) (capacity id : Nat) :
    Option (Bytes × Nat) × Broadcast Bytes :=
  let listeners := (b ptr).getD .empty
  match listeners.dump.or (ser.dump dump) with
  | none => (none, Function.update b ptr (some listeners))
  | some json =>
    let r := ScopedBroadcast.attach capacity id { listeners with dump := some json }
    (some (json, r.1), Function.update b ptr (some r.2))

def close (b : Broadcast Bytes) (id : Nat) : Broadcast Bytes :=
  fun ptr => (b ptr).map (ScopedBroadcast.close id)

end Broadcast

def Store.dump (store : Store) (ptr : List Text) : Dump where
  id := store.revision
  value := valueBelow ptr store.persistent

/-- A subscriber with the dump it was handed. -/
inductive Subscriber (Bytes : Type)
  | unbounded (id : Nat) (ptr : List Text) (dump : Dump)
  | json (id : Nat) (ptr : List Text) (capacity start : Nat) (dump : Bytes)

def Subscriber.id : Subscriber Bytes → Nat
  | .unbounded id _ _ => id
  | .json id _ _ _ _ => id

/-- A database with its files and its subscribers. -/
structure System (B Bytes : Type) where
  store : Store
  files : Files B
  broadcast : Broadcast Bytes
  subscribers : List (Subscriber Bytes)
  nextId : Nat

inductive Event
  | apply (patch : DiffPatch) (io : ApplyIo)
  | dumpAndSub (ptr : List Text)
  | dumpAndSubJson (ptr : List Text) (capacity : Nat)
  | close (id : Nat)

variable {B : Type} [Inhabited B] (cbor : Cbor B) {s : System B Bytes}

/-- One call on the database; `none` when it panics. -/
def System.step (s : System B Bytes) : Event → Option (System B Bytes)
  | .apply patch io =>
    match PatchDb.apply cbor patch s.store s.files io with
    | none => none
    | some (.ok (some revision), store, files) =>
      some { s with store, files, broadcast := s.broadcast.send ser revision }
    | some (_, store, files) => some { s with store, files }
  | .dumpAndSub ptr =>
    some { s with
      broadcast := s.broadcast.subscribe ptr s.nextId
      subscribers := s.subscribers ++ [.unbounded s.nextId ptr (s.store.dump ptr)]
      nextId := s.nextId + 1 }
  | .dumpAndSubJson ptr capacity =>
    match s.broadcast.subscribeJson ser ptr (s.store.dump ptr) capacity s.nextId with
    | (none, broadcast) => some { s with broadcast }
    | (some (dump, start), broadcast) =>
      some { s with
        broadcast
        subscribers := s.subscribers ++ [.json s.nextId ptr capacity start dump]
        nextId := s.nextId + 1 }
  | .close id =>
    some { s with
      broadcast := s.broadcast.close id
      subscribers := s.subscribers.filter fun sub => sub.id != id }

/-- An update that yields no revision sends nothing. -/
theorem System.step_unsent {patch : DiffPatch} {io : ApplyIo}
    {res : Except StoreError (Option Revision)} {store : Store} {files : Files B}
    (happly : PatchDb.apply cbor patch s.store s.files io = some (res, store, files))
    (silent : ∀ r, res ≠ .ok (some r)) :
    s.step ser cbor (.apply patch io) = some { s with store, files } := by
  rw [System.step, happly]
  cases res with
  | error e => rfl
  | ok sent =>
    cases sent with
    | none => rfl
    | some r => exact absurd rfl (silent r)

def System.run (s : System B Bytes) : List Event → Option (System B Bytes)
  | [] => some s
  | e :: rest => (s.step ser cbor e).bind fun s => s.run rest

/-- Every call of a run meets a condition where it is made. -/
def System.runMeets (cond : System B Bytes → Event → Bool) (s : System B Bytes) :
    List Event → Bool
  | [] => true
  | e :: rest =>
    cond s e &&
      match s.step ser cbor e with
      | none => true
      | some s => s.runMeets cond rest

/-- What calls keep that meet a condition holds at the end of a run of them. -/
theorem System.run_invariant {ser : Serializer Bytes} {cbor : Cbor B}
    {cond : System B Bytes → Event → Bool} {inv : System B Bytes → Prop}
    (hkeep : ∀ {s e}, inv s → cond s e = true → ∃ s', s.step ser cbor e = some s' ∧ inv s')
    (h : inv s) {events : List Event}
    (hmeets : s.runMeets ser cbor cond events = true) :
    ∃ s', s.run ser cbor events = some s' ∧ inv s' := by
  induction events generalizing s with
  | nil => exact ⟨s, rfl, h⟩
  | cons e rest ih =>
    simp only [System.runMeets, Bool.and_eq_true] at hmeets
    obtain ⟨s₁, hstep, h₁⟩ := hkeep h hmeets.1
    rw [hstep] at hmeets
    obtain ⟨s', hrun, h'⟩ := ih h₁ hmeets.2
    exact ⟨s', by rw [System.run, hstep, Option.bind_some, hrun], h'⟩

/-- Where a run comes to a call, the call meets the condition. -/
theorem System.runMeets_at {ser : Serializer Bytes} {cbor : Cbor B}
    {cond : System B Bytes → Event → Bool} {before after : List Event} {e : Event}
    (h : s.runMeets ser cbor cond (before ++ e :: after) = true) {s' : System B Bytes}
    (hrun : s.run ser cbor before = some s') : cond s' e = true := by
  induction before generalizing s with
  | nil =>
    cases hrun
    exact (Bool.and_eq_true_iff.mp h).1
  | cons first rest ih =>
    rw [System.run] at hrun
    obtain ⟨s₁, hstep, hrun⟩ := Option.bind_eq_some_iff.mp hrun
    simp only [List.cons_append, System.runMeets, Bool.and_eq_true, hstep] at h
    exact ih h.2 hrun

end StartTech.PatchDb

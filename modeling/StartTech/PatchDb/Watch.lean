import StartTech.JsonPatch.RoundTrip
import StartTech.PatchDb.ForPath
import StartTech.PatchDb.Subscription

/-!
# Watches of a part of the document

A watch keeps a copy of what a pointer leads to and patches it with the revisions
that reach its channel. However receiving and reading are interleaved, the copy is
what the pointer leads to in the store, as long as no update renumbers the elements
of an array on the way, and none is above a pointer that is a slice.

## Implementation notes

Groups of subscribers are ordered by the segments of their pointers, so a group is found by
a list. The view of a revision is made for the pointer that the group was opened with.
-/

namespace StartTech.PatchDb

open Foundation ImblValue JsonPatch
open JsonPtr (Standing)

/-- A watch with what waits in its channel. -/
structure DbWatch where
  state : Value
  pending : List Revision
  seen : Bool

namespace DbWatch

def new (dump : Dump) : DbWatch where
  state := dump.value
  pending := []
  seen := false

/-- Patch the state with what waits; `none` when a patch panics. -/
def drain (keepSeen : Bool) (state : Value) (seen : Bool) :
    List Revision → Option (Except PatchError Unit × DbWatch)
  | [] => some (.ok (), ⟨state, [], seen⟩)
  | rev :: pending =>
    match patch state rev.patch.ops with
    | none => none
    | some (.ok _, state) => drain keepSeen state (keepSeen && seen) pending
    | some (.error e, state) => some (.error e, ⟨state, pending, seen⟩)

def sync (w : DbWatch) : Option (Except PatchError Unit × DbWatch) :=
  drain false w.state w.seen w.pending

def peek (w : DbWatch) : Option (Except PatchError Value × DbWatch) :=
  w.sync.map fun r => (r.1.map fun _ => r.2.state, r.2)

def peekAndMarkSeen (w : DbWatch) : Option (Except PatchError Value × DbWatch) :=
  w.sync.map fun r =>
    match r with
    | (.ok _, w) => (.ok w.state, { w with seen := true })
    | (.error e, w) => (.error e, w)

/-- Poll for a change; a result of `none` is to wait. -/
def pollChanged (w : DbWatch) : Option (Option (Except PatchError Unit) × DbWatch) :=
  if w.seen then
    match w.pending with
    | [] => some (none, w)
    | _ :: _ => (drain true w.state w.seen w.pending).map fun r => (some r.1, r.2)
  else some (some (.ok ()), { w with seen := true })

end DbWatch

/-- What happens to a watch: a revision reaches its channel, or it is used. -/
inductive WatchEvent
  | receive (rev : Revision)
  | sync
  | peek
  | peekAndMarkSeen
  | pollChanged

/-- The revisions that reach the channel. -/
def received : List WatchEvent → List Revision
  | [] => []
  | .receive rev :: rest => rev :: received rest
  | _ :: rest => received rest

namespace DbWatch

/-- The watch after a call that reports no error. -/
def unlessError {α : Type} : Option (Except PatchError α × DbWatch) → Option DbWatch
  | some (.ok _, w) => some w
  | _ => none

/-- One event; `none` when the call panics or reports an error. -/
def step (w : DbWatch) : WatchEvent → Option DbWatch
  | .receive rev => some { w with pending := w.pending ++ [rev] }
  | .sync => unlessError w.sync
  | .peek => unlessError w.peek
  | .peekAndMarkSeen => unlessError w.peekAndMarkSeen
  | .pollChanged =>
    match w.pollChanged with
    | some (none, w) => some w
    | some (some res, w) => unlessError (some (res, w))
    | none => none

def run (w : DbWatch) : List WatchEvent → Option DbWatch
  | [] => some w
  | e :: rest => (w.step e).bind fun w => w.run rest

/-- A watch that holds a document once it has received some more revisions. -/
structure Due (w : DbWatch) (future : List Revision) (d : Json) : Prop where
  wellFormed : w.state.WellFormed
  document : runPatches w.state.denote ((w.pending ++ future).map Revision.patch) = some d

variable {w : DbWatch} {future : List Revision} {d : Json}

theorem drain_ok (keepSeen seen : Bool) {state : Value} (hstate : state.WellFormed)
    {pending : List Revision}
    (h : runPatches state.denote (pending.map Revision.patch) = some d) :
    ∃ w, drain keepSeen state seen pending = some (.ok (), w) ∧ w.pending = [] ∧
      w.state.WellFormed ∧ w.state.denote = d := by
  induction pending generalizing state seen with
  | nil => exact ⟨_, rfl, rfl, hstate, Option.some.inj h⟩
  | cons rev pending ih =>
    obtain ⟨us, v, hpatch, hv, hrest⟩ := patch_of_runPatches hstate h
    rw [drain, hpatch]
    exact ih (keepSeen && seen) hv hrest

/-- Patching with what waits leaves what is still to come. -/
theorem Due.drain (h : w.Due future d) (keepSeen : Bool) :
    ∃ w', drain keepSeen w.state w.seen w.pending = some (.ok (), w') ∧ w'.Due future d := by
  have hdoc := h.document
  rw [List.map_append, runPatches, List.foldlM_append] at hdoc
  obtain ⟨d₁, hwaiting, hfuture⟩ := Option.bind_eq_some_iff.mp hdoc
  obtain ⟨w', hdrain, hpending, hwf, hstate⟩ := drain_ok keepSeen w.seen h.wellFormed hwaiting
  refine ⟨w', hdrain, hwf, ?_⟩
  rw [hpending, hstate]
  exact hfuture

theorem Due.seen (h : w.Due future d) (seen : Bool) : Due { w with seen } future d :=
  ⟨h.wellFormed, h.document⟩

/-- Every use of a watch succeeds and leaves what is still to come. -/
theorem Due.step (h : w.Due future d) {e : WatchEvent} (he : ∀ rev, e ≠ .receive rev) :
    ∃ w', w.step e = some w' ∧ w'.Due future d := by
  obtain ⟨w', hsync, hdue⟩ := h.drain false
  have hsync : w.sync = some (.ok (), w') := hsync
  cases e with
  | receive rev => exact absurd rfl (he rev)
  | sync => exact ⟨w', by rw [DbWatch.step, hsync]; rfl, hdue⟩
  | peek => exact ⟨w', by rw [DbWatch.step, DbWatch.peek, hsync]; rfl, hdue⟩
  | peekAndMarkSeen =>
    exact ⟨_, by rw [DbWatch.step, DbWatch.peekAndMarkSeen, hsync]; rfl, hdue.seen true⟩
  | pollChanged =>
    obtain ⟨w₁, hdrain, hdue₁⟩ := h.drain true
    cases hseen : w.seen with
    | false =>
      refine ⟨{ w with seen := true }, ?_, h.seen true⟩
      simp [DbWatch.step, DbWatch.pollChanged, hseen, unlessError]
    | true =>
      cases hpending : w.pending with
      | nil =>
        refine ⟨w, ?_, h⟩
        simp [DbWatch.step, DbWatch.pollChanged, hseen, hpending]
      | cons rev pending =>
        rw [hseen, hpending] at hdrain
        refine ⟨w₁, ?_, hdue₁⟩
        simp [DbWatch.step, DbWatch.pollChanged, hseen, hpending, hdrain, unlessError]

theorem Due.run {events : List WatchEvent} (h : w.Due (received events ++ future) d) :
    ∃ w', w.run events = some w' ∧ w'.Due future d := by
  induction events generalizing w with
  | nil => exact ⟨w, rfl, h⟩
  | cons e rest ih =>
    have hstep : ∃ w', w.step e = some w' ∧ w'.Due (received rest ++ future) d := by
      cases e with
      | receive rev =>
        refine ⟨_, rfl, h.wellFormed, ?_⟩
        simpa [received] using h.document
      | _ => exact Due.step h (by simp)
    obtain ⟨w₁, hw₁, hdue₁⟩ := hstep
    obtain ⟨w', hrun, hdue⟩ := ih hdue₁
    exact ⟨w', by rw [DbWatch.run, hw₁, Option.bind_some, hrun], hdue⟩

/-- A watch that has received everything shows the document when it is read. -/
theorem Due.peek (h : w.Due [] d) :
    ∃ v w', w.peek = some (.ok v, w') ∧ v.WellFormed ∧ v.denote = d := by
  have hdoc := h.document
  rw [List.append_nil] at hdoc
  obtain ⟨w', hsync, -, hwf, hstate⟩ := drain_ok false w.seen h.wellFormed hdoc
  have hsync : w.sync = some (.ok (), w') := hsync
  exact ⟨w'.state, w', by rw [DbWatch.peek, hsync]; rfl, hwf, hstate⟩

end DbWatch

variable {B Bytes : Type}

/-- The revisions lead from a dump to what a pointer shows in the store. -/
structure Reaches (ptr : List Text) (store : Store) (dump : Dump) (sent : List Revision) :
    Prop where
  wellFormed : dump.value.WellFormed
  document : runPatches dump.value.denote (sent.map Revision.patch) =
    some (Json.shownAt ptr store.persistent.denote)

/-- The watches of a pointer are sent what leads to its place in the store. -/
structure Watched (ptr : List Text) (s : System B Bytes) : Prop where
  wellFormed : s.store.persistent.WellFormed
  channels : Subscribed s.broadcast s.subscribers ptr (Reaches ptr s.store)

variable {ptr : List Text} {store : Store} {dump : Dump} {sent : List Revision}

variable {store' : Store} {r : Revision} {s : System B Bytes} {e : Event}

/-- A revision leads on, through its view below the pointer. -/
theorem Reaches.send (h : Reaches ptr store dump sent)
    (hview : runJson (Json.shownAt ptr store.persistent.denote) (r.forPath ptr).patch.ops =
      some (Json.shownAt ptr store'.persistent.denote)) :
    Reaches ptr store' dump (sent ++ [r.forPath ptr]) where
  wellFormed := h.wellFormed
  document := by
    rw [List.map_append, List.map_singleton, runPatches_concat, h.document]
    exact hview

/-- A revision of which nothing shows at the pointer changes nothing there. -/
theorem Reaches.silent (h : Reaches ptr store dump sent)
    (hview : runJson (Json.shownAt ptr store.persistent.denote) (r.forPath ptr).patch.ops =
      some (Json.shownAt ptr store'.persistent.denote))
    (hempty : (r.forPath ptr).patch.isEmpty = true) : Reaches ptr store' dump sent where
  wellFormed := h.wellFormed
  document := by
    rw [List.isEmpty_iff.mp hempty] at hview
    rw [h.document]
    exact hview

/-- An update that keeps the document and is not sent. -/
theorem Watched.unsent (h : Watched ptr s) {store : Store} {files : Files B}
    (hwf : store.persistent.WellFormed)
    (hdoc : store.persistent.denote = s.store.persistent.denote) :
    Watched ptr { s with store, files } := by
  refine ⟨hwf, fun id dump hmem => ?_⟩
  obtain ⟨listeners, hgroup, sender, hsender, hid, hopen, hdump, hreaches⟩ := h.channels id dump hmem
  exact ⟨listeners, hgroup, sender, hsender, hid, hopen, hdump, by rw [hreaches, hdoc]⟩

variable [Inhabited B] {ser : Serializer Bytes} {cbor : Cbor B}

/-- A safe update that, where the pointer has a group, does not move what it leads to and cuts no
slice for its view. -/
def System.stepInPlace (ptr : Standing) (s : System B Bytes) (e : Event) : Bool :=
  s.stepSafe e &&
    match e with
    | .apply patch _ =>
      (s.broadcast ptr.list).isNone ||
        keepsPlace ptr.list s.store.persistent patch.ops && patch.changes.all (inScope ptr)
    | _ => true

theorem Watched.call (h : Watched ptr s) (he : ∀ patch io, e ≠ .apply patch io) :
    ∃ s', s.step ser cbor e = some s' ∧ Watched ptr s' := by
  obtain ⟨s', hstep, hstore, hchannels⟩ := h.channels.step he
    ⟨valueBelow_wellFormed h.wellFormed ptr, congrArg some (valueBelow_denote ptr _)⟩
  exact ⟨s', hstep, hstore ▸ h.wellFormed, hstore ▸ hchannels⟩

theorem Watched.step {ptr : Standing} (h : Watched ptr.list s)
    (hsafe : s.stepInPlace ptr e = true) :
    ∃ s', s.step ser cbor e = some s' ∧ Watched ptr.list s' := by
  cases e with
  | apply patch io =>
    simp only [System.stepInPlace, System.stepSafe, Bool.and_eq_true, Bool.or_eq_true,
      Bool.not_eq_true'] at hsafe
    obtain ⟨⟨hsteps, hsent⟩, hplace⟩ := hsafe
    obtain ⟨res, store, files, happly, hmemory⟩ :=
      apply_remembers cbor h.wellFormed hsteps hsent s.files
    cases hmemory with
    | advanced nonempty wellFormed document revision =>
      refine ⟨_, by rw [System.step, happly], wellFormed, ?_⟩
      rcases hplace with hnone | ⟨hplace, -⟩
      · -- no group, so that nobody watches the pointer
        intro id dump hmem
        obtain ⟨listeners, hgroup, -⟩ := h.channels id dump hmem
        rw [hgroup] at hnone
        cases hnone
      · have hview : runJson (.shownAt ptr.list s.store.persistent.denote)
            (Revision.forPath ⟨s.store.revision + 1, patch⟩ ptr.list).patch.ops =
              some (.shownAt ptr.list store.persistent.denote) :=
          forPath_run h.wellFormed patch.wellFormed patch.diffs document hplace
        apply h.channels.send ser
        · intro hempty dump sent hreaches
          exact hreaches.silent hview hempty
        · intro _ dump sent hreaches
          exact hreaches.send hview
    | unchanged silent wellFormed document revision =>
      exact ⟨_, System.step_unsent ser cbor happly silent, h.unsent wellFormed document⟩
  | _ => exact h.call (by simp)

/-- Every update of a run is safe and in place where it is made. -/
def System.runInPlace {B Bytes : Type} [Inhabited B] (ser : Serializer Bytes) (cbor : Cbor B)
    (ptr : Standing) (s : System B Bytes) (events : List Event) : Bool :=
  s.runMeets ser cbor (System.stepInPlace ptr) events

/-- The view of an update in place is the one of the list, and is made without a panic. -/
theorem System.runInPlace_view {ptr : Standing} {before after : List Event} {patch : DiffPatch}
    {io : ApplyIo} {s' : System B Bytes}
    (hplace : s.runInPlace ser cbor ptr (before ++ .apply patch io :: after) = true)
    (hrun : s.run ser cbor before = some s') (hgroup : s'.broadcast ptr.list ≠ none)
    (cut : JsonPtr.JsonPointer → Nat) :
    PatchDb.forPath cut ptr.pointer (patch.changes.map fun op => (op.1.pointer, op.2)) =
      some (patch.forPath ptr.list).ops := by
  have hmeets := System.runMeets_at hplace hrun
  simp only [System.stepInPlace, Bool.and_eq_true, Bool.or_eq_true, List.all_eq_true,
    Option.isNone_iff_eq_none] at hmeets
  obtain ⟨-, hscope⟩ := hmeets.2.resolve_left hgroup
  rw [forPath_inScope cut hscope, patch.changes_operations]
  rfl

/-- In every run whose updates are safe and in place, the views of the updates at the pointer are
those of its list, and a watch of the pointer shows what the pointer leads to, however it was used
since it was made. An update by a difference to another document is safe, unless it stays unsent. -/
theorem watch_mirrors {B Bytes : Type} [Inhabited B] (ser : Serializer Bytes) (cbor : Cbor B)
    (cut : JsonPtr.JsonPointer → Nat) (ptr : Standing) (store : Store) (files : Files B)
    (hwf : store.persistent.WellFormed) (events : List Event)
    (hplace : (System.start store files).runInPlace ser cbor ptr events = true) :
    ∃ s, (System.start store files).run ser cbor events = some s ∧
      (∀ before patch io after s₁, events = before ++ .apply patch io :: after →
        (System.start store files).run ser cbor before = some s₁ → s₁.broadcast ptr.list ≠ none →
          PatchDb.forPath cut ptr.pointer (patch.changes.map fun op => (op.1.pointer, op.2)) =
            some (patch.forPath ptr.list).ops) ∧
      (∀ id dump, .unbounded id ptr.list dump ∈ s.subscribers →
        ∃ listeners sender, s.broadcast ptr.list = some listeners ∧
          sender ∈ listeners.unbounded ∧ sender.id = id ∧ sender.closed = false ∧
          ∀ uses, received uses = sender.sent →
            ∃ w v w' found, (DbWatch.new dump).run uses = some w ∧ w.peek = some (.ok v, w') ∧
              ptr.pointer.get s.store.persistent = some found ∧
              v.eq (found.getD .null) = true) ∧
      ∀ ptrEq : Value → Value → Bool, (∀ a b, ptrEq a b = true → a.eq b = true) →
        ∀ target : Value, target.WellFormed →
          ∃ ops, JsonPatch.diff ptrEq s.store.persistent target = some ops ∧
            stepsUndoable s.store.persistent ops = true := by
  obtain ⟨s, hrun, hwatched⟩ :=
    System.run_invariant Watched.step ⟨hwf, fun _ _ hmem => by cases hmem⟩ hplace
  refine ⟨s, hrun, ?_, ?_, ?_⟩
  · rintro before patch io after s₁ rfl hbefore hgroup
    exact System.runInPlace_view hplace hbefore hgroup cut
  · intro id dump hmem
    obtain ⟨listeners, hgroup, sender, hsender, hid, hopen, hreaches⟩ :=
      hwatched.channels id dump hmem
    refine ⟨listeners, sender, hgroup, hsender, hid, hopen, ?_⟩
    intro uses huses
    have hdue : (DbWatch.new dump).Due (received uses ++ [])
        (Json.shownAt ptr.list s.store.persistent.denote) := by
      refine ⟨hreaches.wellFormed, ?_⟩
      rw [huses, List.append_nil]
      exact hreaches.document
    obtain ⟨w, hw, hdue⟩ := hdue.run
    obtain ⟨v, w', hpeek, hv, hd⟩ := hdue.peek
    refine ⟨w, v, w', _, hw, hpeek, JsonPtr.JsonPointer.get_of_iter ptr.stands.reads _, ?_⟩
    change v.eq (valueBelow ptr.list s.store.persistent) = true
    rw [Value.eq_iff hv (valueBelow_wellFormed hwatched.wellFormed ptr.list), hd,
      valueBelow_denote]
  · intro ptrEq hptr target htarget
    obtain ⟨ops, hdiff, hops, hdirect, -⟩ := diff_spec hptr hwatched.wellFormed htarget
    exact ⟨ops, hdiff, hdirect.stepsUndoable hwatched.wellFormed hops⟩

/-- An array of three, and of its first element only. -/
def threeTrue : Value := .array 0 [.bool true, .bool true, .bool true]

def oneTrue : Value := .array 1 [.bool true]

/-- The difference between the two. -/
def dropTwo : DiffPatch where
  ops := [.remove [['1']], .remove [['1']]]
  diffs := by simp [isDiffOperation]
  wellFormed op hop := by
    simp only [List.mem_cons, List.not_mem_nil, or_false, or_self] at hop
    rw [hop]
    trivial

theorem threeTrue_wellFormed : threeTrue.WellFormed := by
  refine .array fun x hx => ?_
  simp only [List.mem_cons, List.not_mem_nil, or_false, or_self] at hx
  rw [hx]
  exact .bool true

/-- The part `/0` of `/x/0`. -/
def slicedFirst : Standing :=
  ⟨.exact 2 [['0']], [['0']], JsonPtr.JsonPointer.stands_exact 2 [['0']]⟩

/-- A watch of the first element, by a slice, is in step after the others are dropped. -/
theorem watch_mirrors_first :
    ∃ s, (System.start ⟨none, threeTrue, 0⟩ (emptyFiles false)).run tokenSerializer tokenCbor
        [.dumpAndSub [['0']], .apply dropTwo .allOk] = some s ∧
      ∃ w v w' found, (DbWatch.new ⟨0, .bool true⟩).run [.sync, .pollChanged] = some w ∧
        w.peek = some (.ok v, w') ∧ slicedFirst.pointer.get s.store.persistent = some found ∧
        v.eq (found.getD .null) = true := by
  obtain ⟨s, hrun, -, hwatches, -⟩ :=
    watch_mirrors tokenSerializer tokenCbor (fun _ => 0) slicedFirst ⟨none, threeTrue, 0⟩
      (emptyFiles false) threeTrue_wellFormed [.dumpAndSub [['0']], .apply dropTwo .allOk]
      (by decide)
  refine ⟨s, hrun, ?_⟩
  cases hrun
  obtain ⟨listeners, sender, hgroup, hsender, -, -, huses⟩ :=
    hwatches 0 ⟨0, .bool true⟩ (List.mem_singleton.mpr rfl)
  cases hgroup
  rw [List.mem_singleton.mp hsender] at huses
  exact huses [.sync, .pollChanged] rfl

/-- A watch of the third element is sent nothing when the last two are dropped, one
after the other, and goes on to show what the array no longer has. -/
theorem watch_not_mirrors : JsonPatch.diff (fun _ _ => false) threeTrue oneTrue = some dropTwo.ops ∧
      ∃ s, (System.start ⟨none, threeTrue, 0⟩ (emptyFiles false)).run tokenSerializer tokenCbor
          [.dumpAndSub [['2']], .apply dropTwo .allOk] = some s ∧
        s.store.persistent.eq oneTrue = true ∧
        s.subscribers = [.unbounded 0 [['2']] ⟨0, .bool true⟩] ∧
        (s.broadcast [['2']]).map ScopedBroadcast.unbounded = some [⟨0, false, []⟩] ∧
        (∃ w, (DbWatch.new ⟨0, .bool true⟩).peek = some (.ok (.bool true), w)) ∧
        valueBelow [['2']] s.store.persistent = .null ∧
        (Value.bool true).eq (valueBelow [['2']] s.store.persistent) = false := by
  exact ⟨rfl, _, rfl, rfl, rfl, rfl, ⟨_, rfl⟩, rfl, rfl⟩

end StartTech.PatchDb

import StartTech.Foundation.Run
import StartTech.JsonPatch.RoundTrip
import StartTech.PatchDb.Memory

/-!
# Changing the document by functions

A function of the document is run in one of two ways. `apply_function` runs it
under the lock of the store. `run_idempotent` takes a snapshot, runs the function
without the lock, and stores the result if the document still equals the
snapshot; if it does not, it starts over.

## Implementation notes

A call proceeds by turns, and between its turns any other call may have some. The
lock is held within a turn only. Each turn comes with the results of the file
calls it may make. A function may fail or panic, which is caught. The revision
that `run_idempotent` is handed is dropped there; it is not part of its result.
-/

namespace StartTech.PatchDb

open Foundation ImblValue JsonPatch

/-- A value whose objects have distinct keys. -/
abbrev Document := { v : Value // v.WellFormed }

/-- When two values are known to be one allocation. -/
structure Sharing where
  ptrEq : Value → Value → Bool
  sound : ∀ a b, ptrEq a b = true → a.eq b = true

theorem DirectRun.isDiffOperation {d d' : Json} {ops : Patch} (h : DirectRun d ops d') :
    ∀ op ∈ ops, isDiffOperation op = true := by
  induction h with
  | nil d => simp
  | cons direct _ _ ih =>
    intro o ho
    rcases List.mem_cons.mp ho with rfl | ho
    · cases o with
      | add path value => rfl
      | remove path => rfl
      | replace path value => rfl
      | _ => exact direct.elim
    · exact ih o ho

/-- The difference of two documents as a patch. -/
def diff (sharing : Sharing) (left right : Document) : DiffPatch where
  ops := (JsonPatch.diff sharing.ptrEq left.1 right.1).getD []
  diffs := by
    obtain ⟨ops, hdiff, -, hrun, -⟩ := diff_spec sharing.sound left.2 right.2
    rw [hdiff]
    exact DirectRun.isDiffOperation hrun
  wellFormed := by
    obtain ⟨ops, hdiff, hops, -⟩ := diff_spec sharing.sound left.2 right.2
    rw [hdiff]
    exact hops

theorem diff_ops {sharing : Sharing} {left right : Document} {ops : Patch}
    (h : JsonPatch.diff sharing.ptrEq left.1 right.1 = some ops) :
    (diff sharing left right).ops = ops :=
  congrArg (fun o => Option.getD o []) h

theorem diff_run (sharing : Sharing) (left right : Document) :
    DirectRun left.1.denote (diff sharing left right).ops right.1.denote := by
  obtain ⟨ops, hdiff, -, hrun, -⟩ := diff_spec sharing.sound left.2 right.2
  rwa [diff_ops hdiff]

theorem diff_undoable (sharing : Sharing) (left right : Document) :
    stepsUndoable left.1 (diff sharing left right).ops = true :=
  (diff_run sharing left right).stepsUndoable left.2 (diff sharing left right).wellFormed

/-- Documents differ by nothing exactly when they are equal. -/
theorem isEmpty_diff (sharing : Sharing) (left right : Document) :
    (diff sharing left right).isEmpty = right.1.eq left.1 := by
  rw [Bool.eq_iff_iff, Value.eq_iff right.2 left.2, DiffPatch.isEmpty, List.isEmpty_iff]
  constructor
  · intro hempty
    have hrun := (diff_run sharing left right).runJson
    rw [hempty] at hrun
    exact (Option.some.inj hrun).symm
  · intro heq
    obtain ⟨ops, hdiff, -, -, hnil⟩ := diff_spec sharing.sound left.2 right.2
    exact (diff_ops hdiff).trans (hnil heq.symm)

variable {B : Type} [Inhabited B] (cbor : Cbor B) (sharing : Sharing) {store : Store}
  {files : Files B} {io : ApplyIo} {r : Store × Files B} {patch : DiffPatch}

theorem apply_wellFormed {store' : Store} {files' : Files B}
    {res : Except StoreError (Option Revision)} (hwf : store.persistent.WellFormed)
    (hsteps : stepsUndoable store.persistent patch.ops = true)
    (h : apply cbor patch store files io = some (res, store', files')) :
    store'.persistent.WellFormed := by
  cases hunsent : staysUnsent store patch io with
  | true =>
    obtain ⟨s, f, happly, -, -, hs⟩ := apply_staysUnsent cbor hwf hsteps hunsent files
    rw [h, Option.some.injEq, Prod.mk.injEq, Prod.mk.injEq] at happly
    rwa [happly.2.1]
  | false =>
    obtain ⟨r, s, f, happly, hs⟩ := apply_remembers cbor hwf hsteps hunsent files
    rw [h, Option.some.injEq, Prod.mk.injEq, Prod.mk.injEq] at happly
    rw [happly.2.1]
    exact hs.wellFormed

omit [Inhabited B] in
theorem rollback_ok {undo : Undo} {before updated : Store} {e : StoreError} {res : Option Revision}
    (h : rollback undo before updated files e = some (.ok res, r)) : False := by
  obtain ⟨v, -, hv⟩ := Option.map_eq_some_iff.mp h
  cases hv

/-- Only an empty patch is accepted without a revision. -/
theorem apply_ok_none
    (h : apply cbor patch store files io = some (.ok none, r)) : patch.isEmpty = true := by
  unfold apply at h
  split at h
  · assumption
  · exfalso
    split at h
    · cases h
    · cases h
    · simp only [storeUpdate] at h
      split at h
      · cases h
      · split at h
        · split at h
          · cases h
          · split at h
            · cases h
            · exact rollback_ok h
        · split at h
          · cases h
          · exact rollback_ok h

/-- A store with its files, while it holds a document. -/
structure Live (B : Type) where
  store : Store
  files : Files B
  wellFormed : store.persistent.WellFormed

def Live.document (live : Live B) : Document := ⟨live.store.persistent, live.wellFormed⟩

/-- Store a new document as a difference to the present one. -/
def Live.applyDiff (live : Live B) (new : Document) (io : ApplyIo) :
    Option (Except StoreError (Option Revision) × Live B) :=
  (apply cbor (diff sharing live.document new) live.store live.files io).pmap
    (fun r h => (r.1, ⟨r.2.1, r.2.2, h⟩))
    (fun _ h => apply_wellFormed cbor live.wellFormed (diff_undoable sharing live.document new) h)

/-- A new document stays in memory although storing it is reported as failed. -/
def Live.staysUnsent (live : Live B) (new : Document) (io : ApplyIo) : Bool :=
  PatchDb.staysUnsent live.store (diff sharing live.document new) io

/-- What storing a new document does, by what it returns. -/
inductive Stores (live : Live B) (new : Document) :
    Except StoreError (Option Revision) → Live B → Prop
  | changed {r : Revision} {live' : Live B}
      (differs : new.1.eq live.store.persistent = false) (id : r.id = live.store.revision + 1)
      (document : live'.store.persistent.eq new.1 = true)
      (revision : live'.store.revision = live.store.revision + 1) :
      Stores live new (.ok (some r)) live'
  | same {live' : Live B} (equal : new.1.eq live.store.persistent = true)
      (document : live'.store.persistent.eq new.1 = true)
      (revision : live'.store.revision = live.store.revision) : Stores live new (.ok none) live'
  | refused {e : StoreError} {live' : Live B}
      (document : live'.store.persistent.eq live.store.persistent = true)
      (revision : live'.store.revision = live.store.revision) : Stores live new (.error e) live'

theorem Live.applyDiff_spec (live : Live B) (new : Document) (io : ApplyIo)
    (hsent : live.staysUnsent sharing new io = false) :
    ∃ res live', live.applyDiff cbor sharing new io = some (res, live') ∧
      Stores live new res live' := by
  have hempty : _ = new.1.eq live.store.persistent := isEmpty_diff sharing live.document new
  have hrun : runJson live.store.persistent.denote _ = _ :=
    (diff_run sharing live.document new).runJson
  obtain ⟨res, store, files, happly, hstore⟩ :=
    apply_remembers cbor live.wellFormed (diff_undoable sharing live.document new) hsent live.files
  have hwf := apply_wellFormed cbor live.wellFormed (diff_undoable sharing live.document new) happly
  refine ⟨res, ⟨store, files, hwf⟩, ?_, ?_⟩
  · rw [Live.applyDiff]
    simp [happly]
  · cases hstore with
    | advanced nonempty wellFormed document revision =>
      refine .changed (hempty.symm.trans nonempty) rfl ?_ revision
      rw [hrun, Option.some.injEq] at document
      exact (Value.eq_iff hwf new.2).mpr document.symm
    | unchanged silent wellFormed document revision =>
      cases res with
      | error e => exact .refused ((Value.eq_iff hwf live.wellFormed).mpr document) revision
      | ok sent =>
        cases sent with
        | some r => exact absurd rfl (silent r)
        | none =>
          have hequal := hempty.symm.trans (apply_ok_none cbor happly)
          refine .same hequal ?_ revision
          rw [Value.eq_iff new.2 live.wellFormed] at hequal
          exact (Value.eq_iff hwf new.2).mpr (document.trans hequal.symm)

theorem Live.applyDiff_unsent (live : Live B) (new : Document) (io : ApplyIo)
    (hunsent : live.staysUnsent sharing new io = true) :
    ∃ live', live.applyDiff cbor sharing new io = some (.error .io, live') ∧
      live'.store.persistent.eq new.1 = true ∧
      live'.store.revision = live.store.revision + 1 := by
  obtain ⟨store, files, happly, hrev, hrun, hwf⟩ := apply_staysUnsent cbor live.wellFormed
    (diff_undoable sharing live.document new) hunsent live.files
  refine ⟨⟨store, files, hwf⟩, ?_, ?_, hrev⟩
  · rw [Live.applyDiff]
    simp [happly]
  · have hdiff : runJson live.store.persistent.denote _ = _ :=
      (diff_run sharing live.document new).runJson
    rw [hdiff, Option.some.injEq] at hrun
    exact (Value.eq_iff hwf new.2).mpr hrun.symm

/-- How a function ends on a document. -/
inductive Computed (T E : Type)
  | ok (new : Document) (res : T)
  | error (e : E)
  | panicked (message : Text)

inductive CallError (E : Type)
  | function (e : E)
  | panic (message : Text)
  | store (e : StoreError)

structure MutateResult (T E : Type) where
  result : Except (CallError E) (Document × T)
  revision : Option Revision

inductive Call (T E : Type)
  | applyFunction (f : Document → Computed T E)
  | runIdempotent (f : Document → Computed T E)

def Call.function {T E : Type} : Call T E → Document → Computed T E
  | .applyFunction f | .runIdempotent f => f

/-- Where a call is. A call of `run_idempotent` is ready again when it has to start
over. -/
inductive Progress (T E : Type)
  | ready
  | snapshot (old : Document)
  | computed (old new : Document) (res : T)
  | returned (r : MutateResult T E)

/-- A store and the calls that are made on it. -/
structure World (ι B T E : Type) where
  live : Live B
  progress : ι → Progress T E

/-- A database on which no call has started. -/
def World.start {ι B T E : Type} (live : Live B) : World ι B T E := ⟨live, fun _ => .ready⟩

variable {ι T E : Type}

/-- Store what a function made of the document, and what the call returns then. -/
def Live.commit (live : Live B) (new : Document) (res : T) (io : ApplyIo) :
    Option (MutateResult T E × Live B) :=
  (live.applyDiff cbor sharing new io).map fun
    | (.ok revision, live) => (⟨.ok (new, res), revision⟩, live)
    | (.error e, live) => (⟨.error (.store e), none⟩, live)

def Live.applyFunction (live : Live B) (f : Document → Computed T E) (io : ApplyIo) :
    Option (MutateResult T E × Live B) :=
  match f live.document with
  | .panicked message => some (⟨.error (.panic message), none⟩, live)
  | .error e => some (⟨.error (.function e), none⟩, live)
  | .ok new res => live.commit cbor sharing new res io

/-- Run the function of `run_idempotent` on its snapshot. -/
def compute (f : Document → Computed T E) (old : Document) : Progress T E :=
  match f old with
  | .panicked message => .returned ⟨.error (.panic message), none⟩
  | .error e => .returned ⟨.error (.function e), none⟩
  | .ok new res => .computed old new res

variable [DecidableEq ι]

def World.set (w : World ι B T E) (i : ι) (p : Progress T E) : World ι B T E :=
  { w with progress := Function.update w.progress i p }

omit [Inhabited B] in
theorem World.set_self (w : World ι B T E) (i : ι) (p : Progress T E) :
    (w.set i p).progress i = p :=
  Function.update_self ..

omit [Inhabited B] in
theorem World.set_of_ne (w : World ι B T E) {i j : ι} (h : j ≠ i) (p : Progress T E) :
    (w.set i p).progress j = w.progress j :=
  Function.update_of_ne h ..

variable (calls : ι → Call T E)

/-- One turn of a call, with the results of its file calls; `none` when it panics. -/
def World.turn (w : World ι B T E) (t : ι × ApplyIo) : Option (World ι B T E) :=
  match calls t.1, w.progress t.1 with
  | .applyFunction f, .ready =>
    (w.live.applyFunction cbor sharing f t.2).map fun r =>
      { w with live := r.2 }.set t.1 (.returned r.1)
  | .runIdempotent _, .ready => some (w.set t.1 (.snapshot w.live.document))
  | .runIdempotent f, .snapshot old => some (w.set t.1 (compute f old))
  | .runIdempotent _, .computed old new res =>
    if old.1.eq w.live.store.persistent then
      (w.live.commit cbor sharing new res t.2).map fun r =>
        { w with live := r.2 }.set t.1 (.returned { r.1 with revision := none })
    else some (w.set t.1 .ready)
  | _, _ => some w

/-- The document that a turn stores, if it stores one. -/
def World.storing (w : World ι B T E) (i : ι) : Option Document :=
  match calls i, w.progress i with
  | .applyFunction f, .ready =>
    match f w.live.document with
    | .ok new _ => some new
    | _ => none
  | .runIdempotent _, .computed old new _ =>
    if old.1.eq w.live.store.persistent then some new else none
  | _, _ => none

/-- A turn does not leave a document in memory that it reports as not stored. -/
def World.turnSent (w : World ι B T E) (t : ι × ApplyIo) : Bool :=
  match w.storing calls t.1 with
  | some new => !w.live.staysUnsent sharing new t.2
  | none => true

def World.run (w : World ι B T E) (turns : List (ι × ApplyIo)) : Option (World ι B T E) :=
  runFrom (World.turn cbor sharing calls) w turns

def World.runSent (w : World ι B T E) (turns : List (ι × ApplyIo)) : Bool :=
  meetsFrom (World.turn cbor sharing calls) (World.turnSent sharing calls) w turns

end StartTech.PatchDb

import StartTech.PatchDb.Mutation
import StartTech.PatchDb.Subscription

/-!
# Changes by functions are serializable

However the turns of the calls are interleaved, what the completed calls returned
and left behind is what their functions make of the document one after another,
in the order in which they were stored. A call that is stored has run its function
on a snapshot that equals the document at that time, whatever happened between.
-/

namespace StartTech.PatchDb

open Foundation ImblValue

variable {ι B T E : Type}

/-- A run of a call's function: on what it observed, with what it made of that. -/
structure Ran (ι T : Type) where
  id : ι
  observed : Document
  new : Document
  res : T

/-- The function changed the value. -/
def Ran.changes (r : Ran ι T) : Bool := !r.new.1.eq r.observed.1

/-- Functions are run one after another, each once and on an equal of what the one
before it left. -/
def Serial (calls : ι → Call T E) : Document → List (Ran ι T) → Document → Prop
  | p, [], q => q.1.eq p.1 = true
  | p, r :: rest, q =>
    r.observed.1.eq p.1 = true ∧ (calls r.id).function r.observed = .ok r.new r.res ∧
      Serial calls r.new rest q

/-- The revision that a completed call reports, where `n` is the one it left. -/
def Call.reports (call : Call T E) (r : Ran ι T) (n : Nat) : Option Nat :=
  match call with
  | .applyFunction _ => if r.changes then some n else none
  | .runIdempotent _ => none

/-- The runs are those of the completed calls, and serial execution of them accounts for
what the calls returned and for the document and the revision. -/
structure Serialized (calls : ι → Call T E) (start : Live B) (w : World ι B T E)
    (ran : List (Ran ι T)) : Prop where
  once : (ran.map Ran.id).Nodup
  completed : ∀ i value revision, w.progress i = .returned ⟨.ok value, revision⟩ →
    i ∈ ran.map Ran.id
  returned : ∀ k r, ran[k]? = some r →
    ∃ revision, w.progress r.id = .returned ⟨.ok (r.new, r.res), revision⟩ ∧
      revision.map Revision.id = (calls r.id).reports r
        (start.store.revision + (ran.take (k + 1)).countP Ran.changes)
  serial : Serial calls start.document ran w.live.document
  revision : w.live.store.revision = start.store.revision + ran.countP Ran.changes

namespace Document

variable {a b c : Document}

theorem eq_symm (h : a.1.eq b.1 = true) : b.1.eq a.1 = true := by
  rw [Value.eq_iff a.2 b.2] at h
  exact (Value.eq_iff b.2 a.2).mpr h.symm

theorem eq_trans (h : a.1.eq b.1 = true) (h' : b.1.eq c.1 = true) : a.1.eq c.1 = true := by
  rw [Value.eq_iff a.2 b.2] at h
  rw [Value.eq_iff b.2 c.2] at h'
  exact (Value.eq_iff a.2 c.2).mpr (h.trans h')

theorem eq_congr (h : b.1.eq c.1 = true) : a.1.eq b.1 = a.1.eq c.1 := by
  rw [Bool.eq_iff_iff]
  exact ⟨fun hab => eq_trans hab h, fun hac => eq_trans hac (eq_symm h)⟩

end Document

variable {calls : ι → Call T E}

variable {q q' old : Document} {r : Ran ι T} {p : Progress T E} {live : Live B}
  {f : Document → Computed T E} {res : T} {io : ApplyIo} {ran : List (Ran ι T)}

theorem Serial.settle {p : Document} (h : Serial calls p ran q)
    (hq : q'.1.eq q.1 = true) : Serial calls p ran q' := by
  induction ran generalizing p with
  | nil => exact Document.eq_trans hq h
  | cons r rest ih => exact ⟨h.1, h.2.1, ih h.2.2⟩

theorem Serial.push {p : Document} (h : Serial calls p ran q)
    (hobserved : r.observed.1.eq q.1 = true)
    (hrun : (calls r.id).function r.observed = .ok r.new r.res) (hq : q'.1.eq r.new.1 = true) :
    Serial calls p (ran ++ [r]) q' := by
  induction ran generalizing p with
  | nil => exact ⟨Document.eq_trans hobserved h, hrun, hq⟩
  | cons r' rest ih => exact ⟨h.1, h.2.1, ih h.2.2⟩

/-- What holds of the calls between their turns. -/
structure Accounted (calls : ι → Call T E) (start : Live B) (w : World ι B T E) : Prop where
  serialized : ∃ ran, Serialized calls start w ran
  computed : ∀ i old new res, w.progress i = .computed old new res →
    (calls i).function old = .ok new res

/-- A call that has not completed successfully and does not do so now. -/
def Progress.unfinished : Progress T E → Bool
  | .returned ⟨.ok _, _⟩ => false
  | _ => true

variable {start : Live B} {w : World ι B T E} {i : ι}

theorem Serialized.unfinished_ne (h : Serialized calls start w ran)
    (hi : (w.progress i).unfinished = true) {k : Nat} (hk : ran[k]? = some r) : r.id ≠ i := by
  rintro rfl
  obtain ⟨revision, hr, -⟩ := h.returned k r hk
  rw [hr] at hi
  cases hi

variable [DecidableEq ι] {new : Document}

/-- A turn that completes no call and keeps the document. -/
theorem Serialized.wait (h : Serialized calls start w ran) (hi : (w.progress i).unfinished = true)
    (hp : p.unfinished = true) (hdoc : live.store.persistent.eq w.live.store.persistent = true)
    (hrev : live.store.revision = w.live.store.revision) :
    Serialized calls start ({ w with live }.set i p) ran where
  once := h.once
  completed j value revision hj := by
    by_cases hij : j = i
    · subst hij
      rw [World.set_self] at hj
      rw [hj] at hp
      cases hp
    · rw [World.set_of_ne _ hij] at hj
      exact h.completed j value revision hj
  returned k r hk := by
    rw [World.set_of_ne _ (h.unfinished_ne hi hk)]
    exact h.returned k r hk
  serial := h.serial.settle hdoc
  revision := hrev.trans h.revision

/-- A turn that completes a call. -/
theorem Serialized.complete (h : Serialized calls start w ran)
    (hi : (w.progress i).unfinished = true) (hid : r.id = i)
    (hobserved : r.observed.1.eq w.live.store.persistent = true)
    (hrun : (calls i).function r.observed = .ok r.new r.res)
    (hdoc : live.store.persistent.eq r.new.1 = true)
    (hrev : live.store.revision = w.live.store.revision + if r.changes then 1 else 0)
    {revision : Option Revision}
    (hreports : revision.map Revision.id = (calls i).reports r live.store.revision) :
    Serialized calls start ({ w with live }.set i (.returned ⟨.ok (r.new, r.res), revision⟩))
      (ran ++ [r]) := by
  have hcount : live.store.revision = start.store.revision + (ran ++ [r]).countP Ran.changes := by
    rw [hrev, h.revision, List.countP_append, List.countP_singleton, Nat.add_assoc]
  refine ⟨?_, ?_, ?_, ?_, hcount⟩
  · rw [List.map_append, List.map_singleton, List.nodup_append]
    refine ⟨h.once, List.nodup_singleton _, ?_⟩
    intro j hj j' hj' heq
    rw [List.mem_singleton] at hj'
    obtain ⟨r', hr', rfl⟩ := List.mem_map.mp hj
    obtain ⟨k, hk⟩ := List.mem_iff_getElem?.mp hr'
    exact h.unfinished_ne hi hk (heq.trans (hj'.trans hid))
  · intro j value revision' hj
    rw [List.map_append, List.mem_append]
    by_cases hij : j = i
    · exact .inr (by simp [hij, hid])
    · rw [World.set_of_ne _ hij] at hj
      exact .inl (h.completed j value revision' hj)
  · intro k r' hk
    rcases Nat.lt_or_ge k ran.length with hlt | hge
    · rw [List.getElem?_append_left hlt] at hk
      rw [World.set_of_ne _ (h.unfinished_ne hi hk), List.take_append_of_le_length hlt]
      exact h.returned k r' hk
    · obtain ⟨hlast, rfl⟩ : k = ran.length ∧ r = r' := by
        rw [List.getElem?_append_right hge] at hk
        obtain ⟨hk0, hr⟩ := List.getElem?_eq_some_iff.mp hk
        rw [List.length_singleton] at hk0
        exact ⟨by omega, by simpa using hr⟩
      refine ⟨revision, by rw [hid, World.set_self], ?_⟩
      rw [List.take_of_length_le (by simp [hlast]), ← hcount, hid]
      exact hreports
  · exact h.serial.push hobserved (by rw [hid]; exact hrun) hdoc

theorem Accounted.set (h : Accounted calls start w)
    (hserial : ∃ ran, Serialized calls start ({ w with live }.set i p) ran)
    (hp : ∀ old new res, p = .computed old new res → (calls i).function old = .ok new res) :
    Accounted calls start ({ w with live }.set i p) where
  serialized := hserial
  computed j old new res hj := by
    by_cases hij : j = i
    · subst hij
      rw [World.set_self] at hj
      exact hp old new res hj
    · rw [World.set_of_ne _ hij] at hj
      exact h.computed j old new res hj

theorem Accounted.wait (h : Accounted calls start w) (hi : (w.progress i).unfinished = true)
    (hp : p.unfinished = true)
    (hcomputed : ∀ old new res, p = .computed old new res →
      (calls i).function old = .ok new res) : Accounted calls start (w.set i p) := by
  obtain ⟨ran, hran⟩ := h.serialized
  have hself : w.live.store.persistent.eq w.live.store.persistent = true :=
    (Value.eq_iff w.live.wellFormed w.live.wellFormed).mpr rfl
  exact h.set ⟨ran, hran.wait hi hp hself rfl⟩ hcomputed

variable [Inhabited B] (cbor : Cbor B) {sharing : Sharing}

section

variable (h : Accounted calls start w)
include h

/-- Storing what a function made of an equal of the document completes the call or
keeps the document. -/
theorem Accounted.commit (hi : (w.progress i).unfinished = true) (observed : Document)
    (hobserved : observed.1.eq w.live.store.persistent = true)
    (hrun : (calls i).function observed = .ok new res)
    (hsent : w.live.staysUnsent sharing new io = false) (keep : Option Revision → Option Revision)
    (hkeep : ∀ r : Ran ι T, ∀ rev : Option Revision, ∀ n,
      (rev.map Revision.id = if r.changes then some n else none) →
      (keep rev).map Revision.id = (calls i).reports r n) :
    ∃ r live, w.live.commit cbor sharing new res io = some (r, live) ∧ Accounted calls start
        ({ w with live }.set i (.returned { r with revision := keep r.revision })) := by
  obtain ⟨ran, hran⟩ := h.serialized
  obtain ⟨sent, live, happly, hstores⟩ := w.live.applyDiff_spec cbor sharing new io hsent
  have hchanges : Ran.changes (⟨i, observed, new, res⟩ : Ran ι T) =
      !new.1.eq w.live.store.persistent :=
    congrArg not (Document.eq_congr (c := w.live.document) hobserved)
  cases hstores with
  | @changed rev _ differs id document revision =>
    refine ⟨⟨.ok (new, res), some rev⟩, live, by rw [Live.commit, happly]; rfl, ?_⟩
    refine h.set ⟨_, hran.complete hi (r := ⟨i, observed, new, res⟩) rfl hobserved hrun document
      ?_ ?_⟩ (by simp)
    · simp [hchanges, differs, revision]
    · apply hkeep
      simp [hchanges, differs, revision, id]
  | same equal document revision =>
    refine ⟨⟨.ok (new, res), none⟩, live, by rw [Live.commit, happly]; rfl, ?_⟩
    refine h.set ⟨_, hran.complete hi (r := ⟨i, observed, new, res⟩) rfl hobserved hrun document
      ?_ ?_⟩ (by simp)
    · simp [hchanges, equal, revision]
    · apply hkeep
      simp [hchanges, equal]
  | @refused e _ document revision =>
    refine ⟨⟨.error (.store e), none⟩, live, by rw [Live.commit, happly]; rfl, ?_⟩
    exact h.set ⟨ran, hran.wait hi rfl document revision⟩ (by simp)

/-- A turn under the lock of `apply_function`. -/
theorem Accounted.applyFunction
    (hcall : calls i = .applyFunction f) (hi : w.progress i = .ready) (io : ApplyIo)
    (hsent : ∀ new res, f w.live.document = .ok new res →
      w.live.staysUnsent sharing new io = false) :
    ∃ r live, w.live.applyFunction cbor sharing f io = some (r, live) ∧
      Accounted calls start ({ w with live }.set i (.returned r)) := by
  have hunfinished : (w.progress i).unfinished = true := by rw [hi]; rfl
  unfold Live.applyFunction
  split
  · exact ⟨_, _, rfl, h.wait hunfinished rfl (by simp)⟩
  · exact ⟨_, _, rfl, h.wait hunfinished rfl (by simp)⟩
  · rename_i new res hf
    have hself : w.live.document.1.eq w.live.store.persistent = true :=
      (Value.eq_iff w.live.wellFormed w.live.wellFormed).mpr rfl
    refine h.commit cbor hunfinished w.live.document hself (by rw [hcall]; exact hf)
      (hsent new res hf) id ?_
    intro r rev n hrev
    rw [id, hrev, hcall]
    rfl

/-- The turn of `run_idempotent` that compares and stores. -/
theorem Accounted.runIdempotent (hcall : calls i = .runIdempotent f)
    (hi : w.progress i = .computed old new res)
    (heq : old.1.eq w.live.store.persistent = true)
    (hsent : w.live.staysUnsent sharing new io = false) :
    ∃ r live, w.live.commit cbor sharing new res io = some (r, live) ∧ Accounted calls start
        ({ w with live }.set i (.returned { r with revision := none })) := by
  have hunfinished : (w.progress i).unfinished = true := by rw [hi]; rfl
  refine h.commit cbor hunfinished old heq (h.computed i old new res hi) hsent (fun _ => none) ?_
  intro r rev n _
  rw [hcall]
  rfl

theorem Accounted.turn {t : ι × ApplyIo} (hsent : w.turnSent sharing calls t = true) :
    ∃ w', w.turn cbor sharing calls t = some w' ∧ Accounted calls start w' := by
  obtain ⟨i, io⟩ := t
  unfold World.turn
  simp only [World.turnSent, World.storing] at hsent
  split
  · rename_i f hcall hi
    simp only [hcall, hi] at hsent
    obtain ⟨r, live, hrun, haccounted⟩ := h.applyFunction cbor hcall hi io fun new res hf => by
      simpa [hf] using hsent
    exact ⟨_, by rw [hrun]; rfl, haccounted⟩
  · rename_i f hcall hi
    exact ⟨_, rfl, h.wait (by rw [hi]; rfl) rfl (by simp)⟩
  · rename_i f old hcall hi
    refine ⟨_, rfl, h.wait (by rw [hi]; rfl) (by unfold compute; split <;> rfl) ?_⟩
    intro old' new res hcomputed
    rw [hcall]
    unfold compute at hcomputed
    split at hcomputed <;> cases hcomputed
    assumption
  · rename_i f old new res hcall hi
    simp only [hcall, hi] at hsent
    -- the document may have changed and changed back: only its value is compared
    split
    · rename_i heq
      rw [if_pos heq] at hsent
      obtain ⟨r, live, hrun, haccounted⟩ :=
        h.runIdempotent cbor hcall hi heq (by simpa using hsent)
      exact ⟨_, by rw [hrun]; rfl, haccounted⟩
    · exact ⟨_, rfl, h.wait (by rw [hi]; rfl) rfl (by simp)⟩
  · exact ⟨w, rfl, h⟩

end

/-- A turn that is not sent fails, and leaves behind what it failed to store. -/
theorem turn_unsent (cbor : Cbor B) (hstoring : w.storing calls i = some new)
    (hunsent : w.live.staysUnsent sharing new io = true) :
    ∃ w', w.turn cbor sharing calls (i, io) = some w' ∧
      w'.progress i = .returned ⟨.error (.store .io), none⟩ ∧
      w'.live.store.persistent.eq new.1 = true ∧
      w'.live.store.revision = w.live.store.revision + 1 := by
  suffices hturn : ∃ res : T, ∀ live', w.live.commit (E := E) cbor sharing new res io =
      some (⟨.error (.store .io), none⟩, live') → w.turn cbor sharing calls (i, io) =
        some ({ w with live := live' }.set i (.returned ⟨.error (.store .io), none⟩)) by
    obtain ⟨res, hturn⟩ := hturn
    obtain ⟨live', happly, hdoc, hrev⟩ := w.live.applyDiff_unsent cbor sharing new io hunsent
    exact ⟨_, hturn live' (by rw [Live.commit, happly]; rfl), World.set_self .., hdoc, hrev⟩
  unfold World.storing at hstoring
  split at hstoring
  · rename_i f hcall hi
    split at hstoring
    · rename_i new' res hf
      cases hstoring
      refine ⟨res, fun live' hcommit => ?_⟩
      simp [World.turn, hcall, hi, Live.applyFunction, hf, hcommit]
    · cases hstoring
  · rename_i f old new' res hcall hi
    split at hstoring
    · rename_i heq
      cases hstoring
      refine ⟨res, fun live' hcommit => ?_⟩
      simp [World.turn, hcall, hi, if_pos heq, hcommit, Option.map_some]
    · cases hstoring
  · cases hstoring

/-- In every interleaving of calls none of which leaves behind a document that it reports
as not stored, the completed calls are serializable. A turn that does leave one behind
changes the document and the revision and completes no call. -/
theorem calls_serializable (cbor : Cbor B) (sharing : Sharing) (calls : ι → Call T E)
    (live : Live B) (turns : List (ι × ApplyIo))
    (hsent : (World.start live).runSent cbor sharing calls turns = true) :
    ∃ w, (World.start live).run cbor sharing calls turns = some w ∧
      (∃ ran, Serialized calls live w ran) ∧
      ∀ i io new, w.storing calls i = some new → w.live.staysUnsent sharing new io = true →
        ∃ w', w.turn cbor sharing calls (i, io) = some w' ∧
          w'.progress i = .returned ⟨.error (.store .io), none⟩ ∧
          w'.live.store.persistent.eq new.1 = true ∧
          w'.live.store.revision = w.live.store.revision + 1 := by
  have hstart : Accounted calls live (.start live) :=
    ⟨⟨[], by simp, by simp [World.start], by simp,
      (Value.eq_iff live.wellFormed live.wellFormed).mpr rfl, rfl⟩, fun _ _ _ _ h => by cases h⟩
  obtain ⟨w, hrun, haccounted⟩ :=
    runFrom_invariant (fun h hsent => h.turn cbor hsent) hstart hsent
  exact ⟨w, hrun, haccounted.serialized, fun i io new => turn_unsent cbor⟩

/-- Two calls that negate a truth value, and one that sets it. -/
def negate (d : Document) : Computed Bool Unit :=
  match d.1 with
  | .bool b => .ok ⟨.bool (!b), .bool _⟩ b
  | _ => .error ()

def negations : Bool → Call Bool Unit
  | false => .runIdempotent negate
  | true => .applyFunction negate

def assignment (_ : Unit) : Call Unit Unit :=
  .applyFunction fun _ => .ok ⟨.bool true, .bool _⟩ ()

def noSharing : Sharing := ⟨fun _ _ => false, by simp⟩

/-- One negation is stored between the snapshot and the comparison of the other, which
starts over. -/
theorem calls_serializable_negations :
    ∃ w ran, (World.start ⟨⟨none, .bool false, 0⟩, emptyFiles false, .bool _⟩).run tokenCbor
        noSharing negations [(false, .allOk), (true, .allOk), (false, .allOk), (false, .allOk),
          (false, .allOk), (false, .allOk), (false, .allOk)] = some w ∧
      Serialized negations ⟨⟨none, .bool false, 0⟩, emptyFiles false, .bool _⟩ w ran ∧
      w.live.store.persistent = .bool false ∧ w.live.store.revision = 2 := by
  obtain ⟨w, hrun, ⟨ran, hran⟩, -⟩ :=
    calls_serializable tokenCbor noSharing negations
      ⟨⟨none, .bool false, 0⟩, emptyFiles false, .bool _⟩ [(false, .allOk), (true, .allOk),
        (false, .allOk), (false, .allOk), (false, .allOk), (false, .allOk), (false, .allOk)] rfl
  cases hrun
  exact ⟨_, ran, rfl, hran, rfl, rfl⟩

/-- A call on a store that is due for a compaction, which fails after its commit: the call
returns an error, and the document and the revision have changed. -/
theorem calls_not_serializable :
    ∃ w, (World.start ⟨fullStore, emptyFiles false, .null⟩).run tokenCbor noSharing assignment
        [((), .failsSeek)] = some w ∧
      w.progress () = .returned ⟨.error (.store .io), none⟩ ∧
      w.live.store.persistent = .bool true ∧ w.live.store.revision = 4096 ∧
      ¬ ∃ ran, Serialized assignment ⟨fullStore, emptyFiles false, .null⟩ w ran := by
  refine ⟨_, rfl, rfl, rfl, rfl, ?_⟩
  rintro ⟨ran, hran⟩
  cases ran with
  | nil =>
    have hsame : (Value.bool true).eq .null = true := hran.serial
    cases hsame
  | cons r rest =>
    obtain ⟨revision, hreturned, -⟩ := hran.returned 0 r rfl
    cases hreturned

end StartTech.PatchDb

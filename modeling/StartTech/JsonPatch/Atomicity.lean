import StartTech.JsonPatch.Semantics

/-!
# Atomicity of patches

When every operation in front of the one that fails can be taken back where it was
applied, a failing patch leaves the document as it was and no undo operation panics.
-/

namespace StartTech.JsonPatch

open Foundation ImblValue

/-- Every operation that is reached can be taken back. -/
def stepsUndoable (doc : Value) : Patch → Bool
  | [] => true
  | op :: rest =>
    undoable doc op &&
      match applyOperation doc op with
      | (.ok _, doc) => stepsUndoable doc rest
      | (.error _, _) => true

/-- The patch does not panic, and if it fails the document is the one passed in. -/
def Atomic (doc : Value) (p : Patch) : Prop :=
  ∃ res doc', patch doc p = some (res, doc') ∧ ∀ e, res = .error e → doc'.eq doc = true

def Patch.WellFormed (p : Patch) : Prop := ∀ op ∈ p, op.WellFormed

/-- The effect of a whole patch on a document. -/
noncomputable def runJson (d : Json) (p : Patch) : Option Json := p.foldlM applyJson d

/-- Applying the undo operations to the second document gives the first. -/
def RestoresAll (us : Undo) (d d' : Json) : Prop :=
  ∀ doc : Value, doc.WellFormed → doc.denote = d' →
    ∃ doc₀, Undo.apply us doc = some doc₀ ∧ doc₀.WellFormed ∧ doc₀.denote = d

theorem RestoresAll.nil (d : Json) : RestoresAll [] d d := by
  intro doc hdoc heq
  exact ⟨doc, rfl, hdoc, heq⟩

variable {u : UndoOperation} {us undo : Undo} {d₀ d d' v : Json} {doc doc' : Value} {p : Patch}
  {path source : List Text} {op : PatchOperation}

theorem RestoresAll.cons (hu : Restores u d d') (hus : RestoresAll us d₀ d) :
    RestoresAll (u :: us) d₀ d' := by
  intro doc hdoc heq
  obtain ⟨doc₁, hrun, hwf, hd⟩ := hu doc hdoc heq
  obtain ⟨doc₀, hrun', hwf', hd'⟩ := hus doc₁ hwf hd
  exact ⟨doc₀, by simp [Undo.apply, hrun, hrun'], hwf', hd'⟩

theorem Patch.WellFormed.tail (h : Patch.WellFormed (op :: p)) : p.WellFormed :=
  fun o ho => h o (List.mem_cons_of_mem op ho)

section

variable (hdoc : doc.WellFormed)
include hdoc

variable (hp : p.WellFormed)
include hp

/-- The loop over a patch whose reached operations can all be taken back: it runs
the patch, or it restores the document the loop started from. -/
theorem applyPatches_spec
    (hsteps : stepsUndoable doc p = true) (hundo : RestoresAll undo d₀ doc.denote) :
    (∃ us doc', applyPatches p undo doc = some (.ok us, doc') ∧ doc'.WellFormed ∧
      runJson doc.denote p = some doc'.denote ∧ RestoresAll us d₀ doc'.denote) ∨
    ∃ e doc', applyPatches p undo doc = some (.error e, doc') ∧ doc'.WellFormed ∧
      runJson doc.denote p = none ∧ doc'.denote = d₀ := by
  induction p generalizing doc undo with
  | nil => exact .inl ⟨undo, doc, rfl, hdoc, rfl, hundo⟩
  | cons op rest ih =>
    simp only [stepsUndoable, Bool.and_eq_true] at hsteps
    cases applyOperation_outcome hdoc (hp op (by simp)) with
    | ok u doc' run effect wellFormed restores =>
      simp only [run] at hsteps
      have hrest := ih wellFormed hp.tail hsteps.2
        (.cons (restores hsteps.1) hundo)
      simpa [applyPatches, run, runJson, effect] using hrest
    | error e doc' run effect wellFormed unchanged =>
      obtain rfl := unchanged hsteps.1
      obtain ⟨doc₀, hback, hwf, hd⟩ := hundo doc' wellFormed rfl
      refine .inr ⟨e, doc₀, ?_, hwf, ?_, hd⟩
      · simp [applyPatches, run, hback]
      · simp [runJson, List.foldlM_cons, effect]

/-- A patch that has an effect on the document runs through. -/
theorem applyPatches_ok (h : runJson doc.denote p = some d') (undo : Undo) :
    ∃ us doc', applyPatches p undo doc = some (.ok us, doc') ∧ doc'.WellFormed ∧
      doc'.denote = d' := by
  induction p generalizing doc undo with
  | nil => exact ⟨undo, doc, rfl, hdoc, Option.some.inj h⟩
  | cons op rest ih =>
    rw [runJson, List.foldlM_cons] at h
    cases applyOperation_outcome hdoc (hp op (by simp)) with
    | ok u doc' run effect wellFormed restores =>
      rw [effect] at h
      rw [applyPatches, run]
      exact ih wellFormed hp.tail h (u :: undo)
    | error e doc' run effect wellFormed unchanged =>
      rw [effect] at h
      cases h

/-- A patch that is accepted has its effect. -/
theorem runJson_of_applyPatches (h : applyPatches p undo doc = some (.ok us, doc')) :
    runJson doc.denote p = some doc'.denote := by
  induction p generalizing doc undo with
  | nil =>
    cases h
    rfl
  | cons op rest ih =>
    cases applyOperation_outcome hdoc (hp op (by simp)) with
    | ok u doc₁ run effect wellFormed restores =>
      rw [applyPatches, run] at h
      rw [runJson, List.foldlM_cons, effect]
      exact ih wellFormed hp.tail h
    | error e doc₁ run effect wellFormed unchanged =>
      rw [applyPatches, run] at h
      obtain ⟨_, -, hres⟩ := Option.map_eq_some_iff.mp h
      cases hres

/-- A patch whose reached operations can be taken back is atomic. -/
theorem atomic_of_stepsUndoable (hsteps : stepsUndoable doc p = true) : Atomic doc p := by
  rcases applyPatches_spec hdoc hp hsteps (.nil doc.denote) with
    ⟨us, doc', hrun, -⟩ | ⟨e, doc', hrun, hwf, -, hd⟩
  · exact ⟨.ok us, doc', hrun, by simp⟩
  · exact ⟨.error e, doc', hrun, fun _ _ => (Value.eq_iff hwf hdoc).mpr hd⟩

end

/-- Every operation of a patch succeeds. -/
def accepted (doc : Value) : Patch → Bool
  | [] => true
  | op :: rest =>
    match applyOperation doc op with
    | (.ok _, doc) => accepted doc rest
    | (.error _, _) => false

/-- The operation that fails leaves the document alone, and those in front of it can be taken back
where they were applied. If none fails, nothing is asked for. -/
def rollsBack (doc : Value) : Patch → Bool
  | [] => true
  | op :: rest =>
    match applyOperation doc op with
    | (.ok _, doc') => rollsBack doc' rest && (undoable doc op || accepted doc' rest)
    | (.error _, _) => undoable doc op

theorem accepted_iff (doc : Value) (p : Patch) (undo : Undo) :
    accepted doc p = true ↔ ∃ us doc', applyPatches p undo doc = some (.ok us, doc') := by
  induction p generalizing doc undo with
  | nil => exact iff_of_true rfl ⟨_, _, rfl⟩
  | cons op rest ih =>
    rw [accepted, applyPatches]
    rcases applyOperation doc op with ⟨e | u, doc₁⟩
    · refine iff_of_false (by simp) ?_
      rintro ⟨us, doc', h⟩
      obtain ⟨_, -, hres⟩ := Option.map_eq_some_iff.mp h
      cases hres
    · exact ih doc₁ (u :: undo)

theorem Undo.apply_append (us undo : Undo) (doc : Value) :
    Undo.apply (us ++ undo) doc = (Undo.apply us doc).bind (Undo.apply undo) := by
  induction us generalizing doc with
  | nil => rfl
  | cons u us ih =>
    rw [List.cons_append, Undo.apply, Undo.apply]
    cases u.apply doc with
    | none => rfl
    | some doc => exact ih doc

/-- What was done before a patch is taken back after the operations of the patch. -/
theorem applyPatches_append {e : PatchError} (h : applyPatches p us doc = some (.error e, doc'))
    (undo : Undo) : applyPatches p (us ++ undo) doc =
      (Undo.apply undo doc').map fun doc => (.error e, doc) := by
  induction p generalizing doc us with
  | nil => cases h
  | cons op rest ih =>
    rw [applyPatches] at h ⊢
    split at h
    · exact ih h
    · obtain ⟨_, happly, hres⟩ := Option.map_eq_some_iff.mp h
      cases hres
      simp [Undo.apply_append, happly]

theorem stepsUndoable_of_rollsBack (hdoc : doc.WellFormed) (hp : p.WellFormed)
    (h : rollsBack doc p = true) (hfails : accepted doc p = false) :
    stepsUndoable doc p = true := by
  induction p generalizing doc with
  | nil => rfl
  | cons op rest ih =>
    cases applyOperation_outcome hdoc (hp op (by simp)) with
    | ok u doc' run effect wellFormed restores =>
      simp only [rollsBack, accepted, run, Bool.and_eq_true, Bool.or_eq_true] at h hfails
      have hundo := h.2.resolve_right (by simp [hfails])
      simp only [stepsUndoable, run, hundo, Bool.true_and]
      exact ih wellFormed hp.tail h.1 hfails
    | error e doc' run effect wellFormed unchanged =>
      simp only [rollsBack, run] at h
      simp only [stepsUndoable, run, h, Bool.and_self]

theorem atomic_of_rollsBack (hdoc : doc.WellFormed) (hp : p.WellFormed)
    (h : rollsBack doc p = true) : Atomic doc p := by
  cases haccepted : accepted doc p with
  | true =>
    obtain ⟨us, doc', hrun⟩ := (accepted_iff doc p []).mp haccepted
    exact ⟨.ok us, doc', hrun, by simp⟩
  | false => exact atomic_of_stepsUndoable hdoc hp (stepsUndoable_of_rollsBack hdoc hp h haccepted)

/-- Where only the first operation may be at fault, it is at fault if it cannot be taken back. -/
theorem rollsBack_of_atomic (hdoc : doc.WellFormed) (hp : Patch.WellFormed (op :: p))
    (hrest : ∀ u doc', applyOperation doc op = (.ok u, doc') → rollsBack doc' p = true)
    (h : Atomic doc (op :: p)) : rollsBack doc (op :: p) = true := by
  obtain ⟨res, doc₁, hpatch, heq⟩ := h
  cases applyOperation_outcome hdoc (hp op (by simp)) with
  | error e doc' run effect wellFormed unchanged changes =>
    simp only [rollsBack, run]
    by_contra hundo
    simp only [patch, applyPatches, run, Undo.apply, Option.map_some, Option.some.injEq,
      Prod.mk.injEq] at hpatch
    obtain ⟨rfl, rfl⟩ := hpatch
    exact changes (by simpa using hundo) ((Value.eq_iff wellFormed hdoc).mp (heq _ rfl))
  | ok u doc' run effect wellFormed restores loses =>
    have hback := hrest u doc' run
    simp only [rollsBack, run, hback, Bool.true_and]
    by_contra hfault
    simp only [Bool.or_eq_true, not_or, Bool.not_eq_true] at hfault
    obtain ⟨hundo, hfails⟩ := hfault
    have hsteps := stepsUndoable_of_rollsBack wellFormed hp.tail hback hfails
    rcases applyPatches_spec wellFormed hp.tail hsteps (.nil _) with
      ⟨us, doc₂, hok, -⟩ | ⟨e, doc₂, herr, hdoc₂, -, hd⟩
    · rw [(accepted_iff doc' p []).mpr ⟨us, doc₂, hok⟩] at hfails
      cases hfails
    · have happend := applyPatches_append herr [u]
      rw [patch, applyPatches, run] at hpatch
      obtain ⟨doc₀, happly, hres⟩ := Option.map_eq_some_iff.mp (happend.symm.trans hpatch)
      cases hres
      obtain ⟨_, hu, hdone⟩ := Option.bind_eq_some_iff.mp happly
      cases hdone
      obtain ⟨hwf, hne⟩ := loses hundo doc₂ hdoc₂ hd _ hu
      exact hne ((Value.eq_iff hwf hdoc).mp (heq _ rfl))

/-- A patch is atomic if it is rolled back; and only then, if the operations behind the first are
rolled back from where the first leads. -/
theorem patch_atomic (doc : Value) (hdoc : doc.WellFormed) :
    (∀ p : Patch, p.WellFormed → rollsBack doc p = true → Atomic doc p) ∧
      ∀ (op : PatchOperation) (p : Patch), Patch.WellFormed (op :: p) →
        (∀ u doc', applyOperation doc op = (.ok u, doc') → rollsBack doc' p = true) →
          (Atomic doc (op :: p) ↔ rollsBack doc (op :: p) = true) := by
  constructor
  · intro p hp h
    exact atomic_of_rollsBack hdoc hp h
  · intro op p hp hrest
    exact ⟨rollsBack_of_atomic hdoc hp hrest, atomic_of_rollsBack hdoc hp⟩

theorem wellFormed_member (ptr : Nat) (k : Text) {v : Value} (hv : v.WellFormed) :
    (Value.object ptr [(k, v)]).WellFormed := by
  refine .object (by simp [InOMap.Unique, InOMap.keys]) fun e he => ?_
  rw [List.mem_singleton.mp he]
  exact hv

/-- On a document with one member, a patch that adds another and then fails is taken back. A
replacement of what is missing is atomic alone, and not in front of an operation that fails. -/
theorem patch_atomic_member :
    Atomic (.object 0 [(['a'], .null)]) [.add [['b']] (.bool true), .remove [['c']]] ∧
      Atomic (.object 0 [(['a'], .null)]) [.replace [['b']] .null] ∧
      ¬ Atomic (.object 0 [(['a'], .null)]) [.replace [['b']] .null, .remove [['c']]] := by
  have hdoc := wellFormed_member 0 ['a'] .null
  refine ⟨(patch_atomic _ hdoc).1 _ ?_ (by decide), (patch_atomic _ hdoc).1 _ ?_ (by decide),
    fun h => ?_⟩
  · simp [Patch.WellFormed, PatchOperation.WellFormed, Value.WellFormed.bool]
  · simp [Patch.WellFormed, PatchOperation.WellFormed, Value.WellFormed.null]
  · have hback := ((patch_atomic _ hdoc).2 _ _
      (by simp [Patch.WellFormed, PatchOperation.WellFormed, Value.WellFormed.null])
      fun u doc' happly => by
        cases happly
        decide).mp h
    revert hback
    decide

/-- A move that fails after taking its value out loses the value. -/
theorem patch_not_atomic : (Value.object 0 [(['a'], .null)]).WellFormed ∧
      Patch.WellFormed [.move [['a']] [['b'], ['c']]] ∧
      patch (.object 0 [(['a'], .null)]) [.move [['a']] [['b'], ['c']]] =
        some (.error .invalidPointer, .object 0 []) ∧
      ¬ Atomic (.object 0 [(['a'], .null)]) [.move [['a']] [['b'], ['c']]] := by
  have hrun : patch (.object 0 [(['a'], .null)]) [.move [['a']] [['b'], ['c']]] =
      some (.error .invalidPointer, .object 0 []) := rfl
  refine ⟨wellFormed_member _ _ .null, ?_, hrun, ?_⟩
  · intro op hop
    rw [List.mem_singleton.mp hop]
    trivial
  · rintro ⟨res, doc', h, heq⟩
    cases h
    have := heq _ rfl
    revert this
    decide

end StartTech.JsonPatch

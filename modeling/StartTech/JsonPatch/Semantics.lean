import StartTech.JsonPatch.Independence
import StartTech.JsonPatch.Patch
import StartTech.JsonPtr.Refinement

/-!
# What an operation does, and when its undo operation takes it back

An operation on a value does to the denoted document what it says, or fails.
Two kinds of operation cannot be taken back everywhere: a replacement that falls
back to adding, and a move.
-/

namespace StartTech.JsonPatch

open Foundation ImblValue
open JsonPtr (getMutReplace get_denote insert_edits remove_edits get_wellFormed)
open Json (insert)
open UndoOperation (apply)

/-- The values that an operation carries have distinct keys. -/
def PatchOperation.WellFormed : PatchOperation → Prop
  | .add _ value | .replace _ value | .test _ value => value.WellFormed
  | _ => True

open Classical in
/-- The effect of an operation on a document; `none` when it is refused. -/
noncomputable def applyJson (d : Json) : PatchOperation → Option Json
  | .add path value => (insert path value.denote d).map Prod.snd
  | .remove path => (Json.remove false path d).map Prod.snd
  | .replace path value =>
    match Json.replace path value.denote d with
    | some r => some r.2
    | none => (insert path value.denote d).map Prod.snd
  | .move source path =>
    if path = source then some d
    else if startsWith path source || source.isEmpty then none
    else (Json.remove false source d).bind fun r => (insert path r.1 r.2).map Prod.snd
  | .copy source path =>
    (Json.get source d).bind fun v => (insert path v d).map Prod.snd
  | .test path value =>
    (Json.get path d).bind fun v => if v = value.denote then some d else none

/-- The operation, if it succeeds on the document, can be taken back there, and if it fails it
leaves the document alone. A move is asked of the document without what it moves. -/
def undoable (doc : Value) : PatchOperation → Bool
  | .replace path _ =>
    (Json.get path doc.denote).isSome || (Json.displaces path doc.denote).isNone
  | .move source path =>
    path == source || startsWith path source || source.isEmpty ||
      match Json.remove false source doc.denote with
      | none => true
      | some (_, rest) =>
        match Json.displaces path rest with
        | none => false
        | some displaced =>
          !startsWith source path && (!displaced || !disturbs source path doc.denote)
  | _ => true

/-- Applying the undo operation to the second document gives the first. -/
def Restores (u : UndoOperation) (d d' : Json) : Prop :=
  ∀ doc : Value, doc.WellFormed → doc.denote = d' →
    ∃ doc₀, u.apply doc = some doc₀ ∧ doc₀.WellFormed ∧ doc₀.denote = d

/-- The undo operation panics or gives another document than the first. -/
def Loses (u : UndoOperation) (d d' : Json) : Prop :=
  ∀ doc : Value, doc.WellFormed → doc.denote = d' →
    ∀ doc₀, u.apply doc = some doc₀ → doc₀.WellFormed ∧ doc₀.denote ≠ d

section Outcomes

variable {doc : Value} {path source : List Text} {value : Value} {prev : Option Json} {d' v : Json}
  {allowLast : Bool}

section

variable (hdoc : doc.WellFormed)
include hdoc

theorem add_ok (hval : value.WellFormed)
    (h : insert path value.denote doc.denote = some (prev, d')) :
    ∃ p doc', add doc path value = (.ok p, doc') ∧ p.map Value.denote = prev ∧
      doc'.denote = d' ∧ (∀ x ∈ p, x.WellFormed) ∧ doc'.WellFormed := by
  have hedit := insert_edits path hdoc hval
  obtain ⟨p, hp, hprev, hdoc', hwf⟩ := hedit.of_some h
  refine ⟨p, (JsonPtr.insert path doc value).2, ?_, hprev, hdoc', hwf, hedit.wellFormed⟩
  rw [add]
  generalize JsonPtr.insert path doc value = r at hp
  obtain ⟨_ | _, _⟩ := r <;> cases hp
  rfl

theorem add_error (hval : value.WellFormed)
    (h : insert path value.denote doc.denote = none) :
    add doc path value = (.error .invalidPointer, doc) := by
  obtain ⟨hres, hsame⟩ := (insert_edits path hdoc hval).of_none h
  rw [add]
  generalize JsonPtr.insert path doc value = r at hres hsame
  obtain ⟨_ | _, _⟩ := r <;> cases hres
  exact congrArg _ hsame

theorem remove_ok (h : Json.remove allowLast path doc.denote = some (v, d')) :
    ∃ x doc', remove doc path allowLast = (.ok x, doc') ∧ x.denote = v ∧ doc'.denote = d' ∧
      x.WellFormed ∧ doc'.WellFormed := by
  have hedit := remove_edits path hdoc allowLast
  obtain ⟨x, hx, hv, hdoc', hwf⟩ := hedit.of_some h
  refine ⟨x, (JsonPtr.remove allowLast path doc).2, ?_, hv, hdoc', hwf, hedit.wellFormed⟩
  rw [remove]
  generalize JsonPtr.remove allowLast path doc = r at hx
  obtain ⟨_, _⟩ := r
  cases hx
  rfl

theorem remove_error (h : Json.remove allowLast path doc.denote = none) :
    remove doc path allowLast = (.error .invalidPointer, doc) := by
  obtain ⟨hres, hsame⟩ := (remove_edits path hdoc allowLast).of_none h
  rw [remove]
  generalize JsonPtr.remove allowLast path doc = r at hres hsame
  obtain ⟨_, _⟩ := r
  cases hres
  exact congrArg _ hsame

/-- An existing target is replaced in place. -/
theorem replace_ok (hval : value.WellFormed)
    (h : Json.replace path value.denote doc.denote = some (v, d')) :
    ∃ x doc', replace doc path value = (.ok x, doc') ∧ x.denote = v ∧ doc'.denote = d' ∧
      x.WellFormed ∧ doc'.WellFormed := by
  have hedit := JsonPtr.getMutReplace_edits path hdoc hval
  obtain ⟨x, hx, hv, hdoc', hwf⟩ := hedit.of_some h
  refine ⟨x, (getMutReplace path doc value).2, ?_, hv, hdoc', hwf, hedit.wellFormed⟩
  rw [replace]
  generalize getMutReplace path doc value = r at hx
  obtain ⟨_, _⟩ := r
  cases hx
  rfl

/-- A missing target is added. -/
theorem replace_missing (hval : value.WellFormed)
    (h : Json.replace path value.denote doc.denote = none) :
    replace doc path value = unwrapOrDefault (add doc path value) := by
  obtain ⟨hres, hsame⟩ := (JsonPtr.getMutReplace_edits path hdoc hval).of_none h
  rw [replace]
  generalize getMutReplace path doc value = r at hres hsame
  obtain ⟨_, _⟩ := r
  cases hres
  cases hsame
  rfl

end

theorem mov_of_remove_ok {x doc₁ : Value} (hne : path ≠ source)
    (hstart : startsWith path source = false) (hsrc : source ≠ [])
    (hrun : remove doc source allowLast = (.ok x, doc₁)) :
    mov doc source path allowLast = add doc₁ path x := by
  have hempty : source.isEmpty = false := by simpa using hsrc
  simp [mov, hne, hstart, hempty, hrun]

theorem mov_ok (hdoc : doc.WellFormed) (hne : path ≠ source)
    (hstart : startsWith path source = false) (hsrc : source ≠ []) {d₁ : Json}
    (hremove : Json.remove allowLast source doc.denote = some (v, d₁))
    (hinsert : insert path v d₁ = some (prev, d')) :
    ∃ p doc', mov doc source path allowLast = (.ok p, doc') ∧ p.map Value.denote = prev ∧
      doc'.denote = d' ∧ (∀ x ∈ p, x.WellFormed) ∧ doc'.WellFormed := by
  obtain ⟨x, doc₁, hrun, rfl, rfl, hx, hdoc₁⟩ := remove_ok hdoc hremove
  rw [mov_of_remove_ok hne hstart hsrc hrun]
  exact add_ok hdoc₁ hx hinsert

end Outcomes

variable {path source : List Text} {d d' v : Json} {prev : Option Value} {value : Value}

theorem restores_add (hprev : ∀ x ∈ prev, x.WellFormed)
    (h : insert path v d = some (prev.map Value.denote, d')) :
    Restores (.add path prev) d d' := by
  intro doc hdoc heq
  subst heq
  cases prev with
  | none =>
    obtain ⟨x, doc', hrun, -, hd, -, hwf⟩ := remove_ok hdoc (Json.remove_of_insert h)
    exact ⟨doc', by simp [apply, hrun], hwf, hd⟩
  | some w =>
    obtain ⟨p, doc', hrun, hp, hd, -, hwf⟩ := add_ok hdoc (hprev w rfl) (Json.insert_of_insert h)
    obtain ⟨y, rfl, -⟩ := Option.map_eq_some_iff.mp hp
    exact ⟨doc', by simp [apply, hrun], hwf, hd⟩

/-- Putting back a value that displaces nothing. -/
theorem addBack_ok {doc : Value} (hdoc : doc.WellFormed) (hval : value.WellFormed)
    (h : insert path value.denote doc.denote = some (none, d)) :
    ∃ doc', addBack doc path value = some doc' ∧ doc'.WellFormed ∧ doc'.denote = d := by
  obtain ⟨p, doc', hrun, hp, hd, -, hwf⟩ := add_ok hdoc hval h
  rw [Option.map_eq_none_iff.mp hp] at hrun
  exact ⟨doc', by simp [addBack, hrun], hwf, hd⟩

theorem restores_replace (hval : value.WellFormed)
    (h : Json.replace path v d = some (value.denote, d')) :
    Restores (.replace path value) d d' := by
  intro doc hdoc heq
  subst heq
  obtain ⟨x, doc', hrun, -, hd, -, hwf⟩ := replace_ok hdoc hval (Json.replace_of_replace h)
  exact ⟨doc', by simp [apply, hrun], hwf, hd⟩

/-- A move is taken back by moving back and putting back what it displaced. -/
theorem restores_move (hprev : ∀ x ∈ prev, x.WellFormed) {d₁ : Json} (hne : path ≠ source)
    (hstart : startsWith source path = false) (hpath : path ≠ [])
    (hremove : Json.remove false source d = some (v, d₁))
    (hinsert : insert path v d₁ = some (prev.map Value.denote, d'))
    (hfree : prev = none ∨ disturbs source path d = false) :
    Restores (.move source path prev) d d' := by
  intro doc hdoc heq
  subst heq
  cases prev with
  | none =>
    obtain ⟨p, doc', hrun, -, hd, -, hwf⟩ := mov_ok hdoc hne.symm hstart hpath
      (Json.remove_of_insert hinsert) (Json.insert_of_remove hremove)
    exact ⟨doc', by simp [apply, hrun], hwf, hd⟩
  | some w =>
    -- What was displaced comes out first, as it would have before the move.
    obtain ⟨e, hbefore, hafter⟩ := Json.remove_of_displace hpath hinsert
    obtain ⟨d₀, hw, hv⟩ := remove_commute hremove hinsert hbefore (hfree.resolve_left (by simp))
    obtain ⟨p, doc', hrun, -, rfl, -, hwf⟩ := mov_ok hdoc hne.symm hstart hpath hafter
      (Json.insert_of_remove hv)
    obtain ⟨doc₀, hback, hwf₀, hd⟩ := addBack_ok hwf (hprev w rfl) (Json.insert_of_remove hw)
    exact ⟨doc₀, by simp [apply, hrun, hback], hwf₀, hd⟩

/-- A replacement that added leaves a null behind when it is taken back. -/
theorem loses_replace (hget : Json.get path d = none)
    (hinsert : insert path v d = some (none, d')) : Loses (.replace path .null) d d' := by
  intro doc hdoc heq doc₀ happly
  subst heq
  cases h : Json.replace path Value.null.denote doc.denote with
  | some r =>
    obtain ⟨x, doc', hrun, -, hd, -, hwf⟩ := replace_ok hdoc .null h
    obtain rfl : doc' = doc₀ := by simpa [UndoOperation.apply, hrun] using happly
    refine ⟨hwf, fun hcon => ?_⟩
    have hnull := Json.get_of_replace h
    rw [← hd, hcon, hget] at hnull
    simp at hnull
  | none =>
    rw [UndoOperation.apply, replace_missing hdoc .null h] at happly
    cases hi : insert path Value.null.denote doc.denote with
    | none => simp [add_error hdoc .null hi, unwrapOrDefault] at happly
    | some r =>
      obtain ⟨p, doc', hrun, hp, hd, -, hwf⟩ := add_ok hdoc .null hi
      obtain rfl : doc' = doc₀ := by simpa [hrun, unwrapOrDefault] using happly
      refine ⟨hwf, ?_⟩
      obtain ⟨prev, d''⟩ := r
      cases prev with
      | none =>
        rw [hd]
        exact Json.insert_insert_ne hinsert hi
      | some w =>
        rw [Json.replace_eq_none_iff, Json.get_of_displace hi] at h
        simp at h

/-- A move that disturbs the path of what it displaced cannot be taken back. -/
theorem loses_move_disturb {w : Value} (hw : w.WellFormed) {d₁ : Json} (hne : path ≠ source)
    (hpath : path ≠ []) (hstart : startsWith source path = false)
    (hremove : Json.remove false source d = some (v, d₁))
    (hinsert : insert path v d₁ = some (some w.denote, d'))
    (hdisturb : disturbs source path d = true) : Loses (.move source path (some w)) d d' := by
  intro doc hdoc heq doc₀ happly
  subst heq
  obtain ⟨e, hbefore, hafter⟩ := Json.remove_of_displace hpath hinsert
  obtain ⟨x, doc₁, hrun, rfl, rfl, hx, hdoc₁⟩ := remove_ok hdoc hafter
  have hmov := mov_of_remove_ok hne.symm hstart hpath hrun
  rw [UndoOperation.apply, hmov] at happly
  cases hback : insert source x.denote doc₁.denote with
  | none => simp [add_error hdoc₁ hx hback] at happly
  | some r =>
    obtain ⟨p, doc₂, hadd, -, hd₂, -, hdoc₂⟩ := add_ok hdoc₁ hx hback
    simp only [hadd] at happly
    cases hput : insert path w.denote doc₂.denote with
    | none => simp [addBack, add_error hdoc₂ hw hput] at happly
    | some q =>
      obtain ⟨prev, d₃⟩ := q
      obtain ⟨p', doc₃, hadd', rfl, rfl, -, hdoc₃⟩ := add_ok hdoc₂ hw hput
      cases p' with
      | some y => simp [addBack, hadd'] at happly
      | none =>
        obtain rfl : doc₃ = doc₀ := by simpa [addBack, hadd'] using happly
        rw [hd₂] at hput
        exact ⟨hdoc₃, disturbed_undo hpath hremove hinsert hbefore hdisturb hback hput⟩

/-- What an operation owes the loop that applies it. -/
inductive Outcome (doc : Value) (op : PatchOperation) : Prop
  | ok (u : UndoOperation) (doc' : Value) (run : applyOperation doc op = (.ok u, doc'))
      (effect : applyJson doc.denote op = some doc'.denote) (wellFormed : doc'.WellFormed)
      (restores : undoable doc op = true → Restores u doc.denote doc'.denote)
      (loses : undoable doc op = false → Loses u doc.denote doc'.denote)
  | error (e : PatchError) (doc' : Value) (run : applyOperation doc op = (.error e, doc'))
      (effect : applyJson doc.denote op = none) (wellFormed : doc'.WellFormed)
      (unchanged : undoable doc op = true → doc' = doc)
      (changes : undoable doc op = false → doc'.denote ≠ doc.denote)

section Operations

variable {doc doc' : Value} {op : PatchOperation}

theorem Outcome.undone (u : UndoOperation) (hundo : undoable doc op = true)
    (run : applyOperation doc op = (.ok u, doc'))
    (effect : applyJson doc.denote op = some doc'.denote) (hwf : doc'.WellFormed)
    (restores : Restores u doc.denote doc'.denote) : Outcome doc op :=
  .ok u doc' run effect hwf (fun _ => restores) fun h => nomatch hundo.symm.trans h

variable (hdoc : doc.WellFormed)
include hdoc

theorem Outcome.refused (e : PatchError) (hundo : undoable doc op = true)
    (run : applyOperation doc op = (.error e, doc)) (effect : applyJson doc.denote op = none) :
    Outcome doc op :=
  .error e doc run effect hdoc (fun _ => rfl) fun h => nomatch hundo.symm.trans h

theorem outcome_add (hval : value.WellFormed) : Outcome doc (.add path value) := by
  cases h : insert path value.denote doc.denote with
  | none =>
    exact .refused hdoc .invalidPointer rfl (by simp [applyOperation, add_error hdoc hval h])
      (by simp [applyJson, h])
  | some r =>
    obtain ⟨p, doc', hrun, hprev, hd, hp, hwf⟩ := add_ok hdoc hval h
    refine .undone (.add path p) rfl (by simp [applyOperation, hrun])
      (by simp [applyJson, h, hd]) hwf (restores_add hp (v := value.denote) ?_)
    rw [h, hprev, hd]

theorem outcome_remove : Outcome doc (.remove path) := by
  cases h : Json.remove false path doc.denote with
  | none =>
    exact .refused hdoc .invalidPointer rfl (by simp [applyOperation, remove_error hdoc h])
      (by simp [applyJson, h])
  | some r =>
    obtain ⟨x, doc', hrun, hx, hd, hwfx, hwf⟩ := remove_ok hdoc h
    refine .undone (.remove path x) rfl (by simp [applyOperation, hrun])
      (by simp [applyJson, h, hd]) hwf fun doc hdoc heq => ?_
    refine addBack_ok hdoc hwfx (Json.insert_of_remove ?_)
    rw [heq, h, hx, hd]

theorem outcome_replace (hval : value.WellFormed) : Outcome doc (.replace path value) := by
  have hget := Json.replace_eq_none_iff path value.denote doc.denote
  cases h : Json.replace path value.denote doc.denote with
  | some r =>
    obtain ⟨x, doc', hrun, hx, hd, hwfx, hwf⟩ := replace_ok hdoc hval h
    have hsome : (Json.get path doc.denote).isSome = true := by
      rw [Option.isSome_iff_ne_none, ne_eq, ← hget, h]
      simp
    refine .undone (.replace path x) (by rw [undoable, hsome, Bool.true_or])
      (by simp [applyOperation, hrun]) (by simp [applyJson, h, hd]) hwf
      (restores_replace hwfx (v := value.denote) ?_)
    rw [h, hx, hd]
  | none =>
    have hmissing := replace_missing hdoc hval h
    have hplace := Json.displaces_eq path value.denote doc.denote
    cases hi : insert path value.denote doc.denote with
    | none =>
      exact .refused hdoc .invalidPointer (by simp [undoable, hplace, hi])
        (by simp [applyOperation, hmissing, add_error hdoc hval hi, unwrapOrDefault])
        (by simp [applyJson, h, hi])
    | some r =>
      obtain ⟨p, doc', hrun, hprev, hd, hp, hwf⟩ := add_ok hdoc hval hi
      obtain ⟨prev, d'⟩ := r
      obtain rfl : p = none := by
        cases p with
        | none => rfl
        | some w =>
          obtain rfl : some w.denote = prev := hprev
          cases (Json.get_of_displace hi).symm.trans (hget.mp h)
      refine .ok (.replace path .null) doc'
        (by simp [applyOperation, hmissing, hrun, unwrapOrDefault])
        (by simp [applyJson, h, hi, hd]) hwf (fun hundo => ?_) fun _ => ?_
      · simp [undoable, hget.mp h, hplace, hi] at hundo
      · refine loses_replace (v := value.denote) (hget.mp h) ?_
        rw [hi, hd, show prev = none from hprev.symm]

theorem outcome_copy : Outcome doc (.copy source path) := by
  have hdenote := get_denote source doc
  cases hget : JsonPtr.get source doc with
  | none =>
    rw [hget] at hdenote
    exact .refused hdoc .invalidPointer rfl (by simp [applyOperation, copy, hget])
      (by simp [applyJson, ← hdenote])
  | some v =>
    rw [hget] at hdenote
    have hv := get_wellFormed hdoc hget
    cases h : insert path v.denote doc.denote with
    | none =>
      exact .refused hdoc .invalidPointer rfl
        (by simp [applyOperation, copy, hget, add_error hdoc hv h])
        (by simp [applyJson, ← hdenote, h])
    | some r =>
      obtain ⟨p, doc', hrun, hprev, hd, hp, hwf⟩ := add_ok hdoc hv h
      refine .undone (.add path p) rfl (by simp [applyOperation, copy, hget, hrun])
        (by simp [applyJson, ← hdenote, h, hd]) hwf (restores_add hp (v := v.denote) ?_)
      rw [h, hprev, hd]

theorem outcome_test (hval : value.WellFormed) : Outcome doc (.test path value) := by
  have hdenote := get_denote path doc
  cases hget : JsonPtr.get path doc with
  | none =>
    rw [hget] at hdenote
    exact .refused hdoc .invalidPointer rfl (by simp [applyOperation, test, hget])
      (by simp [applyJson, ← hdenote])
  | some v =>
    rw [hget] at hdenote
    have heq := Value.eq_iff (get_wellFormed hdoc hget) hval
    by_cases hv : v.denote = value.denote
    · refine .undone .test rfl (by simp [applyOperation, test, hget, heq.mpr hv])
        (by simp [applyJson, ← hdenote, hv]) hdoc fun doc' hdoc' hd => ⟨doc', rfl, hdoc', hd⟩
    · have hne : v.eq value = false := by
        by_contra hcon
        exact hv (heq.mp (by simpa using hcon))
      exact .refused hdoc .testFailed rfl (by simp [applyOperation, test, hget, hne])
        (by simp [applyJson, ← hdenote, hv])

theorem outcome_move : Outcome doc (.move source path) := by
  by_cases hne : path = source
  · subst hne
    refine .undone (.move path path none) (by simp [undoable]) (by simp [applyOperation, mov])
      (by simp [applyJson]) hdoc fun doc' hdoc' hd => ⟨doc', ?_, hdoc', hd⟩
    simp [apply, mov]
  by_cases hchild : startsWith path source || source.isEmpty
  · exact .refused hdoc .invalidPointer (by simp [undoable, Bool.or_assoc, hchild])
      (by simp [applyOperation, mov, hne, hchild]) (by simp [applyJson, hne, hchild])
  have hstart : startsWith path source = false := by
    simp only [Bool.or_eq_true, not_or, Bool.not_eq_true] at hchild
    exact hchild.1
  have hsrc : source ≠ [] := by
    rintro rfl
    simp at hchild
  have hempty : source.isEmpty = false := by simpa using hsrc
  have hbeq : (path == source) = false := beq_eq_false_iff_ne.mpr hne
  cases hr : Json.remove false source doc.denote with
  | none =>
    exact .refused hdoc .invalidPointer (by simp [undoable, hr])
      (by simp [applyOperation, mov, hne, hchild, remove_error hdoc hr])
      (by simp [applyJson, hne, hchild, hr])
  | some r =>
    obtain ⟨v, d₁⟩ := r
    obtain ⟨x, doc₁, hrun, rfl, rfl, hwfx, hwf₁⟩ := remove_ok hdoc hr
    have hmov := mov_of_remove_ok hne hstart hsrc hrun
    have hplace := Json.displaces_eq path x.denote doc₁.denote
    cases hi : insert path x.denote doc₁.denote with
    | none =>
      refine .error .invalidPointer doc₁
        (by simp [applyOperation, hmov, add_error hwf₁ hwfx hi])
        (by simp [applyJson, hne, hchild, hr, hi]) hwf₁ (fun hundo => ?_)
        fun _ => Json.remove_ne hr
      simp [undoable, hbeq, hstart, hempty, hr, hplace, hi] at hundo
    | some q =>
      obtain ⟨prev, d'⟩ := q
      obtain ⟨p, doc', hadd, rfl, rfl, hwfp, hwf'⟩ := add_ok hwf₁ hwfx hi
      have hwhen : undoable doc (.move source path) =
          (!startsWith source path && (!p.isSome || !disturbs source path doc.denote)) := by
        simp [undoable, hbeq, hstart, hempty, hr, hplace, hi]
      refine .ok (.move source path p) doc' (by simp [applyOperation, hmov, hadd])
        (by simp [applyJson, hne, hchild, hr, hi]) hwf' (fun hundo => ?_) fun hundo => ?_
      · simp only [hwhen, Bool.and_eq_true, Bool.or_eq_true, Bool.not_eq_true',
          Option.isSome_eq_false_iff, Option.isNone_iff_eq_none] at hundo
        have hpath : path ≠ [] := by
          rintro rfl
          simp [startsWith] at hundo
        exact restores_move hwfp hne hundo.1 hpath hr hi hundo.2
      · by_cases hbelow : startsWith source path = true
        · intro _ _ _ _ hback
          simp [apply, mov, Ne.symm hne, hbelow] at hback
        · simp only [hwhen, Bool.and_eq_false_iff, Bool.not_eq_false', Bool.or_eq_false_iff] at hundo
          obtain ⟨hsome, hdisturb⟩ := hundo.resolve_left hbelow
          obtain ⟨w, rfl⟩ := Option.isSome_iff_exists.mp hsome
          have hpath : path ≠ [] := by
            rintro rfl
            simp [startsWith] at hbelow
          exact loses_move_disturb (hwfp w rfl) hne hpath (by simpa using hbelow) hr hi hdisturb

end Operations

/-- Every operation on a well-formed document has one of the two outcomes. -/
theorem applyOperation_outcome {doc : Value} (hdoc : doc.WellFormed) {op : PatchOperation}
    (hop : op.WellFormed) : Outcome doc op := by
  cases op with
  | add path value => exact outcome_add hdoc hop
  | remove path => exact outcome_remove hdoc
  | replace path value => exact outcome_replace hdoc hop
  | move source path => exact outcome_move hdoc
  | copy source path => exact outcome_copy hdoc
  | test path value => exact outcome_test hdoc hop

end StartTech.JsonPatch

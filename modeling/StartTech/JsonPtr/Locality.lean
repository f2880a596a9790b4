import StartTech.JsonPtr.Path

/-!
# Edits below a path stay below it

An edit whose path extends another one acts on the part of the document there,
which is then put back in its place.
-/

namespace StartTech.ImblValue.Json

open Foundation JsonPtr

/-- Run an edit on the part of a document at a path. -/
def editAt {α : Type} (f : Json → Option (α × Json)) : List Text → Json → Option (α × Json)
  | [], d => f d
  | seg :: rest, d => descend false seg (editAt f rest) d

/-- Put a value in the place that a path leads to. -/
def put (path : List Text) (y d : Json) : Json :=
  match replace path y d with
  | some r => r.2
  | none => d

@[simp] theorem put_nil (y d : Json) : put [] y d = y := rfl

variable {seg : Text} {rest path q : List Text} {s : Step} {x d : Json} {α : Type}

theorem put_cons (y : Json) (h : follow false seg d = some (s, x)) :
    put (seg :: rest) y d = setChild s (put rest y x) d := by
  simp only [put, replace, descend, h, Option.bind_some]
  cases hr : replace rest y x with
  | some r => rfl
  | none => exact (setChild_child (follow_eq_some.mp h).2).symm

theorem get_cons (h : follow false seg d = some (s, x)) : get (seg :: rest) d = get rest x := by
  rw [get, h]
  rfl

theorem exists_follow (h : get (seg :: rest) d = some x) :
    ∃ s z, follow false seg d = some (s, z) ∧ get rest z = some x := by
  obtain ⟨⟨s, z⟩, hfollow, hz⟩ := Option.bind_eq_some_iff.mp h
  exact ⟨s, z, hfollow, hz⟩

theorem get_put (h : get path d = some x) (y : Json) : get path (put path y d) = some y := by
  induction path generalizing d with
  | nil => rfl
  | cons seg rest ih =>
    obtain ⟨s, z, hfollow, hz⟩ := exists_follow h
    rw [put_cons y hfollow, get_cons (follow_setChild hfollow _), ih hz]

theorem put_put (h : get path d = some x) (y z : Json) :
    put path z (put path y d) = put path z d := by
  induction path generalizing d with
  | nil => rfl
  | cons seg rest ih =>
    obtain ⟨s, w, hfollow, hw⟩ := exists_follow h
    rw [put_cons y hfollow, put_cons z (follow_setChild hfollow _), put_cons z hfollow,
      setChild_setChild, ih hw]

theorem put_get (h : get path d = some x) : put path x d = d := by
  induction path generalizing d with
  | nil => exact Option.some.inj h.symm
  | cons seg rest ih =>
    obtain ⟨s, w, hfollow, hw⟩ := exists_follow h
    rw [put_cons x hfollow, ih hw, setChild_child (follow_eq_some.mp hfollow).2]

theorem get_append (path q : List Text) (d : Json) :
    get (path ++ q) d = (get path d).bind (get q) := by
  induction path generalizing d with
  | nil => rfl
  | cons seg rest ih =>
    simp only [List.cons_append, get, Option.bind_assoc]
    congr
    funext p
    exact ih p.2

theorem put_append (q : List Text) (h : get path d = some x) (y : Json) :
    put (path ++ q) y d = put path (put q y x) d := by
  induction path generalizing d with
  | nil =>
    cases h
    rfl
  | cons seg rest ih =>
    obtain ⟨s, w, hfollow, hw⟩ := exists_follow h
    rw [List.cons_append, put_cons _ hfollow, put_cons _ hfollow, ih hw]

/-- An edit at a path that exists acts there and nowhere else. -/
theorem editAt_eq (f : Json → Option (α × Json)) (h : get path d = some x) :
    editAt f path d = (f x).map fun r => (r.1, put path r.2 d) := by
  induction path generalizing d with
  | nil =>
    cases h
    simp [editAt]
  | cons seg rest ih =>
    obtain ⟨s, w, hfollow, hw⟩ := exists_follow h
    simp [editAt, descend, hfollow, Option.bind_some, ih hw, Option.map_map, Function.comp_def,
      put_cons _ hfollow]

theorem Descends.append {edit : List Text → Json → Option (α × Json)}
    (h : Descends false edit) (path : List Text) (hq : q ≠ []) (d : Json) :
    edit (path ++ q) d = editAt (edit q) path d := by
  induction path generalizing d with
  | nil => rfl
  | cons seg rest ih => rw [List.cons_append, h seg (by simp [hq]), editAt, funext ih]

end StartTech.ImblValue.Json

import Mathlib.Data.List.Infix

/-!
# Sequences in lexicographic order

The sequences that begin with a given one stand together, right behind it.
-/

namespace StartTech.Foundation.Lexicographic

open Std

variable {α : Type*} [Ord α]

theorem compare_cons (a b : α) (s t : List α) :
    compare (a :: s) (b :: t) = (compare a b).then (compare s t) :=
  List.compareLex_cons_cons

variable [LawfulEqOrd α]

/-- A sequence is before those that it begins. -/
theorem lt_of_isPrefix {s t : List α} (h : s <+: t) (hne : s ≠ t) : compare s t = .lt := by
  induction s generalizing t with
  | nil =>
    cases t with
    | nil => exact absurd rfl hne
    | cons b t => rfl
  | cons a s ih =>
    cases t with
    | nil => simp at h
    | cons b t =>
      obtain ⟨rfl, hrest⟩ := List.cons_prefix_cons.mp h
      rw [compare_cons, ReflOrd.compare_self]
      exact ih hrest fun heq => hne (by rw [heq])

/-- What stands between a sequence and one that it begins, is begun by it. -/
theorem isPrefix_of_between [TransOrd α] {s t u : List α} (hlt : compare s t = .lt) (hle : compare t u ≠ .gt)
    (h : s <+: u) : s <+: t := by
  induction s generalizing t u with
  | nil => exact List.nil_prefix
  | cons a s ih =>
    cases t with
    | nil => cases hlt
    | cons b t =>
      cases u with
      | nil => simp at h
      | cons c u =>
        obtain ⟨rfl, hrest⟩ := List.cons_prefix_cons.mp h
        rw [compare_cons] at hlt hle
        cases hcompare : compare a b with
        | lt =>
          rw [OrientedOrd.eq_swap, hcompare] at hle
          exact absurd rfl hle
        | gt =>
          rw [hcompare] at hlt
          cases hlt
        | eq =>
          obtain rfl := LawfulEqOrd.eq_of_compare hcompare
          rw [ReflOrd.compare_self] at hlt hle
          exact List.cons_prefix_cons.mpr ⟨rfl, ih hlt hle hrest⟩

end StartTech.Foundation.Lexicographic

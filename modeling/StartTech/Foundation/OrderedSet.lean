import Mathlib.Data.List.Basic

/-!
# Sets as sorted lists

A set is the increasing list of its elements. Collecting a list into a set
keeps its elements and drops repetitions.
-/

namespace StartTech.Foundation

open Std

variable {α : Type*} [Ord α] {l : List α}

namespace OrderedSet

def insert (a : α) : List α → List α
  | [] => [a]
  | b :: rest =>
    match compare a b with
    | .lt => a :: b :: rest
    | .eq => b :: rest
    | .gt => b :: insert a rest

/-- Collect the elements of a list. -/
def ofList (l : List α) : List α := l.foldr insert []

def Sorted (l : List α) : Prop := l.Pairwise fun a b => compare a b = .lt

theorem mem_insert [LawfulEqOrd α] {a x : α} : x ∈ insert a l ↔ x = a ∨ x ∈ l := by
  induction l with
  | nil => simp [insert]
  | cons b rest ih =>
    simp only [insert]
    split
    · simp
    · rename_i h
      obtain rfl := LawfulEqOrd.eq_of_compare h
      simp
    · simp only [List.mem_cons]
      tauto

theorem Sorted.insert [TransOrd α] [LawfulEqOrd α] (h : Sorted l) (a : α) :
    Sorted (OrderedSet.insert a l) := by
  induction l with
  | nil => exact List.pairwise_singleton _ _
  | cons b rest ih =>
    obtain ⟨hhead, htail⟩ := List.pairwise_cons.mp h
    simp only [OrderedSet.insert]
    split
    · rename_i hlt
      refine List.pairwise_cons.mpr ⟨?_, h⟩
      intro c hc
      rcases List.mem_cons.mp hc with rfl | hc
      · exact hlt
      · exact TransCmp.lt_trans hlt (hhead c hc)
    · exact h
    · rename_i hgt
      refine List.pairwise_cons.mpr ⟨?_, ih htail⟩
      intro c hc
      rcases mem_insert.mp hc with rfl | hc
      · exact OrientedCmp.lt_of_gt hgt
      · exact hhead c hc

theorem mem_ofList [LawfulEqOrd α] {x : α} : x ∈ ofList l ↔ x ∈ l := by
  induction l with
  | nil => simp [ofList]
  | cons a rest ih => rw [ofList, List.foldr_cons, mem_insert, ← ofList, ih, List.mem_cons]

theorem sorted_ofList [TransOrd α] [LawfulEqOrd α] (l : List α) : Sorted (ofList l) := by
  induction l with
  | nil => exact .nil
  | cons a rest ih => exact ih.insert a

theorem nodup_ofList [TransOrd α] [LawfulEqOrd α] (l : List α) : (ofList l).Nodup := by
  refine (sorted_ofList l).imp ?_
  rintro a b h rfl
  rw [compare_self] at h
  cases h

end OrderedSet

end StartTech.Foundation

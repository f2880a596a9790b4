import Mathlib.Data.List.Perm.Basic

/-!
# Laying regions end to end

Regions that are handed out one after another, each as long as asked for, tile the
space from the first to the last of them and do not overlap.
-/

namespace StartTech.Foundation

variable {α : Type*}

/-- The sum of a weight over a list. -/
def total (w : α → Nat) : List α → Nat
  | [] => 0
  | a :: rest => w a + total w rest

section

variable (w : α → Nat)
include w

@[simp] theorem total_nil : total w [] = 0 := rfl

@[simp] theorem total_cons (a : α) (l : List α) : total w (a :: l) = w a + total w l := rfl

theorem total_append (l m : List α) : total w (l ++ m) = total w l + total w m := by
  induction l with
  | nil => simp
  | cons a rest ih => simp [ih, Nat.add_assoc]

theorem le_total_of_mem {l : List α} {a : α} (h : a ∈ l) : w a ≤ total w l := by
  induction l with
  | nil => simp at h
  | cons b rest ih =>
    rcases List.mem_cons.mp h with rfl | h
    · exact Nat.le_add_right _ _
    · exact Nat.le_trans (ih h) (Nat.le_add_left _ _)

theorem total_perm {l m : List α} (h : l.Perm m) : total w l = total w m := by
  induction h with
  | nil => rfl
  | cons a _ ih => simp [ih]
  | swap a b l => simp [Nat.add_left_comm]
  | trans _ _ ih₁ ih₂ => exact ih₁.trans ih₂

theorem total_filter_le (p : α → Bool) (l : List α) : total w (l.filter p) ≤ total w l := by
  induction l with
  | nil => exact Nat.le_refl _
  | cons a rest ih =>
    by_cases h : p a
    · rw [List.filter_cons_of_pos h, total_cons, total_cons]
      omega
    · rw [List.filter_cons_of_neg h, total_cons]
      omega

end

theorem total_map {β : Type*} (w : β → Nat) (f : α → β) (l : List α) :
    total w (l.map f) = total (fun a => w (f a)) l := by
  induction l with
  | nil => rfl
  | cons a rest ih => rw [List.map_cons, total_cons, total_cons, ih]

/-- The places of items that are laid end to end from a position on. -/
def placeFrom (w : α → Nat) (start : Nat) : List α → List (α × Nat)
  | [] => []
  | a :: rest => (a, start) :: placeFrom w (start + w a) rest

theorem placeFrom_append (w : α → Nat) (start : Nat) (l m : List α) :
    placeFrom w start (l ++ m) = placeFrom w start l ++ placeFrom w (start + total w l) m := by
  induction l generalizing start with
  | nil => rfl
  | cons a rest ih => simp [placeFrom, ih, Nat.add_assoc]

theorem map_fst_placeFrom (w : α → Nat) (start : Nat) (l : List α) :
    (placeFrom w start l).map Prod.fst = l := by
  induction l generalizing start with
  | nil => rfl
  | cons a rest ih => simp [placeFrom, ih]

/-- A region of a given position and size. -/
structure Region where
  position : Nat
  size : Nat

namespace Region

def stop (r : Region) : Nat := r.position + r.size

def Disjoint (r s : Region) : Prop := r.stop ≤ s.position ∨ s.stop ≤ r.position

theorem Disjoint.symm {r s : Region} (h : r.Disjoint s) : s.Disjoint r := Or.symm h

end Region

variable {l m : List Region} {start : Nat}

/-- The greatest end of some regions. -/
def maxStop (l : List Region) : Nat := l.foldr (fun r n => max r.stop n) 0

@[simp] theorem maxStop_nil : maxStop [] = 0 := rfl

@[simp] theorem maxStop_cons (r : Region) (l : List Region) :
    maxStop (r :: l) = max r.stop (maxStop l) := rfl

theorem maxStop_append (l m : List Region) : maxStop (l ++ m) = max (maxStop l) (maxStop m) := by
  induction l with
  | nil => simp
  | cons r rest ih => simp [ih]

theorem maxStop_perm (h : l.Perm m) : maxStop l = maxStop m := by
  induction h with
  | nil => rfl
  | cons r _ ih => simp [ih]
  | swap r s l => simp [Nat.max_left_comm]
  | trans _ _ ih₁ ih₂ => exact ih₁.trans ih₂

/-- Regions that follow one another without gaps. -/
def Tiles : Nat → List Region → Nat → Prop
  | start, [], stop => start = stop
  | start, r :: rest, stop => r.position = start ∧ Tiles (start + r.size) rest stop

section

variable {stop : Nat} (h : Tiles start l stop)
include h

theorem Tiles.le : start ≤ stop := by
  induction l generalizing start with
  | nil => exact Nat.le_of_eq h
  | cons r rest ih => exact Nat.le_trans (Nat.le_add_right _ _) (ih h.2)

theorem Tiles.start_le : ∀ r ∈ l, start ≤ r.position := by
  induction l generalizing start with
  | nil => simp
  | cons r rest ih =>
    intro s hs
    rcases List.mem_cons.mp hs with rfl | hs
    · exact Nat.le_of_eq h.1.symm
    · exact Nat.le_trans (Nat.le_add_right _ _) (ih h.2 s hs)

/-- A tiling ends where the last of its regions does. -/
theorem Tiles.max_maxStop : max start (maxStop l) = stop := by
  induction l generalizing start with
  | nil =>
    rw [maxStop_nil, Nat.max_zero]
    exact h
  | cons r rest ih =>
    have hstop : r.stop = start + r.size := by rw [Region.stop, h.1]
    rw [maxStop_cons, hstop, ih h.2]
    exact Nat.max_eq_right h.le

theorem Tiles.maxStop_eq (hl : l ≠ []) : maxStop l = stop := by
  obtain ⟨r, rest, rfl⟩ := List.exists_cons_of_ne_nil hl
  have hmax := h.max_maxStop
  have hle : start ≤ maxStop (r :: rest) := by
    rw [maxStop_cons, Region.stop, h.1]
    omega
  rwa [Nat.max_eq_right hle] at hmax

end

/-- Tilings that meet form one. -/
theorem Tiles.append {middle stop : Nat} (h : Tiles start l middle)
    (h' : Tiles middle m stop) : Tiles start (l ++ m) stop := by
  induction l generalizing start with
  | nil =>
    rw [show start = middle from h]
    exact h'
  | cons r rest ih => exact ⟨h.1, ih h.2⟩

theorem Tiles.pairwise {stop : Nat} (h : Tiles start l stop) : l.Pairwise Region.Disjoint := by
  induction l generalizing start with
  | nil => exact .nil
  | cons r rest ih =>
    refine List.pairwise_cons.mpr ⟨fun s hs => .inl ?_, ih h.2⟩
    rw [Region.stop, h.1]
    exact h.2.start_le s hs

end StartTech.Foundation

import StartTech.Foundation.Text
import Mathlib.Data.List.Induction
import Mathlib.Tactic.Linarith

/-!
# Comparison functions and cuts

Comparison functions return an `Ordering` and need not separate equal values,
so what they describe is a total preorder. A cut is a lower set of such a
preorder: it says which points lie below a position.
-/

namespace StartTech.Foundation

open Std

namespace Comparator

variable {α β : Type*} {cmp : β → β → Ordering}

/-- Compare images under a function. -/
def on (cmp : β → β → Ordering) (f : α → β) (a b : α) : Ordering := cmp (f a) (f b)

instance on_transCmp (cmp : β → β → Ordering) [TransCmp cmp] (f : α → β) :
    TransCmp (on cmp f) where
  eq_swap {a b} := by
    exact (OrientedCmp.eq_swap : cmp (f a) (f b) = (cmp (f b) (f a)).swap)
  isLE_trans {a b c} hab hbc := by
    change (cmp (f a) (f c)).isLE = true
    exact TransCmp.isLE_trans hab hbc

/-- Lexicographic comparison of equally long lists extended by one element each. -/
theorem compare_concat [Ord α] (l m : List α) (a b : α) (h : l.length = m.length) :
    compare (l ++ [a]) (m ++ [b]) = (compare l m).then (compare a b) := by
  induction l generalizing m with
  | nil =>
    have hm : m = [] := List.eq_nil_of_length_eq_zero (by simpa using h.symm)
    subst hm
    simp
  | cons x l ih =>
    cases m with
    | nil => simp at h
    | cons y m => simp [ih m (by simpa using h), Ordering.then_assoc]

/-- Compare lists place by place, reading missing places as `d`. -/
def padded (cmp : α → α → Ordering) (d : α) : List α → List α → Ordering
  | [], bs => bs.foldr (fun b rest => (cmp d b).then rest) .eq
  | a :: as, bs => (cmp a (bs.headD d)).then (padded cmp d as bs.tail)

/-- Comparing images place by place is comparing the places. -/
theorem padded_map {cmp' : α → α → Ordering} (f : α → β) (d : α)
    (h : ∀ a b, cmp (f a) (f b) = cmp' a b) (as bs : List α) :
    padded cmp (f d) (as.map f) (bs.map f) = padded cmp' d as bs := by
  induction as generalizing bs with
  | nil =>
    induction bs with
    | nil => rfl
    | cons b bs ih => exact congrArg₂ Ordering.then (h d b) ih
  | cons a as ih =>
    simp [padded, h, ← List.map_tail, ih]

/-- Two comparators that agree on what is paired up agree on whole lists. -/
theorem compareLex_map {γ : Type*} {cmp' : γ → γ → Ordering} {f : α → β}
    {g : α → γ} {as bs : List α} (h : ∀ a ∈ as, ∀ b ∈ bs, cmp (f a) (f b) = cmp' (g a) (g b)) :
    List.compareLex cmp (as.map f) (bs.map f) = List.compareLex cmp' (as.map g) (bs.map g) := by
  induction as generalizing bs with
  | nil => cases bs <;> rfl
  | cons a as ih =>
    cases bs with
    | nil => rfl
    | cons b bs =>
      have htail := @ih bs fun x hx y hy =>
        h x (List.mem_cons_of_mem a hx) y (List.mem_cons_of_mem b hy)
      simp [List.compareLex, h a (by simp) b (by simp), htail]

section Padded

variable {cmp : α → α → Ordering} [TransCmp cmp] {d : α}

/-- One place, whatever the lengths. -/
theorem padded_unfold (a b : List α) :
    padded cmp d a b = (cmp (a.headD d) (b.headD d)).then (padded cmp d a.tail b.tail) := by
  have hd : cmp d d = .eq := ReflCmp.compare_self
  cases a <;> cases b <;> simp [padded, hd]

theorem padded_swap (a b : List α) : padded cmp d a b = (padded cmp d b a).swap := by
  have hround (a b : List α) (h : padded cmp d a.tail b.tail = (padded cmp d b.tail a.tail).swap) :
      padded cmp d a b = (padded cmp d b a).swap := by
    have hhead : cmp (a.headD d) (b.headD d) = (cmp (b.headD d) (a.headD d)).swap :=
      OrientedCmp.eq_swap
    rw [padded_unfold a, padded_unfold b, Ordering.swap_then, hhead, h]
  induction a generalizing b with
  | nil =>
    induction b with
    | nil => rfl
    | cons r rs ih => exact hround [] (r :: rs) ih
  | cons l ls ih => exact hround (l :: ls) b (ih b.tail)

private theorem padded_isLE_trans (n : Nat) (a b c : List α) (ha : a.length ≤ n)
    (hb : b.length ≤ n) (hc : c.length ≤ n) (hab : (padded cmp d a b).isLE = true)
    (hbc : (padded cmp d b c).isLE = true) : (padded cmp d a c).isLE = true := by
  induction n generalizing a b c with
  | zero =>
    have ha' : a = [] := List.eq_nil_of_length_eq_zero (by omega)
    have hc' : c = [] := List.eq_nil_of_length_eq_zero (by omega)
    subst ha' hc'
    rfl
  | succ n ih =>
    rw [padded_unfold, Ordering.isLE_then_iff_and] at hab hbc ⊢
    refine ⟨TransCmp.isLE_trans hab.1 hbc.1, ?_⟩
    rcases hab.2 with hlt | htail
    · exact .inl (TransCmp.lt_of_lt_of_isLE hlt hbc.1)
    · rcases hbc.2 with hlt | htail'
      · exact .inl (TransCmp.lt_of_isLE_of_lt hab.1 hlt)
      · refine .inr (ih a.tail b.tail c.tail ?_ ?_ ?_ htail htail')
        all_goals
          rw [List.length_tail]
          omega

instance padded_transCmp : TransCmp (padded cmp d) where
  eq_swap := padded_swap _ _
  isLE_trans {a b c} hab hbc := by
    refine padded_isLE_trans (a.length + b.length + c.length) a b c ?_ ?_ ?_ hab hbc
    all_goals omega

end Padded

/-- The points of a strictly increasing list. -/
def Increasing (cmp : α → α → Ordering) (l : List α) : Prop :=
  l.Pairwise fun a b => cmp a b = .lt

/-- A position in the preorder, given by which points lie below it. -/
structure Cut (cmp : α → α → Ordering) where
  below : α → Bool
  lower : ∀ {p q}, cmp p q = .lt → below q = true → below p = true
  congr : ∀ {p q}, cmp p q = .eq → below p = below q

variable {cmp : α → α → Ordering} {p a b : α} {l points : List α}

/-- The position of a point: what is strictly smaller lies below it. -/
def Cut.at [TransCmp cmp] (x : α) : Cut cmp where
  below p := cmp p x == .lt
  lower hpq hq := by
    simp only [beq_iff_eq] at hq ⊢
    exact TransCmp.lt_trans hpq hq
  congr hpq := by
    rw [TransCmp.congr_left hpq]

/-- The number of leading points below a cut. In an increasing list these are
all points below it. -/
def Cut.rank (c : Cut cmp) (points : List α) : Nat := (points.takeWhile c.below).length

section

variable (c : Cut cmp)
include c

@[simp] theorem Cut.rank_nil : c.rank [] = 0 := rfl

theorem Cut.rank_cons_below (h : c.below p = true) (ps : List α) :
    c.rank (p :: ps) = c.rank ps + 1 := by
  simp [Cut.rank, h]

theorem Cut.rank_cons_not_below (h : c.below p = false) (ps : List α) : c.rank (p :: ps) = 0 := by
  simp [Cut.rank, h]

theorem Cut.rank_le (points : List α) : c.rank points ≤ points.length :=
  (List.takeWhile_sublist _).length_le

theorem Cut.rank_append (ps qs : List α) :
    c.rank (ps ++ qs) = if c.rank ps = ps.length then ps.length + c.rank qs else c.rank ps := by
  change ((ps ++ qs).takeWhile c.below).length = _
  rw [List.takeWhile_append]
  by_cases h : c.rank ps = ps.length
  · rw [if_pos h, if_pos (by exact h), List.length_append]
    rfl
  · rw [if_neg h, if_neg (by exact h)]
    rfl

theorem Cut.rank_eq_length
    (h : ∀ p ∈ points, c.below p = true) : c.rank points = points.length := by
  induction points with
  | nil => rfl
  | cons p ps ih =>
    rw [c.rank_cons_below (h p (by simp)), ih fun q hq => h q (by simp [hq])]
    rfl

/-- A cut has rank `i` when it lies between the points before and at `i`. -/
theorem Cut.rank_eq_iff (hinc : Increasing cmp points) {i : Nat} (hi : i ≤ points.length) :
    c.rank points = i ↔ (∀ p ∈ if i = 0 then none else points[i - 1]?, c.below p = true) ∧
        ∀ q ∈ points[i]?, c.below q = false := by
  induction points generalizing i with
  | nil =>
    have hi0 : i = 0 := by simpa using hi
    simp [hi0]
  | cons p ps ih =>
    obtain ⟨hp, hps⟩ := List.pairwise_cons.mp hinc
    cases hb : c.below p with
    | true =>
      rw [c.rank_cons_below hb]
      cases i with
      | zero => simp [hb]
      | succ k =>
        have hk := ih hps (by simpa using hi)
        cases k with
        | zero => simpa [hb] using hk
        | succ k => simpa using hk
    | false =>
      rw [c.rank_cons_not_below hb]
      cases i with
      | zero => simp [hb]
      | succ k =>
        refine iff_of_false (by omega) fun h => ?_
        cases k with
        | zero => simp [hb] at h
        | succ k =>
          -- A point below the cut would put the first point below it too.
          have hlt : k < ps.length := Nat.lt_of_succ_le (by simpa using hi)
          have hk := h.1 ps[k] (by simp [hlt])
          rw [c.lower (hp ps[k] (List.getElem_mem hlt)) hk] at hb
          cases hb

end

/-- The number of elements of a list that come before `a`. -/
def placeIn (cmp : α → α → Ordering) (l : List α) (a : α) : Nat :=
  l.countP fun s => cmp s a == .lt

theorem placeIn_lt [TransCmp cmp] (ha : a ∈ l) (h : cmp a b = .lt) :
    placeIn cmp l a < placeIn cmp l b := by
  have hself : cmp a a = .eq := ReflCmp.compare_self
  have hmono (m : List α) : placeIn cmp m a ≤ placeIn cmp m b := by
    apply List.countP_mono_left
    intro s _ hs
    rw [beq_iff_eq] at hs ⊢
    exact TransCmp.lt_trans hs h
  obtain ⟨before, after, rfl⟩ := List.append_of_mem ha
  have hbefore := hmono before
  have hafter := hmono after
  have hne : (Ordering.eq == Ordering.lt) = false := rfl
  simp only [placeIn, List.countP_append, List.countP_cons, hself, h, hne] at hbefore hafter ⊢
  simp only [beq_self_eq_true, if_true, Bool.false_eq_true, if_false]
  omega

/-- Places in a list are ordered as the elements are. -/
theorem compare_placeIn [TransCmp cmp] (ha : a ∈ l) (hb : b ∈ l) :
    compare (placeIn cmp l a) (placeIn cmp l b) = cmp a b := by
  cases h : cmp a b with
  | lt => exact Nat.compare_eq_lt.mpr (placeIn_lt ha h)
  | gt => exact Nat.compare_eq_gt.mpr (placeIn_lt hb (OrientedCmp.lt_of_gt h))
  | eq =>
    have heq : placeIn cmp l a = placeIn cmp l b := by
      simp [placeIn, TransCmp.congr_right h]
    rw [heq]
    exact Nat.compare_eq_eq.mpr rfl

end Comparator

namespace Text

/-- Numbers in the same order compare the same. -/
private theorem compare_congr {a b x y : Nat} (hlt : a < b ↔ x < y) (hgt : b < a ↔ y < x) :
    compare a b = compare x y := by
  simp [Nat.compare_eq_ite_lt, hlt, hgt]

private theorem compare_ten_mul_add {x y a b : Nat} (ha : a < 10) (hb : b < 10) :
    compare (10 * x + a) (10 * y + b) = (compare x y).then (compare a b) := by
  rcases Nat.lt_trichotomy x y with h | rfl | h
  · rw [Nat.compare_eq_lt.mpr h, Nat.compare_eq_lt.mpr (by omega)]
    rfl
  · rw [compare_self]
    exact compare_congr (by omega) (by omega)
  · rw [Nat.compare_eq_gt.mpr h, Nat.compare_eq_gt.mpr (by omega)]
    rfl

theorem compare_toNat (a b : Char) : compare a.toNat b.toNat = compare a b := by
  change compareOfLessAndEq a.toNat b.toNat = compareOfLessAndEq a b
  simp only [compareOfLessAndEq, Char.toNat_inj]
  rfl

private theorem compare_digit {a b : Char} (ha : a.isDigit = true) (hb : b.isDigit = true) :
    compare a b = compare (a.toNat - 48) (b.toNat - 48) := by
  have ha' := (Char.isDigit_iff_toNat.mp ha).1
  have hb' := (Char.isDigit_iff_toNat.mp hb).1
  have h48 : '0'.toNat = 48 := rfl
  rw [← compare_toNat]
  exact compare_congr (by omega) (by omega)

private theorem digit_lt {a : Char} (ha : a.isDigit = true) : a.toNat - '0'.toNat < 10 := by
  have h := (Char.isDigit_iff_toNat.mp ha).2
  have h57 : '9'.toNat = 57 := rfl
  have h48 : '0'.toNat = 48 := rfl
  omega

/-- Digit texts of one length are ordered as the numbers they denote. -/
theorem compare_digits (l m : Text) (hl : ∀ c ∈ l, c.isDigit = true)
    (hm : ∀ c ∈ m, c.isDigit = true) (h : l.length = m.length) :
    compare l m = compare (Nat.ofDigitChars 10 l 0) (Nat.ofDigitChars 10 m 0) := by
  induction l using List.reverseRecOn generalizing m with
  | nil =>
    have hnil : m = [] := List.eq_nil_of_length_eq_zero (by simpa using h.symm)
    subst hnil
    simp
  | append_singleton l a ih =>
    cases m using List.reverseRecOn with
    | nil => simp at h
    | append_singleton m b =>
      have hlen : l.length = m.length := by simpa using h
      have hda : a.isDigit = true := hl a (by simp)
      have hdb : b.isDigit = true := hm b (by simp)
      rw [Comparator.compare_concat l m a b hlen,
        ih m (fun c hc => hl c (by simp [hc])) (fun c hc => hm c (by simp [hc])) hlen,
        Nat.ofDigitChars_append, Nat.ofDigitChars_append]
      rw [compare_digit hda hdb]
      exact (compare_ten_mul_add (digit_lt hda) (digit_lt hdb)).symm

theorem ofDigitChars_decimal (n : Nat) : Nat.ofDigitChars 10 (decimal n) 0 = n :=
  Nat.ofDigitChars_ten_toDigits

theorem digitChar_digit {c : Char} (hc : c.isDigit = true) :
    Nat.digitChar (c.toNat - '0'.toNat) = c := by
  obtain ⟨hlow, hhigh⟩ := Char.isDigit_iff_toNat.mp hc
  have hlt := digit_lt hc
  have h48 : '0'.toNat = 48 := rfl
  apply Char.toNat_inj.mp
  rw [Nat.toNat_digitChar_of_lt_ten hlt]
  omega

/-- A numeral without a leading zero is the decimal text of its value. -/
theorem decimal_ofDigitChars {s : Text} (hne : s ≠ []) (hdigits : ∀ c ∈ s, c.isDigit = true)
    (hzero : ¬ (2 ≤ s.length ∧ s.head? = some '0')) :
    decimal (Nat.ofDigitChars 10 s 0) = s := by
  induction s using List.reverseRecOn with
  | nil => exact absurd rfl hne
  | append_singleton t c ih =>
    have hc : c.isDigit = true := hdigits c (by simp)
    rw [Nat.ofDigitChars_append, Nat.ofDigitChars_cons, Nat.ofDigitChars_nil]
    cases t with
    | nil =>
      rw [decimal, Nat.toDigits_of_lt_base (by simpa using digit_lt hc)]
      simpa using digitChar_digit hc
    | cons d t =>
      have hd : d ≠ '0' := by
        rintro rfl
        exact hzero ⟨by simp, by simp⟩
      have iht := ih (by simp) (fun e he => hdigits e (List.mem_append_left _ he)) (by simp [hd])
      generalize Nat.ofDigitChars 10 (d :: t) 0 = n at iht ⊢
      have hpos : 0 < n := by
        rcases Nat.eq_zero_or_pos n with rfl | h
        · exact absurd (List.cons.inj iht).1.symm hd
        · exact h
      have hlt := digit_lt hc
      rw [decimal, Nat.toDigits_of_base_le (by decide) (by omega)]
      rw [decimal] at iht
      have h1 : (10 * n + (c.toNat - '0'.toNat)) / 10 = n := by omega
      have h2 : (10 * n + (c.toNat - '0'.toNat)) % 10 = c.toNat - '0'.toNat := by omega
      rw [h1, h2, iht, digitChar_digit hc]

/-- Decimal texts are ordered as numbers when shorter texts come first. -/
theorem compare_decimal (n m : Nat) :
    (compare (byteLen (decimal n)) (byteLen (decimal m))).then (compare (decimal n) (decimal m)) =
      compare n m := by
  have hlt : ∀ {x y : Nat}, (decimal x).length < (decimal y).length → x < y := by
    intro x y h
    have hpos : 0 < (decimal x).length := Nat.length_toDigits_pos
    have hx := (Nat.length_toDigits_le_iff (n := x) (by decide) hpos).mp le_rfl
    have hy : ¬ y < 10 ^ (decimal x).length := fun hy =>
      absurd ((Nat.length_toDigits_le_iff (by decide) hpos).mpr hy) (by
        change ¬ (decimal y).length ≤ _
        omega)
    omega
  rw [byteLen_decimal, byteLen_decimal]
  rcases Nat.lt_trichotomy (decimal n).length (decimal m).length with h | h | h
  · rw [Nat.compare_eq_lt.mpr h, Nat.compare_eq_lt.mpr (hlt h)]
    rfl
  · rw [compare_digits _ _ (fun _ hc => decimal_isDigit hc) (fun _ hc => decimal_isDigit hc) h,
      ofDigitChars_decimal, ofDigitChars_decimal, h]
    simp
  · rw [Nat.compare_eq_gt.mpr h, Nat.compare_eq_gt.mpr (hlt h)]
    rfl

end Text

end StartTech.Foundation

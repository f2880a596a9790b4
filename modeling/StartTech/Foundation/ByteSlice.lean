import StartTech.Foundation.Text

/-!
# Slices of a text by byte positions

A text is cut at byte positions, which have to lie between two of its characters.
Cutting elsewhere, or behind the end, fails.
-/

namespace StartTech.Foundation.Text

/-- Cut a text at a byte position; `none` when it is not between two characters. -/
def splitAtByte : Nat → Text → Option (Text × Text)
  | 0, s => some ([], s)
  | _ + 1, [] => none
  | n + 1, c :: rest =>
    if c.utf8Size ≤ n + 1 then
      (splitAtByte (n + 1 - c.utf8Size) rest).map fun r => (c :: r.1, r.2)
    else none

/-- The part between two byte positions. -/
def slice (s : Text) (start stop : Nat) : Option Text :=
  if start ≤ stop then
    (splitAtByte start s).bind fun r => (splitAtByte (stop - start) r.2).map Prod.fst
  else none

/-- What is before a byte position; a position behind the end changes nothing. -/
def truncate (s : Text) (n : Nat) : Option Text :=
  if n ≤ byteLen s then (splitAtByte n s).map Prod.fst else some s

/-- Take the part between two byte positions out. -/
def removeRange (s : Text) (start stop : Nat) : Option Text :=
  if start ≤ stop then
    (splitAtByte start s).bind fun r =>
      (splitAtByte (stop - start) r.2).map fun q => r.1 ++ q.2
  else none

theorem byteLen_eq_zero {s : Text} : byteLen s = 0 ↔ s = [] := by
  cases s with
  | nil => simp
  | cons c rest =>
    have := c.utf8Size_pos
    simp
    omega

theorem splitAtByte_eq_some {n : Nat} {s p q : Text} :
    splitAtByte n s = some (p, q) ↔ s = p ++ q ∧ byteLen p = n := by
  have hzero {s p : Text} : splitAtByte 0 s = some (p, q) ↔ s = p ++ q ∧ byteLen p = 0 := by
    simp only [splitAtByte, Option.some.injEq, Prod.mk.injEq, byteLen_eq_zero]
    constructor
    · rintro ⟨rfl, rfl⟩
      exact ⟨rfl, rfl⟩
    · rintro ⟨h, rfl⟩
      exact ⟨rfl, h⟩
  induction s generalizing n p with
  | nil =>
    cases n with
    | zero => exact hzero
    | succ n =>
      simp only [splitAtByte, reduceCtorEq, false_iff, not_and]
      intro h
      obtain ⟨rfl, -⟩ := List.append_eq_nil_iff.mp h.symm
      simp
  | cons c rest ih =>
    cases n with
    | zero => exact hzero
    | succ n =>
      simp only [splitAtByte, Option.ite_none_right_eq_some, Option.map_eq_some_iff,
        Prod.exists, Prod.mk.injEq]
      constructor
      · rintro ⟨hle, a, b, hab, rfl, rfl⟩
        obtain ⟨rfl, hlen⟩ := ih.mp hab
        refine ⟨rfl, ?_⟩
        rw [byteLen_cons]
        omega
      · rintro ⟨hs, hlen⟩
        cases p with
        | nil => simp at hlen
        | cons d p =>
          obtain ⟨rfl, rfl⟩ := List.cons.inj hs
          rw [byteLen_cons] at hlen
          exact ⟨by omega, p, q, ih.mpr ⟨rfl, by omega⟩, rfl, rfl⟩

theorem splitAtByte_append (p q : Text) : splitAtByte (byteLen p) (p ++ q) = some (p, q) :=
  splitAtByte_eq_some.mpr ⟨rfl, rfl⟩

/-- Behind a part of a text, cutting goes on in what follows it. -/
theorem splitAtByte_add (front back : Text) (n : Nat) :
    splitAtByte (byteLen front + n) (front ++ back) =
      (splitAtByte n back).map fun r => (front ++ r.1, r.2) := by
  induction front with
  | nil => simp
  | cons c front ih =>
    have hpos := c.utf8Size_pos
    obtain ⟨j, hj⟩ :=
      Nat.exists_eq_succ_of_ne_zero (show c.utf8Size + byteLen front + n ≠ 0 by omega)
    rw [byteLen_cons, hj, List.cons_append, splitAtByte, ← Nat.succ_eq_add_one, ← hj,
      if_pos (by omega), show c.utf8Size + byteLen front + n - c.utf8Size = byteLen front + n by
        omega, ih, Option.map_map]
    rfl

/-- Inside of a character there is nowhere to cut. -/
theorem splitAtByte_inside (p q : Text) {c : Char} {k : Nat} (hpos : 0 < k)
    (hlt : k < c.utf8Size) : splitAtByte (byteLen p + k) (p ++ c :: q) = none := by
  obtain ⟨j, rfl⟩ := Nat.exists_eq_succ_of_ne_zero (Nat.pos_iff_ne_zero.mp hpos)
  rw [splitAtByte_add, splitAtByte, if_neg (by omega)]
  rfl

theorem slice_append (p m q : Text) :
    slice (p ++ (m ++ q)) (byteLen p) (byteLen p + byteLen m) = some m := by
  rw [slice, if_pos (Nat.le_add_right _ _), splitAtByte_append, Option.bind_some,
    Nat.add_sub_cancel_left, splitAtByte_append]
  rfl

theorem slice_add (front back : Text) (start stop : Nat) :
    slice (front ++ back) (byteLen front + start) (byteLen front + stop) =
      slice back start stop := by
  rw [slice, slice, splitAtByte_add, Nat.add_sub_add_left]
  simp only [Nat.add_le_add_iff_left, Option.bind_map, Function.comp_def]

theorem slice_inside (p m q : Text) {c : Char} {k : Nat} (hpos : 0 < k) (hlt : k < c.utf8Size) :
    slice (p ++ (m ++ c :: q)) (byteLen p) (byteLen p + (byteLen m + k)) = none := by
  rw [slice, if_pos (Nat.le_add_right _ _), splitAtByte_append, Option.bind_some,
    Nat.add_sub_cancel_left, splitAtByte_inside m q hpos hlt]
  rfl

theorem truncate_append (p q : Text) : truncate (p ++ q) (byteLen p) = some p := by
  rw [truncate, if_pos (by simp), splitAtByte_append]
  rfl

theorem removeRange_append (p m q : Text) :
    removeRange (p ++ (m ++ q)) (byteLen p) (byteLen p + byteLen m) = some (p ++ q) := by
  rw [removeRange, if_pos (Nat.le_add_right _ _), splitAtByte_append, Option.bind_some,
    Nat.add_sub_cancel_left, splitAtByte_append]
  rfl

end StartTech.Foundation.Text

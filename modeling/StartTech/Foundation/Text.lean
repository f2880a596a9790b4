import Mathlib.Data.List.Basic

/-!
# Text as characters with byte offsets

A text is the list of its characters. Offsets into it count UTF-8 bytes, so
an offset inside a multi-byte character is not a character boundary and
cutting there fails, as slicing a string there does.
-/

namespace StartTech.Foundation

abbrev Text := List Char

namespace Text

/-- The length in UTF-8 bytes. -/
def byteLen : Text → Nat
  | [] => 0
  | c :: rest => c.utf8Size + byteLen rest

@[simp] theorem byteLen_nil : byteLen [] = 0 := rfl

@[simp] theorem byteLen_cons (c : Char) (s : Text) :
    byteLen (c :: s) = c.utf8Size + byteLen s := rfl

@[simp] theorem byteLen_append (s t : Text) : byteLen (s ++ t) = byteLen s + byteLen t := by
  induction s with
  | nil => simp
  | cons c rest ih => simp [ih, Nat.add_assoc]

/-- The decimal text of a number, without leading zeros. -/
def decimal (n : Nat) : Text := Nat.toDigits 10 n

/-- One past the largest value of a 64-bit machine word. -/
def wordLimit : Nat := 18446744073709551616

/-- Parse a number: an optional plus sign and at least one digit. -/
def parseDecimal (s : Text) : Option Nat :=
  let digits := match s with
    | '+' :: rest => rest
    | _ => s
  if digits.isEmpty || !digits.all Char.isDigit then none
  else some (Nat.ofDigitChars 10 digits 0)

/-- Parse an unsigned machine word, which fails when the value does not fit. -/
def parseUsize (s : Text) : Option Nat :=
  match parseDecimal s with
  | some n => if n < wordLimit then some n else none
  | none => none

variable {s : Text} {n : Nat} {sep c : Char}

theorem parseUsize_lt (h : parseUsize s = some n) : n < wordLimit := by
  unfold parseUsize at h
  split at h
  · simp only [Option.ite_none_right_eq_some, Option.some.injEq] at h
    exact h.2 ▸ h.1
  · simp at h

/-- Split at the first occurrence of a separator, which is dropped. -/
def splitOnce (sep : Char) : Text → Option (Text × Text)
  | [] => none
  | c :: rest =>
    if c = sep then some ([], rest)
    else (splitOnce sep rest).map fun p => (c :: p.1, p.2)

/-- The part before the separator has none. -/
theorem splitOnce_append (h : sep ∉ s) (t : Text) :
    splitOnce sep (s ++ sep :: t) = some (s, t) := by
  induction s with
  | nil => simp [splitOnce]
  | cons c s ih =>
    have hne : c ≠ sep := fun heq => h (heq ▸ List.mem_cons_self)
    simp [splitOnce, hne, ih fun hmem => h (List.mem_cons_of_mem c hmem)]

theorem splitOnce_eq_none (h : sep ∉ s) : splitOnce sep s = none := by
  induction s with
  | nil => rfl
  | cons c s ih =>
    have hne : c ≠ sep := fun heq => h (heq ▸ List.mem_cons_self)
    simp [splitOnce, hne, ih fun hmem => h (List.mem_cons_of_mem c hmem)]

theorem eq_of_splitOnce {parts : Text × Text} (h : splitOnce sep s = some parts) :
    s = parts.1 ++ sep :: parts.2 := by
  induction s generalizing parts with
  | nil => cases h
  | cons c rest ih =>
    rw [splitOnce] at h
    split_ifs at h with hc
    · cases h
      rw [hc, List.nil_append]
    · obtain ⟨parts, hparts, rfl⟩ := Option.map_eq_some_iff.mp h
      rw [ih hparts, List.cons_append]

/-- The pieces between separators; a text without separators is one piece. -/
def split (sep : Char) (s : Text) : List Text := s.splitOn sep

theorem isUpper_iff_toNat : c.isUpper = true ↔ 'A'.toNat ≤ c.toNat ∧ c.toNat ≤ 'Z'.toNat :=
  decide_eq_true_iff.trans (and_congr UInt32.le_iff_toNat_le UInt32.le_iff_toNat_le)

theorem isLower_iff_toNat : c.isLower = true ↔ 'a'.toNat ≤ c.toNat ∧ c.toNat ≤ 'z'.toNat := by
  change (decide (c.val ≥ 'a'.val) && decide (c.val ≤ 'z'.val)) = true ↔ _
  rw [Bool.and_eq_true, decide_eq_true_iff, decide_eq_true_iff]
  exact and_congr UInt32.le_iff_toNat_le UInt32.le_iff_toNat_le

theorem byteLen_eq_length_of_isDigit (h : ∀ c ∈ s, c.isDigit = true) : byteLen s = s.length := by
  induction s with
  | nil => rfl
  | cons c rest ih =>
    have hc : c.utf8Size = 1 := by
      have hd := h c (by simp)
      simp only [Char.isDigit, Bool.and_eq_true, decide_eq_true_eq] at hd
      have hle : c.val ≤ 0x7f := by
        have := hd.2
        exact Nat.le_trans this (by decide)
      simp [Char.utf8Size, hle]
    rw [byteLen_cons, ih fun d hd => h d (List.mem_cons_of_mem _ hd), List.length_cons]
    omega

theorem decimal_isDigit (h : c ∈ decimal n) : c.isDigit = true :=
  Nat.isDigit_of_mem_toDigits (by decide) (by decide) h

theorem parseDecimal_digits (hne : s ≠ []) (h : ∀ c ∈ s, c.isDigit = true) :
    parseDecimal s = some (Nat.ofDigitChars 10 s 0) := by
  obtain ⟨c, rest, rfl⟩ := List.exists_cons_of_ne_nil hne
  have hplus : c ≠ '+' := by
    rintro rfl
    exact absurd (h '+' (by simp)) (by decide)
  have hdigits : (c :: rest).all Char.isDigit = true := List.all_eq_true.mpr h
  simp only [parseDecimal]
  split
  · rename_i heq
    exact absurd (List.cons.inj heq).1 hplus
  · simp only [hdigits]
    rfl

theorem parseDecimal_decimal (n : Nat) : parseDecimal (decimal n) = some n := by
  have hne : decimal n ≠ [] := Nat.toDigits_ne_nil
  rw [parseDecimal_digits hne fun c hc => decimal_isDigit hc, decimal,
    Nat.ofDigitChars_ten_toDigits]

theorem parseUsize_digits (hne : s ≠ []) (h : ∀ c ∈ s, c.isDigit = true) :
    parseUsize s = if Nat.ofDigitChars 10 s 0 < wordLimit then some (Nat.ofDigitChars 10 s 0)
      else none := by
  rw [parseUsize, parseDecimal_digits hne h]

/-- Only zero is written with a leading zero. -/
theorem decimal_head (hn : n ≠ 0) : (decimal n).head? ≠ some '0' := by
  induction n using Nat.strongRecOn with
  | ind n ih =>
    rcases Nat.lt_or_ge n 10 with hlt | hge
    · have hdigit : ∀ n < 10, n ≠ 0 → Nat.digitChar n ≠ '0' := by decide
      simpa [decimal, Nat.toDigits_of_lt_base hlt] using hdigit n hlt hn
    · rw [decimal, Nat.toDigits_of_base_le (by decide) hge,
        List.head?_append_of_ne_nil _ Nat.toDigits_ne_nil]
      exact ih (n / 10) (by omega) (by omega)

theorem byteLen_decimal (n : Nat) : byteLen (decimal n) = (decimal n).length :=
  byteLen_eq_length_of_isDigit fun _ h => decimal_isDigit h

end Text

end StartTech.Foundation

import StartTech.Foundation.JsNumber
import Mathlib.Tactic.Positivity

/-!
# Natural numbers as floats and as texts

Natural numbers up to `2 ^ 53` are floats and larger ones stay at least as
large when they are rounded. A float that is a natural number below `10 ^ 21`
is written without an exponent.
-/

namespace StartTech.Foundation.JsNumber
open Text (decimal)

theorem halfEven_intCast (z : ℤ) : halfEven z = z := by
  simp [halfEven]

theorem two_zpow_pos (k : ℤ) : (0 : ℚ) < 2 ^ k := zpow_pos (by norm_num) k

theorem spacing_pos (q : ℚ) : 0 < spacing q := two_zpow_pos _

variable {q y : ℚ} {z m : ℤ} {n s k : ℕ}

/-- A value that is a multiple of the spacing of floats at its place is a float. -/
theorem round_of_eq_mul (hq : q = z * spacing q) (hlt : |q| < 2 ^ 1024) : round q = .finite q := by
  have hdiv : q / spacing q = z := by
    rw [div_eq_iff (spacing_pos q).ne']
    exact hq
  simp only [round, hdiv, halfEven_intCast, ← hq]
  rw [if_neg (not_le.mpr hlt)]

/-- Integers with few bits, shifted, are multiples of the spacing at their place. -/
theorem exists_eq_mul_spacing (hm : |m| < 2 ^ 53) {k : ℤ} (hk : -1074 ≤ k) :
    ∃ z : ℤ, (m * 2 ^ k : ℚ) = z * spacing (m * 2 ^ k) := by
  by_cases h0 : m = 0
  · exact ⟨0, by simp [h0]⟩
  have hpos : (0 : ℚ) < |(m * 2 ^ k : ℚ)| :=
    abs_pos.mpr (mul_ne_zero (by exact_mod_cast h0) (two_zpow_pos k).ne')
  have hlt : |(m * 2 ^ k : ℚ)| < ((2 : ℕ) : ℚ) ^ (53 + k) := by
    rw [abs_mul, abs_of_pos (two_zpow_pos k), zpow_add₀ (by norm_num)]
    apply mul_lt_mul_of_pos_right _ (two_zpow_pos k)
    exact_mod_cast hm
  have hlog := (Int.lt_zpow_iff_log_lt (by norm_num) hpos).mp hlt
  -- The spacing is at most 2 ^ k, so a multiple of 2 ^ k is a multiple of it.
  obtain ⟨j, hj⟩ : ∃ j : ℕ, k = max (Int.log 2 |(m * 2 ^ k : ℚ)| - 52) (-1074) + j :=
    ⟨(k - max (Int.log 2 |(m * 2 ^ k : ℚ)| - 52) (-1074)).toNat, by omega⟩
  refine ⟨m * 2 ^ j, ?_⟩
  calc (m * 2 ^ k : ℚ)
      = m * 2 ^ (max (Int.log 2 |(m * 2 ^ k : ℚ)| - 52) (-1074) + (j : ℤ)) := by rw [← hj]
    _ = ((m * 2 ^ j : ℤ) : ℚ) * spacing (m * 2 ^ k) := by
        rw [spacing, zpow_add₀ (by norm_num), zpow_natCast]
        push_cast
        ring

theorem round_natCast (hn : n ≤ 2 ^ 53) : round n = .finite n := by
  have hlt : |(n : ℚ)| < 2 ^ 1024 := by
    rw [abs_of_nonneg (Nat.cast_nonneg n)]
    calc (n : ℚ) ≤ 2 ^ 53 := by exact_mod_cast hn
      _ < 2 ^ 1024 := pow_lt_pow_right₀ (by norm_num) (by norm_num)
  obtain ⟨m, k, hm, hk, hnm⟩ : ∃ m k : ℤ, |m| < 2 ^ 53 ∧ -1074 ≤ k ∧ (n : ℚ) = m * 2 ^ k := by
    rcases hn.lt_or_eq with h | rfl
    · exact ⟨n, 0, by rw [abs_of_nonneg (by omega)]; exact_mod_cast h, by omega, by simp⟩
    · exact ⟨2 ^ 52, 1, by norm_num, by omega, by norm_num⟩
  obtain ⟨z, hz⟩ := exists_eq_mul_spacing hm hk
  rw [← hnm] at hz
  exact round_of_eq_mul hz hlt

theorem le_halfEven (h : z ≤ y) : z ≤ halfEven y := by
  have hfloor : z ≤ ⌊y⌋ := Int.le_floor.mpr h
  rw [halfEven]
  split <;> omega

theorem of_round_eq {p : ℚ} (h : round p = .finite q) :
    q = halfEven (p / spacing p) * spacing p ∧ |q| < 2 ^ 1024 := by
  simp only [round] at h
  split at h
  · cases h
  · rename_i hlt
    cases h
    exact ⟨rfl, not_le.mp hlt⟩

/-- Large natural numbers have more bits than a float. -/
theorem exists_spacing (hn : 2 ^ 53 ≤ n) :
    ∃ k : ℕ, 1 ≤ k ∧ Int.log 2 (n : ℚ) = 52 + k ∧ spacing n = 2 ^ (k : ℤ) := by
  have hpos : (0 : ℚ) < n := by exact_mod_cast Nat.lt_of_lt_of_le (by norm_num) hn
  have hlog : 53 ≤ Int.log 2 (n : ℚ) := by
    rw [← Int.zpow_le_iff_le_log (by norm_num) hpos]
    exact_mod_cast hn
  obtain ⟨k, hk⟩ := Int.eq_ofNat_of_zero_le (show 0 ≤ Int.log 2 (n : ℚ) - 52 by omega)
  refine ⟨k, by omega, by omega, ?_⟩
  rw [spacing, abs_of_pos hpos, max_eq_left (by omega), hk]

/-- Rounding does not bring a large number down to the safe integers. -/
theorem le_of_round_eq (hn : 2 ^ 53 ≤ n) (h : round n = .finite q) : 2 ^ 53 ≤ q := by
  have hpos : (0 : ℚ) < n := by exact_mod_cast Nat.lt_of_lt_of_le (by norm_num) hn
  obtain ⟨k, hk, hlog, hspacing⟩ := exists_spacing hn
  have hquot : ((2 ^ 52 : ℤ) : ℚ) ≤ n / spacing n := by
    rw [le_div_iff₀ (spacing_pos _), hspacing]
    calc ((2 ^ 52 : ℤ) : ℚ) * 2 ^ (k : ℤ) = ((2 : ℕ) : ℚ) ^ Int.log 2 (n : ℚ) := by
          rw [hlog, zpow_add₀ (by norm_num)]
          norm_num
      _ ≤ n := Int.zpow_log_le_self (by norm_num) hpos
  have hdigits : ((2 ^ 52 : ℤ) : ℚ) ≤ halfEven (n / spacing n) := by
    exact_mod_cast le_halfEven hquot
  have htwo : (2 : ℚ) ≤ spacing n := by
    rw [hspacing]
    calc (2 : ℚ) = 2 ^ (1 : ℤ) := by norm_num
      _ ≤ 2 ^ (k : ℤ) := zpow_le_zpow_right₀ (by norm_num) (by omega)
  calc (2 : ℚ) ^ 53 = ((2 ^ 52 : ℤ) : ℚ) * 2 := by norm_num
    _ ≤ halfEven (n / spacing n) * spacing n :=
      mul_le_mul hdigits htwo (by norm_num) (le_trans (by norm_num) hdigits)
    _ = q := (of_round_eq h).1.symm

theorem halfEven_le (h : y < z) : halfEven y ≤ z := by
  have hfloor : ⌊y⌋ < z := Int.floor_lt.mpr h
  rw [halfEven]
  split <;> omega

/-- An integer with few bits, or the next power of two, shifted, is a float. -/
theorem round_of_bits {k : ℤ} (hm : 0 ≤ m) (hle : m ≤ 2 ^ 53) (hk : 0 ≤ k)
    (hlt : |(m * 2 ^ k : ℚ)| < 2 ^ 1024) : round (m * 2 ^ k) = .finite (m * 2 ^ k) := by
  rcases hle.lt_or_eq with h | rfl
  · obtain ⟨z, hz⟩ := exists_eq_mul_spacing (m := m) (by rwa [abs_of_nonneg hm]) (show -1074 ≤ k by omega)
    exact round_of_eq_mul hz hlt
  · obtain ⟨z, hz⟩ := exists_eq_mul_spacing (m := 2 ^ 52) (by norm_num) (show -1074 ≤ k + 1 by omega)
    have hshift : (((2 ^ 52 : ℤ) : ℚ) * 2 ^ (k + 1)) = ((2 ^ 53 : ℤ) : ℚ) * 2 ^ k := by
      rw [zpow_add₀ (by norm_num)]
      ring
    rw [hshift] at hz
    exact round_of_eq_mul hz hlt

/-- A natural number is rounded to a natural number, which is a float. -/
theorem exists_nat_of_round (h : round n = .finite q) : ∃ m : ℕ, q = m ∧ round m = .finite m := by
  rcases Nat.lt_or_ge (2 ^ 53) n with hn | hn
  · obtain ⟨k, -, hlog, hspacing⟩ := exists_spacing hn.le
    have hquot : (n : ℚ) / spacing n < ((2 ^ 53 : ℤ) : ℚ) := by
      rw [div_lt_iff₀ (spacing_pos _), hspacing]
      calc (n : ℚ) < ((2 : ℕ) : ℚ) ^ (Int.log 2 (n : ℚ) + 1) :=
            Int.lt_zpow_succ_log_self (by norm_num) _
        _ = ((2 ^ 53 : ℤ) : ℚ) * 2 ^ (k : ℤ) := by
            rw [hlog, show 52 + (k : ℤ) + 1 = 53 + k by omega, zpow_add₀ (by norm_num)]
            norm_num
    have hupper := halfEven_le hquot
    have hlower : 0 ≤ halfEven (n / spacing n) :=
      le_halfEven (by exact_mod_cast div_nonneg (Nat.cast_nonneg n) (spacing_pos _).le)
    obtain ⟨z, hz⟩ := Int.eq_ofNat_of_zero_le hlower
    obtain ⟨hq, hlt⟩ := of_round_eq h
    rw [hz] at hlower hupper
    rw [hz, hspacing] at hq
    rw [hq] at hlt
    have hround := round_of_bits hlower hupper (Int.natCast_nonneg k) hlt
    have hcast : (((z : ℤ) : ℚ) * 2 ^ (k : ℤ)) = ((z * 2 ^ k : ℕ) : ℚ) := by
      push_cast
      rw [zpow_natCast]
    rw [hcast] at hq hround
    exact ⟨z * 2 ^ k, hq, hround⟩
  · rw [round_natCast hn] at h
    cases h
    exact ⟨n, rfl, round_natCast hn⟩

theorem decimal_mul_ten {m : ℕ} (hm : 0 < m) : decimal (m * 10) = decimal m ++ ['0'] := by
  rw [decimal, Nat.toDigits_of_base_le (by decide) (by omega), Nat.mul_div_cancel m (by decide),
    Nat.mul_mod_left]
  rfl

theorem decimal_mul_pow (hs : 0 < s) (j : ℕ) :
    decimal (s * 10 ^ j) = decimal s ++ List.replicate j '0' := by
  induction j with
  | zero => simp
  | succ j ih =>
    rw [Nat.pow_succ, ← Nat.mul_assoc, decimal_mul_ten (by positivity), ih, List.append_assoc,
      ← List.replicate_succ']

theorem length_decimal_le_iff (hk : 0 < k) :
    (decimal n).length ≤ k ↔ n < 10 ^ k := Nat.length_toDigits_le_iff (by decide) hk

/-- The decimal point of a natural number stands behind its last digit. -/
theorem pointPlace_natCast (hn : 0 < n) : pointPlace n = (decimal n).length := by
  have hlen : (decimal n).length = Nat.log 10 n + 1 := by
    apply le_antisymm
    · exact (length_decimal_le_iff (by omega)).mpr (Nat.lt_pow_succ_log_self (by decide) n)
    · by_contra hlt
      have hpos : 0 < (decimal n).length := Nat.length_toDigits_pos
      have hn' := (length_decimal_le_iff hpos).mp le_rfl
      have hle : 10 ^ (decimal n).length ≤ n :=
        (Nat.pow_le_pow_right (by decide) (by omega)).trans (Nat.pow_log_le_self 10 hn.ne')
      omega
  rw [pointPlace, Int.log_natCast, hlen]
  rfl

/-- The search finds the digits of some number of places once a number suffices. -/
theorem shortestFrom_spec {d s₀ : ℕ} (hd : digitsOfLength q d = some s₀) (fuel k : ℕ) (hk : k ≤ d)
    (hfuel : d < k + fuel) :
    ∃ k' s, shortestFrom q fuel k = some (k', s) ∧ k' ≤ d ∧ digitsOfLength q k' = some s := by
  induction fuel generalizing k with
  | zero => omega
  | succ fuel ih =>
    rw [shortestFrom]
    cases hdigits : digitsOfLength q k with
    | some s => exact ⟨k, s, rfl, hk, hdigits⟩
    | none =>
      have hne : k ≠ d := by
        rintro rfl
        rw [hd] at hdigits
        cases hdigits
      exact ih (k + 1) (by omega) (by omega)

theorem rdropWhile_append_replicate (t : Text) :
    ∃ j, t = t.rdropWhile (· == '0') ++ List.replicate j '0' := by
  induction t using List.reverseRecOn with
  | nil => exact ⟨0, rfl⟩
  | append_singleton t c ih =>
    by_cases hc : c = '0'
    · obtain ⟨j, hj⟩ := ih
      refine ⟨j + 1, ?_⟩
      rw [List.rdropWhile_concat_pos _ _ _ (by simp [hc]), List.replicate_succ', ← List.append_assoc,
        ← hj, hc]
    · rw [List.rdropWhile_concat_neg _ _ _ (by simp [hc])]
      simp

/-- Digits with zeros behind them up to the decimal point. -/
theorem layout_strip {t : Text} {j : ℕ} (h : t.length + j ≤ 21) :
    layout (t.rdropWhile (· == '0')) (t.length + j : ℕ) = t ++ List.replicate j '0' := by
  obtain ⟨i, hi⟩ := rdropWhile_append_replicate t
  generalize t.rdropWhile (· == '0') = u at hi
  subst hi
  have hlen : (u.length : ℤ) ≤ ((u ++ List.replicate i '0').length + j : ℕ) := by
    rw [List.length_append]
    omega
  rw [layout, if_pos ⟨hlen, by exact_mod_cast h⟩]
  have hnat : (((u ++ List.replicate i '0').length + j : ℕ) - (u.length : ℤ)).toNat = i + j := by
    simp
    omega
  rw [hnat, List.replicate_add, List.append_assoc]

theorem digitsOfLength_self (hpos : 0 < n) (hn : round n = .finite n) :
    digitsOfLength n (decimal n).length = some n := by
  simp [digitsOfLength, pointPlace_natCast hpos, hn]

theorem digitsOfLength_near (h : digitsOfLength q k = some s) :
    ⌊q * 10 ^ ((k : ℤ) - pointPlace q)⌋₊ ≤ s ∧ s ≤ ⌊q * 10 ^ ((k : ℤ) - pointPlace q)⌋₊ + 1 := by
  have hmem := List.mem_of_find?_eq_some h
  split at hmem <;> simp only [List.mem_cons, List.not_mem_nil, or_false] at hmem <;>
    rcases hmem with rfl | rfl <;> omega

theorem digitsOfLength_le (hpos : 0 < n) (h : digitsOfLength n k = some s) : s ≤ 10 ^ k := by
  have hlt : (n : ℚ) * 10 ^ ((k : ℤ) - pointPlace n) < (10 ^ k : ℕ) := by
    have hn : (n : ℚ) < 10 ^ (decimal n).length := by
      exact_mod_cast (length_decimal_le_iff Nat.length_toDigits_pos).mp le_rfl
    rw [pointPlace_natCast hpos, zpow_sub₀ (by norm_num), zpow_natCast, zpow_natCast, ← mul_div_assoc,
      div_lt_iff₀ (by positivity), mul_comm]
    push_cast
    exact mul_lt_mul_of_pos_left hn (by positivity)
  have hlow : ⌊(n : ℚ) * 10 ^ ((k : ℤ) - pointPlace n)⌋₊ < 10 ^ k := by
    apply (Nat.floor_lt' (by positivity)).mpr hlt
  exact (digitsOfLength_near h).2.trans hlow

theorem round_ten_pow : round ((10 ^ 21 : ℕ) : ℚ) = .finite (10 ^ 21 : ℕ) := by
  obtain ⟨z, hz⟩ := exists_eq_mul_spacing (m := 5 ^ 21) (k := 21) (by norm_num) (by norm_num)
  have hten : (((5 ^ 21 : ℤ) : ℚ) * 2 ^ (21 : ℤ)) = ((10 ^ 21 : ℕ) : ℚ) := by norm_num
  rw [hten] at hz
  apply round_of_eq_mul hz
  calc ((10 ^ 21 : ℕ) : ℚ) ≤ 2 ^ 70 := by norm_num
    _ < 2 ^ 1024 := pow_lt_pow_right₀ (by norm_num) (by norm_num)

/-- A float that is a natural number below `10 ^ 21` is written as the decimal
text of a number that rounds to it. -/
theorem text_natCast (hn : round n = .finite n) (hlt : n < 10 ^ 21) :
    ∃ m : ℕ, text (.finite n) = decimal m ∧ round m = .finite n ∧ m < 10 ^ 21 := by
  rcases Nat.eq_zero_or_pos n with rfl | hpos
  · exact ⟨0, rfl, hn, hlt⟩
  have hplace := pointPlace_natCast hpos
  have hd : (decimal n).length ≤ 21 := (length_decimal_le_iff (by decide)).mpr hlt
  obtain ⟨k, s, hshort, hk, hs⟩ := shortestFrom_spec (digitsOfLength_self hpos hn) digitLimit 1
    Nat.length_toDigits_pos (by rw [digitLimit]; omega)
  obtain ⟨j, hj⟩ := Nat.exists_eq_add_of_le hk
  have hround : round (s * 10 ^ (pointPlace (n : ℚ) - k)) = .finite n := by
    simpa using List.find?_some hs
  have hpow : ((s : ℚ) * 10 ^ (pointPlace (n : ℚ) - k)) = ((s * 10 ^ j : ℕ) : ℚ) := by
    rw [hplace, hj]
    push_cast
    rw [add_sub_cancel_left, zpow_natCast]
  rw [hpow] at hround
  have hs0 : 0 < s := by
    rcases Nat.eq_zero_or_pos s with rfl | h
    · rw [Nat.zero_mul, round_natCast (by positivity)] at hround
      have h0 := JsNumber.finite.inj hround
      exact absurd (by exact_mod_cast h0 : 0 = n) hpos.ne
    · exact h
  have hbound : s * 10 ^ j ≤ 10 ^ 21 := calc
    s * 10 ^ j ≤ 10 ^ k * 10 ^ j := Nat.mul_le_mul_right _ (digitsOfLength_le hpos hs)
    _ = 10 ^ (decimal n).length := by rw [hj, Nat.pow_add]
    _ ≤ 10 ^ 21 := Nat.pow_le_pow_right (by decide) hd
  have hne : s * 10 ^ j ≠ 10 ^ 21 := by
    intro heq
    rw [heq, round_ten_pow] at hround
    have h21 := JsNumber.finite.inj hround
    exact absurd (by exact_mod_cast h21 : 10 ^ 21 = n) hlt.ne'
  refine ⟨s * 10 ^ j, ?_, hround, by omega⟩
  have hlen : (decimal s).length + j ≤ 21 := by
    have hall := (length_decimal_le_iff (n := s * 10 ^ j) (k := 21) (by decide)).mpr (by omega)
    rwa [decimal_mul_pow hs0, List.length_append, List.length_replicate] at hall
  have hq : (n : ℚ) ≠ 0 := by exact_mod_cast hpos.ne'
  have hnneg : ¬ (n : ℚ) < 0 := not_lt.mpr (Nat.cast_nonneg n)
  rw [text, if_neg hq, if_neg hnneg, positiveText, hshort, decimal_mul_pow hs0, ← layout_strip hlen]
  rw [hplace, hj]
  change layout _ (((k + j : ℕ) : ℤ) + (decimal s).length - k) = _
  congr 1
  omega

/-- A number below `10 ^ 21`, which is written without an exponent. -/
def isShort : JsNumber → Bool
  | .finite q => decide (q < 10 ^ 21)
  | _ => false

theorem text_short (h : (round n).isShort = true) :
    ∃ m : ℕ, (round n).text = decimal m ∧ round m = round n := by
  cases hround : round n with
  | nan | infinity negative =>
    rw [hround] at h
    cases h
  | finite q =>
    rw [hround] at h
    obtain ⟨k, rfl, hk⟩ := exists_nat_of_round hround
    have hlt : (k : ℚ) < 10 ^ 21 := by simpa [isShort] using h
    obtain ⟨m, htext, hm, -⟩ := text_natCast hk (by exact_mod_cast hlt)
    exact ⟨m, htext, hm⟩

theorem le_digitsOfLength (hpos : 0 < n) (h : digitsOfLength n k = some s) :
    k ≤ (decimal s).length := by
  rcases Nat.eq_zero_or_pos k with rfl | hk
  · exact Nat.zero_le _
  obtain ⟨k, rfl⟩ := Nat.exists_eq_add_one.mpr hk
  have hle : ((10 ^ k : ℕ) : ℚ) ≤ n * 10 ^ (((k + 1 : ℕ) : ℤ) - pointPlace n) := by
    have hn := Int.zpow_log_le_self (b := 10) (by norm_num) (show (0 : ℚ) < n by exact_mod_cast hpos)
    calc ((10 ^ k : ℕ) : ℚ) = ((10 : ℕ) : ℚ) ^ Int.log 10 (n : ℚ) *
            10 ^ (((k + 1 : ℕ) : ℤ) - pointPlace n) := by
          rw [pointPlace, Nat.cast_ofNat, ← zpow_add₀ (by norm_num), Nat.cast_pow, ← zpow_natCast]
          congr 1
          push_cast
          ring
      _ ≤ n * 10 ^ (((k + 1 : ℕ) : ℤ) - pointPlace n) := by
          exact mul_le_mul_of_nonneg_right hn (zpow_pos (by norm_num) _).le
  have hs : 10 ^ k ≤ s := (Nat.le_floor hle).trans (digitsOfLength_near h).1
  by_contra hlen
  rcases Nat.eq_zero_or_pos k with rfl | hk
  · have hpos : 0 < (decimal s).length := Nat.length_toDigits_pos
    omega
  · have := (length_decimal_le_iff (n := s) hk).mp (by omega)
    omega

/-- A float from `10 ^ 21` on is written with an exponent. -/
theorem plus_mem_text (hn : round n = .finite n) (hle : 10 ^ 21 ≤ n) : '+' ∈ text (.finite n) := by
  have hpos : 0 < n := Nat.lt_of_lt_of_le (by norm_num) hle
  have hplace := pointPlace_natCast hpos
  have hlong : 21 < (decimal n).length := by
    by_contra hlt
    have := (length_decimal_le_iff (n := n) (k := 21) (by decide)).mp (by omega)
    omega
  have hshort : (decimal n).length ≤ 39 * 8 := by
    rw [length_decimal_le_iff (by decide), Nat.pow_mul]
    have hlt := (of_round_eq hn).2
    have hnat : n < 2 ^ 1024 := by exact_mod_cast hlt
    calc n < 2 ^ 1024 := hnat
      _ = (2 ^ 128) ^ 8 := by rw [← Nat.pow_mul]
      _ ≤ (10 ^ 39) ^ 8 := Nat.pow_le_pow_left (by norm_num) 8
  obtain ⟨k, s, hfrom, -, hs⟩ := shortestFrom_spec (digitsOfLength_self hpos hn) digitLimit 1
    Nat.length_toDigits_pos (by rw [digitLimit]; omega)
  have hk := le_digitsOfLength hpos hs
  have hq : (n : ℚ) ≠ 0 := by exact_mod_cast hpos.ne'
  have hnneg : ¬ (n : ℚ) < 0 := not_lt.mpr (Nat.cast_nonneg n)
  have hbig : 21 < pointPlace (n : ℚ) + (decimal s).length - k := by
    rw [hplace]
    omega
  rw [text, if_neg hq, if_neg hnneg, positiveText, hfrom]
  simp only
  generalize pointPlace (n : ℚ) + (decimal s).length - k = place at hbig
  rw [layout, if_neg (by omega), if_neg (by omega), if_neg (by omega), if_neg (show ¬ place < 1 by omega)]
  split <;> simp

/-- Safe integers are written as they are. -/
theorem text_safe (hn : n < 2 ^ 53) : text (.finite n) = decimal n := by
  have hlt : n < 10 ^ 21 := hn.trans (by norm_num)
  obtain ⟨m, htext, hround, -⟩ := text_natCast (round_natCast hn.le) hlt
  rcases Nat.lt_or_ge (2 ^ 53) m with hm | hm
  · have hq := le_of_round_eq hm.le hround
    exact absurd (by exact_mod_cast hq : 2 ^ 53 ≤ n) (by omega)
  · rw [round_natCast hm] at hround
    have heq : m = n := by exact_mod_cast JsNumber.finite.inj hround
    rw [htext, heq]

end StartTech.Foundation.JsNumber

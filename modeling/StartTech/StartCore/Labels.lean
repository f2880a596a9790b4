import StartTech.StartCore.Reading
import StartTech.StartCore.Relabelling
import StartTech.Foundation.JsRounding
import StartTech.Exver.Constructors

/-!
# Versions of the TypeScript library as versions of the crate

A version that the TypeScript library read holds natural numbers and identifiers
as they were written. Reading both back gives the version of the crate, and the
two orders agree.
-/

namespace StartTech.StartCore

open Foundation
open Grammar (identifierOf isSafeInteger isDigit)
open JsNumber (ofNat compareOrZero round_natCast)
open Exver (majorIdx PreReleaseSegment)
open Exver.VersionText (segmentOf isIdentifier numberOf decimal_numberOf isIdentifier_iff)
open ExtendedVersion (relabel incrementIdx semanticNumber incrementMinor incrementMajor)

/-- The natural number that a script number stands for. -/
def natOf : JsNumber → Nat
  | .finite q => q.num.toNat
  | _ => 0

namespace Identifier

/-- The segment of the crate for an identifier. -/
def toSegment (id : Identifier) : PreReleaseSegment :=
  match numericPrerelease id with
  | some digits => segmentOf digits
  | none => .string id.toString

end Identifier

/-- The version of the crate for a version of the TypeScript library. -/
def Version.toRust (v : Version) : Exver.Version :=
  ⟨v.number.map natOf, v.prerelease.map Identifier.toSegment⟩

open Version (toRust)

/-- A version with natural numbers up to a bound and with written identifiers. -/
def Version.Spelled (bound : Nat) (v : Version) : Prop :=
  ∃ (numbers : List Nat) (segments : List Text),
    v = ⟨numbers.map ofNat, segments.map identifierOf⟩ ∧ numbers ≠ [] ∧
      (∀ n ∈ numbers, n ≤ bound) ∧ ∀ s ∈ segments, isIdentifier s = true

section Identifiers

theorem isSafeInteger_natCast (n : Nat) :
    isSafeInteger (.finite n) = decide (n ≤ 9007199254740991) := by
  have habs : |(n : ℚ)| = n := abs_of_nonneg (Nat.cast_nonneg n)
  simp only [isSafeInteger, habs, Rat.den_natCast, beq_self_eq_true, Bool.true_and,
    decide_eq_decide]
  exact_mod_cast Iff.rfl

/-- Rounding a natural number beyond the safe integers does not give one. -/
theorem isSafeInteger_round (n : Nat) :
    isSafeInteger (JsNumber.round n) = decide (n ≤ 9007199254740991) := by
  rcases Nat.lt_or_ge (2 ^ 53) n with h | h
  · have hn : ¬ n ≤ 9007199254740991 := by omega
    rw [decide_eq_false hn]
    cases hround : JsNumber.round n with
    | nan | infinity negative => rfl
    | finite q =>
      have hq : (2 : ℚ) ^ 53 ≤ |q| := (JsNumber.le_of_round_eq h.le hround).trans (le_abs_self q)
      have hsafe : ¬ |q| ≤ 9007199254740991 := by
        linarith
      simp [isSafeInteger, hsafe]
  · rw [round_natCast h, isSafeInteger_natCast]

variable {s : Text} {c : Char}

theorem isLongNumeral_eq_false (h : s.all Char.isDigit = false) : isLongNumeral s = false := by
  cases s with
  | nil => rfl
  | cons c s =>
    rw [List.all_cons, Bool.and_eq_false_iff] at h
    rcases h with h | h <;> simp [isLongNumeral, h]

theorem toNat_lt_of_isDigit (h : c.isDigit = true) : c.toNat < 65536 := by
  have h9 : '9'.toNat = 57 := rfl
  have := (Char.isDigit_iff_toNat.mp h).2
  omega

theorem toNat_lt_of_isIdentifierChar (h : Exver.isIdentifierChar c = true) : c.toNat < 65536 := by
  simp only [Exver.isIdentifierChar, Bool.or_eq_true, beq_iff_eq] at h
  rcases h with ((h | h) | h) | rfl
  · exact Nat.lt_of_le_of_lt (Char.isDigit_iff_toNat.mp h).2 (by decide)
  · exact Nat.lt_of_le_of_lt (Text.isLower_iff_toNat.mp h).2 (by decide)
  · exact Nat.lt_of_le_of_lt (Text.isUpper_iff_toNat.mp h).2 (by decide)
  · decide

/-- A long numeral that is not a safe integer keeps its text. -/
theorem numericPrerelease_long (hs : isIdentifier s = true)
    (hdigits : s.all Char.isDigit = true) (hlong : 9007199254740991 < numberOf s) :
    numericPrerelease (.string s) = some s := by
  have hdecimal := decimal_numberOf hs hdigits
  have hlen : 16 ≤ s.length := by
    by_contra hlt
    rw [← hdecimal] at hlt
    have := (JsNumber.length_decimal_le_iff (n := numberOf s) (k := 15) (by decide)).mp (by omega)
    omega
  have hnumeral : isLongNumeral s = true := by
    obtain ⟨hne, -, hzero⟩ := isIdentifier_iff.mp hs
    obtain ⟨c, rest, rfl⟩ := List.exists_cons_of_ne_nil hne
    have hc : c ≠ '0' := by
      rintro rfl
      exact hzero ⟨hdigits, by omega, rfl⟩
    rw [List.all_cons, Bool.and_eq_true] at hdigits
    have hrest : 15 ≤ rest.length := by simpa using hlen
    simpa [isLongNumeral, hdigits.1, hc, hrest] using hdigits.2
  have hbeyond : s.length > 16 ∨ compareStrings s maxSafeText = .gt := by
    rcases Nat.lt_or_ge 16 s.length with h | h
    · exact .inl h
    · right
      have hmax : ∀ c ∈ maxSafeText, c.isDigit = true := List.all_eq_true.mp (by decide)
      have hall := List.all_eq_true.mp hdigits
      rw [compareStrings_eq_compare (fun c hc => toNat_lt_of_isDigit (hall c hc))
          (fun c hc => toNat_lt_of_isDigit (hmax c hc)),
        Text.compare_digits _ _ hall hmax (le_antisymm h hlen)]
      exact Nat.compare_eq_gt.mpr hlong
  have hguard : (decide (s.length > 16) || compareStrings s maxSafeText == .gt) = true := by
    simpa only [Bool.or_eq_true, decide_eq_true_eq, beq_iff_eq] using hbeyond
  rw [numericPrerelease, hnumeral, hguard]
  rfl

theorem identifierOf_word (h : s.all Char.isDigit = false) : identifierOf s = .string s := by
  have hword : s.all isDigit = false := h
  rw [identifierOf, hword]
  rfl

/-- A numeral is kept as a number exactly when it is a safe integer. -/
theorem identifierOf_numeral (h : s.all Char.isDigit = true) : identifierOf s =
      if numberOf s ≤ 9007199254740991 then .number (.finite (numberOf s))
      else .string s := by
  have hdigits : s.all isDigit = true := h
  have hround : Grammar.numberOf s = JsNumber.round (numberOf s) := rfl
  rw [identifierOf, hdigits, hround, isSafeInteger_round]
  by_cases hsafe : numberOf s ≤ 9007199254740991
  · simp [round_natCast (show numberOf s ≤ 2 ^ 53 by omega)]
  · simp [hsafe]

variable (hs : isIdentifier s = true)
include hs

/-- The two implementations take the same identifiers as numbers, and remember
the text of each. -/
theorem numericPrerelease_identifierOf : numericPrerelease (identifierOf s) =
      if s.all Char.isDigit then some s else none := by
  cases hdigits : s.all Char.isDigit with
  | false => simp [identifierOf_word hdigits, numericPrerelease, isLongNumeral_eq_false hdigits]
  | true =>
    rw [identifierOf_numeral hdigits, if_pos rfl]
    split
    · rw [numericPrerelease, JsNumber.text_safe (by omega), decimal_numberOf hs hdigits]
    · rw [numericPrerelease_long hs hdigits (by omega)]

theorem toSegment_identifierOf : (identifierOf s).toSegment = segmentOf s := by
  rw [Identifier.toSegment, numericPrerelease_identifierOf hs]
  cases hdigits : s.all Char.isDigit with
  | false => simp [identifierOf_word hdigits, Identifier.toString, segmentOf, hdigits]
  | true => rfl

/-- The crate's order looks at the text of an identifier as well. -/
theorem key_segmentOf : (segmentOf s).key =
      if s.all Char.isDigit then (false, s.length, s) else (true, 0, s) := by
  cases hdigits : s.all Char.isDigit with
  | false => simp [segmentOf, hdigits, PreReleaseSegment.key]
  | true =>
    have hlen := Text.byteLen_eq_length_of_isDigit (List.all_eq_true.mp hdigits)
    rw [segmentOf, hdigits, if_pos rfl]
    split
    · simp [PreReleaseSegment.key, decimal_numberOf hs hdigits, hlen]
    · simp [PreReleaseSegment.key, hlen]

/-- The two orders of identifiers agree. -/
theorem compareIdentifiers_identifierOf {t : Text} (ht : isIdentifier t = true) :
    PreReleaseSegment.cmp (segmentOf s) (segmentOf t) =
      compareIdentifiers (identifierOf s) (identifierOf t) := by
  have hplane {u : Text} (hu : isIdentifier u = true) : ∀ c ∈ u, c.toNat < 65536 :=
    fun c hc => toNat_lt_of_isIdentifierChar ((isIdentifier_iff.mp hu).2.1 c hc)
  have hstrings := compareStrings_eq_compare (hplane hs) (hplane ht)
  rw [PreReleaseSegment.cmp_eq_cmpKey, key_segmentOf hs, key_segmentOf ht,
    compareIdentifiers, numericPrerelease_identifierOf hs, numericPrerelease_identifierOf ht]
  cases hsd : s.all Char.isDigit with
  | false =>
    cases htd : t.all Char.isDigit with
    | false =>
      simp [PreReleaseSegment.cmpKey, compareLex, compareOn, identifierOf_word hsd,
        identifierOf_word htd, Identifier.toString, hstrings]
    | true => rfl
  | true =>
    cases htd : t.all Char.isDigit with
    | false => rfl
    | true => simp [PreReleaseSegment.cmpKey, compareLex, compareOn, hstrings]

end Identifiers

section Versions

variable {bound : Nat}

theorem compareOrZero_ofNat (n m : Nat) : compareOrZero (.ofNat n) (.ofNat m) = compare n m := by
  have hcast : compare (n : ℚ) m = compare n m := by
    rcases Nat.lt_trichotomy n m with h | rfl | h
    · rw [Nat.compare_eq_lt.mpr h, compare_lt_iff_lt.mpr (by exact_mod_cast h)]
    · simp
    · rw [Nat.compare_eq_gt.mpr h, compare_gt_iff_gt.mpr (by exact_mod_cast h)]
  rw [JsNumber.compareOrZero_eq, ← hcast]
  simp [compareLex, compareOn, JsNumber.orderKey, ofNat]

@[simp] theorem natOf_ofNat (n : Nat) : natOf (.ofNat n) = n := by
  simp [natOf, ofNat]

theorem toRust_mk {numbers : List Nat} {segments : List Text}
    (hs : ∀ s ∈ segments, isIdentifier s = true) :
    toRust ⟨numbers.map ofNat, segments.map identifierOf⟩ = ⟨numbers, segments.map segmentOf⟩ := by
  have hsegs : (segments.map identifierOf).map Identifier.toSegment =
      segments.map segmentOf := by
    rw [List.map_map]
    exact List.map_congr_left fun s hmem => toSegment_identifierOf (hs s hmem)
  simp [toRust, hsegs, Function.comp_def]

/-- Reading back is faithful on the versions that were read. -/
theorem toRust_faithful {versions : List Version} (h : ∀ v ∈ versions, v.Spelled bound) :
    Faithful toRust versions := by
  intro a ha b hb
  obtain ⟨ns, ss, rfl, -, -, hss⟩ := h a ha
  obtain ⟨ms, ts, rfl, -, -, hts⟩ := h b hb
  rw [toRust_mk hss, toRust_mk hts]
  have hnumbers : Comparator.padded compareOrZero JsNumber.zero (ns.map ofNat) (ms.map ofNat) =
        Exver.Version.cmpNumber ns ms := by
    rw [Exver.Version.cmpNumber_eq_padded,
      ← Comparator.padded_map ofNat 0 compareOrZero_ofNat ns ms]
    simp [JsNumber.zero, ofNat]
  have hsegs := Comparator.compareLex_map fun s hs t ht =>
    compareIdentifiers_identifierOf (hss s hs) (hts t ht)
  simp [Exver.Version.cmp, Version.compare, hnumbers, Exver.Version.cmpPrerelease,
    Version.comparePrerelease_eq, compareLex, compareOn, hsegs]

end Versions

variable {n : Nat} {v : Version} {w : ExtendedVersion}

theorem addOne_ofNat (h : n + 1 ≤ 2 ^ 53) : (ofNat n).addOne = .ofNat (n + 1) := by
  have hround := round_natCast h
  rw [Nat.cast_add, Nat.cast_one] at hround
  simp [JsNumber.addOne, ofNat, hround]

theorem ofNat_beq_zero (n : Nat) : (ofNat n == JsNumber.zero) = (n == 0) := by
  simp [ofNat, JsNumber.zero]

theorem rdropWhile_map_ofNat (l : List Nat) : (l.map ofNat).rdropWhile (· == JsNumber.zero) =
      (l.rdropWhile (· == 0)).map ofNat := by
  rw [List.rdropWhile, ← List.map_reverse, List.dropWhile_map]
  simp [Function.comp_def, ofNat_beq_zero, List.rdropWhile]

theorem incrementIdx_map_ofNat (l : List Nat) :
    incrementIdx (l.map ofNat) = majorIdx l := by
  simp [incrementIdx, majorIdx, List.findIdx?_map, Function.comp_def,
    bne, ofNat_beq_zero]

theorem Version.zero_spelled {bound : Nat} : Version.zero.Spelled bound :=
  ⟨[0], [], by simp [Version.zero, JsNumber.zero, ofNat], by simp, by simp, by simp⟩

theorem Version.Spelled.mono {bound bound' : Nat} (h : v.Spelled bound) (hle : bound ≤ bound') :
    v.Spelled bound' := by
  obtain ⟨ns, ss, rfl, hne, hns, hss⟩ := h
  exact ⟨ns, ss, rfl, hne, fun n hn => (hns n hn).trans hle, hss⟩

/-- The significant numbers, on both sides. -/
theorem semanticNumber_spelled {bound : Nat} (h : w.upstream.Spelled bound) :
    ∃ ms : List Nat, ms ≠ [] ∧ (∀ m ∈ ms, m ≤ bound) ∧
      w.upstream.toRust.semanticNumber = some ms ∧ w.semanticNumber = ms.map ofNat := by
  obtain ⟨ns, ss, hw, hne, hns, hss⟩ := h
  obtain ⟨n, rest, rfl⟩ := List.exists_cons_of_ne_nil hne
  refine ⟨n :: rest.rdropWhile (· == 0), by simp, ?_, ?_, ?_⟩
  · intro m hm
    rcases List.mem_cons.mp hm with rfl | hm
    · exact hns m (by simp)
    · exact hns m (List.mem_cons_of_mem n ((List.rdropWhile_prefix _ _).mem hm))
  · rw [hw, toRust_mk hss, Exver.Version.semanticNumber_cons]
  · simp [semanticNumber, hw, rdropWhile_map_ofNat]

theorem wordSucc_eq (h : n ≤ 9007199254740991) : Exver.wordSucc n = n + 1 :=
  Nat.mod_eq_of_lt ((Nat.succ_le_succ h).trans_lt (by decide))

theorem Version.toRust_zero : Version.zero.toRust = Exver.Version.default := by
  simp [toRust, Version.zero, Exver.Version.default, natOf, JsNumber.zero]

/-- An upper bound with natural numbers is the same on both sides. -/
theorem relabel_bound (flavor : Option Text) (numbers : List Nat) (v : Version) :
    relabel toRust ⟨flavor, ⟨numbers.map ofNat, v.prerelease⟩, Version.zero⟩ =
        ⟨flavor, ⟨numbers, v.toRust.prerelease⟩, Exver.Version.default⟩ := by
  have hmap : (numbers.map ofNat).map natOf = numbers := by
    simp [Function.comp_def]
  rw [relabel, Version.toRust_zero]
  simp [toRust, hmap]

/-- Taking some of the numbers and adding one to another stays exact. -/
theorem Version.Spelled.bound (h : v.Spelled 9007199254740991) {ms : List Nat}
    (hms : ∀ m ∈ ms, m ≤ 9007199254740991) (i : Nat) (hn : n ≤ 9007199254740991) :
    Version.Spelled (2 ^ 53) ⟨(ms.take i ++ [n + 1]).map ofNat, v.prerelease⟩ := by
  obtain ⟨ns, ss, rfl, -, -, hss⟩ := h
  refine ⟨_, ss, rfl, by simp, ?_, hss⟩
  intro m hm
  rcases List.mem_append.mp hm with hm | hm
  · have := hms m (List.mem_of_mem_take hm)
    omega
  · rw [List.mem_singleton.mp hm]
    omega

/-- Carets have the same upper bound on both sides. -/
theorem caretMax_relabel (h : w.upstream.Spelled 9007199254740991) :
    Exver.VersionRange.caretMax (w.relabel toRust) = some (w.incrementMajor.relabel toRust) ∧
      w.incrementMajor.upstream.Spelled (2 ^ 53) := by
  obtain ⟨ms, hne, hms, hrust, hts⟩ := semanticNumber_spelled h
  have hlt := Exver.majorIdx_lt hne
  have hle := hms _ (List.getElem_mem hlt)
  have hmajor : w.incrementMajor = ⟨w.flavor, ⟨(ms.take (majorIdx ms) ++
      [ms[majorIdx ms] + 1]).map ofNat, w.upstream.prerelease⟩, .zero⟩ := by
    have hnext := addOne_ofNat (Nat.succ_le_succ hle)
    simp [incrementMajor, hts, incrementIdx_map_ofNat, hlt, hnext]
  rw [hmajor]
  constructor
  · have hup : (w.relabel toRust).upstream.semanticNumber = some ms := hrust
    rw [relabel_bound, Exver.VersionRange.caretMax, hup]
    simp [hlt, wordSucc_eq hle, relabel]
  · exact h.bound hms _ hle

/-- Tildes have the same upper bound on both sides. -/
theorem tildeMax_relabel (h : w.upstream.Spelled 9007199254740991) :
    Exver.VersionRange.tildeMax (w.relabel toRust) = some (w.incrementMinor.relabel toRust) ∧
      w.incrementMinor.upstream.Spelled (2 ^ 53) := by
  obtain ⟨ms, hne, hms, hrust, hts⟩ := semanticNumber_spelled h
  have hle : ms[majorIdx ms + 1]?.getD 0 ≤ 9007199254740991 := by
    cases hget : ms[majorIdx ms + 1]? with
    | none => simp
    | some n => exact hms n (List.mem_of_getElem? hget)
  have hminor : w.incrementMinor = ⟨w.flavor, ⟨(ms.take (majorIdx ms + 1) ++
      [ms[majorIdx ms + 1]?.getD 0 + 1]).map ofNat, w.upstream.prerelease⟩, .zero⟩ := by
    have hnext := addOne_ofNat (Nat.succ_le_succ hle)
    have hget : ((ms.map ofNat)[majorIdx ms + 1]?.getD JsNumber.zero).orZero =
        .ofNat (ms[majorIdx ms + 1]?.getD 0) := by
      rw [List.getElem?_map]
      cases ms[majorIdx ms + 1]? with
      | none => simp [JsNumber.zero, ofNat, JsNumber.orZero]
      | some n => rfl
    rw [incrementMinor, hts, incrementIdx_map_ofNat, hget, hnext]
    simp [List.map_take]
  rw [hminor]
  constructor
  · have hup : (w.relabel toRust).upstream.semanticNumber = some ms := hrust
    rw [relabel_bound, Exver.VersionRange.tildeMax, hup]
    simp [wordSucc_eq hle, relabel, List.take_add_one]
  · exact h.bound hms _ hle

end StartTech.StartCore

import StartTech.Exver.Version
import StartTech.Foundation.Peg

/-!
# The text of a version, piece by piece

Both implementations read the same texts as versions: numbers between dots and,
after a dash, prerelease identifiers between dots. Here the pieces are kept as
they are written, and parsing by splitting is shown to recover them.
-/

namespace StartTech.Exver

open Foundation

/-- The class `[0-9a-zA-Z-]` of characters of a prerelease identifier. -/
def isIdentifierChar (c : Char) : Bool := c.isDigit || c.isLower || c.isUpper || c == '-'

/-- A text in which no version can be carried on. -/
def Ends (rest : Text) : Prop := ∀ c ∈ rest.head?, isIdentifierChar c = false ∧ c ≠ '.'

theorem Ends.not_digit {rest : Text} (h : Ends rest) : ∀ c ∈ rest.head?, c.isDigit = false := by
  intro c hc
  have hident := (h c hc).1
  simp only [isIdentifierChar, Bool.or_eq_false_iff] at hident
  exact hident.1.1.1

/-- The pieces of the text of a version. -/
structure VersionText where
  numbers : List Text
  segments : List Text

namespace VersionText

def text (t : VersionText) : Text :=
  ['.'].intercalate t.numbers ++
    if t.segments.isEmpty then [] else '-' :: ['.'].intercalate t.segments

def isNumeral (d : Text) : Bool := !d.isEmpty && d.all Char.isDigit

/-- An identifier that is not a number with a leading zero. -/
def isIdentifier (s : Text) : Bool :=
  !s.isEmpty && s.all isIdentifierChar &&
    !(s.all Char.isDigit && decide (2 ≤ s.length) && s.head? == some '0')

structure WellFormed (t : VersionText) : Prop where
  nonempty : t.numbers ≠ []
  numbers : ∀ d ∈ t.numbers, isNumeral d = true
  segments : ∀ s ∈ t.segments, isIdentifier s = true

def numberOf (d : Text) : Nat := Nat.ofDigitChars 10 d 0

def segmentOf (s : Text) : PreReleaseSegment :=
  if s.all Char.isDigit then
    if numberOf s < Text.wordLimit then .number (numberOf s) else .bigNumber s
  else .string s

/-- The version that the text stands for. -/
def version (t : VersionText) : Version := ⟨t.numbers.map numberOf, t.segments.map segmentOf⟩

/-- The numbers of the text are machine words. -/
def Fits (t : VersionText) : Prop := ∀ d ∈ t.numbers, numberOf d < Text.wordLimit

variable {d s : Text} {c : Char} {t : VersionText}

theorem isNumeral_iff : isNumeral d = true ↔ d ≠ [] ∧ ∀ c ∈ d, c.isDigit = true := by
  simp [isNumeral]

theorem isNumeral_decimal (n : Nat) : isNumeral (Text.decimal n) = true :=
  isNumeral_iff.mpr ⟨List.ne_nil_of_length_pos Nat.length_toDigits_pos,
    fun _ hc => Text.decimal_isDigit hc⟩

theorem isIdentifierChar_of_isDigit (h : c.isDigit = true) : isIdentifierChar c = true := by
  simp [isIdentifierChar, h]

theorem mem_intercalate {sep : Char} {ts : List Text} (h : c ∈ [sep].intercalate ts) :
    c = sep ∨ ∃ t ∈ ts, c ∈ t := by
  cases ts with
  | nil => simp [List.intercalate] at h
  | cons t ts =>
    rw [Peg.intercalate_cons, List.mem_append] at h
    rcases h with h | h
    · exact .inr ⟨t, by simp, h⟩
    · obtain ⟨u, hu, hc⟩ := List.mem_flatten.mp h
      obtain ⟨v, hv, rfl⟩ := List.mem_map.mp hu
      rcases List.mem_cons.mp hc with rfl | hc
      · exact .inl rfl
      · exact .inr ⟨v, by simp [hv], hc⟩

theorem WellFormed.mem_numbers (h : t.WellFormed) (hc : c ∈ ['.'].intercalate t.numbers) :
    c.isDigit = true ∨ c = '.' := by
  rcases mem_intercalate hc with rfl | ⟨d, hd, hcd⟩
  · exact .inr rfl
  · exact .inl ((isNumeral_iff.mp (h.numbers d hd)).2 c hcd)

theorem isIdentifier_iff : isIdentifier s = true ↔ s ≠ [] ∧ (∀ c ∈ s, isIdentifierChar c = true) ∧
      ¬ (s.all Char.isDigit = true ∧ 2 ≤ s.length ∧ s.head? = some '0') := by
  simp only [isIdentifier, Bool.and_eq_true, Bool.not_eq_true', ← Bool.not_eq_true,
    List.isEmpty_iff, List.all_eq_true, decide_eq_true_eq, beq_iff_eq, ne_eq, and_assoc]

/-- The characters of a well-formed text. -/
theorem WellFormed.mem_text (h : t.WellFormed) (hc : c ∈ t.text) :
    isIdentifierChar c = true ∨ c = '.' := by
  rcases List.mem_append.mp hc with hc | hc
  · exact (h.mem_numbers hc).imp_left isIdentifierChar_of_isDigit
  · split at hc
    · cases hc
    · rcases List.mem_cons.mp hc with rfl | hc
      · exact .inl rfl
      · rcases mem_intercalate hc with rfl | ⟨s, hs, hcs⟩
        · exact .inr rfl
        · exact .inl ((isIdentifier_iff.mp (h.segments s hs)).2.1 c hcs)

theorem parsePrereleaseSegment_identifier (input : Text) (h : isIdentifier s = true) :
    Version.parsePrereleaseSegment input s = .ok (segmentOf s) := by
  obtain ⟨hne, hchars, hzero⟩ := isIdentifier_iff.mp h
  have hempty : s.isEmpty = false := by simpa using hne
  rw [Version.parsePrereleaseSegment, hempty, segmentOf]
  by_cases hdigits : s.all Char.isDigit = true
  · have hmem := List.all_eq_true.mp hdigits
    have hlead : (s.byteLen > 1 && s.head? == some '0') = false := by
      rw [Text.byteLen_eq_length_of_isDigit hmem, Bool.eq_false_iff]
      intro hand
      simp only [Bool.and_eq_true, decide_eq_true_eq, beq_iff_eq] at hand
      exact hzero ⟨hdigits, hand.1, hand.2⟩
    simp only [hdigits, hlead, Text.parseUsize_digits hne hmem, numberOf, Bool.false_eq_true,
      if_false, if_true]
    by_cases hfit : Nat.ofDigitChars 10 s 0 < Text.wordLimit <;> simp [hfit]
  · have hany : (s.any fun c => !(c.isDigit || c.isLower || c.isUpper || c == '-')) = false := by
      rw [List.any_eq_false]
      intro c hc
      have hident := hchars c hc
      rw [isIdentifierChar] at hident
      rw [hident]
      simp
    rw [if_neg hdigits, hany, if_neg hdigits]
    rfl

/-- A numeral without a leading zero is the text of its value. -/
theorem decimal_numberOf (hs : isIdentifier s = true) (hdigits : s.all Char.isDigit = true) :
    Text.decimal (numberOf s) = s := by
  obtain ⟨hne, -, hzero⟩ := isIdentifier_iff.mp hs
  exact Text.decimal_ofDigitChars hne (List.all_eq_true.mp hdigits) fun h => hzero ⟨hdigits, h⟩

/-- What the parser accepts as a segment, and what it makes of it. -/
theorem eq_segmentOf_of_parse {input : Text} {seg : PreReleaseSegment}
    (h : Version.parsePrereleaseSegment input s = .ok seg) :
    isIdentifier s = true ∧ seg = segmentOf s := by
  have hident : isIdentifier s = true := by
    rw [Version.parsePrereleaseSegment] at h
    split at h
    · cases h
    rename_i hne
    have hsome : s ≠ [] := by simpa using hne
    split at h
    · rename_i hdigits
      split at h
      · cases h
      rename_i hzero
      have hchars := List.all_eq_true.mp hdigits
      refine isIdentifier_iff.mpr ⟨hsome, fun c hc => isIdentifierChar_of_isDigit (hchars c hc), ?_⟩
      rintro ⟨-, hlen, hhead⟩
      apply hzero
      have hbyte := Text.byteLen_eq_length_of_isDigit hchars
      simp only [hhead, Bool.and_eq_true, decide_eq_true_eq, beq_iff_eq]
      exact ⟨by omega, trivial⟩
    · rename_i hword
      split at h
      · cases h
      rename_i hany
      refine isIdentifier_iff.mpr ⟨hsome, ?_, fun hzero => hword hzero.1⟩
      intro c hc
      by_contra hnot
      apply hany
      rw [List.any_eq_true]
      refine ⟨c, hc, ?_⟩
      rw [isIdentifierChar, Bool.not_eq_true] at hnot
      rw [hnot]
      rfl
  rw [parsePrereleaseSegment_identifier input hident] at h
  exact ⟨hident, (Except.ok.inj h).symm⟩

/-- The stored form of a segment is written as it was read. -/
theorem segmentOf_eq (s : Text) : segmentOf s = .number (numberOf s) ∧ s.all Char.isDigit = true ∨
    segmentOf s = .bigNumber s ∨ segmentOf s = .string s := by
  rw [segmentOf]
  split
  · split
    · exact .inl ⟨rfl, ‹_›⟩
    · exact .inr (.inl rfl)
  · exact .inr (.inr rfl)

theorem dash_not_mem_intercalate {ds : List Text} (h : ∀ d ∈ ds, isNumeral d = true) :
    '-' ∉ ['.'].intercalate ds := by
  intro hmem
  rcases mem_intercalate hmem with hdot | ⟨d, hd, hdash⟩
  · exact absurd hdot (by decide)
  · exact absurd ((isNumeral_iff.mp (h d hd)).2 '-' hdash) (by decide)

theorem split_intercalate {ds : List Text} (hne : ds ≠ []) (h : ∀ d ∈ ds, isNumeral d = true) :
    Text.split '.' (['.'].intercalate ds) = ds := by
  apply List.splitOn_intercalate '.' _ hne
  intro d hd hmem
  exact absurd ((isNumeral_iff.mp (h d hd)).2 '.' hmem) (by decide)

/-- The numbers are read between the dots. -/
theorem parseNumber_split (input : Text) (h : t.WellFormed) :
    Version.parseNumber input (['.'].intercalate t.numbers) =
      match t.numbers.mapM Text.parseUsize with
      | some number => .ok number
      | none => .error (.invalidVersion input "invalid numeric identifier") := by
  have hsplit := split_intercalate h.nonempty h.numbers
  cases hnumbers : t.numbers.mapM Text.parseUsize with
  | none => simp [Version.parseNumber, hsplit, hnumbers]
  | some number => simp [Version.parseNumber, hsplit, hnumbers]

theorem parseUsize_numeral (h : isNumeral d = true) :
    Text.parseUsize d = if numberOf d < Text.wordLimit then some (numberOf d) else none := by
  obtain ⟨hne, hdigits⟩ := isNumeral_iff.mp h
  exact Text.parseUsize_digits hne hdigits

theorem WellFormed.splitPrerelease_text (h : t.WellFormed) :
    Version.splitPrerelease t.text = (['.'].intercalate t.numbers,
      if t.segments.isEmpty then none else some (['.'].intercalate t.segments)) := by
  have hdash := dash_not_mem_intercalate h.numbers
  rw [Version.splitPrerelease, text]
  cases t.segments.isEmpty with
  | true => simp [Text.splitOnce_eq_none hdash]
  | false => simp [Text.splitOnce_append hdash]

/-- The two sides of the first dash are read one after the other. -/
theorem WellFormed.fromStr_split (h : t.WellFormed) :
    Version.fromStr t.text = (Version.parseNumber t.text (['.'].intercalate t.numbers) >>=
      fun number => .ok ⟨number, t.segments.map segmentOf⟩) := by
  have hpre : Version.parsePrerelease t.text
      (if t.segments.isEmpty then none else some (['.'].intercalate t.segments)) =
        .ok (t.segments.map segmentOf) := by
    cases hs : t.segments.isEmpty with
    | true => simp [Version.parsePrerelease, List.isEmpty_iff.mp hs]
    | false =>
      have hdot : ∀ s ∈ t.segments, '.' ∉ s := by
        intro s hs hmem
        exact absurd ((isIdentifier_iff.mp (h.segments s hs)).2.1 '.' hmem) (by decide)
      rw [if_neg (by simp), Version.parsePrerelease, Text.split,
        List.splitOn_intercalate '.' hdot (by simpa using hs)]
      apply Fallible.mapM_eq_pure
      intro s hs
      exact parsePrereleaseSegment_identifier _ (h.segments s hs)
  rw [Version.fromStr, h.splitPrerelease_text, hpre]
  rfl

/-- Parsing recovers the pieces. -/
theorem WellFormed.fromStr (h : t.WellFormed) (hfit : t.Fits) :
    Version.fromStr t.text = .ok t.version := by
  have hmap : t.numbers.mapM Text.parseUsize = some (t.numbers.map numberOf) := by
    apply Fallible.mapM_eq_pure
    intro d hd
    rw [parseUsize_numeral (h.numbers d hd), if_pos (hfit d hd)]
    rfl
  rw [h.fromStr_split, parseNumber_split _ h, hmap]
  rfl

/-- Parsing succeeds only on machine words. -/
theorem WellFormed.fits_of_fromStr (h : t.WellFormed) {v : Version}
    (hv : Version.fromStr t.text = .ok v) : t.Fits := by
  rw [h.fromStr_split, Fallible.bind_eq_ok] at hv
  obtain ⟨number, hnum, -⟩ := hv
  rw [parseNumber_split _ h] at hnum
  intro d hd
  split at hnum
  · rename_i hmap
    obtain ⟨n, -, hn⟩ := Fallible.forall_of_mapM_some hmap hd
    rw [parseUsize_numeral (h.numbers d hd)] at hn
    by_contra hlt
    rw [if_neg hlt] at hn
    cases hn
  · cases hnum

theorem WellFormed.not_mem_text (h : t.WellFormed) (hc : isIdentifierChar c = false)
    (hdot : c ≠ '.') : c ∉ t.text := by
  intro hmem
  rcases h.mem_text hmem with hident | heq
  · rw [hc] at hident
    cases hident
  · exact hdot heq

/-- A text starts with a digit. -/
theorem WellFormed.head_ne (h : t.WellFormed) {c : Char} (hc : c.isDigit = false) (rest : Text) :
    (t.text ++ rest).head? ≠ some c := by
  obtain ⟨d, ds, hds⟩ := List.exists_cons_of_ne_nil h.nonempty
  obtain ⟨hne, hdigits⟩ := isNumeral_iff.mp (h.numbers d (by simp [hds]))
  obtain ⟨e, u, rfl⟩ := List.exists_cons_of_ne_nil hne
  rw [text, hds, Peg.intercalate_cons]
  intro heq
  cases heq
  rw [hdigits c List.mem_cons_self] at hc
  cases hc

end VersionText

/-- The flavor as it stands in front of a version. -/
def flavorText : Option Text → Text
  | some f => '#' :: f ++ [':']
  | none => []

/-- The pieces of the text of a version in a range, whose downstream part may be
missing. -/
structure SpecText where
  flavor : Option Text
  upstream : VersionText
  downstream : Option VersionText

namespace SpecText

def text (t : SpecText) : Text :=
  flavorText t.flavor ++ (t.upstream.text ++ match t.downstream with
    | some down => ':' :: down.text
    | none => [])

structure WellFormed (t : SpecText) : Prop where
  flavor : ∀ f ∈ t.flavor, f.all Char.isLower = true
  upstream : t.upstream.WellFormed
  downstream : ∀ down ∈ t.downstream, down.WellFormed

/-- A version starts with a hash or a digit. -/
theorem WellFormed.head_ne {t : SpecText} (h : t.WellFormed) {d : Char} (hhash : d ≠ '#')
    (hdigit : d.isDigit = false) (rest : Text) : (t.text ++ rest).head? ≠ some d := by
  rw [text]
  cases t.flavor with
  | none =>
    rw [flavorText, List.nil_append, List.append_assoc]
    exact h.upstream.head_ne hdigit _
  | some f => simpa [flavorText] using hhash.symm

end SpecText

variable {up down : VersionText} {flavor : Option Text}

variable (hflavor : ∀ f ∈ flavor, f.all Char.isLower = true)
include hflavor

/-- The flavor is split off at the first colon. -/
theorem ExtendedVersion.splitFlavor_append (hup : up.WellFormed) (rest : Text) :
    splitFlavor (flavorText flavor ++ (up.text ++ rest)) = (flavor, up.text ++ rest) := by
  cases flavor with
  | none =>
    rw [flavorText, List.nil_append, splitFlavor]
    intro after heq
    exact hup.head_ne (by decide) rest (congrArg List.head? heq)
  | some f =>
    have hf : ':' ∉ f := fun hmem =>
      absurd (List.all_eq_true.mp (hflavor f rfl) ':' hmem) (by decide)
    have hone := Text.splitOnce_append hf (up.text ++ rest)
    simp [flavorText, splitFlavor, hone]

theorem ExtendedVersion.checkFlavor_eq_ok (s : Text) : checkFlavor s flavor = .ok () := by
  cases flavor with
  | none => rfl
  | some f => simp [checkFlavor, hflavor f rfl]

/-- A text with a downstream version is taken apart at the colons. -/
theorem ExtendedVersion.fromStr_split (hup : up.WellFormed) (down : Text) :
    ExtendedVersion.fromStr (flavorText flavor ++ (up.text ++ ':' :: down)) = (do
      .ok ⟨flavor, ← Version.fromStr up.text, ← Version.fromStr down⟩) := by
  have hcolon : ':' ∉ up.text := hup.not_mem_text (by decide) (by decide)
  have hdownstream (s : Text) :
      splitDownstream s (up.text ++ ':' :: down) = .ok (up.text, down) := by
    rw [splitDownstream, Text.splitOnce_append hcolon]
  rw [ExtendedVersion.fromStr, splitFlavor_append hflavor hup, checkFlavor_eq_ok hflavor,
    hdownstream]
  rfl

/-- What parses has numbers that are machine words, and is parsed as its pieces. -/
theorem ExtendedVersion.eq_of_fromStr_pieces (hup : up.WellFormed)
    (hdown : down.WellFormed) {v : ExtendedVersion}
    (hv : ExtendedVersion.fromStr (flavorText flavor ++ (up.text ++ ':' :: down.text)) = .ok v) :
    v = ⟨flavor, up.version, down.version⟩ := by
  have hparts := hv
  rw [fromStr_split hflavor hup, Fallible.bind_eq_ok] at hparts
  obtain ⟨u, hu, hparts⟩ := hparts
  obtain ⟨d, hd, -⟩ := Fallible.bind_eq_ok.mp hparts
  rw [fromStr_split hflavor hup, hup.fromStr (hup.fits_of_fromStr hu),
    hdown.fromStr (hdown.fits_of_fromStr hd)] at hv
  exact (Except.ok.inj hv).symm

end StartTech.Exver

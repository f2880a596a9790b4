import StartTech.Exver.Display
import Mathlib.Data.List.Forall2

/-!
# What the parsers of versions accept

The parser of versions leaves the numbers to the standard library, which takes a plus sign and
leading zeros. The parser of anchors splits a text as the parser of versions does, but for an empty
flavor.
-/

namespace StartTech.Exver

open Foundation

namespace Version

variable {s : Text} {v : Version}

theorem fromStr_wellFormed (h : fromStr s = .ok v) : v.WellFormed := by
  obtain ⟨hnum, hpre⟩ := fromStr_eq_ok h
  refine ⟨?_, ?_, fun seg hseg => ⟨s, exists_of_parsePrerelease hpre hseg⟩⟩
  · rw [← List.length_pos_iff, Fallible.length_of_mapM_some hnum, List.length_pos_iff]
    exact List.splitOn_ne_nil _ _
  · intro n hn
    obtain ⟨_, _, hparse⟩ := Fallible.exists_of_mapM_some hnum hn
    exact Text.parseUsize_lt hparse

/-- The numbers of a text have no sign and no leading zero. -/
def Unsigned (s : Text) : Prop :=
  ∀ d ∈ Text.split '.' (splitPrerelease s).1, d.head? ≠ some '+' ∧ VersionText.isPlain d = true

/-- A number without its plus sign. -/
def digitsOf (d : Text) : Text :=
  match d with
  | '+' :: rest => rest
  | _ => d

theorem parseUsize_eq (d : Text) : Text.parseUsize d =
    if VersionText.isNumeral (digitsOf d) = true ∧
      VersionText.numberOf (digitsOf d) < Text.wordLimit then
      some (VersionText.numberOf (digitsOf d)) else none := by
  have hdecimal : Text.parseDecimal d = if VersionText.isNumeral (digitsOf d) = true then
      some (VersionText.numberOf (digitsOf d)) else none := by
    change (if (digitsOf d).isEmpty || !(digitsOf d).all Char.isDigit then none else _) = _
    rw [VersionText.isNumeral]
    cases (digitsOf d).isEmpty <;> cases (digitsOf d).all Char.isDigit <;> rfl
  rw [Text.parseUsize, hdecimal]
  by_cases h : VersionText.isNumeral (digitsOf d) = true <;> simp [h]

theorem decimal_of_parseUsize {d : Text} {n : Nat} (h : Text.parseUsize d = some n)
    (hd : d.head? ≠ some '+' ∧ VersionText.isPlain d = true) : Text.decimal n = d := by
  have hdigits : digitsOf d = d := by
    unfold digitsOf
    split
    · exact absurd rfl hd.1
    · rfl
  rw [parseUsize_eq, hdigits] at h
  obtain ⟨⟨hnum, -⟩, hn⟩ := Option.ite_none_right_eq_some.mp h
  obtain ⟨hne, hchars⟩ := VersionText.isNumeral_iff.mp hnum
  rw [← Option.some.inj hn]
  refine Text.decimal_ofDigitChars hne hchars ?_
  rintro ⟨hlen, hhead⟩
  simp [VersionText.isPlain, hlen, hhead] at hd

theorem display_of_fromStr (h : fromStr s = .ok v) (hs : Unsigned s) : v.display = s := by
  obtain ⟨hnum, hpre⟩ := fromStr_eq_ok h
  have hnumbers : v.number.map Text.decimal = Text.split '.' (splitPrerelease s).1 :=
    Fallible.map_of_map_eq (Fallible.mapM_eq_some_iff.mp hnum) fun d hd n hn =>
      decimal_of_parseUsize hn (hs d hd)
  have hne := (fromStr_wellFormed h).nonempty
  rw [display, hnumbers, Text.split, List.intercalate_splitOn, if_neg (by simpa using hne)]
  rw [splitPrerelease] at hpre ⊢
  cases hsplit : Text.splitOnce '-' s with
  | none =>
    rw [hsplit] at hpre
    rw [← Except.ok.inj hpre]
    exact List.append_nil s
  | some parts =>
    rw [hsplit] at hpre
    have hsegs : v.prerelease.map PreReleaseSegment.display = Text.split '.' parts.2 := by
      refine Fallible.map_of_map_eq (Fallible.mapM_eq_ok_iff.mp hpre) fun text _ seg hseg => ?_
      obtain ⟨hident, rfl⟩ := VersionText.eq_segmentOf_of_parse hseg
      exact PreReleaseSegment.display_segmentOf hident
    have hne : v.prerelease ≠ [] := by
      rw [ne_eq, ← List.map_eq_nil_iff, hsegs]
      exact List.splitOn_ne_nil _ _
    rw [if_neg (by simpa using hne), hsegs, Text.split, List.intercalate_splitOn]
    exact (Text.eq_of_splitOnce hsplit).symm

/-- A text of the grammar with words as numbers, but for signs and leading zeros. -/
def Loose (s : Text) : Prop :=
  (∀ d ∈ Text.split '.' (splitPrerelease s).1, VersionText.isNumeral (digitsOf d) = true ∧
      VersionText.numberOf (digitsOf d) < Text.wordLimit) ∧
    ∀ p ∈ (splitPrerelease s).2, ∀ seg ∈ Text.split '.' p, VersionText.isIdentifier seg = true

/-- The parser accepts the loose texts. -/
theorem fromStr_ok_iff : (∃ v, fromStr s = .ok v) ↔ Loose s := by
  constructor
  · rintro ⟨v, h⟩
    obtain ⟨hnum, hpre⟩ := fromStr_eq_ok h
    refine ⟨fun d hd => ?_, fun p hp seg hseg => ?_⟩
    · obtain ⟨n, -, hn⟩ := Fallible.forall_of_mapM_some hnum hd
      rw [parseUsize_eq] at hn
      exact (Option.ite_none_right_eq_some.mp hn.symm).1
    · rw [hp] at hpre
      have hmem := List.mem_map_of_mem (f := parsePrereleaseSegment s) hseg
      rw [Fallible.mapM_eq_ok_iff.mp hpre] at hmem
      obtain ⟨_, -, hok⟩ := List.mem_map.mp hmem
      exact (VersionText.eq_segmentOf_of_parse hok.symm).1
  · rintro ⟨hnum, hpre⟩
    have hnumber : ∃ l, parseNumber s (splitPrerelease s).1 = .ok l := by
      rw [parseNumber, Fallible.mapM_eq_pure fun d hd => (parseUsize_eq d).trans (if_pos (hnum d hd))]
      exact ⟨_, rfl⟩
    have hprerelease : ∃ l, parsePrerelease s (splitPrerelease s).2 = .ok l := by
      cases hp : (splitPrerelease s).2 with
      | none => exact ⟨[], rfl⟩
      | some p =>
        exact ⟨_, Fallible.mapM_eq_pure fun seg hseg =>
          VersionText.parsePrereleaseSegment_identifier s (hpre p hp seg hseg)⟩
    obtain ⟨number, hnumber⟩ := hnumber
    obtain ⟨prerelease, hprerelease⟩ := hprerelease
    exact ⟨_, Fallible.bind_ok hnumber (Fallible.bind_ok hprerelease rfl)⟩

/-- A number of the grammar: digits without a leading zero. -/
def IsNum (d : Text) : Prop := VersionText.isNumeral d = true ∧ VersionText.isPlain d = true

theorem IsNum.isDigit {d : Text} {c : Char} (h : IsNum d) (hc : c ∈ d) : c.isDigit = true :=
  (VersionText.isNumeral_iff.mp h.1).2 c hc

/-- The numbers of a version with the text behind them. -/
theorem Unsigned.append {ds : List Text} {tail : Text} (hne : ds ≠ []) (hds : ∀ d ∈ ds, IsNum d)
    (htail : tail = [] ∨ tail.head? = some '-') :
    Unsigned (['.'].intercalate ds ++ tail) := by
  have hdash := VersionText.dash_not_mem_intercalate fun d hd => (hds d hd).1
  have hsplit : (splitPrerelease (['.'].intercalate ds ++ tail)).1 =
      ['.'].intercalate ds := by
    rw [splitPrerelease]
    rcases htail with rfl | htail
    · rw [List.append_nil, Text.splitOnce_eq_none hdash]
    · obtain ⟨p, rfl⟩ := List.head?_eq_some_iff.mp htail
      rw [Text.splitOnce_append hdash]
  intro d hd
  rw [hsplit, VersionText.split_intercalate hne fun d hd => (hds d hd).1] at hd
  refine ⟨fun hsign => ?_, (hds d hd).2⟩
  exact absurd ((hds d hd).isDigit (List.mem_of_mem_head? hsign)) (by decide)

theorem Unsigned.text {t : VersionText} (ht : t.WellFormed) (hplain : t.Plain) :
    Unsigned t.text := by
  refine .append ht.nonempty (fun d hd => ⟨ht.numbers d hd, hplain d hd⟩) ?_
  split
  · exact .inl rfl
  · exact .inr rfl

/-- The parser accepts what the grammar does and its result is printed as the text, unless a number
of a loose text has a sign or a leading zero. -/
theorem accepts_grammar_iff (s : Text) : (((∃ v, fromStr s = .ok v) ↔
      ∃ t : VersionText, t.WellFormed ∧ t.Plain ∧ t.Fits ∧ t.text = s) ∧
      ∀ v, fromStr s = .ok v → v.display = s) ↔ (Loose s → Unsigned s) := by
  constructor
  · rintro ⟨hgrammar, -⟩ hloose
    obtain ⟨t, ht, hplain, -, rfl⟩ := hgrammar.mp (fromStr_ok_iff.mpr hloose)
    exact .text ht hplain
  · intro hs
    have hdisplay : ∀ v, fromStr s = .ok v → v.display = s :=
      fun v h => display_of_fromStr h (hs (fromStr_ok_iff.mp ⟨v, h⟩))
    refine ⟨⟨?_, ?_⟩, hdisplay⟩
    · rintro ⟨v, h⟩
      obtain ⟨t, ht, hplain, hfits, htext, -⟩ := (fromStr_wellFormed h).pieces
      exact ⟨t, ht, hplain, hfits, htext.trans (hdisplay v h)⟩
    · rintro ⟨t, ht, -, hfits, rfl⟩
      exact ⟨t.version, ht.fromStr hfits⟩

/-- A sign and a leading zero are accepted, and are not printed. -/
theorem sign_accepted : ∃ v, fromStr "+01".toList = .ok v ∧ v.display = "1".toList :=
  ⟨⟨[1], []⟩, by decide, by decide⟩

end Version

namespace Grammar

open Peg

theorem reads_num : Reads num fun t _ => Version.IsNum t := by
  intro s a rest h
  rw [num] at h
  cases hzero : char '0' s with
  | some r =>
    rw [choice_of_eq_some hzero] at h
    cases h
    exact ⟨['0'], char_eq_some.mp hzero, by decide, by decide⟩
  | none =>
    rw [choice_of_eq_none hzero] at h
    obtain ⟨c, mid, hc, h⟩ := bind_eq_some.mp h
    obtain ⟨t, rest', hspan, h⟩ := bind_eq_some.mp h
    obtain ⟨-, rfl⟩ := pure_eq_some.mp h
    obtain ⟨t, rfl, rfl, ht⟩ := reads_span _ _ _ _ hspan
    cases s with
    | nil => cases hc
    | cons d s =>
      obtain ⟨hd, hc⟩ := Option.ite_none_right_eq_some.mp hc
      cases hc
      simp only [Bool.and_eq_true, bne_iff_ne, ne_eq] at hd
      refine ⟨c :: t, rfl, VersionText.isNumeral_iff.mpr ⟨by simp, ?_⟩, ?_⟩
      · exact fun d hmem => (List.mem_cons.mp hmem).elim (fun heq => heq ▸ hd.1) (ht d)
      · simp [VersionText.isPlain, hd.2]

theorem reads_dotted : Reads (many (do num; char '.')) fun t _ =>
    ∃ ds : List Text, (∀ d ∈ ds, Version.IsNum d) ∧ t = (ds.map (· ++ ['.'])).flatten := by
  have hdot : Reads (do num; char '.') fun t _ => ∃ d, Version.IsNum d ∧ t = d ++ ['.'] :=
    reads_num.bind fun _ s a rest h => ⟨['.'], char_eq_some.mp h, fun d hd => ⟨d, hd, rfl⟩⟩
  intro s as rest h
  obtain ⟨ts, rfl, hts⟩ := hdot.steps (steps_of_many h).1
  refine ⟨_, rfl, ?_⟩
  clear h
  induction hts with
  | nil => exact ⟨[], by simp, rfl⟩
  | cons h _ ih =>
    obtain ⟨d, hd, rfl⟩ := h
    obtain ⟨ds, hds, hflat⟩ := ih
    exact ⟨d :: ds, List.forall_mem_cons.mpr ⟨hd, hds⟩, by simp [hflat]⟩

theorem reads_suffix : Reads (.optional (do char '-'; prerelease)) fun t _ =>
    (t = [] ∨ t.head? = some '-') ∧ ∀ c ∈ t, isIdentifierChar c = true ∨ c = '.' := by
  intro s o rest h
  rcases optional_eq_some h with ⟨-, rfl, -⟩ | ⟨a, -, h⟩
  · exact ⟨[], rfl, .inl rfl, by simp⟩
  · obtain ⟨u, rfl, h⟩ := char_bind_eq_some.mp h
    obtain ⟨_, rfl, ts, -, rfl, hts⟩ := reads_sepBy1 (reads_span1 _) '.' _ _ _ h
    have hchars := ((List.forall₂_and_left _ _).mp (hts.imp fun t a ht => ⟨ht.2.2, ht.1⟩)).1
    refine ⟨'-' :: ['.'].intercalate ts, rfl, .inr rfl, List.forall_mem_cons.mpr ⟨by decide, ?_⟩⟩
    intro c hc
    exact (VersionText.mem_intercalate hc).symm.imp_left fun ⟨t, ht, hct⟩ => hchars t ht c hct

/-- What the grammar reads as a version has no signs and no leading zeros. -/
theorem reads_version : Reads version fun t _ =>
    Version.Unsigned t ∧ ∀ c ∈ t, isIdentifierChar c = true ∨ c = '.' := by
  intro s a rest h
  obtain ⟨_, mid, hdots, h⟩ := bind_eq_some.mp h
  obtain ⟨_, mid', hnum, h⟩ := bind_eq_some.mp h
  obtain ⟨_, rest', hopt, h⟩ := bind_eq_some.mp h
  obtain ⟨-, rfl⟩ := pure_eq_some.mp h
  obtain ⟨_, rfl, ds, hds, rfl⟩ := reads_dotted _ _ _ hdots
  obtain ⟨last, rfl, hlast⟩ := reads_num _ _ _ hnum
  obtain ⟨tail, rfl, htail, hchars⟩ := reads_suffix _ _ _ hopt
  have hall : ∀ d ∈ ds ++ [last], Version.IsNum d := by
    intro d hd
    rcases List.mem_append.mp hd with hd | hd
    · exact hds d hd
    · exact List.mem_singleton.mp hd ▸ hlast
  refine ⟨['.'].intercalate (ds ++ [last]) ++ tail, by simp [intercalate_concat],
    .append (by simp) hall htail, fun c hc => ?_⟩
  rcases List.mem_append.mp hc with hc | hc
  · exact (VersionText.mem_intercalate hc).symm.imp_left fun ⟨d, hd, hcd⟩ =>
      VersionText.isIdentifierChar_of_isDigit ((hall d hd).isDigit hcd)
  · exact hchars c hc

end Grammar

namespace ExtendedVersion

theorem parseSpec_of_fromStr {s : Text} {v : ExtendedVersion} (h : fromStr s = .ok v) :
    parseSpec s = .ok { v with flavor := v.flavor.filter fun f => !f.isEmpty } := by
  obtain ⟨hflavor, hsplit, parts, hparts, hu, hd⟩ := fromStr_eq_ok h
  have hcheck : checkFlavor s (v.flavor.filter fun f => !f.isEmpty) = .ok () := by
    cases hf : v.flavor with
    | none => rfl
    | some f =>
      rw [hf] at hflavor
      cases f with
      | nil => rfl
      | cons => exact hflavor
  rw [parseSpec, ← hsplit, hcheck, hparts]
  exact Fallible.bind_ok rfl (Fallible.bind_ok hu (Fallible.bind_ok hd rfl))

theorem parseSpec_eq_iff {s : Text} {v : ExtendedVersion} (h : fromStr s = .ok v) :
    parseSpec s = .ok v ↔ v.flavor ≠ some [] := by
  rw [parseSpec_of_fromStr h, Except.ok.injEq]
  obtain ⟨flavor, up, down⟩ := v
  cases flavor with
  | none => simp
  | some f => cases f <;> simp [Option.filter]

/-- The flavor of a text is not empty, and no number has a sign or a leading zero. -/
structure Canonical (s : Text) : Prop where
  flavor : (splitFlavor s).1 ≠ some []
  numbers : ∀ parts ∈ Text.splitOnce ':' (splitFlavor s).2,
    Version.Unsigned parts.1 ∧ Version.Unsigned parts.2

/-- Both parsers read the text as the version. With an equals sign in front it is an anchor, from
its beginning to its end, which the version satisfies. -/
def AnchorMatches (s : Text) (v : ExtendedVersion) : Prop :=
  parseSpec s = .ok v ∧ Grammar.anchor ('=' :: s) = some (.anchor (some .eq) s, []) ∧
    ∃ r, VersionRange.fromStr ('=' :: s) = .ok r ∧ v.satisfies r = true

theorem splitFlavor_eq (s : Text) :
    s = flavorText (splitFlavor s).1 ++ (splitFlavor s).2 := by
  unfold splitFlavor
  split
  · split
    · rename_i hsplit
      simp [flavorText, Text.eq_of_splitOnce hsplit]
    · rfl
  · rfl

theorem display_of_fromStr {s : Text} {v : ExtendedVersion} (h : fromStr s = .ok v)
    (hs : Canonical s) : v.display = s := by
  obtain ⟨-, hflavor, parts, hparts, hu, hd⟩ := fromStr_eq_ok h
  obtain ⟨hup, hdown⟩ := hs.numbers parts hparts
  rw [display, hflavor, Version.display_of_fromStr hu hup, Version.display_of_fromStr hd hdown,
    ← Text.eq_of_splitOnce hparts, ← splitFlavor_eq]

theorem fromStr_wellFormed {s : Text} {v : ExtendedVersion} (h : fromStr s = .ok v)
    (hflavor : v.flavor ≠ some []) : v.WellFormed := by
  obtain ⟨hcheck, -, parts, -, hu, hd⟩ := fromStr_eq_ok h
  refine ⟨fun f hf => ?_, Version.fromStr_wellFormed hu, Version.fromStr_wellFormed hd⟩
  rw [hf, checkFlavor] at hcheck
  split_ifs at hcheck with hlower
  exact ⟨fun hnil => hflavor (hnil ▸ hf), hlower⟩

open Peg in
theorem unsigned_of_versionSpec {s : Text} {parts : Text × Text}
    (h : Grammar.versionSpec s = some (s, []))
    (hparts : Text.splitOnce ':' (splitFlavor s).2 = some parts) :
    Version.Unsigned parts.1 ∧ Version.Unsigned parts.2 := by
  have hcolon {t : Text} (ht : ∀ c ∈ t, isIdentifierChar c = true ∨ c = '.') : ':' ∉ t :=
    fun hmem => absurd (ht ':' hmem) (by decide)
  rw [Grammar.versionSpec, consumed] at h
  split at h
  case h_2 => cases h
  rename_i hrule
  cases (Prod.mk.inj (Option.some.inj h)).2
  obtain ⟨_, mid, hflavor, hrule⟩ := bind_eq_some.mp hrule
  obtain ⟨_, mid', hup, hrule⟩ := bind_eq_some.mp hrule
  obtain ⟨_, _, hdown, hrule⟩ := bind_eq_some.mp hrule
  obtain ⟨-, rfl⟩ := pure_eq_some.mp hrule
  have hlen := Grammar.takes_version _ _ _ hup
  obtain ⟨up, rfl, hunsigned, hchars⟩ := Grammar.reads_version _ _ _ hup
  -- The rule for the flavor takes off what is split off.
  have hsplit : (splitFlavor s).2 = up ++ mid' := by
    rcases optional_eq_some hflavor with ⟨-, rfl, -⟩ | ⟨_, -, hhash⟩
    · cases up with
      | nil => simp at hlen
      | cons c up =>
        unfold splitFlavor
        split
        · rename_i heq
          cases (List.cons.inj heq).1
          exact absurd (hchars '#' (by simp)) (by decide)
        · rfl
    · obtain ⟨u, rfl, htail⟩ := char_bind_eq_some.mp hhash
      obtain ⟨f, w, hspan, hend⟩ := bind_eq_some.mp htail
      obtain ⟨_, rfl, rfl, hlower⟩ := reads_span _ _ _ _ hspan
      obtain rfl := char_eq_some.mp hend
      have hf : ':' ∉ f := fun hmem => absurd (hlower ':' hmem) (by decide)
      simp [splitFlavor, Text.splitOnce_append hf]
  rw [hsplit] at hparts
  rcases optional_eq_some hdown with ⟨-, rfl, -⟩ | ⟨_, -, hdown⟩
  · rw [List.append_nil, Text.splitOnce_eq_none (hcolon hchars)] at hparts
    cases hparts
  · obtain ⟨u, rfl, hdown⟩ := char_bind_eq_some.mp hdown
    obtain ⟨down, rfl, hunsigned', -⟩ := Grammar.reads_version _ _ _ hdown
    rw [Text.splitOnce_append (hcolon hchars)] at hparts
    cases hparts
    exact ⟨hunsigned, by simpa using hunsigned'⟩

open Peg in
theorem versionSpec_of_anchor {s : Text}
    (h : Grammar.anchor ('=' :: s) = some (.anchor (some .eq) s, [])) :
    Grammar.versionSpec s = some (s, []) := by
  obtain ⟨op, mid, hop, h⟩ := bind_eq_some.mp h
  obtain ⟨_, mid', hskip, h⟩ := bind_eq_some.mp h
  obtain ⟨u, rest, hspec, h⟩ := bind_eq_some.mp h
  obtain ⟨heq, rfl⟩ := pure_eq_some.mp h
  cases heq
  -- The operator is the equals sign, and no blanks follow it.
  have hmid : mid = s := by
    rcases optional_eq_some hop with ⟨heq, -⟩ | ⟨_, heq, hop⟩
    · cases heq
    · cases heq
      rw [Grammar.cmpOp_eq] at hop
      obtain ⟨_, heq, rfl⟩ := reads_operators _ _ _ _ hop
      cases heq
      rfl
  have hlen : s.length ≤ mid'.length := by
    rw [Grammar.versionSpec, consumed] at hspec
    split at hspec
    · rw [← (Prod.mk.inj (Option.some.inj hspec)).1]
      simp
    · cases hspec
  obtain ⟨_, _, hspan, hskip⟩ := bind_eq_some.mp hskip
  obtain ⟨-, rfl⟩ := pure_eq_some.mp hskip
  obtain ⟨sp, heq, -⟩ := reads_span _ _ _ _ hspan
  rw [hmid] at heq
  have hsp : sp = [] := by
    have := congrArg List.length heq
    rw [List.length_append] at this
    exact List.length_eq_zero_iff.mp (by omega)
  rw [hsp, List.nil_append] at heq
  rwa [← heq] at hspec

/-- An anchor that is written with the text of a version matches it, exactly if the text has no
empty flavor, no sign and no leading zero. -/
theorem anchor_matches_iff (s : Text) (v : ExtendedVersion) (h : fromStr s = .ok v) :
    AnchorMatches s v ↔ Canonical s := by
  have hflavor := (fromStr_eq_ok h).2.1
  constructor
  · rintro ⟨hspec, hanchor, -⟩
    refine ⟨hflavor ▸ (parseSpec_eq_iff h).mp hspec, fun parts hparts => ?_⟩
    exact unsigned_of_versionSpec (versionSpec_of_anchor hanchor) hparts
  · intro hs
    have hne : v.flavor ≠ some [] := hflavor ▸ hs.flavor
    have hwf := fromStr_wellFormed h hne
    have htext : VersionRange.display (.anchor EQ v) = '=' :: s :=
      congrArg _ (display_of_fromStr h hs)
    refine ⟨(parseSpec_eq_iff h).mpr hne, ?_, .anchor EQ v, ?_, ?_⟩
    · obtain ⟨t, ht⟩ := hwf.pieces
      have hread := (@Grammar.anchor_append [] [] (some .eq) t (by simp [Grammar.Blank])
        ht.wellFormed ht.upstream ht.downstream (by simp [Ends]) (by simp)).2
      simpa [Grammar.anchorText, ht.text, display_of_fromStr h hs, CmpOp.text] using hread
    · exact htext ▸ VersionRange.Normal.fromStr_display (r := .anchor EQ v) hwf
    · have hself (v : Version) : v.cmp v = .eq := Std.ReflCmp.compare_self
      simp [satisfies, partialCmp, hself, Operator.accepts, EQ]

/-- The text `#a:1.2-rc:0`. -/
theorem anchor_matches_flavor :
    AnchorMatches "#a:1.2-rc:0".toList ⟨some ['a'], ⟨[1, 2], [.string "rc".toList]⟩, ⟨[0], []⟩⟩ := by
  refine (anchor_matches_iff _ _ (by decide)).mpr ⟨by decide, fun parts hparts => ?_⟩
  cases hparts
  simp only [Version.Unsigned]
  decide

/-- An empty flavor is one for the parser of versions and none for that of anchors. -/
theorem empty_flavor_dropped : fromStr "#:1:0".toList = .ok ⟨some [], ⟨[1], []⟩, ⟨[0], []⟩⟩ ∧
    parseSpec "#:1:0".toList = .ok ⟨none, ⟨[1], []⟩, ⟨[0], []⟩⟩ := by
  decide

end ExtendedVersion

end StartTech.Exver

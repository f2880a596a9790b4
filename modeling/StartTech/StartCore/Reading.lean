import StartTech.Exver.Atoms
import StartTech.StartCore.Grammar

/-!
# What the TypeScript grammar reads as a version

The grammar takes off exactly the texts of versions, piece by piece.
-/

namespace StartTech.StartCore

open Foundation Peg
open Exver (CmpOp SpecText VersionText flavorText operators reads_operators)

namespace Grammar

theorem reads_digit : Reads digit fun t d => d = t ∧ VersionText.isNumeral t = true := by
  intro s d rest h
  obtain ⟨t, rfl, rfl, hne, hdigits⟩ := reads_span1 _ _ _ _ h
  exact ⟨d, rfl, rfl, VersionText.isNumeral_iff.mpr ⟨hne, hdigits⟩⟩

theorem hasLeadingZero_iff (s : Text) : hasLeadingZero s = true ↔
      s.all Char.isDigit = true ∧ 2 ≤ s.length ∧ s.head? = some '0' := by
  cases s with
  | nil => simp [hasLeadingZero]
  | cons c s =>
    cases s with
    | nil => simp [hasLeadingZero]
    | cons d s =>
      by_cases hc : c = '0'
      · subst hc
        simp [hasLeadingZero, isDigit]
      · have hfalse : hasLeadingZero (c :: d :: s) = false := by
          unfold hasLeadingZero
          split
          · rename_i heq
            exact absurd (List.cons.inj heq).1 hc
          · rfl
        simp [hfalse, hc]

theorem reads_preReleaseSegment :
    Reads preReleaseSegment fun t i => i = t ∧ VersionText.isIdentifier t = true := by
  intro s i rest h
  obtain ⟨segment, mid, hspan, hval⟩ := bind_eq_some.mp h
  obtain ⟨t, rfl, rfl, hne, hchars⟩ := reads_span1 _ _ _ _ hspan
  split at hval
  · cases hval
  · obtain ⟨rfl, rfl⟩ := pure_eq_some.mp hval
    refine ⟨segment, rfl, rfl, VersionText.isIdentifier_iff.mpr ⟨hne, hchars, ?_⟩⟩
    rwa [← hasLeadingZero_iff]

/-- A list of pieces that are the texts they were read from. -/
theorem forall₂_same {P : Text → Prop} {ts us : List Text}
    (h : List.Forall₂ (fun t u => u = t ∧ P t) ts us) : us = ts ∧ ∀ t ∈ ts, P t := by
  induction h with
  | nil => simp
  | cons hhead _ ih => simpa [hhead.1, hhead.2, ih.1] using ih.2

/-- The grammar's versions are the well-formed texts. -/
theorem reads_version : Reads version fun t v => t = v.text ∧ v.WellFormed := by
  have hpre : Reads (.optional preRelease) fun t ids =>
      (t = if (ids.getD []).isEmpty then [] else '-' :: ['.'].intercalate (ids.getD [])) ∧
        ∀ s ∈ ids.getD [], VersionText.isIdentifier s = true := by
    have hsome : Reads preRelease fun t ids => t = '-' :: ['.'].intercalate ids ∧ ids ≠ [] ∧
        ∀ s ∈ ids, VersionText.isIdentifier s = true := by
      apply (reads_char '-').bind
      rintro _ s ids rest h
      obtain ⟨t, rfl, us, hne, rfl, hforall⟩ := reads_sepBy1 reads_preReleaseSegment '.' _ _ _ h
      obtain ⟨rfl, hident⟩ := forall₂_same hforall
      exact ⟨_, rfl, by simpa using ⟨hne, hident⟩⟩
    apply hsome.optional (by simp)
    rintro t ids ⟨rfl, hne, hident⟩
    exact ⟨by simp [hne], hident⟩
  apply (reads_sepBy1 reads_digit '.').bind
  intro number
  apply hpre.bind
  intro ids
  apply reads_pure
  rintro _ ⟨rfl, hident⟩ _ ⟨ts, hne, rfl, hts⟩
  obtain ⟨rfl, hnumerals⟩ := forall₂_same hts
  exact ⟨by simp [VersionText.text], hne, hnumerals, hident⟩

theorem reads_flavor : Reads flavor fun t f =>
    t = flavorText (some f) ∧ f.all Char.isLower = true := by
  apply (reads_char '#').bind
  intro _
  apply (reads_span _).bind
  intro f
  apply (reads_char ':').bind
  intro _
  apply reads_pure
  rintro _ rfl _ ⟨rfl, hlower⟩ _ rfl
  exact ⟨by simp [flavorText], List.all_eq_true.mpr hlower⟩

/-- An optional flavor in front of a version. -/
theorem reads_optional_flavor : Reads (Peg.optional flavor) fun t f =>
    t = flavorText f ∧ ∀ g ∈ f, g.all Char.isLower = true := by
  apply reads_flavor.optional (by simp [flavorText])
  rintro _ f ⟨rfl, hlower⟩
  exact ⟨rfl, by simpa using hlower⟩

theorem reads_versionSpec : Reads versionSpec fun t v => t = v.text ∧ v.WellFormed := by
  have hdown : Reads (.optional (do char ':'; version)) fun t down =>
      t = ((down.map fun d => ':' :: d.text).getD []) ∧ ∀ d ∈ down, d.WellFormed := by
    have hsome : Reads (do char ':'; version) fun t down => t = ':' :: down.text ∧
        down.WellFormed := by
      apply (reads_char ':').bind
      rintro _ s down rest h
      obtain ⟨_, rfl, rfl, hwf⟩ := reads_version _ _ _ h
      exact ⟨_, rfl, by simpa using hwf⟩
    apply hsome.optional (by simp)
    rintro _ down ⟨rfl, hwf⟩
    exact ⟨rfl, by simpa using hwf⟩
  apply reads_optional_flavor.bind
  intro f
  apply reads_version.bind
  intro upstream
  apply hdown.bind
  intro downstream
  apply reads_pure
  rintro _ ⟨rfl, hwdown⟩ _ ⟨rfl, hwup⟩ _ ⟨rfl, hlower⟩
  refine ⟨?_, hlower, hwup, hwdown⟩
  cases downstream <;> simp [SpecText.text]

theorem reads_space : Reads space fun t _ => ∀ c ∈ t, isSpace c = true := by
  intro s a rest h
  obtain ⟨u, mid, hspan, h⟩ := bind_eq_some.mp h
  obtain ⟨-, rfl⟩ := pure_eq_some.mp h
  obtain ⟨t, rfl, -, ht⟩ := reads_span _ _ _ _ hspan
  exact ⟨t, rfl, ht⟩

/-- The operators in the order in which they are tried. -/
def order : List CmpOp := [.ge, .le, .gt, .lt, .eq, .ne, .caret, .tilde]

theorem cmpOp_eq : cmpOp = operators order := rfl

theorem reads_cmpOp : Reads cmpOp fun t op => t = op.text := reads_operators order

theorem reads_logic : Reads logic fun t op => t = op.text := by
  apply reads_oneOf
  simp only [List.forall_mem_cons, List.not_mem_nil, false_imp_iff, implies_true, and_true]
  and_intros <;> exact reads_word rfl

end Grammar

/-- The texts that parse as extended versions, with their pieces. -/
theorem ExtendedVersion.parse_pieces {s : Text} {v : ExtendedVersion}
    (h : ExtendedVersion.parse s = some v) :
    ∃ (f : Option Text) (up down : VersionText), (∀ g ∈ f, g.all Char.isLower = true) ∧
      up.WellFormed ∧ down.WellFormed ∧ s = flavorText f ++ (up.text ++ ':' :: down.text) ∧
      v = ⟨Grammar.orNull f, Grammar.versionOf up, Grammar.versionOf down⟩ := by
  obtain ⟨pieces, hpieces, rfl⟩ := Option.map_eq_some_iff.mp h
  have hread : Grammar.extendedVersion s = some (pieces, []) := parseAll_eq_some.mp hpieces
  obtain ⟨f, mid, hf, hread⟩ := bind_eq_some.mp hread
  obtain ⟨up, mid', hup, hread⟩ := bind_eq_some.mp hread
  obtain ⟨_, mid'', hcolon, hread⟩ := bind_eq_some.mp hread
  obtain ⟨down, rest, hdown, hread⟩ := bind_eq_some.mp hread
  obtain ⟨rfl, rfl⟩ := pure_eq_some.mp hread
  rw [char_eq_some] at hcolon
  obtain ⟨_, rfl, rfl, hlower⟩ := Grammar.reads_optional_flavor _ _ _ hf
  obtain ⟨_, rfl, rfl, hwup⟩ := Grammar.reads_version _ _ _ hup
  obtain ⟨_, hmid, rfl, hwdown⟩ := Grammar.reads_version _ _ _ hdown
  exact ⟨f, up, down, hlower, hwup, hwdown, by simp [hcolon, hmid], rfl⟩

end StartTech.StartCore

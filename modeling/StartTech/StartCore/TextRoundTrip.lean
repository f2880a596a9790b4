import StartTech.StartCore.Construction

/-!
# Ranges and their texts

What the grammar accepts has no plus sign, and it has capital letters only in
prereleases. So the text of a range with a number that is written with an
exponent, or that is infinite, is not accepted. Every other range that the
library builds is read back, where the flavors that it asks for are lowercase letters. A range
for versions without a flavor is read back as the range for the empty flavor.
-/

namespace StartTech.StartCore

open Foundation Peg
open JsNumber (text isShort)
open Exver (CmpOp Logic RangeExpr SpecText VersionText flavorText isIdentifierChar)

/-- No plus signs, and capital letters only behind a hyphen with nothing but
identifier characters and dots in between. -/
def Cased (t : Text) : Prop :=
  ∀ a c b, t = a ++ c :: b → c ≠ '+' ∧ (c.isUpper = true → ∃ a₁ a₂, a = a₁ ++ '-' :: a₂ ∧
    ∀ d ∈ a₂, isIdentifierChar d = true ∨ d = '.')

namespace Cased

variable {t : Text}

theorem append {u : Text} (ht : Cased t) (hu : Cased u) : Cased (t ++ u) := by
  intro a c b heq
  rcases List.append_eq_append_iff.mp heq with ⟨w, rfl, hw⟩ | ⟨w, rfl, hw⟩
  · obtain ⟨hplus, hupper⟩ := hu w c b hw
    refine ⟨hplus, fun h => ?_⟩
    obtain ⟨a₁, a₂, rfl, hall⟩ := hupper h
    exact ⟨t ++ a₁, a₂, by simp, hall⟩
  · cases w with
    | nil =>
      obtain ⟨hplus, hupper⟩ := hu [] c b (by simpa using hw.symm)
      refine ⟨hplus, fun h => ?_⟩
      obtain ⟨a₁, a₂, heq, -⟩ := hupper h
      simp at heq
    | cons d w =>
      obtain ⟨rfl, rfl⟩ := List.cons.inj hw
      exact ht a c w rfl

theorem of_forall (h : ∀ c ∈ t, c ≠ '+' ∧ c.isUpper = false) : Cased t := by
  rintro a c b rfl
  obtain ⟨hplus, hupper⟩ := h c (by simp)
  refine ⟨hplus, fun h => ?_⟩
  rw [hupper] at h
  cases h

theorem nil : Cased [] := of_forall (by simp)

theorem flatten {ts : List Text} (h : ∀ t ∈ ts, Cased t) : Cased ts.flatten := by
  induction ts with
  | nil => exact nil
  | cons t ts ih =>
    rw [List.flatten_cons]
    exact (h t (by simp)).append (ih fun u hu => h u (List.mem_cons_of_mem _ hu))

end Cased

open Cased (nil append)

open Cased (of_forall)

variable {c : Char} {t : Text}

theorem not_plus_of_isIdentifierChar (h : isIdentifierChar c = true ∨ c = '.') : c ≠ '+' := by
  rintro rfl
  rcases h with h | h <;> exact absurd h (by decide)

theorem not_isUpper_of_isDigit (h : c.isDigit = true) : c.isUpper = false := by
  by_contra hupper
  rw [Bool.not_eq_false, Text.isUpper_iff_toNat] at hupper
  exact absurd (hupper.1.trans (Char.isDigit_iff_toNat.mp h).2) (by decide)

theorem not_isUpper_of_isLower (h : c.isLower = true) : c ≠ '+' ∧ c.isUpper = false := by
  constructor
  · rintro rfl
    exact absurd h (by decide)
  · by_contra hupper
    rw [Bool.not_eq_false, Text.isUpper_iff_toNat] at hupper
    exact absurd ((Text.isLower_iff_toNat.mp h).1.trans hupper.2) (by decide)

theorem cased_hyphen {w : Text} (h : ∀ d ∈ w, isIdentifierChar d = true ∨ d = '.') :
    Cased ('-' :: w) := by
  intro a c b heq
  cases a with
  | nil =>
    cases (List.cons.inj heq).1
    exact ⟨by decide, fun hupper => absurd hupper (by decide)⟩
  | cons d a =>
    obtain ⟨rfl, rfl⟩ := List.cons.inj heq
    refine ⟨not_plus_of_isIdentifierChar (h c (by simp)), fun _ => ⟨[], a, rfl, ?_⟩⟩
    exact fun d hd => h d (List.mem_append_left _ hd)

theorem cased_version {t : VersionText} (h : t.WellFormed) : Cased t.text := by
  rw [VersionText.text]
  apply append
  · apply of_forall
    intro c hc
    rcases h.mem_numbers hc with hdigit | rfl
    · exact ⟨not_plus_of_isIdentifierChar
        (.inl (VersionText.isIdentifierChar_of_isDigit hdigit)), not_isUpper_of_isDigit hdigit⟩
    · decide
  · split
    · exact nil
    · apply cased_hyphen
      intro d hd
      rcases VersionText.mem_intercalate hd with rfl | ⟨s, hs, hds⟩
      · exact .inr rfl
      · exact .inl ((VersionText.isIdentifier_iff.mp (h.segments s hs)).2.1 d hds)

theorem cased_lower {f : Text} (h : f.all Char.isLower = true) : Cased f :=
  of_forall fun c hc => not_isUpper_of_isLower (List.all_eq_true.mp h c hc)

theorem cased_singleton (h : c ≠ '+' ∧ c.isUpper = false) : Cased [c] := by
  apply of_forall
  intro d hd
  rw [List.mem_singleton.mp hd]
  exact h

theorem cased_spec {t : SpecText} (h : t.WellFormed) : Cased t.text := by
  rw [SpecText.text]
  apply append
  · cases hf : t.flavor with
    | none => exact nil
    | some f =>
      exact (cased_singleton (c := '#') (by decide)).append
        ((cased_lower (h.flavor f hf)).append (cased_singleton (by decide)))
  · apply (cased_version h.upstream).append
    cases hd : t.downstream with
    | none => exact nil
    | some down =>
      exact (cased_singleton (c := ':') (by decide)).append (cased_version (h.downstream down hd))

namespace Grammar

/-- What the grammar reads is well formed, and its text is cased. -/
def Reading (t : Text) (e : RangeExpr SpecText) : Prop := WellFormed e ∧ Cased t

theorem cased_space (h : ∀ c ∈ t, isSpace c = true) : Cased t := by
  apply of_forall
  intro c hc
  have hspace := h c hc
  simp only [isSpace, Bool.or_eq_true, beq_iff_eq] at hspace
  rcases hspace with ((rfl | rfl) | rfl) | rfl <;> decide

theorem cased_cmpOp (op : CmpOp) : Cased op.text := by
  apply of_forall
  cases op <;> simp [CmpOp.text]

theorem cased_logic (op : Logic) : Cased op.text := by
  apply of_forall
  cases op <;> simp [Logic.text]

theorem reads_anchor : Reads anchor Reading := by
  have hop : Reads (.optional cmpOp) fun t _ => Cased t := by
    apply reads_cmpOp.optional nil
    rintro _ op rfl
    exact cased_cmpOp op
  apply hop.bind
  intro op
  apply reads_space.bind
  intro _
  apply reads_versionSpec.bind
  intro v
  apply reads_pure
  rintro _ ⟨rfl, hwf⟩ sp hsp u hu
  exact ⟨hwf, hu.append ((cased_space hsp).append ((cased_spec hwf).append nil))⟩

variable {p : Peg (RangeExpr SpecText)}

theorem reads_linked (h : Reads p Reading) :
    Reads (linked p) fun t l => WellFormed l.2 ∧ Cased t := by
  have hlogic : Reads (do let op ← logic; space; pure op) fun t _ => Cased t := by
    apply reads_logic.bind
    intro op
    apply reads_space.bind
    intro _
    apply reads_pure
    rintro sp hsp _ rfl
    exact (cased_logic op).append ((cased_space hsp).append nil)
  have hop : Reads (.optional _) fun t (_ : Option Logic) => Cased t :=
    hlogic.optional nil fun _ _ => id
  apply reads_space.bind
  intro _
  apply hop.bind
  intro op
  apply h.bind
  intro e
  apply reads_pure
  rintro t ⟨hwf, ht⟩ u hu sp hsp
  exact ⟨hwf, (cased_space hsp).append (hu.append (ht.append nil))⟩

theorem wellFormed_chain {first : RangeExpr SpecText}
    {links : List (Option Logic × RangeExpr SpecText)} (hfirst : WellFormed first)
    (hlinks : ∀ l ∈ links, WellFormed l.2) : WellFormed (.chain first links) := by
  induction links generalizing first with
  | nil => exact hfirst
  | cons l links ih =>
    exact @ih (.link first l.1 l.2) ⟨hfirst, hlinks l (by simp)⟩
      fun k hk => hlinks k (List.mem_cons_of_mem _ hk)

theorem reads_rangeOf (h : Reads p Reading) : Reads (rangeOf p) Reading := by
  intro s e rest hs
  obtain ⟨first, mid, hfirst, hs⟩ := bind_eq_some.mp hs
  obtain ⟨links, mid', hlinks, hs⟩ := bind_eq_some.mp hs
  obtain ⟨rfl, rfl⟩ := pure_eq_some.mp hs
  obtain ⟨t, rfl, hwf, ht⟩ := h _ _ _ hfirst
  obtain ⟨ts, rfl, hts⟩ := (reads_linked h).steps (steps_of_many hlinks).1
  refine ⟨t ++ ts.flatten, by simp, wellFormed_chain hwf ?_, ht.append (.flatten ?_)⟩
  · intro l hl
    obtain ⟨i, hi, rfl⟩ := List.mem_iff_getElem.mp hl
    exact ((List.forall₂_iff_get.mp hts).2 i (by rw [hts.length_eq]; exact hi) hi).1
  · intro u hu
    obtain ⟨i, hi, rfl⟩ := List.mem_iff_getElem.mp hu
    exact ((List.forall₂_iff_get.mp hts).2 i hi (by rw [← hts.length_eq]; exact hi)).2

theorem reads_atom (depth : Nat) : Reads (atom depth) Reading := by
  induction depth with
  | zero =>
    intro s e rest h
    cases h
  | succ depth ih =>
    rw [atom]
    apply reads_oneOf
    intro p hp
    simp only [List.mem_cons, List.not_mem_nil, or_false] at hp
    rcases hp with rfl | rfl | rfl | rfl | rfl | rfl
    · apply (reads_char '(').bind
      intro _
      apply reads_space.bind
      intro _
      apply (reads_rangeOf ih).bind
      intro e
      apply reads_space.bind
      intro _
      apply reads_mark
      rintro w hw t ⟨hwf, ht⟩ u hu _ rfl
      exact ⟨hwf, (cased_singleton (by decide)).append ((cased_space hu).append (ht.append
        ((cased_space hw).append (cased_singleton (by decide)))))⟩
    · exact reads_anchor
    · apply (reads_char '!').bind
      intro _
      apply reads_space.bind
      intro _
      apply ih.bind
      intro e
      apply reads_pure
      rintro t ⟨hwf, ht⟩ u hu _ rfl
      exact ⟨hwf, (cased_singleton (by decide)).append ((cased_space hu).append
        (ht.append nil))⟩
    · exact reads_mark ⟨trivial, cased_singleton (by decide)⟩
    · exact reads_mark ⟨trivial, cased_singleton (by decide)⟩
    · apply (reads_char '#').bind
      intro _
      apply (reads_span _).bind
      intro f
      apply reads_pure
      rintro _ ⟨rfl, hlower⟩ _ rfl
      have hall : f.all Char.isLower = true := List.all_eq_true.mpr hlower
      exact ⟨hall, (cased_singleton (by decide)).append ((cased_lower hall).append nil)⟩

end Grammar

namespace VersionRange

/-- What parses is written and asks for flavors of lowercase letters, and its text is cased. -/
theorem parse_spec {s : Text} {r : VersionRange} (h : parse s = some r) :
    r.Written ∧ r.Lower ∧ Cased s := by
  obtain ⟨e, he, rfl⟩ := Option.map_eq_some_iff.mp h
  obtain ⟨t, heq, hwf, ht⟩ := Grammar.reads_rangeOf (Grammar.reads_atom _) _ _ _
    (parseAll_eq_some.mp he)
  rw [List.append_nil] at heq
  exact ⟨Grammar.parseRange_written hwf, Grammar.parseRange_lower hwf, heq ▸ ht⟩

theorem Built.written {r : VersionRange} (h : r.Built) : r.Written := by
  induction h with
  | parse h => exact (parse_spec h).1
  | anchor op h => exact ofAnchor_written op (ExtendedVersion.parse_written h)
  | flavor f => trivial
  | and _ _ ihl ihr | or _ _ ihl ihr => exact ⟨ihl, ihr⟩
  | not _ ih => exact ih
  | andAll _ ih => exact andAll_written ih
  | orAll _ ih => exact orAll_written ih
  | normalize _ hn ih => exact ih.normalize hn

end VersionRange

/-- A plus sign, or a capital letter that only digits and dots separate from a
character of no identifier. -/
def Stray (t : Text) : Prop :=
  '+' ∈ t ∨ ∃ a d p c b, t = a ++ d :: (p ++ c :: b) ∧ c.isUpper = true ∧
    (∀ e ∈ p, e.isDigit = true ∨ e = '.') ∧ isIdentifierChar d = false ∧ d ≠ '.'

namespace Stray

theorem append_left (h : Stray t) (u : Text) : Stray (u ++ t) := by
  rcases h with h | ⟨a, d, p, c, b, rfl, hc⟩
  · exact .inl (List.mem_append_right _ h)
  · exact .inr ⟨u ++ a, d, p, c, b, by simp, hc⟩

/-- No accepted text has a stray character. -/
theorem not_cased (h : Stray t) : ¬ Cased t := by
  intro hcased
  rcases h with h | ⟨a, d, p, c, b, rfl, hc, hp, hd, hdot⟩
  · obtain ⟨a, b, rfl⟩ := List.append_of_mem h
    exact (hcased a '+' b rfl).1 rfl
  · obtain ⟨a₁, a₂, heq, hall⟩ := (hcased (a ++ d :: p) c b (by simp)).2 hc
    have hhyphen : d ≠ '-' := by
      rintro rfl
      exact absurd hd (by decide)
    -- The hyphen would have to stand in front of the separating character.
    rcases List.append_eq_append_iff.mp heq with ⟨w, rfl, hw⟩ | ⟨w, rfl, hw⟩
    · cases w with
      | nil => exact hhyphen (List.cons.inj hw).1
      | cons e w =>
        have hmem : '-' ∈ p := by
          rw [(List.cons.inj hw).2]
          simp
        rcases hp '-' hmem with h | h <;> exact absurd h (by decide)
    · cases w with
      | nil => exact hhyphen (List.cons.inj hw).1.symm
      | cons e w =>
        have hmem : d ∈ a₂ := by
          rw [(List.cons.inj hw).2]
          simp
        rcases hall d hmem with h | h
        · rw [hd] at h
          cases h
        · exact hdot h

end Stray

section Numbers

/-- A rounded natural number is short, infinite or written with an exponent. -/
theorem round_text_cases (n : Nat) : (JsNumber.round n).isShort = true ∨
    (JsNumber.round n).text = "Infinity".toList ∨ '+' ∈ (JsNumber.round n).text := by
  cases hround : JsNumber.round n with
  | nan => exact absurd hround (round_ne_nan _)
  | infinity negative =>
    have hpos : negative = false := by
      simp only [JsNumber.round] at hround
      split at hround
      · cases hround
        simp
      · cases hround
    subst hpos
    exact .inr (.inl rfl)
  | finite q =>
    obtain ⟨k, rfl, hk⟩ := JsNumber.exists_nat_of_round hround
    rcases Nat.lt_or_ge k (10 ^ 21) with hlt | hle
    · have hshort : (k : ℚ) < 10 ^ 21 := by exact_mod_cast hlt
      exact .inl (by simpa [isShort] using hshort)
    · exact .inr (.inr (JsNumber.plus_mem_text hk hle))

variable {d : Char}

variable (hd : isIdentifierChar d = false ∧ d ≠ '.')
include hd

/-- Numbers that are not all short, behind a character of no identifier. -/
theorem stray_numbers {xs : List JsNumber}
    (hxs : ∀ x ∈ xs, ∃ n : Nat, x = JsNumber.round n) (hlong : ¬ ∀ x ∈ xs, x.isShort = true)
    (p u : Text) (hp : ∀ e ∈ p, e.isDigit = true ∨ e = '.') :
    Stray (d :: (p ++ (['.'].intercalate (xs.map text) ++ u))) := by
  induction xs generalizing p with
  | nil => simp at hlong
  | cons x xs ih =>
    obtain ⟨n, rfl⟩ := hxs x (by simp)
    have htext : ∃ w, ['.'].intercalate (((.round n) :: xs).map text) ++ u =
        (JsNumber.round n).text ++ w := by
      rw [List.map_cons, intercalate_cons]
      exact ⟨_, List.append_assoc _ _ _⟩
    obtain ⟨w, hw⟩ := htext
    rcases round_text_cases n with hshort | hinf | hplus
    · -- The bad number comes later, so there is a dot behind this one.
      have htail : ¬ ∀ x ∈ xs, x.isShort = true := by
        intro hall
        exact hlong (by simpa [hshort] using hall)
      cases xs with
      | nil => simp at htail
      | cons y ys =>
        obtain ⟨m, hm, -⟩ := JsNumber.text_short hshort
        have hdot : ['.'].intercalate ((.round n :: y :: ys).map text) ++ u =
              ((JsNumber.round n).text ++ ['.']) ++
                (['.'].intercalate ((y :: ys).map text) ++ u) := by
          simp [intercalate_cons]
        have hmore := ih (fun z hz => hxs z (List.mem_cons_of_mem _ hz)) htail
          (p ++ ((JsNumber.round n).text ++ ['.'])) (by
            intro e he
            rcases List.mem_append.mp he with he | he
            · exact hp e he
            · rcases List.mem_append.mp he with he | he
              · rw [hm] at he
                exact .inl (Text.decimal_isDigit he)
              · exact .inr (List.mem_singleton.mp he))
        rw [hdot]
        simpa using hmore
    · rw [hw, hinf]
      exact .inr ⟨[], d, p, 'I', "nfinity".toList ++ w, rfl, by decide, hp, hd⟩
    · refine .inl (List.mem_cons_of_mem _ (List.mem_append_right _ ?_))
      rw [hw]
      exact List.mem_append_left _ hplus

theorem stray_version {v : Version} (h : v.Written)
    (hlong : ¬ v.Short) (u : Text) : Stray (d :: (v.toString ++ u)) := by
  have hstray := stray_numbers hd h.numbers hlong [] ((if v.prerelease.isEmpty then []
      else '-' :: ['.'].intercalate (v.prerelease.map Identifier.toString)) ++ u) (by simp)
  simpa [Version.toString] using hstray

/-- A version that is not short, behind a character of no identifier. -/
theorem stray_extended {v : ExtendedVersion}
    (h : v.Written) (hlong : ¬ ∀ p ∈ v.parts, p.Short) : Stray (d :: v.toString) := by
  by_cases hup : v.upstream.Short
  · have hdown : ¬ v.downstream.Short := by
      intro hdown
      exact hlong (by simpa [ExtendedVersion.parts] using ⟨hup, hdown⟩)
    have hstray := stray_version (d := ':') (by decide) h.downstream hdown []
    rw [List.append_nil] at hstray
    have hwhole := hstray.append_left (d :: (flavorText (Grammar.orNull v.flavor) ++
      v.upstream.toString))
    simpa [ExtendedVersion.toString] using hwhole
  · rw [ExtendedVersion.toString]
    cases hf : Grammar.orNull v.flavor with
    | none => exact stray_version hd h.upstream hup _
    | some f =>
      have hstray := stray_version (d := ':') (by decide) h.upstream hup
        (':' :: v.downstream.toString)
      have hwhole := hstray.append_left (d :: '#' :: f)
      simpa [flavorText] using hwhole

end Numbers

namespace VersionRange

variable {r q : VersionRange}

/-- The text of a comparison with a version that is not short has a stray character. -/
theorem stray_anchor {op : CmpOp} {v : ExtendedVersion} (h : (anchor op v).Written)
    (hlong : ¬ ∀ p ∈ v.parts, p.Short) : Stray (anchor op v).toString := by
  obtain ⟨hcaret, htilde, hv⟩ := h
  obtain ⟨u, d, hop, hd⟩ : ∃ u d, op.text = u ++ [d] ∧ isIdentifierChar d = false ∧ d ≠ '.' := by
    cases op with
    | eq => exact ⟨[], '=', rfl, by decide⟩
    | gt => exact ⟨[], '>', rfl, by decide⟩
    | lt => exact ⟨[], '<', rfl, by decide⟩
    | ge => exact ⟨['>'], '=', rfl, by decide⟩
    | le => exact ⟨['<'], '=', rfl, by decide⟩
    | ne => exact ⟨['!'], '=', rfl, by decide⟩
    | caret => exact absurd rfl hcaret
    | tilde => exact absurd rfl htilde
  have hstray := (stray_extended hd hv hlong).append_left u
  simpa [toString, hop] using hstray

/-- A version whose flavor is no text of lowercase letters. -/
def Foreign (v : ExtendedVersion) : Prop := ∃ f, v.flavor = some f ∧ f.all Char.isLower = false

theorem Foreign.compare_eq {v w : ExtendedVersion} (hv : Foreign v) (hw : w.Written) :
    v.compare w = Option.none := by
  obtain ⟨f, hf, hforeign⟩ := hv
  refine if_pos fun heq => ?_
  rw [(hw.flavor f (heq ▸ hf)).2] at hforeign
  cases hforeign

open ExtendedVersion (satisfies equals greaterThan greaterThanOrEqual lessThan lessThanOrEqual)

/-- What parses does not tell foreign flavors apart. -/
theorem Foreign.satisfies_eq {v w : ExtendedVersion} (hv : Foreign v) (hw : Foreign w)
    (hwritten : r.Written) (hlower : r.Lower) : v.satisfies r = w.satisfies r := by
  induction r with
  | anchor op x =>
    obtain ⟨hcaret, htilde, hx⟩ := hwritten
    cases op with
    | caret => exact absurd rfl hcaret
    | tilde => exact absurd rfl htilde
    | _ => simp [satisfies, equals, greaterThan, greaterThanOrEqual, lessThan, lessThanOrEqual,
        hv.compare_eq hx, hw.compare_eq hx]
  | and left right ihl ihr | or left right ihl ihr =>
    simp only [satisfies, ihl hwritten.1 hlower.1, ihr hwritten.2 hlower.2]
  | not value ih => simp only [satisfies, ih hwritten hlower]
  | any | none => rfl
  | flavor f =>
    have hfalse {u : ExtendedVersion} (hu : Foreign u) : u.satisfies (.flavor f) = false := by
      obtain ⟨g, hg, hforeign⟩ := hu
      rw [satisfies, beq_eq_false_iff_ne]
      rintro rfl
      rw [hlower g hg] at hforeign
      cases hforeign
    rw [hfalse hv, hfalse hw]

/-- Two ranges that the same versions and the same releases satisfy. -/
def SameMeaning (r q : VersionRange) : Prop :=
  (∀ v : ExtendedVersion, v.satisfies r = v.satisfies q) ∧
    ∀ versions, r.satisfiedByRelease versions = q.satisfiedByRelease versions

theorem Equivalent.sameMeaning (h : Equivalent r q) : SameMeaning r q :=
  ⟨h.satisfies, fun versions => by rw [satisfiedByRelease, satisfiedByRelease, h.release]⟩

/-- The range is read back from its text, up to what it means. -/
def ParsesBack (r : VersionRange) : Prop := ∃ q, parse r.toString = some q ∧ SameMeaning q r

theorem Written.parsesBack (h : r.Written) (hread : r.Readable) : r.ParsesBack := by
  obtain ⟨q, hq, hequiv⟩ := h.parse_toString hread
  exact ⟨q, hq, hequiv.sameMeaning⟩

theorem short_of_parsesBack {op : CmpOp} {v : ExtendedVersion} (h : (anchor op v).Written)
    (hback : (anchor op v).ParsesBack) : ∀ p ∈ v.parts, p.Short := by
  obtain ⟨q, hq, -⟩ := hback
  by_contra hlong
  exact (stray_anchor h hlong).not_cased (parse_spec hq).2.2

/-- Null is read back as the empty flavor, and another text than one of lowercase letters as
nothing that tells it from others. -/
theorem lower_of_parsesBack {f : Option Text} (hback : (flavor f).ParsesBack) :
    ∃ g, f = some g ∧ g.all Char.isLower = true := by
  obtain ⟨q, hq, hsame⟩ := hback
  cases f with
  | none =>
    have hq : some (VersionRange.flavor (some [])) = some q := hq
    cases hq
    have hver := hsame.1 ⟨Option.none, .zero, .zero⟩
    simp [satisfies] at hver
  | some g =>
    refine ⟨g, rfl, ?_⟩
    by_contra hforeign
    rw [Bool.not_eq_true] at hforeign
    obtain ⟨hwritten, hlower, -⟩ := parse_spec hq
    have halike := Foreign.satisfies_eq (v := ⟨some g, .zero, .zero⟩)
      (w := ⟨some ('A' :: g), .zero, .zero⟩) ⟨g, rfl, hforeign⟩ ⟨_, rfl, rfl⟩ hwritten hlower
    rw [hsame.1, hsame.1] at halike
    simp [satisfies] at halike

/-- The range and the ranges that it is put together from. -/
def operands : VersionRange → List VersionRange
  | .and left right => .and left right :: (left.operands ++ right.operands)
  | .or left right => .or left right :: (left.operands ++ right.operands)
  | .not value => .not value :: value.operands
  | .anchor op v => [.anchor op v]
  | .flavor f => [.flavor f]
  | .any => [.any]
  | .none => [.none]

/-- A range and what it is put together from are read back from their texts exactly when the
numbers are written without exponents and the flavors are lowercase letters. -/
theorem toString_parses_back_iff (r : VersionRange) (h : r.Built) :
    (∀ p ∈ r.operands, p.ParsesBack) ↔ r.Readable := by
  have hwritten := h.written
  clear h
  induction r with
  | and left right ihl ihr | or left right ihl ihr =>
    rw [operands, List.forall_mem_cons, List.forall_mem_append]
    have hboth := and_congr (ihl hwritten.1) (ihr hwritten.2)
    exact ⟨fun h => hboth.mp h.2, fun hread => ⟨hwritten.parsesBack hread, hboth.mpr hread⟩⟩
  | not value ih =>
    rw [operands, List.forall_mem_cons]
    have hvalue := ih hwritten
    exact ⟨fun h => hvalue.mp h.2, fun hread => ⟨hwritten.parsesBack hread, hvalue.mpr hread⟩⟩
  | anchor op v =>
    rw [operands, List.forall_mem_singleton]
    exact ⟨short_of_parsesBack hwritten, hwritten.parsesBack⟩
  | any | none =>
    rw [operands, List.forall_mem_singleton]
    exact ⟨fun _ => trivial, hwritten.parsesBack⟩
  | flavor f =>
    rw [operands, List.forall_mem_singleton]
    exact ⟨lower_of_parsesBack, hwritten.parsesBack⟩

/-- The theorem at a disjunction with a negated flavor. -/
theorem toString_parses_back_negated :
    (VersionRange.or (.not (.flavor (some ['a']))) .none).ParsesBack := by
  have hnone : VersionRange.none.Built := .parse (s := ['!']) rfl
  refine (toString_parses_back_iff _ (.or (.not (.flavor _)) hnone)).mpr ?_ _ List.mem_cons_self
  exact ⟨⟨['a'], rfl, by decide⟩, trivial⟩

/-- The range for versions without a flavor is printed as the range for versions
with the empty flavor. -/
theorem null_flavor_not_read_back : (VersionRange.flavor Option.none).Built ∧
      parse (VersionRange.flavor Option.none).toString = some (.flavor (some [])) ∧
      ¬ SameMeaning (.flavor (some [])) (.flavor Option.none) := by
  refine ⟨.flavor _, by rfl, fun h => ?_⟩
  have hver := h.1 ⟨Option.none, .zero, .zero⟩
  simp [satisfies] at hver

end VersionRange

end StartTech.StartCore

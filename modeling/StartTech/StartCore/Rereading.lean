import StartTech.StartCore.Normalization
import StartTech.StartCore.Printing

/-!
# Reading a printed range

A text is read as a chain of atoms. Chains of one kind nest to the left, so the
range that is read need not be the one that was printed, but it says the same
about every version and every release.
-/

namespace StartTech.StartCore

open Foundation Peg
open Exver (AtomRules CmpOp Ends Logic RangeExpr SpecText VersionText takes_operators)

namespace VersionRange

/-- Two ranges that say the same about versions and about releases, negated or not. -/
structure Equivalent (r q : VersionRange) : Prop where
  satisfies : ∀ v : ExtendedVersion, v.satisfies r = v.satisfies q
  release : ∀ versions negated, releaseMatches versions r negated = releaseMatches versions q negated

namespace Equivalent

variable {r q : VersionRange}

theorem refl (r : VersionRange) : Equivalent r r := ⟨fun _ => rfl, fun _ _ => rfl⟩

theorem trans {p : VersionRange} (h : Equivalent r q) (h' : Equivalent q p) : Equivalent r p :=
  ⟨fun v => (h.satisfies v).trans (h'.satisfies v),
    fun vs n => (h.release vs n).trans (h'.release vs n)⟩

theorem not (h : Equivalent r q) : Equivalent (.not r) (.not q) := by
  refine ⟨fun v => ?_, fun versions negated => ?_⟩
  · simp [ExtendedVersion.satisfies, h.satisfies]
  · simp [releaseMatches, h.release]

theorem zipWith_assoc {op : Bool → Bool → Bool} (hop : ∀ a b c, op (op a b) c = op a (op b c))
    (xs ys zs : List Bool) :
    List.zipWith op (List.zipWith op xs ys) zs = List.zipWith op xs (List.zipWith op ys zs) := by
  induction xs generalizing ys zs with
  | nil => rfl
  | cons x xs ih =>
    cases ys with
    | nil => rfl
    | cons y ys =>
      cases zs with
      | nil => rfl
      | cons z zs => simp [hop, ih]

end Equivalent

/-- The range that an operator between two ranges stands for. -/
def combine : Logic → VersionRange → VersionRange → VersionRange
  | .and => .and
  | .or => .or

namespace Equivalent

variable {r r' q q' : VersionRange}

/-- A negation decides a conjunction or disjunction as a whole. -/
theorem of_combine (k : Logic)
    (hsat : ∀ v : ExtendedVersion, v.satisfies (.combine k r q) = v.satisfies (.combine k r' q'))
    (hrelease : ∀ versions, releaseMatches versions (.combine k r q) false =
      releaseMatches versions (.combine k r' q') false) :
    Equivalent (.combine k r q) (.combine k r' q') := by
  refine ⟨hsat, fun versions negated => ?_⟩
  cases negated with
  | true =>
    have hwhole : releaseWhole (.combine k r q) versions true =
      releaseWhole (.combine k r' q') versions true := by simp only [releaseWhole, hsat]
    cases k <;> exact hwhole
  | false => exact hrelease versions

theorem combine (k : Logic) (hl : Equivalent r r') (hr : Equivalent q q') :
    Equivalent (.combine k r q) (.combine k r' q') := by
  apply of_combine k
  · intro v
    cases k <;> simp only [VersionRange.combine, ExtendedVersion.satisfies, hl.satisfies, hr.satisfies]
  · intro versions
    cases k <;> simp only [VersionRange.combine, releaseMatches, hl.release, hr.release]

theorem combine_assoc (k : Logic) (r q p : VersionRange) :
    Equivalent (.combine k (.combine k r q) p) (.combine k r (.combine k q p)) := by
  apply of_combine k
  · intro v
    cases k <;> simp only [VersionRange.combine, ExtendedVersion.satisfies, Bool.and_assoc,
      Bool.or_assoc]
  · intro versions
    cases k with
    | and => exact zipWith_assoc Bool.and_assoc _ _ _
    | or => exact zipWith_assoc Bool.or_assoc _ _ _

end Equivalent

end VersionRange

namespace Grammar

theorem takes_space : Takes 0 space := (takes_span _).bind fun _ => takes_pure ()

theorem takes_version : Takes 1 version := by
  apply ((takes_span1 _).sepBy1 '.').bind
  intro _
  apply Takes.bind _ fun _ => takes_pure _
  apply Takes.optional
  apply (takes_char '-').zero.bind
  intro _
  have hseg : Takes 1 preReleaseSegment := by
    apply (takes_span1 _).bind
    intro segment
    split
    · intro s a rest h
      cases h
    · exact takes_pure _
  exact (hseg.sepBy1 '.').zero

theorem takes_versionSpec : Takes 1 versionSpec := by
  apply takes_bind
  · apply Takes.optional
    apply (takes_char '#').zero.bind
    intro _
    apply (takes_span _).bind
    exact fun _ => (takes_char ':').zero.bind fun _ => takes_pure _
  · intro _
    apply takes_version.bind
    intro _
    apply Takes.bind _ fun _ => takes_pure _
    apply Takes.optional
    exact (takes_char ':').zero.bind fun _ => takes_version.zero

theorem takes_anchor : Takes 1 anchor :=
  takes_bind (takes_operators order).optional fun _ =>
    takes_bind takes_space fun _ => takes_versionSpec.bind fun _ => takes_pure _

theorem takes_logic : Takes 0 logic := takes_oneOf (by simp [takes_word, -bind_pure_comp])

variable {p : Peg (RangeExpr SpecText)}

theorem takes_linked (h : Takes 1 p) : Takes 1 (linked p) := by
  apply takes_bind takes_space
  intro _
  apply takes_bind (takes_logic.bind fun _ => takes_space.bind fun _ => takes_pure _).optional
  intro _
  exact h.bind fun _ => takes_pure _

theorem takes_rangeOf (h : Takes 1 p) : Takes 1 (rangeOf p) := by
  apply h.bind
  intro _
  exact (takes_linked h).zero.many.bind fun _ => takes_pure _

theorem takes_atom (depth : Nat) : Takes 1 (atom depth) := by
  induction depth with
  | zero =>
    intro s a rest hs
    cases hs
  | succ depth ih =>
    exact AtomRules.takes_rule (g := rules depth) takes_anchor (takes_rangeOf ih) ih

/-- A text in which a range is not carried on: its end or a closing parenthesis. -/
def Closed (rest : Text) : Prop := ∀ c ∈ rest.head?, c = ')'

theorem linked_eq_none {rest : Text} (h : Closed rest) (depth : Nat) :
    linked (atom depth) rest = none := by
  have hhead (cls : Char → Bool) (hcls : cls ')' = false) : ∀ c ∈ rest.head?, cls c = false := by
    intro c hc
    rw [h c hc, hcls]
  have hlogic : logic rest = none := by
    cases rest with
    | nil => rfl
    | cons c rest =>
      rw [h c rfl]
      simp [logic, oneOf, choice, literal, bind_apply, char_cons, fail]
  have hatom : atom depth rest = none := by
    apply atom_eq_none
    exact hhead startsAtom (by decide)
  rw [linked, bind_of_eq_some (space_of_head (hhead isSpace (by decide))),
    bind_of_eq_some (optional_of_eq_none (bind_of_eq_none hlogic)), bind_of_eq_none hatom]

variable {depth : Nat}

/-- An atom and the atoms linked to it are a range. -/
theorem range_chain {s mid rest : Text} {first : RangeExpr SpecText}
    {links : List (Option Logic × RangeExpr SpecText)} (hfirst : atom depth s = some (first, mid))
    (hlinks : Steps (linked (atom depth)) mid links rest) (h : Closed rest) :
    rangeOf (atom depth) s = some (.chain first links, rest) := by
  have htakes := (takes_linked (takes_atom depth)).steps hlinks
  rw [rangeOf, bind_of_eq_some hfirst,
    bind_of_eq_some (many_of_steps hlinks (by omega) (linked_eq_none h depth))]
  rfl

end Grammar

/-- A version with rounded natural numbers and with written identifiers. -/
structure Version.Written (v : Version) : Prop where
  nonempty : v.number ≠ []
  numbers : ∀ x ∈ v.number, ∃ n : Nat, x = JsNumber.round n
  identifiers : ∀ i ∈ v.prerelease, ∃ s, VersionText.isIdentifier s = true ∧
    i = Grammar.identifierOf s

/-- The numbers of the version are written without an exponent. -/
def Version.Short (v : Version) : Prop := ∀ x ∈ v.number, x.isShort = true

structure ExtendedVersion.Written (v : ExtendedVersion) : Prop where
  flavor : ∀ f ∈ v.flavor, f ≠ [] ∧ f.all Char.isLower = true
  upstream : v.upstream.Written
  downstream : v.downstream.Written

theorem Identifier.toString_identifierOf {s : Text} (hs : VersionText.isIdentifier s = true) :
    (Grammar.identifierOf s).toString = s := by
  cases hdigits : s.all Char.isDigit with
  | false =>
    rw [identifierOf_word hdigits]
    rfl
  | true =>
    rw [identifierOf_numeral hdigits]
    split
    · rw [Identifier.toString, JsNumber.text_safe (by omega)]
      exact VersionText.decimal_numberOf hs hdigits
    · rfl

/-- A version is printed as a text that stands for it. -/
theorem Version.Written.pieces {v : Version} (h : v.Written) (hshort : v.Short) :
    ∃ t : VersionText, t.WellFormed ∧ t.text = v.toString ∧ Grammar.versionOf t = v := by
  have hnum : ∀ x ∈ v.number, VersionText.isNumeral x.text = true ∧
      Grammar.numberOf x.text = x := by
    intro x hx
    obtain ⟨n, rfl⟩ := h.numbers x hx
    obtain ⟨m, htext, hm⟩ := JsNumber.text_short (hshort _ hx)
    rw [htext, Grammar.numberOf, Text.ofDigitChars_decimal]
    exact ⟨VersionText.isNumeral_decimal m, hm⟩
  have hident : ∀ i ∈ v.prerelease, VersionText.isIdentifier i.toString = true ∧
      Grammar.identifierOf i.toString = i := by
    intro i hi
    obtain ⟨s, hs, rfl⟩ := h.identifiers i hi
    rw [Identifier.toString_identifierOf hs]
    exact ⟨hs, rfl⟩
  refine ⟨⟨v.number.map JsNumber.text, v.prerelease.map Identifier.toString⟩, ⟨?_, ?_, ?_⟩, ?_, ?_⟩
  · simpa using h.nonempty
  · intro d hd
    obtain ⟨x, hx, rfl⟩ := List.mem_map.mp hd
    exact (hnum x hx).1
  · intro d hd
    obtain ⟨i, hi, rfl⟩ := List.mem_map.mp hd
    exact (hident i hi).1
  · simp [VersionText.text, Version.toString]
  · have hnumbers : (v.number.map JsNumber.text).map Grammar.numberOf = v.number := by
      rw [List.map_map]
      exact (List.map_congr_left fun x hx => (hnum x hx).2).trans (List.map_id _)
    have hidents : (v.prerelease.map Identifier.toString).map Grammar.identifierOf =
        v.prerelease := by
      rw [List.map_map]
      exact (List.map_congr_left fun i hi => (hident i hi).2).trans (List.map_id _)
    simp [Grammar.versionOf, hnumbers, hidents]

theorem ExtendedVersion.Written.pieces {v : ExtendedVersion} (h : v.Written)
    (hshort : ∀ p ∈ v.parts, p.Short) :
    ∃ t : SpecText, t.WellFormed ∧ t.text = v.toString ∧ Grammar.specOf t = v := by
  obtain ⟨up, hup, huptext, hupv⟩ := h.upstream.pieces (hshort _ (by simp [ExtendedVersion.parts]))
  obtain ⟨down, hdown, hdowntext, hdownv⟩ :=
    h.downstream.pieces (hshort _ (by simp [ExtendedVersion.parts]))
  have hflavor : Grammar.orNull v.flavor = v.flavor := by
    cases hf : v.flavor with
    | none => rfl
    | some f => simpa [Grammar.orNull] using (h.flavor f hf).1
  refine ⟨⟨v.flavor, up, some down⟩, ⟨fun f hf => (h.flavor f hf).2, hup, by simpa using hdown⟩,
    ?_, ?_⟩
  · simp [SpecText.text, ExtendedVersion.toString, huptext, hdowntext, hflavor]
  · simp [Grammar.specOf, hflavor, hupv, hdownv]

namespace VersionRange

/-- A range of comparisons with written versions, the two shorthands written out. -/
def Written : VersionRange → Prop
  | .anchor op v => op ≠ .caret ∧ op ≠ .tilde ∧ v.Written
  | .and left right | .or left right => left.Written ∧ right.Written
  | .not value => value.Written
  | .any | .none | .flavor _ => True

/-- The numbers of the range are written without an exponent, and the flavors that it asks for are
lowercase letters, not null. -/
def Readable : VersionRange → Prop
  | .anchor _ v => ∀ p ∈ v.parts, p.Short
  | .and left right | .or left right => left.Readable ∧ right.Readable
  | .not value => value.Readable
  | .any | .none => True
  | .flavor f => ∃ g, f = some g ∧ g.all Char.isLower = true

section Reading

open Grammar

/-- Where a part of a printed range ends: at the end of the text, at a closing
parenthesis or at an operator. -/
def Stop (rest : Text) : Prop :=
  Closed rest ∨ ∃ c u, rest = ' ' :: c :: u ∧ (c = '&' ∨ c = '|')

variable {rest s : Text} {c : Char} {r : VersionRange} {k : Logic} {depth : Nat}

theorem Stop.head (h : Stop rest) : ∀ c ∈ rest.head?, c = ')' ∨ c = ' ' := by
  intro c hc
  rcases h with h | ⟨d, u, rfl, -⟩
  · exact .inl (h c hc)
  · cases hc
    exact .inr rfl

theorem Stop.ends (h : Stop rest) : Ends rest := by
  intro c hc
  rcases h.head c hc with rfl | rfl <;> decide

theorem Stop.head_ne (h : Stop rest) (hc : c ≠ ')' ∧ c ≠ ' ') : rest.head? ≠ some c := by
  intro heq
  rcases h.head c heq with rfl | rfl
  · exact hc.1 rfl
  · exact hc.2 rfl

/-- Behind a part of a printed range no atom follows directly. -/
theorem Stop.atom_eq_none (h : Stop rest) (depth : Nat) :
    ∃ mid, space rest = some ((), mid) ∧ atom depth mid = Option.none := by
  rcases h with h | ⟨c, u, rfl, hc⟩
  · refine ⟨rest, space_of_head ?_, Grammar.atom_eq_none ?_ depth⟩
    all_goals
      intro c hc
      rw [h c hc]
      decide
  · refine ⟨c :: u, space_blank ?_, Grammar.atom_eq_none ?_ depth⟩
    all_goals
      intro d hd
      cases hd
      rcases hc with rfl | rfl <;> decide

/-- The text is read as one atom that means the range. -/
def ReadsAsAtom (s : Text) (r : VersionRange) : Prop :=
  ∀ depth rest, s.length ≤ depth → Stop rest → ∃ e, atom depth (s ++ rest) = some (e, rest) ∧
    Equivalent (parseRange e) r

/-- The text is read as atoms that mean the range, also behind other atoms. -/
def ReadsAs (k : Logic) (s : Text) (r : VersionRange) : Prop :=
  ∀ depth rest, s.length ≤ depth → Stop rest → ∃ first mid links,
    atom depth (s ++ rest) = some (first, mid) ∧ Steps (linked (atom depth)) mid links rest ∧
    Equivalent (parseRange (.chain first links)) r ∧
    ∀ e, Equivalent (parseRange (.chain e ((some k, first) :: links)))
      (.combine k (parseRange e) r)

theorem ReadsAsAtom.readsAs (h : ReadsAsAtom s r) (k : Logic) : ReadsAs k s r := by
  intro depth rest hdepth hrest
  obtain ⟨e, hatom, hmeans⟩ := h depth rest hdepth hrest
  refine ⟨e, rest, [], hatom, .nil _, hmeans, fun f => ?_⟩
  have hlink := Equivalent.combine k (Equivalent.refl (Grammar.parseRange f)) hmeans
  cases k <;> exact hlink

/-- A text that starts, and not with white space. -/
def Opens (s : Text) : Prop := ∃ c u, s = c :: u ∧ isSpace c = false

theorem exists_depth (h : (c :: s).length ≤ depth) : ∃ d, depth = d + 1 :=
  Nat.exists_eq_add_one.mpr ((Nat.succ_pos _).trans_le h)

theorem Opens.head (h : Opens s) (rest : Text) : ∀ c ∈ (s ++ rest).head?, isSpace c = false := by
  obtain ⟨c, u, rfl, hc⟩ := h
  intro d hd
  cases hd
  exact hc

/-- In parentheses every chain is an atom. -/
theorem ReadsAs.parens (h : ReadsAs k s r) (hs : Opens s) : ReadsAsAtom ('(' :: s ++ [')']) r := by
  intro depth rest hdepth hrest
  obtain ⟨depth, rfl⟩ := exists_depth hdepth
  have hclosed : Closed (')' :: rest) := by simp [Closed]
  have hlen : s.length ≤ depth := by
    simp only [List.length_append, List.length_cons] at hdepth
    omega
  obtain ⟨first, mid, links, hfirst, hlinks, hmeans, -⟩ := h depth (')' :: rest) hlen (.inl hclosed)
  have hatom := atom_of_isAtom (.parens (space_of_head (hs.head _))
    (range_chain hfirst hlinks hclosed) (@space_of_head (')' :: rest) (by simp [isSpace])))
  refine ⟨.parens (.chain first links), ?_, hmeans⟩
  simpa using hatom

theorem linked_operator {u : Text} {e : RangeExpr SpecText}
    (hk : k = .and ∧ c = '&' ∨ k = .or ∧ c = '|') (hu : ∀ d ∈ u.head?, isSpace d = false)
    (hatom : atom depth u = some (e, rest)) :
    linked (atom depth) (' ' :: c :: c :: ' ' :: u) = some ((some k, e), rest) := by
  have hspace : space (' ' :: c :: c :: ' ' :: u) = some ((), c :: c :: ' ' :: u) := by
    apply space_blank
    intro d hd
    cases hd
    rcases hk with ⟨-, rfl⟩ | ⟨-, rfl⟩ <;> decide
  have hlogic : logic (c :: c :: ' ' :: u) = some (k, ' ' :: u) := by
    rcases hk with ⟨rfl, rfl⟩ | ⟨rfl, rfl⟩ <;> rfl
  have hop : Peg.optional (do let op ← logic; space; pure op) (c :: c :: ' ' :: u) =
      some (some k, u) := by
    apply optional_of_eq_some
    rw [bind_of_eq_some hlogic, bind_of_eq_some (space_blank hu)]
    rfl
  rw [linked, bind_of_eq_some hspace, bind_of_eq_some hop, bind_of_eq_some hatom]
  rfl

/-- Two chains of one kind with the operator between them. -/
theorem ReadsAs.combine (hk : k = .and ∧ c = '&' ∨ k = .or ∧ c = '|') {t : Text} {q : VersionRange}
    (hs : ReadsAs k s r) (ht : ReadsAs k t q) (hopens : Opens t) :
    ReadsAs k (s ++ ' ' :: c :: c :: ' ' :: t) (.combine k r q) := by
  intro depth rest hdepth hrest
  simp only [List.length_append, List.length_cons] at hdepth
  obtain ⟨first₂, mid₂, links₂, hfirst₂, hlinks₂, -, hbehind₂⟩ := ht depth rest (by omega) hrest
  have hstop : Stop (' ' :: c :: c :: ' ' :: (t ++ rest)) := by
    refine .inr ⟨c, _, rfl, ?_⟩
    rcases hk with ⟨-, rfl⟩ | ⟨-, rfl⟩
    · exact .inl rfl
    · exact .inr rfl
  obtain ⟨first₁, mid₁, links₁, hfirst₁, hlinks₁, hmeans₁, hbehind₁⟩ :=
    hs depth (' ' :: c :: c :: ' ' :: (t ++ rest)) (by omega) hstop
  have hlink := linked_operator hk (hopens.head rest) hfirst₂
  refine ⟨first₁, mid₁, links₁ ++ (some k, first₂) :: links₂, by simpa using hfirst₁, ?_, ?_, ?_⟩
  · exact hlinks₁.append (.cons hlink hlinks₂)
  · have hchain : RangeExpr.chain first₁ (links₁ ++ (some k, first₂) :: links₂) =
        RangeExpr.chain (.chain first₁ links₁) ((some k, first₂) :: links₂) :=
      List.foldl_append
    rw [hchain]
    exact (hbehind₂ _).trans (.combine k hmeans₁ (.refl q))
  · intro e
    have hchain : RangeExpr.chain e ((some k, first₁) :: (links₁ ++ (some k, first₂) :: links₂)) =
        RangeExpr.chain (.chain e ((some k, first₁) :: links₁))
          ((some k, first₂) :: links₂) :=
      List.foldl_append
    rw [hchain]
    exact ((hbehind₂ _).trans (.combine k (hbehind₁ e) (.refl q))).trans
      (.combine_assoc k _ r q)

theorem Opens.part (h : Opens s) (needs : Bool) (u : Text) :
    Opens (toStringParens needs s ++ u) := by
  cases needs with
  | true => exact ⟨'(', _, rfl, by decide⟩
  | false =>
    obtain ⟨c, w, rfl, hc⟩ := h
    exact ⟨c, w ++ u, rfl, hc⟩

theorem opens_toString (r : VersionRange) : Opens r.toString := by
  induction r with
  | anchor op v => cases op <;> exact ⟨_, _, rfl, by decide⟩
  | and left right ihl ihr | or left right ihl ihr => exact ihl.part _ _
  | not value ih | any | none | flavor f => exact ⟨_, _, rfl, by decide⟩

theorem opens_part (r : VersionRange) (parent : Parent) :
    Opens (toStringParens (r.needs parent) r.toString) := by
  simpa using (opens_toString r).part (r.needs parent) []

/-- A range is read back from its text: as a chain of its kind, or as one atom. -/
def Reread : VersionRange → Prop
  | .and left right => ReadsAs .and (and left right).toString (and left right)
  | .or left right => ReadsAs .or (or left right).toString (or left right)
  | r => ReadsAsAtom r.toString r

section

variable (h : r.Reread)
include h

theorem Reread.readsAs : ∃ k, ReadsAs k r.toString r := by
  cases r with
  | and left right => exact ⟨.and, h⟩
  | or left right => exact ⟨.or, h⟩
  | anchor op v | not value | any | none | flavor f => exact ⟨.and, ReadsAsAtom.readsAs h .and⟩

theorem Reread.parens : ReadsAsAtom (toStringParens true r.toString) r := by
  obtain ⟨k, hk⟩ := h.readsAs
  exact hk.parens (opens_toString r)

/-- A part of a conjunction. -/
theorem Reread.and_part :
    ReadsAs .and (toStringParens (r.needs .and) r.toString) r := by
  cases r with
  | and left right => exact h
  | or left right => exact h.parens.readsAs .and
  | anchor op v | not value | any | none | flavor f => exact ReadsAsAtom.readsAs h .and

/-- A part of a disjunction. -/
theorem Reread.or_part : ReadsAs .or (toStringParens (r.needs .or) r.toString) r := by
  cases r with
  | and left right => exact h.parens.readsAs .or
  | or left right => exact h
  | anchor op v | not value | any | none | flavor f => exact ReadsAsAtom.readsAs h .or

/-- What is negated is one atom, which does not start with an equals sign. -/
theorem Reread.not_part : ReadsAsAtom (toStringParens (r.needs .not) r.toString) r ∧
      ∀ rest, (toStringParens (r.needs .not) r.toString ++ rest).head? ≠ some '=' := by
  cases r with
  | and left right | or left right | anchor op v | any | none =>
    exact ⟨h.parens, by simp [needs, toStringParens]⟩
  | not value | flavor f => exact ⟨h, by simp [needs, toStringParens, toString]⟩

end

theorem reread_anchor {op : CmpOp} {v : ExtendedVersion}
    (h : (anchor op v).Written) (hshort : ∀ p ∈ v.parts, p.Short) :
    (anchor op v).Reread := by
  intro depth rest hdepth hrest
  obtain ⟨hcaret, htilde, hv⟩ := h
  obtain ⟨t, ht, htext, hspec⟩ := hv.pieces hshort
  obtain ⟨depth, rfl⟩ : ∃ d, depth = d + 1 := by
    obtain ⟨c, u, heq, -⟩ := opens_toString (.anchor op v)
    rw [heq] at hdepth
    exact exists_depth hdepth
  refine ⟨.anchor (some op) t, ?_, ?_⟩
  · have hatom := @Grammar.atom_anchor rest depth op t ht hrest.ends (hrest.head_ne (by decide))
    simpa [toString, htext] using hatom
  · have hanchor : parseRange (.anchor (some op) t) = .anchor op v := by
      rw [parseRange, hspec]
      cases op with
      | caret => exact absurd rfl hcaret
      | tilde => exact absurd rfl htilde
      | _ => rfl
    rw [hanchor]
    exact .refl _

theorem reread_flavor {f : Text} (hf : f.all Char.isLower = true) : (flavor (some f)).Reread := by
  intro depth rest hdepth hrest
  obtain ⟨depth, rfl⟩ := exists_depth hdepth
  have hend : ∀ c ∈ rest.head?, c.isLower = false := by
    intro c hc
    rcases hrest.head c hc with rfl | rfl <;> decide
  exact ⟨.flavor f, atom_flavor hf hend (hrest.head_ne (by decide)), Equivalent.refl _⟩

/-- A readable range of written versions is read back from its text. -/
theorem Written.reread (h : r.Written) (hread : r.Readable) : r.Reread := by
  induction r with
  | anchor op v => exact reread_anchor h hread
  | and left right ihl ihr =>
    exact .combine (.inl ⟨rfl, rfl⟩) (ihl h.1 hread.1).and_part (ihr h.2 hread.2).and_part
      (opens_part right .and)
  | or left right ihl ihr =>
    exact .combine (.inr ⟨rfl, rfl⟩) (ihl h.1 hread.1).or_part (ihr h.2 hread.2).or_part
      (opens_part right .or)
  | not value ih =>
    intro depth rest hdepth hrest
    obtain ⟨depth, rfl⟩ := exists_depth hdepth
    simp only [toString, List.length_cons] at hdepth
    obtain ⟨hpart, hequals⟩ := (ih h hread).not_part
    obtain ⟨e, hatom, hmeans⟩ := hpart depth rest (by omega) hrest
    have hspace : ∀ c ∈ (toStringParens (value.needs .not) value.toString ++ rest).head?,
        isSpace c = false := by
      simpa using ((opens_toString value).part (value.needs .not) rest).head []
    exact ⟨.not e, atom_of_isAtom (.not (anchor_bang (hequals rest)) (space_of_head hspace) hatom),
      hmeans.not⟩
  | any =>
    intro depth rest hdepth hrest
    obtain ⟨depth, rfl⟩ := exists_depth hdepth
    exact ⟨.any, Grammar.atom_any, Equivalent.refl _⟩
  | none =>
    intro depth rest hdepth hrest
    obtain ⟨depth, rfl⟩ := exists_depth hdepth
    obtain ⟨mid, hspace, hatom⟩ := hrest.atom_eq_none depth
    exact ⟨.none, atom_of_isAtom (.none (anchor_bang (hrest.head_ne (by decide))) hspace hatom),
      Equivalent.refl _⟩
  | flavor f =>
    obtain ⟨g, rfl, hlower⟩ := hread
    exact reread_flavor hlower

end Reading

/-- Parsing the text of a readable range gives what the range means. -/
theorem Written.parse_toString {r : VersionRange} (h : r.Written) (hread : r.Readable) :
    ∃ q, parse r.toString = some q ∧ Equivalent q r := by
  obtain ⟨k, hk⟩ := (h.reread hread).readsAs
  have hclosed : Grammar.Closed [] := by simp [Grammar.Closed]
  obtain ⟨first, mid, links, hfirst, hlinks, hmeans, -⟩ :=
    hk (r.toString.length + 1) [] (Nat.le_succ _) (.inl hclosed)
  rw [List.append_nil] at hfirst
  have hrange := Grammar.range_chain hfirst hlinks hclosed
  refine ⟨_, ?_, hmeans⟩
  rw [parse, Grammar.versionRange, parseAll_eq_some.mpr hrange]
  rfl

end VersionRange

end StartTech.StartCore

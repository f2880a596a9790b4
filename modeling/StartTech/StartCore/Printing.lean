import StartTech.StartCore.Labels

/-!
# The text of a range of the TypeScript library

A part of a conjunction or disjunction is put in parentheses when it is of the
other kind, so that chains of one kind are written without them. Reading such a
chain back nests it to the left, which means the same. A flavor that is null is
written as the empty flavor.
-/

namespace StartTech.StartCore

open Foundation Peg
open Exver (AtomRules CmpOp Ends Logic RangeExpr SpecText VersionText flavorText operators
  operators_bang operators_of_head)

namespace Version

def toString (v : Version) : Text :=
  ['.'].intercalate (v.number.map JsNumber.text) ++
    if v.prerelease.isEmpty then []
    else '-' :: ['.'].intercalate (v.prerelease.map Identifier.toString)

end Version

def ExtendedVersion.toString (v : ExtendedVersion) : Text :=
  flavorText (Grammar.orNull v.flavor) ++ (v.upstream.toString ++ ':' :: v.downstream.toString)

namespace VersionRange

/-- The kinds of ranges that have parts. -/
inductive Parent
  | and
  | or
  | not
  deriving DecidableEq

/-- Whether a part of a range is put in parentheses. -/
def needs (parent : Parent) : VersionRange → Bool
  | .and _ _ => parent != .and
  | .or _ _ => parent != .or
  | .anchor _ _ | .any | .none => parent == .not
  | .not _ | .flavor _ => false

def toStringParens (needs : Bool) (t : Text) : Text := if needs then '(' :: t ++ [')'] else t

def toString : VersionRange → Text
  | .anchor operator v => operator.text ++ v.toString
  | .and left right =>
    toStringParens (left.needs .and) left.toString ++ ' ' :: '&' :: '&' :: ' ' ::
      toStringParens (right.needs .and) right.toString
  | .or left right =>
    toStringParens (left.needs .or) left.toString ++ ' ' :: '|' :: '|' :: ' ' ::
      toStringParens (right.needs .or) right.toString
  | .not value => '!' :: toStringParens (value.needs .not) value.toString
  | .flavor f => '#' :: f.getD []
  | .any => ['*']
  | .none => ['!']

end VersionRange

namespace Grammar

variable {rest : Text}

theorem versionNumber_append {ds : List Text} (hne : ds ≠ [])
    (hds : ∀ d ∈ ds, VersionText.isNumeral d = true)
    (hrest : ∀ c ∈ rest.head?, c.isDigit = false ∧ c ≠ '.') :
    versionNumber (['.'].intercalate ds ++ rest) = some (ds, rest) := by
  apply sepBy1_append hne
  · intro d hd u hu
    obtain ⟨hdne, hdigits⟩ := VersionText.isNumeral_iff.mp (hds d hd)
    apply span1_append hdne hdigits
    intro c hc
    rcases hu with rfl | hdot
    · exact (hrest c hc).1
    · cases hc.symm.trans hdot
      decide
  · exact fun h => (hrest '.' h).2 rfl

theorem preRelease_append {ss : List Text} (hne : ss ≠ [])
    (hss : ∀ s ∈ ss, VersionText.isIdentifier s = true) (hrest : Ends rest) :
    preRelease ('-' :: (['.'].intercalate ss ++ rest)) = some (ss, rest) := by
  apply sepBy1_append hne
  · intro s hs u hu
    obtain ⟨hsne, hchars, hzero⟩ := VersionText.isIdentifier_iff.mp (hss s hs)
    have hspan : span1 isIdentifierChar (s ++ u) = some (s, u) := by
      apply span1_append hsne hchars
      intro c hc
      rcases hu with rfl | hdot
      · exact (hrest c hc).1
      · cases hc.symm.trans hdot
        decide
    have hleading : hasLeadingZero s ≠ true := fun h => hzero ((hasLeadingZero_iff s).mp h)
    rw [preReleaseSegment, bind_of_eq_some hspan, if_neg hleading]
    rfl
  · exact fun h => (hrest '.' h).2 rfl

/-- A version is taken off as a whole. -/
theorem version_append {t : VersionText} (h : t.WellFormed) (hrest : Ends rest) :
    version (t.text ++ rest) = some (t, rest) := by
  by_cases hs : t.segments = []
  · have hdash : preRelease rest = none :=
      char_bind_of_ne fun hdash => absurd (hrest '-' hdash).1 (by decide)
    have htext : t.text ++ rest = ['.'].intercalate t.numbers ++ rest := by
      simp [VersionText.text, hs]
    rw [htext, version, bind_of_eq_some (versionNumber_append h.nonempty h.numbers
      fun c hc => ⟨hrest.not_digit c hc, (hrest c hc).2⟩),
      bind_of_eq_some (optional_of_eq_none hdash), ← hs]
    rfl
  · have htext : t.text ++ rest =
        ['.'].intercalate t.numbers ++ '-' :: (['.'].intercalate t.segments ++ rest) := by
      simp [VersionText.text, hs]
    have hnum := @versionNumber_append ('-' :: (['.'].intercalate t.segments ++ rest)) t.numbers
      h.nonempty h.numbers (by simp)
    rw [htext, version, bind_of_eq_some hnum,
      bind_of_eq_some (optional_of_eq_some (preRelease_append hs h.segments hrest))]
    rfl

theorem optional_flavor_append {f : Option Text} (hf : ∀ g ∈ f, g.all Char.isLower = true)
    (hrest : rest.head? ≠ some '#') :
    Peg.optional flavor (flavorText f ++ rest) = some (f, rest) := by
  cases f with
  | none => exact optional_of_eq_none (char_bind_of_ne hrest)
  | some f =>
    have hspan : flavorString (f ++ ':' :: rest) = some (f, ':' :: rest) := by
      apply span_append (List.all_eq_true.mp (hf f rfl))
      intro c hc
      cases hc
      decide
    apply optional_of_eq_some
    simp only [flavorText, List.cons_append, List.append_assoc, List.nil_append]
    rw [flavor, char_bind, bind_of_eq_some hspan]
    rfl

/-- The version of an anchor is taken off as a whole. -/
theorem versionSpec_append {t : SpecText} (h : t.WellFormed) (hrest : Ends rest)
    (hcolon : rest.head? ≠ some ':') : versionSpec (t.text ++ rest) = some (t, rest) := by
  have hhash (u : Text) : (t.upstream.text ++ u).head? ≠ some '#' :=
    h.upstream.head_ne (by decide) u
  cases hd : t.downstream with
  | none =>
    have htext : t.text ++ rest = flavorText t.flavor ++ (t.upstream.text ++ rest) := by
      simp [SpecText.text, hd]
    rw [htext, versionSpec, bind_of_eq_some (optional_flavor_append h.flavor (hhash rest)),
      bind_of_eq_some (version_append h.upstream hrest),
      bind_of_eq_some (optional_of_eq_none (char_bind_of_ne hcolon)), ← hd]
    rfl
  | some down =>
    have htext : t.text ++ rest =
        flavorText t.flavor ++ (t.upstream.text ++ ':' :: (down.text ++ rest)) := by
      simp [SpecText.text, hd]
    have hup : version (t.upstream.text ++ ':' :: (down.text ++ rest)) =
        some (t.upstream, ':' :: (down.text ++ rest)) := by
      apply version_append h.upstream
      intro c hc
      cases hc
      decide
    have hdown : Peg.optional (do char ':'; version) (':' :: (down.text ++ rest)) =
        some (some down, rest) := by
      apply optional_of_eq_some
      exact version_append (h.downstream down hd) hrest
    rw [htext, versionSpec, bind_of_eq_some (optional_flavor_append h.flavor (hhash _)),
      bind_of_eq_some hup, bind_of_eq_some hdown, ← hd]
    rfl

/-- An operator is read when no equals sign follows it. -/
theorem cmpOp_append (op : CmpOp) {rest : Text} (h : rest.head? ≠ some '=') :
    cmpOp (op.text ++ rest) = some (op, rest) := by
  have hchar := char_of_head_ne h
  cases op <;> simp [cmpOp, CmpOp.text, oneOf, choice, literal, bind_apply, map_apply,
    char_cons, hchar]

variable {s : Text}

theorem space_append {sp : Text} (hsp : ∀ c ∈ sp, isSpace c = true)
    (h : ∀ c ∈ s.head?, isSpace c = false) : space (sp ++ s) = some ((), s) := by
  rw [space, bind_of_eq_some (span_append hsp h)]
  rfl

theorem space_of_head (h : ∀ c ∈ s.head?, isSpace c = false) :
    space s = some ((), s) := @space_append s [] (by simp) h

theorem space_blank (h : ∀ c ∈ s.head?, isSpace c = false) :
    space (' ' :: s) = some ((), s) := @space_append s [' '] (by simp [isSpace]) h

theorem versionSpec_eq_none (h : ∀ c ∈ s.head?, c.isDigit = false) (hflavor : flavor s = none) :
    versionSpec s = none := by
  have hdigit : digit s = none := by
    cases s with
    | nil => rfl
    | cons c s =>
      have hc : isDigit c = false := h c rfl
      simp [digit, span1, span, bind_apply, hc, fail]
  have hver : version s = none :=
    bind_of_eq_none (bind_of_eq_none hdigit)
  rw [versionSpec, bind_of_eq_some (optional_of_eq_none hflavor), bind_of_eq_none hver]

/-- No anchor starts with a character that starts no operator and no version. -/
theorem anchor_eq_none (hop : operators order s = none)
    (h : ∀ c ∈ s.head?, isSpace c = false ∧ c.isDigit = false) (hflavor : flavor s = none) :
    anchor s = none := by
  rw [anchor, cmpOp_eq, bind_of_eq_some (optional_of_eq_none hop),
    bind_of_eq_some (space_of_head fun c hc => (h c hc).1),
    bind_of_eq_none (versionSpec_eq_none (fun c hc => (h c hc).2) hflavor)]

theorem anchor_bang (h : s.head? ≠ some '=') : anchor ('!' :: s) = none :=
  anchor_eq_none (operators_bang h) (by simp [isSpace]) (char_bind_of_ne (by simp))

/-- The rules that an atom is made of. -/
def rules (depth : Nat) : AtomRules SpecText := ⟨isSpace, anchor, rangeOf (atom depth), atom depth⟩

theorem atom_of_isAtom {depth : Nat} {e : RangeExpr SpecText} {rest : Text}
    (h : (rules depth).IsAtom s e rest) : atom (depth + 1) s = some (e, rest) := h.rule_eq

/-- The characters that an atom can start with. -/
def startsAtom (c : Char) : Bool :=
  c.isDigit || isSpace c || ['(', '>', '<', '=', '^', '~', '!', '*', '#'].contains c

/-- No atom starts with a character that none can start with. -/
theorem atom_eq_none (h : ∀ c ∈ s.head?, startsAtom c = false) (depth : Nat) :
    atom depth s = none := by
  have hne {d : Char} (hd : startsAtom d = true) : s.head? ≠ some d := by
    intro heq
    rw [h d heq] at hd
    cases hd
  have hanchor : anchor s = none := by
    apply anchor_eq_none (operators_of_head (by simp [hne, startsAtom])) _
      (char_bind_of_ne (hne (by decide)))
    intro c hc
    have hstart := h c hc
    simp only [startsAtom, Bool.or_eq_false_iff] at hstart
    exact ⟨hstart.1.2, hstart.1.1⟩
  cases depth with
  | zero => rfl
  | succ depth => exact AtomRules.rule_eq_none (g := rules depth) hanchor (by simp [hne, startsAtom])

variable {depth : Nat}

theorem atom_anchor (op : CmpOp) {t : SpecText} (h : t.WellFormed) (hrest : Ends rest)
    (hcolon : rest.head? ≠ some ':') :
    atom (depth + 1) (op.text ++ (t.text ++ rest)) = some (.anchor (some op) t, rest) := by
  have hspace : ∀ d ∈ (t.text ++ rest).head?, isSpace d = false := by
    intro d hd
    by_contra hspace
    simp only [isSpace, Bool.not_eq_false, Bool.or_eq_true, beq_iff_eq, or_assoc] at hspace
    rcases hspace with rfl | rfl | rfl | rfl <;>
      exact h.head_ne (by decide) (by decide) rest hd
  have hparens : (op.text ++ (t.text ++ rest)).head? ≠ some '(' := by
    cases op <;> simp [CmpOp.text]
  refine atom_of_isAtom (.anchor (AtomRules.parens_eq_none hparens) ?_)
  change anchor _ = _
  have hop := cmpOp_append op (h.head_ne (by decide) (by decide) rest)
  rw [anchor, bind_of_eq_some (optional_of_eq_some hop), bind_of_eq_some (space_of_head hspace),
    bind_of_eq_some (versionSpec_append h hrest hcolon)]
  rfl

theorem atom_any : atom (depth + 1) ('*' :: rest) = some (.any, rest) :=
  atom_of_isAtom (.any (anchor_eq_none (operators_of_head (by simp)) (by simp [isSpace])
    (char_bind_of_ne (by simp))))

theorem atom_flavor {f : Text} (hf : f.all Char.isLower = true)
    (hrest : ∀ c ∈ rest.head?, c.isLower = false) (hcolon : rest.head? ≠ some ':') :
    atom (depth + 1) ('#' :: (f ++ rest)) = some (.flavor f, rest) := by
  have hspan : flavorString (f ++ rest) = some (f, rest) :=
    span_append (List.all_eq_true.mp hf) hrest
  have hflavor : flavor ('#' :: (f ++ rest)) = none := by
    rw [flavor, char_bind, bind_of_eq_some hspan, char_bind_of_ne hcolon]
  exact atom_of_isAtom (.flavor (anchor_eq_none (operators_of_head (by simp)) (by simp [isSpace])
    hflavor) hf hrest)

end Grammar

end StartTech.StartCore

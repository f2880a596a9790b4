import StartTech.Exver.Atoms
import StartTech.Exver.Grammar
import StartTech.Exver.VersionText

/-!
# What the crate's grammar reads as a version

A version whose numbers have no leading zeros is taken off a text as a whole,
and is then parsed into what its pieces stand for.
-/

namespace StartTech.Exver

open Foundation Peg

/-- A numeral that is zero or does not start with a zero. -/
def VersionText.isPlain (d : Text) : Bool := !(decide (2 ≤ d.length) && d.head? == some '0')

/-- The numbers of the text have no leading zeros. -/
def VersionText.Plain (t : VersionText) : Prop := ∀ d ∈ t.numbers, isPlain d = true

namespace Grammar

variable {rest s : Text}

theorem num_append {d : Text} (h : VersionText.isNumeral d = true)
    (hplain : VersionText.isPlain d = true) (hrest : ∀ c ∈ rest.head?, c.isDigit = false) :
    num (d ++ rest) = some ((), rest) := by
  obtain ⟨hne, hdigits⟩ := VersionText.isNumeral_iff.mp h
  obtain ⟨c, ds, rfl⟩ := List.exists_cons_of_ne_nil hne
  have hc : c.isDigit = true := hdigits c (by simp)
  have hspan : span Char.isDigit (ds ++ rest) = some (ds, rest) :=
    span_append (fun e he => hdigits e (by simp [he])) hrest
  by_cases hzero : c = '0'
  · subst hzero
    have hds : ds = [] := by
      cases ds with
      | nil => rfl
      | cons e ds => simp [VersionText.isPlain] at hplain
    subst hds
    exact choice_of_eq_some (char_self '0' rest)
  · have hchar : char '0' (c :: ds ++ rest) = none := char_of_head_ne (by simpa using hzero)
    have hsat : satisfy (fun c => c.isDigit && c != '0') (c :: ds ++ rest) = some (c, ds ++ rest) := by
      simp [satisfy, hc, hzero]
    rw [num, choice_of_eq_none hchar, bind_of_eq_some hsat, bind_of_eq_some hspan]
    rfl

/-- The numbers between dots, followed by something that is no number. -/
theorem numbers_append {ds : List Text} (hne : ds ≠ [])
    (hds : ∀ d ∈ ds, VersionText.isNumeral d = true ∧ VersionText.isPlain d = true)
    (hrest : ∀ c ∈ rest.head?, c.isDigit = false ∧ c ≠ '.') :
    (do let _ ← many (do num; char '.'); num : Peg Unit) (['.'].intercalate ds ++ rest) =
      some ((), rest) := by
  obtain ⟨last, init, rfl⟩ : ∃ last init, ds = init ++ [last] :=
    ⟨_, _, (List.dropLast_concat_getLast hne).symm⟩
  have hlast : num (last ++ rest) = some ((), rest) :=
    num_append (hds last (by simp)).1 (hds last (by simp)).2 fun c hc => (hrest c hc).1
  have htext : ['.'].intercalate (init ++ [last]) ++ rest =
      (init.map (· ++ ['.'])).flatten ++ (last ++ rest) := by
    rw [intercalate_concat, List.append_assoc]
  have hmany : many (do num; char '.') ((init.map (· ++ ['.'])).flatten ++ (last ++ rest)) =
      some (init.map fun _ => (), last ++ rest) := by
    apply many_eq_some
    · intro before d after heq
      obtain ⟨hnum, hplain⟩ := hds d (by simp [heq])
      rw [List.append_assoc, bind_of_eq_some (num_append hnum hplain (by simp))]
      exact char_self '.' _
    · simp
    · rw [bind_of_eq_some hlast]
      exact char_of_head_ne fun h => (hrest '.' h).2 rfl
  rw [htext, bind_of_eq_some hmany, hlast]

theorem prerelease_append {ss : List Text} (hne : ss ≠ [])
    (hss : ∀ s ∈ ss, VersionText.isIdentifier s = true) (hrest : Ends rest) :
    prerelease (['.'].intercalate ss ++ rest) = some (ss, rest) := by
  apply sepBy1_append hne
  · intro s hs u hu
    obtain ⟨hsne, hchars, -⟩ := VersionText.isIdentifier_iff.mp (hss s hs)
    apply span1_append hsne hchars
    intro c hc
    rcases hu with rfl | hdot
    · exact (hrest c hc).1
    · cases hc.symm.trans hdot
      decide
  · exact fun h => (hrest '.' h).2 rfl

/-- A version without leading zeros is taken off as a whole. -/
theorem version_append {t : VersionText} (h : t.WellFormed) (hplain : t.Plain) (hrest : Ends rest) :
    version (t.text ++ rest) = some ((), rest) := by
  have hds : ∀ d ∈ t.numbers, VersionText.isNumeral d = true ∧ VersionText.isPlain d = true :=
    fun d hd => ⟨h.numbers d hd, hplain d hd⟩
  -- What follows the numbers, and what the optional prerelease makes of it.
  obtain ⟨u, htext, hu, o, hopt⟩ : ∃ u, t.text ++ rest = ['.'].intercalate t.numbers ++ u ∧
      (∀ c ∈ u.head?, c.isDigit = false ∧ c ≠ '.') ∧
        ∃ o, Peg.optional (do char '-'; prerelease) u = some (o, rest) := by
    by_cases hs : t.segments = []
    · refine ⟨rest, by simp [VersionText.text, hs], ?_, none, optional_of_eq_none ?_⟩
      · exact fun c hc => ⟨hrest.not_digit c hc, (hrest c hc).2⟩
      · exact char_bind_of_ne fun hdash => absurd (hrest '-' hdash).1 (by decide)
    · refine ⟨'-' :: ['.'].intercalate t.segments ++ rest, by simp [VersionText.text, hs], ?_,
        some t.segments, optional_of_eq_some ?_⟩
      · intro c hc
        cases hc
        decide
      · exact prerelease_append hs h.segments hrest
  obtain ⟨_, mid, hmany, hnum⟩ := bind_eq_some.mp (numbers_append h.nonempty hds hu)
  rw [htext, version, bind_of_eq_some hmany, bind_of_eq_some hnum, bind_of_eq_some hopt]
  rfl

theorem optional_flavor_append {f : Option Text} (hf : ∀ g ∈ f, g.all Char.isLower = true)
    (hrest : rest.head? ≠ some '#') :
    ∃ o, Peg.optional (do char '#'; let _ ← flavor; char ':') (flavorText f ++ rest) =
      some (o, rest) := by
  cases f with
  | none => exact ⟨none, optional_of_eq_none (char_bind_of_ne hrest)⟩
  | some f =>
    refine ⟨some (), optional_of_eq_some ?_⟩
    have hspan : flavor (f ++ ':' :: rest) = some (f, ':' :: rest) := by
      apply span_append (List.all_eq_true.mp (hf f rfl))
      intro c hc
      cases hc
      decide
    simp only [flavorText, List.cons_append, List.append_assoc, List.nil_append]
    rw [char_bind, bind_of_eq_some hspan]
    exact char_self ':' rest

/-- The version of an anchor is taken off as a whole. -/
theorem versionSpec_append {t : SpecText} (h : t.WellFormed) (hup : t.upstream.Plain)
    (hdown : ∀ down ∈ t.downstream, down.Plain) (hrest : Ends rest)
    (hcolon : rest.head? ≠ some ':') : versionSpec (t.text ++ rest) = some (t.text, rest) := by
  apply consumed_append
  -- What follows the upstream version, and what the optional downstream makes of it.
  obtain ⟨u, htext, hu, o, hopt⟩ : ∃ u, t.text ++ rest = flavorText t.flavor ++ (t.upstream.text ++ u) ∧
      Ends u ∧ ∃ o, Peg.optional (do char ':'; version) u = some (o, rest) := by
    cases hd : t.downstream with
    | none =>
      exact ⟨rest, by simp [SpecText.text, hd], hrest, none,
        optional_of_eq_none (char_bind_of_ne hcolon)⟩
    | some down =>
      refine ⟨':' :: down.text ++ rest, by simp [SpecText.text, hd], ?_, some (),
        optional_of_eq_some ?_⟩
      · intro c hc
        cases hc
        decide
      · exact version_append (h.downstream down hd) (hdown down hd) hrest
  have hhash : (t.upstream.text ++ u).head? ≠ some '#' :=
    h.upstream.head_ne (by decide) u
  obtain ⟨_, hflavor⟩ := optional_flavor_append h.flavor hhash
  rw [htext, bind_of_eq_some hflavor, bind_of_eq_some (version_append h.upstream hup hu),
    bind_of_eq_some hopt]
  rfl

/-- An operator is read when no equals sign follows it. -/
theorem cmpOp_append (op : CmpOp) (h : rest.head? ≠ some '=') :
    cmpOp (op.text ++ rest) = some (op, rest) := by
  have hchar := char_of_head_ne h
  cases op <;> simp [cmpOp, CmpOp.text, oneOf, choice, literal, bind_apply, map_apply,
    char_cons, hchar]

/-- The operators in the order in which they are tried. -/
def order : List CmpOp := [.ge, .le, .ne, .eq, .lt, .gt, .caret, .tilde]

theorem cmpOp_eq : cmpOp = operators order := rfl

/-- The characters that an atom can start with. -/
def startsAtom (c : Char) : Bool :=
  c.isDigit || ['(', '>', '<', '=', '^', '~', '!', '*', '#', ' '].contains c

theorem version_eq_none (h : ∀ c ∈ s.head?, c.isDigit = false) : version s = none := by
  have hnum : num s = none := by
    cases s with
    | nil => rfl
    | cons c s =>
      have hc : c.isDigit = false := h c rfl
      have hzero : c ≠ '0' := by
        rintro rfl
        exact absurd hc (by decide)
      simp [num, choice, char, satisfy, bind_apply, hc, hzero]
  have hmany : many (do num; char '.') s = some ([], s) := by
    cases s with
    | nil => rfl
    | cons c s => simp [many, manyUpTo, bind_of_eq_none hnum]
  rw [version, bind_of_eq_some hmany]
  exact bind_of_eq_none hnum

theorem versionSpec_eq_none (h : ∀ c ∈ s.head?, c.isDigit = false ∧ c ≠ '#') :
    versionSpec s = none := by
  have hflavor : Peg.optional (do char '#'; let _ ← flavor; char ':') s = some (none, s) :=
    optional_of_eq_none (char_bind_of_ne fun heq => (h '#' heq).2 rfl)
  rw [versionSpec, consumed, bind_of_eq_some hflavor,
    bind_of_eq_none (version_eq_none fun c hc => (h c hc).1)]

/-- Blanks, which the grammar skips. -/
def Blank (sp : Text) : Prop := ∀ c ∈ sp, c = ' '

theorem skip_append {sp : Text} (hsp : Blank sp) (h : s.head? ≠ some ' ') :
    skip (sp ++ s) = some ((), s) := by
  have hspan : span (· == ' ') (sp ++ s) = some (sp, s) := by
    apply span_append (fun c hc => by simpa using hsp c hc)
    intro c hc
    have hne : c ≠ ' ' := by
      rintro rfl
      exact h hc
    simpa using hne
  rw [skip, bind_of_eq_some hspan]
  rfl

theorem skip_of_head_ne (h : s.head? ≠ some ' ') : skip s = some ((), s) :=
  @skip_append s [] (by simp [Blank]) h

theorem skip_blank (h : s.head? ≠ some ' ') : skip (' ' :: s) = some ((), s) :=
  @skip_append s [' '] (by simp [Blank]) h

/-- No anchor starts with a character that starts no operator and no version. -/
theorem anchor_eq_none (hop : operators order s = none)
    (h : ∀ c ∈ s.head?, c.isDigit = false ∧ c ≠ '#' ∧ c ≠ ' ') : anchor s = none := by
  rw [anchor, cmpOp_eq, bind_of_eq_some (optional_of_eq_none hop),
    bind_of_eq_some (skip_of_head_ne fun heq => (h ' ' heq).2.2 rfl)]
  exact bind_of_eq_none (versionSpec_eq_none fun c hc => ⟨(h c hc).1, (h c hc).2.1⟩)

theorem anchor_bang (h : s.head? ≠ some '=') : anchor ('!' :: s) = none :=
  anchor_eq_none (operators_bang h) (by simp)

/-- The rules that an atom is made of. -/
def rules (depth : Nat) : AtomRules Text := ⟨(· == ' '), anchor, rangeOf (atom depth), atom depth⟩

theorem atom_of_isAtom {depth : Nat} {e : RangeExpr Text} (h : (rules depth).IsAtom s e rest) :
    atom (depth + 1) s = some (e, rest) := h.rule_eq

/-- No atom starts with a character that none can start with. -/
theorem atom_eq_none (h : ∀ c ∈ s.head?, startsAtom c = false) (depth : Nat) :
    atom depth s = none := by
  have hne {d : Char} (hd : startsAtom d = true) : s.head? ≠ some d := by
    intro heq
    rw [h d heq] at hd
    cases hd
  have hanchor : anchor s = none := by
    apply anchor_eq_none (operators_of_head (by simp [hne, startsAtom]))
    intro c hc
    have hstart := h c hc
    simp only [startsAtom, Bool.or_eq_false_iff] at hstart
    refine ⟨hstart.1, ?_, ?_⟩
    · rintro rfl
      exact hne (by decide) hc
    · rintro rfl
      exact hne (by decide) hc
  cases depth with
  | zero => rfl
  | succ depth => exact AtomRules.rule_eq_none (g := rules depth) hanchor (by simp [hne, startsAtom])

/-- A flavor without a version behind it. -/
theorem versionSpec_hash_eq_none {f : Text} (hf : f.all Char.isLower = true)
    (hrest : ∀ c ∈ rest.head?, c.isLower = false) (hcolon : rest.head? ≠ some ':') :
    versionSpec ('#' :: (f ++ rest)) = none := by
  have hflavor : Peg.optional (do char '#'; let _ ← flavor; char ':') ('#' :: (f ++ rest)) =
      some (none, '#' :: (f ++ rest)) := by
    apply optional_of_eq_none
    rw [char_bind, flavor, bind_of_eq_some (span_append (List.all_eq_true.mp hf) hrest)]
    exact char_of_head_ne hcolon
  rw [versionSpec, consumed, bind_of_eq_some hflavor, bind_of_eq_none (version_eq_none ?_)]
  simp

variable {depth : Nat} {sp u : Text} {e : RangeExpr Text}

theorem atom_any : atom (depth + 1) ('*' :: rest) = some (.any, rest) :=
  atom_of_isAtom (.any (anchor_eq_none (operators_of_head (by simp)) (by simp)))

theorem atom_flavor {f : Text} (hf : f.all Char.isLower = true)
    (hrest : ∀ c ∈ rest.head?, c.isLower = false) (hcolon : rest.head? ≠ some ':') :
    atom (depth + 1) ('#' :: (f ++ rest)) = some (.flavor f, rest) := by
  refine atom_of_isAtom (.flavor ?_ hf hrest)
  have hop : operators order ('#' :: (f ++ rest)) = none := operators_of_head (by simp)
  change anchor _ = none
  rw [anchor, cmpOp_eq, bind_of_eq_some (optional_of_eq_none hop),
    bind_of_eq_some (skip_of_head_ne (by simp))]
  exact bind_of_eq_none (versionSpec_hash_eq_none hf hrest hcolon)

/-- The text of an anchor: the operator, blanks and the version. -/
def anchorText (op : Option CmpOp) (sp : Text) (t : SpecText) : Text :=
  (op.map CmpOp.text).getD [] ++ (sp ++ t.text)

theorem anchor_append {op : Option CmpOp} {t : SpecText} (hsp : Blank sp) (h : t.WellFormed)
    (hup : t.upstream.Plain) (hdown : ∀ down ∈ t.downstream, down.Plain) (hrest : Ends rest)
    (hcolon : rest.head? ≠ some ':') : (anchorText op sp t ++ rest).head? ≠ some '(' ∧
      anchor (anchorText op sp t ++ rest) = some (.anchor op t.text, rest) := by
  -- What follows the operator starts with a blank, a hash or a digit.
  have hne (d : Char) (hd : d ≠ ' ' ∧ d ≠ '#' ∧ d.isDigit = false) :
      (sp ++ (t.text ++ rest)).head? ≠ some d := by
    cases sp with
    | nil => exact h.head_ne hd.2.1 hd.2.2 rest
    | cons e sp =>
      intro heq
      cases heq
      exact hd.1 (hsp d (by simp))
  have hspace : (t.text ++ rest).head? ≠ some ' ' := h.head_ne (by decide) (by decide) rest
  have hop : Peg.optional cmpOp (anchorText op sp t ++ rest) = some (op, sp ++ (t.text ++ rest)) := by
    cases op with
    | none =>
      rw [anchorText]
      simp only [Option.map_none, List.append_assoc]
      rw [cmpOp_eq]
      refine optional_of_eq_none (operators_of_head fun d hd => hne d ?_)
      simp only [List.mem_cons, List.not_mem_nil, or_false] at hd
      rcases hd with rfl | rfl | rfl | rfl | rfl | rfl <;> decide
    | some o =>
      rw [anchorText]
      simp only [Option.map_some, Option.getD_some, List.append_assoc]
      exact optional_of_eq_some (cmpOp_append o (hne '=' (by decide)))
  have hparens : (anchorText op sp t ++ rest).head? ≠ some '(' := by
    cases op with
    | none => simpa [anchorText] using hne '(' (by decide)
    | some o => cases o <;> simp [anchorText, CmpOp.text]
  refine ⟨hparens, ?_⟩
  rw [anchor, bind_of_eq_some hop, bind_of_eq_some (skip_append hsp hspace),
    bind_of_eq_some (versionSpec_append h hup hdown hrest hcolon)]
  rfl

theorem atom_anchor {op : Option CmpOp} {t : SpecText} (hsp : Blank sp) (h : t.WellFormed)
    (hup : t.upstream.Plain) (hdown : ∀ down ∈ t.downstream, down.Plain) (hrest : Ends rest)
    (hcolon : rest.head? ≠ some ':') :
    atom (depth + 1) (anchorText op sp t ++ rest) = some (.anchor op t.text, rest) := by
  obtain ⟨hparens, hanchor⟩ := @anchor_append rest sp op t hsp h hup hdown hrest hcolon
  exact atom_of_isAtom (.anchor (AtomRules.parens_eq_none hparens) hanchor)

variable {p : Peg (RangeExpr Text)}

/-- A text in which a range is not carried on: its end or a closing parenthesis. -/
def Closed (rest : Text) : Prop := ∀ c ∈ rest.head?, c = ')'

theorem Closed.head_ne {c : Char} (h : Closed rest) (hc : c ≠ ')') : rest.head? ≠ some c :=
  fun heq => hc (h c heq)

theorem logic_eq_none (h : ∀ c ∈ s.head?, c ≠ '|' ∧ c ≠ '&') : logic s = none := by
  cases s with
  | nil => rfl
  | cons c s =>
    obtain ⟨hbar, hamp⟩ := h c rfl
    simp [logic, oneOf, choice, literal, bind_apply, char_cons, hbar, hamp, fail]

/-- Nothing is linked where a range ends. -/
theorem linked_eq_none (h : Closed rest) : linked (atom depth) rest = none := by
  have hlogic : logic rest = none := by
    apply logic_eq_none
    intro c hc
    rw [h c hc]
    decide
  have hatom : atom depth rest = none := by
    apply atom_eq_none
    intro c hc
    rw [h c hc]
    decide
  rw [linked, bind_of_eq_some (optional_of_eq_none hlogic),
    bind_of_eq_some (skip_of_head_ne (h.head_ne (by decide))), bind_of_eq_none hatom]

theorem takes_skip : Takes 0 skip := (takes_span _).bind fun _ => takes_pure ()

theorem takes_num : Takes 1 num := by
  apply (takes_char '0').choice
  apply (takes_satisfy _).bind
  exact fun _ => (takes_span _).bind fun _ => takes_pure ()

theorem takes_version : Takes 1 version := by
  apply takes_bind
  · exact (takes_num.zero.bind fun _ => (takes_char '.').zero).many
  · intro _
    apply takes_num.bind
    intro _
    apply Takes.bind _ fun _ => takes_pure ()
    apply Takes.optional
    exact (takes_char '-').zero.bind fun _ =>
      ((takes_span1 _).sepBy1 '.').zero

theorem takes_versionSpec : Takes 1 versionSpec := by
  apply Takes.consumed
  apply takes_bind
  · apply Takes.optional
    apply (takes_char '#').zero.bind
    exact fun _ => (takes_span _).bind fun _ => (takes_char ':').zero
  · intro _
    apply takes_version.bind
    intro _
    apply Takes.bind _ fun _ => takes_pure ()
    apply Takes.optional
    exact (takes_char ':').zero.bind fun _ => takes_version.zero

theorem takes_anchor : Takes 1 anchor :=
  takes_bind (takes_operators order).optional fun _ =>
    takes_bind takes_skip fun _ => takes_versionSpec.bind fun _ => takes_pure _

theorem takes_logic : Takes 0 logic := takes_oneOf (by simp [takes_word, -bind_pure_comp])

theorem takes_linked (h : Takes 1 p) : Takes 1 (linked p) := by
  apply takes_bind takes_logic.optional
  intro _
  exact takes_bind takes_skip fun _ => h.bind fun _ => takes_pure _

theorem takes_rangeOf (h : Takes 1 p) : Takes 1 (rangeOf p) := by
  have hlinked := (takes_linked h).zero
  apply h.bind
  intro _
  apply takes_skip.bind
  intro _
  apply Takes.bind _ fun _ => takes_pure _
  apply Takes.optional
  apply hlinked.bind
  intro _
  apply Takes.bind _ fun _ => takes_pure _
  exact (takes_skip.bind fun _ => hlinked).many

theorem takes_atom (depth : Nat) : Takes 1 (atom depth) := by
  induction depth with
  | zero =>
    intro s a rest hs
    cases hs
  | succ depth ih =>
    exact AtomRules.takes_rule (g := rules depth) takes_anchor (takes_rangeOf ih) ih

/-- An atom with blanks before it and before its operator. -/
def next (depth : Nat) : Peg (Option Logic × RangeExpr Text) := do
  skip
  linked (atom depth)

/-- A first atom and the atoms linked to it are a range. Blanks behind a single
atom belong to the range. -/
theorem range_chain {first : RangeExpr Text} {links : List (Option Logic × RangeExpr Text)}
    {mid sp : Text} (hfirst : atom depth s = some (first, mid))
    (hlinks : Steps (next depth) mid links (sp ++ rest)) (hsp : Blank sp) (h : Closed rest) :
    ∃ after, rangeOf (atom depth) s = some (.chain first links, after) ∧
      skip after = some ((), rest) := by
  have hskip : skip (sp ++ rest) = some ((), rest) := skip_append hsp (h.head_ne (by decide))
  have hend : next depth (sp ++ rest) = none := by
    rw [next, bind_of_eq_some hskip, linked_eq_none h]
  cases hlinks with
  | nil =>
    refine ⟨rest, ?_, skip_of_head_ne (h.head_ne (by decide))⟩
    rw [rangeOf, bind_of_eq_some hfirst, bind_of_eq_some hskip,
      bind_of_eq_some (optional_of_eq_none (bind_of_eq_none (linked_eq_none h)))]
    rfl
  | @cons _ mid' _ link links hlink htail =>
    refine ⟨sp ++ rest, ?_, hskip⟩
    obtain ⟨_, mid'', hblank, hlinked⟩ := bind_eq_some.mp hlink
    have hmany : many (next depth) mid' = some (links, sp ++ rest) := by
      have htakes : Takes 1 (next depth) :=
        takes_bind takes_skip fun _ => takes_linked (takes_atom depth)
      have := htakes.steps htail
      exact many_of_steps htail (by omega) hend
    have hopt : Peg.optional (do
        let next ← linked (atom depth)
        let rest ← many (do skip; linked (atom depth))
        pure (next :: rest)) mid'' = some (some (link :: links), sp ++ rest) := by
      apply optional_of_eq_some
      rw [bind_of_eq_some hlinked]
      exact bind_of_eq_some hmany
    rw [rangeOf, bind_of_eq_some hfirst, bind_of_eq_some hblank, bind_of_eq_some hopt]
    rfl

end Grammar

/-- The version that the text of an anchor stands for. -/
def SpecText.version (t : SpecText) : ExtendedVersion :=
  ⟨t.flavor.filter fun f => !f.isEmpty, t.upstream.version,
    (t.downstream.map VersionText.version).getD .default⟩

/-- The numbers of the text are machine words. -/
def SpecText.Fits (t : SpecText) : Prop :=
  t.upstream.Fits ∧ ∀ down ∈ t.downstream, down.Fits

/-- The text of an anchor is parsed piece by piece. -/
theorem ExtendedVersion.parseSpec_text {t : SpecText} (h : t.WellFormed) (hfit : t.Fits) :
    parseSpec t.text = .ok t.version := by
  have hcolon : ':' ∉ t.upstream.text := h.upstream.not_mem_text (by decide) (by decide)
  have hfilter : ∀ f ∈ t.flavor.filter fun f => !f.isEmpty, f.all Char.isLower = true :=
    fun f hf => h.flavor f (Option.mem_filter_iff.mp hf).1
  have hup := h.upstream.fromStr hfit.1
  cases hd : t.downstream with
  | none =>
    have htext : t.text = flavorText t.flavor ++ (t.upstream.text ++ []) := by
      simp [SpecText.text, hd]
    have hzero : Version.fromStr ['0'] = .ok .default := by decide
    rw [parseSpec, htext, splitFlavor_append h.flavor h.upstream, checkFlavor_eq_ok hfilter,
      List.append_nil, Text.splitOnce_eq_none hcolon]
    simp [hup, hzero, SpecText.version, hd, bind, Except.bind]
  | some down =>
    have htext : t.text = flavorText t.flavor ++ (t.upstream.text ++ ':' :: down.text) := by
      simp [SpecText.text, hd]
    have hdown := (h.downstream down hd).fromStr (hfit.2 down hd)
    rw [parseSpec, htext, splitFlavor_append h.flavor h.upstream, checkFlavor_eq_ok hfilter,
      Text.splitOnce_append hcolon]
    simp [hup, hdown, SpecText.version, hd, bind, Except.bind]

end StartTech.Exver

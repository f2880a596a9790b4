import StartTech.StartCore.Agreement
import StartTech.StartCore.Simulation

/-!
# Where the two parsers of ranges agree

Both parsers read the same tree from a text that both grammars treat alike. The
crate keeps an operator in force until another one is written, and it takes a
flavor without letters for no flavor; where neither matters, the two ranges are
satisfied by the same versions.
-/

namespace StartTech.StartCore

open Foundation Peg
open Exver.ExtendedVersion (satisfies)
open Exver.VersionRange (parseVersionRange smartNot smartAnd smartOr)
open Exver (CmpOp Logic RangeExpr SpecText VersionText)

namespace Grammar

/-- What the grammar reads a text as. -/
def tree (s : Text) : Option (RangeExpr SpecText) := parseAll (versionRange (s.length + 1)) s

/-- Every number in the versions of the expression fits in 53 bits. -/
def Safe : RangeExpr SpecText → Prop
  | .parens e | .not e => Safe e
  | .anchor _ t => (∀ n ∈ t.upstream.version.number, n ≤ 9007199254740991) ∧
      ∀ down ∈ t.downstream, ∀ n ∈ down.version.number, n ≤ 9007199254740991
  | .any | .none | .flavor _ => True
  | .link l _ r => Safe l ∧ Safe r

/-- Flavors have letters, and no operator is left out behind a disjunction. -/
def Explicit : RangeExpr SpecText → Prop
  | .parens e | .not e => Explicit e
  | .anchor _ _ | .any | .none => True
  | .flavor f => f ≠ []
  | .link l op r => Explicit l ∧ Explicit r ∧ (op = none → l.lastOp ≠ some .or)

/-- A text that both grammars treat alike: blanks are the only white space, no
number has a leading zero, and the expression is explicit. -/
def Portable (s : Text) : Prop := Blanks s ∧ ∀ e, tree s = some e → Plain e ∧ Explicit e

end Grammar

open Grammar (parseRange specOf Safe tree)

section

variable (v : Exver.ExtendedVersion)
include v

theorem satisfies_smartAnd (a b : Exver.VersionRange) :
    v.satisfies (smartAnd a b) = (v.satisfies a && v.satisfies b) := by
  unfold smartAnd
  split <;> simp [satisfies]

theorem satisfies_smartOr (a b : Exver.VersionRange) :
    v.satisfies (smartOr a b) = (v.satisfies a || v.satisfies b) := by
  unfold smartOr
  split <;> simp [satisfies]

theorem satisfies_smartNot (a : Exver.VersionRange) :
    v.satisfies (smartNot a) = !v.satisfies a := by
  have hneq (w : Exver.ExtendedVersion) : v.satisfies (.anchor Exver.NEQ w) =
      !v.satisfies (.anchor Exver.EQ w) := by
    simp only [satisfies]
    cases v.partialCmp w with
    | none => rfl
    | some o => cases o <;> rfl
  cases a with
  | anchor op w =>
    simp only [smartNot]
    split
    · rename_i heq
      rw [heq, hneq]
    · split
      · rename_i heq
        rw [heq, hneq, Bool.not_not]
      · rfl
  | not a => simp [smartNot, satisfies]
  | _ => rfl

end

theorem lastOp_map {V W : Type} (f : V → W) (e : RangeExpr V) : (e.map f).lastOp = e.lastOp := by
  induction e with
  | link l op r ihl _ => simp [RangeExpr.map, RangeExpr.lastOp, ihl]
  | _ => rfl

/-- The version of an anchor is the same on both sides. -/
theorem specOf_relabel {t : SpecText} (h : t.WellFormed)
    (hup : ∀ n ∈ t.upstream.version.number, n ≤ 9007199254740991)
    (hdown : ∀ down ∈ t.downstream, ∀ n ∈ down.version.number, n ≤ 9007199254740991) :
    t.version = (specOf t).relabel Version.toRust ∧
      ∀ x ∈ (specOf t).parts, x.Spelled 9007199254740991 := by
  obtain ⟨hups, hupr⟩ := versionOf_spelled h.upstream hup
  obtain ⟨f, up, down⟩ := t
  cases down with
  | none =>
    refine ⟨?_, ?_⟩
    · simp only [SpecText.version, specOf, ExtendedVersion.relabel, hupr,
        Option.map_none, Option.getD_none, Version.toRust_zero]
      rfl
    · simpa [ExtendedVersion.parts] using ⟨hups, Version.zero_spelled⟩
  | some down =>
    obtain ⟨hdowns, hdownr⟩ := versionOf_spelled (h.downstream down rfl) (hdown down rfl)
    refine ⟨?_, ?_⟩
    · simp only [SpecText.version, specOf, ExtendedVersion.relabel, hupr,
        Option.map_some, Option.getD_some, hdownr]
      rfl
    · simpa [specOf, ExtendedVersion.parts] using ⟨hups, hdowns⟩

/-- The range that the crate makes of a tree, and the range of the TypeScript
library for it. -/
structure ValuesAgree (e : RangeExpr SpecText) (r : Exver.VersionRange) : Prop where
  parse : parseVersionRange (e.map SpecText.text) = .ok r
  satisfies : ∀ v : Exver.ExtendedVersion,
    v.satisfies r = v.satisfies ((parseRange e).relabel Version.toRust)
  spelled : ∀ x ∈ (parseRange e).versions, x.Spelled (2 ^ 53)

theorem valuesAgree_anchor {op : Option CmpOp} {t : SpecText} (h : t.WellFormed)
    (hsafe : Safe (.anchor op t)) : ∃ r, ValuesAgree (.anchor op t) r := by
  obtain ⟨hrust, hspelled⟩ := specOf_relabel h hsafe.1 hsafe.2
  obtain ⟨hanchor, hversions⟩ := ofAnchor_relabel (op.getD .caret) hspelled
  have hfits : t.Fits := by
    have hword : 9007199254740991 < Text.wordLimit := by decide
    refine ⟨fun d hd => ?_, fun down hdown d hd => ?_⟩
    · exact Nat.lt_of_le_of_lt (hsafe.1 _ (List.mem_map_of_mem hd)) hword
    · exact Nat.lt_of_le_of_lt (hsafe.2 down hdown _ (List.mem_map_of_mem hd)) hword
  refine ⟨_, ?_, fun v => rfl, hversions⟩
  simp only [RangeExpr.map, parseVersionRange, Exver.VersionRange.parseAnchor,
    Exver.ExtendedVersion.parseSpec_text h hfits, hrust, bind, Except.bind, hanchor]
  rfl

theorem valuesAgree_link {l r : RangeExpr SpecText} {op : Option Logic} {a b : Exver.VersionRange}
    (hl : ValuesAgree l a) (hr : ValuesAgree r b) (hop : op = none → l.lastOp ≠ some .or) :
    ∃ c, ValuesAgree (.link l op r) c := by
  have hspelled {q : VersionRange}
      (hq : q.versions = (parseRange l).versions ++ (parseRange r).versions) :
      ∀ x ∈ q.versions, x.Spelled (2 ^ 53) := by
    intro x hx
    rw [hq] at hx
    exact (List.mem_append.mp hx).elim (hl.spelled x) (hr.spelled x)
  have hand (hkind : ∀ q, parseRange (.link l op r) = q → q = .and (parseRange l) (parseRange r))
      (hor : op.or l.lastOp ≠ some .or) : ∃ c, ValuesAgree (.link l op r) c := by
    have heq := hkind _ rfl
    refine ⟨smartAnd a b, ?_, ?_, hspelled (by rw [heq]; rfl)⟩
    · simp only [RangeExpr.map, parseVersionRange, hl.parse, hr.parse,
        lastOp_map, bind, Except.bind, if_neg hor]
    · intro v
      rw [heq, satisfies_smartAnd, hl.satisfies, hr.satisfies]
      rfl
  rcases op with _ | _ | _
  · exact hand (fun q hq => hq.symm) (hop rfl)
  · refine ⟨smartOr a b, ?_, ?_, hspelled rfl⟩
    · simp [RangeExpr.map, parseVersionRange, hl.parse, hr.parse, bind, Except.bind]
    · intro v
      rw [satisfies_smartOr, hl.satisfies, hr.satisfies]
      rfl
  · exact hand (fun q hq => hq.symm) (by simp)

/-- On an explicit tree of safe numbers both sides build ranges with the same meaning. -/
theorem exists_valuesAgree {e : RangeExpr SpecText} (h : Grammar.WellFormed e)
    (hsafe : Safe e) (hexplicit : Grammar.Explicit e) : ∃ r, ValuesAgree e r := by
  induction e with
  | parens e ih =>
    obtain ⟨r, hr⟩ := ih h hsafe hexplicit
    exact ⟨r, hr.parse, hr.satisfies, hr.spelled⟩
  | anchor op t => exact valuesAgree_anchor h hsafe
  | not e ih =>
    obtain ⟨r, hr⟩ := ih h hsafe hexplicit
    refine ⟨smartNot r, ?_, ?_, hr.spelled⟩
    · simp [RangeExpr.map, parseVersionRange, hr.parse, bind, Except.bind]
    · intro v
      rw [satisfies_smartNot, hr.satisfies]
      rfl
  | any => exact ⟨.any, rfl, fun _ => rfl, by simp [parseRange, VersionRange.versions]⟩
  | none => exact ⟨.none, rfl, fun _ => rfl, by simp [parseRange, VersionRange.versions]⟩
  | flavor f =>
    have hne : f ≠ [] := hexplicit
    refine ⟨.flavor (some f), ?_, fun _ => rfl, by simp [parseRange, VersionRange.versions]⟩
    simp [RangeExpr.map, parseVersionRange, hne]
  | link l op r ihl ihr =>
    obtain ⟨a, ha⟩ := ihl h.1 hsafe.1 hexplicit.1
    obtain ⟨b, hb⟩ := ihr h.2 hsafe.2 hexplicit.2.1
    exact valuesAgree_link ha hb hexplicit.2.2

/-- A portable text with numbers of at most 53 bits that the TypeScript library
parses is parsed by the crate, and every version satisfies both ranges or none. -/
theorem parsers_agree (s : Text) (q : VersionRange) (h : VersionRange.parse s = some q)
    (hsafe : ∀ e, Grammar.tree s = some e → Grammar.Safe e) (hportable : Grammar.Portable s) :
    ∃ r, Exver.VersionRange.fromStr s = .ok r ∧
      ∀ (bound : Nat) (v : ExtendedVersion), (∀ x ∈ v.parts, x.Spelled bound) →
        (v.relabel Version.toRust).satisfies r = v.satisfies q := by
  obtain ⟨e, he, rfl⟩ := Option.map_eq_some_iff.mp h
  obtain ⟨hblanks, htree⟩ := hportable
  obtain ⟨hplain, hexplicit⟩ := htree e he
  obtain ⟨t, -, hwf, -⟩ := Grammar.reads_rangeOf (Grammar.reads_atom _) _ _ _
    (parseAll_eq_some.mp he)
  obtain ⟨r, hr⟩ := exists_valuesAgree hwf (hsafe e he) hexplicit
  refine ⟨r, (Grammar.versionRange_sim he hblanks hplain).trans hr.parse, ?_⟩
  intro bound v hv
  rw [hr.satisfies]
  apply VersionRange.relabel_satisfies
  have hall : ∀ x ∈ v.parts ++ (parseRange e).versions, x.Spelled (max bound (2 ^ 53)) := by
    intro x hx
    rcases List.mem_append.mp hx with hx | hx
    · exact (hv x hx).mono (le_max_left _ _)
    · exact (hr.spelled x hx).mono (le_max_right _ _)
  exact toRust_faithful hall

/-- An omitted operator is a conjunction for the TypeScript library, and for the crate
it repeats the disjunction written before it. -/
theorem omitted_operator_reads_apart :
    ∃ (s : Text) (q : VersionRange) (r : Exver.VersionRange) (v : ExtendedVersion),
      VersionRange.parse s = some q ∧ (∀ e, Grammar.tree s = some e → Grammar.Safe e) ∧
        Exver.VersionRange.fromStr s = .ok r ∧ (∀ x ∈ v.parts, x.Spelled 0) ∧
        (v.relabel Version.toRust).satisfies r ≠ v.satisfies q := by
  have htree : tree "*||*!".toList = some (.link (.link .any (some .or) .any) none .none) := rfl
  refine ⟨"*||*!".toList, .and (.or .any .any) .none, .any, ⟨none, .zero, .zero⟩, rfl, ?_, rfl,
    ?_, ?_⟩
  · intro e he
    cases Option.some.inj (htree.symm.trans he)
    exact ⟨⟨trivial, trivial⟩, trivial⟩
  · simp [ExtendedVersion.parts, Version.zero_spelled]
  · simp [ExtendedVersion.satisfies, satisfies]

theorem parsers_agree_pair : ∃ r, Exver.VersionRange.fromStr "=1||!".toList = .ok r ∧
      ∀ (bound : Nat) (v : ExtendedVersion), (∀ x ∈ v.parts, x.Spelled bound) →
        (v.relabel Version.toRust).satisfies r =
          v.satisfies (.or (.anchor .eq ⟨none, ⟨[.round 1], []⟩, .zero⟩) .none) := by
  have htree : tree "=1||!".toList =
      some (.link (.anchor (some .eq) ⟨none, ⟨[['1']], []⟩, none⟩) (some .or) .none) := rfl
  have hone : VersionText.numberOf ['1'] = 1 := rfl
  have hparse : VersionRange.parse "=1||!".toList =
      some (.or (.anchor .eq ⟨none, ⟨[.round 1], []⟩, .zero⟩) .none) := by
    change Option.map _ (tree _) = _
    rfl
  refine parsers_agree "=1||!".toList _ hparse (fun e he => ?_) ⟨?_, fun e he => ?_⟩
  · cases Option.some.inj (htree.symm.trans he)
    simp [Safe, VersionText.version, hone]
  · simp [Grammar.Blanks, Grammar.isSpace]
  · cases Option.some.inj (htree.symm.trans he)
    simp [Grammar.Plain, Grammar.Explicit, VersionText.Plain, VersionText.isPlain]

end StartTech.StartCore

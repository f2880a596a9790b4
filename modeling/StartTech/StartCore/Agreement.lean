import StartTech.StartCore.Labels
import StartTech.StartCore.Normalization
import StartTech.Exver.Grammar

/-!
# The two implementations order and match alike

The TypeScript library and the Rust crate implement versions and ranges apart
from each other. On texts that both accept, with numbers that a script number
holds exactly, they give the same answers.

## Implementation notes

Ranges are built from the variants of the two data types, not through the
constructors that simplify. Carets and tildes are written out by the code of
each side.
-/

namespace StartTech.StartCore

open Foundation
open ExtendedVersion (relabel parts)
open Exver.VersionRange (ofAnchor releaseWhole)
open Exver (CmpOp VersionText)
open Version (toRust zero)

/-- A version text that both implementations accept, with the two readings. -/
structure SharedVersion where
  text : Text
  rust : Exver.ExtendedVersion
  ts : ExtendedVersion
  fromStr : Exver.ExtendedVersion.fromStr text = .ok rust
  parse : ExtendedVersion.parse text = some ts
  safe : ∀ n ∈ rust.upstream.number ++ rust.downstream.number, n ≤ 9007199254740991
  flavor : rust.flavor ≠ some []

/-- A range over shared versions, before either side builds it. -/
inductive RangeTree
  | anchor (operator : CmpOp) (version : SharedVersion)
  | and (left right : RangeTree)
  | or (left right : RangeTree)
  | not (value : RangeTree)
  | any
  | none
  | flavor (flavor : Option Text) (nonempty : flavor ≠ some [])

namespace RangeTree

/-- The range of the crate; `none` when building a caret or tilde panics. -/
def rust : RangeTree → Option Exver.VersionRange
  | .anchor operator version => ofAnchor version.rust operator
  | .and left right => do some (.and (← left.rust) (← right.rust))
  | .or left right => do some (.or (← left.rust) (← right.rust))
  | .not value => value.rust.map .not
  | .any => some .any
  | .none => some .none
  | .flavor f _ => some (.flavor f)

/-- The range of the TypeScript library. -/
def ts : RangeTree → VersionRange
  | .anchor operator version => VersionRange.ofAnchor operator version.ts
  | .and left right => .and left.ts right.ts
  | .or left right => .or left.ts right.ts
  | .not value => .not value.ts
  | .any => .any
  | .none => .none
  | .flavor f _ => .flavor f

end RangeTree

variable {label : Version → Exver.Version} {r : VersionRange} {vs : List ExtendedVersion}

theorem relabel_releaseWhole (h : ∀ v ∈ vs, Faithful label (v.parts ++ r.versions))
    (negated : Bool) :
    (r.relabel label).releaseWhole (vs.map (relabel label)) negated =
      r.releaseWhole vs negated := by
  have hmap : (vs.map fun v => (v.relabel label).satisfies (r.relabel label)) =
      vs.map fun v => v.satisfies r :=
    List.map_congr_left fun v hv => VersionRange.relabel_satisfies v r (h v hv)
  have hany : (vs.any fun v => (v.relabel label).satisfies (r.relabel label)) =
      vs.any fun v => v.satisfies r :=
    (Bool.eq_iff_iff.mpr (by
      simp only [List.any_eq_true]
      constructor
      · rintro ⟨v, hv, hsat⟩
        exact ⟨v, hv, VersionRange.relabel_satisfies v r (h v hv) ▸ hsat⟩
      · rintro ⟨v, hv, hsat⟩
        exact ⟨v, hv, (VersionRange.relabel_satisfies v r (h v hv)).trans hsat⟩))
  cases negated with
  | false => simpa [releaseWhole, VersionRange.releaseWhole] using hmap
  | true =>
    simp [releaseWhole, VersionRange.releaseWhole, Function.comp_def, hany]

/-- A pair of bounds matches a release version by version. -/
theorem releaseMatches_bounds (low high : Exver.ExtendedVersion)
    (vs : List Exver.ExtendedVersion) (negated : Bool) :
    Exver.VersionRange.releaseMatches vs
        (.and (.anchor Exver.GTE low) (.anchor Exver.LT high)) negated =
      releaseWhole (.and (.anchor Exver.GTE low) (.anchor Exver.LT high)) vs negated := by
  cases negated with
  | true => rfl
  | false =>
    change List.zipWith (· && ·) (vs.map _) (vs.map _) = vs.map _
    rw [List.zipWith_map, List.zipWith_self]
    rfl

/-- A release matches a range as its labels match the relabelled range. -/
theorem relabel_releaseMatches (h : ∀ v ∈ vs, Faithful label (v.parts ++ r.versions))
    (negated : Bool) :
    (r.relabel label).releaseMatches (vs.map (relabel label)) negated =
      r.releaseMatches vs negated := by
  induction r generalizing negated with
  | anchor op w =>
    cases op with
    | ne =>
      exact relabel_releaseWhole (r := .anchor .eq w) h !negated
    | caret => exact (releaseMatches_bounds _ _ _ negated).trans (relabel_releaseWhole h negated)
    | tilde => exact (releaseMatches_bounds _ _ _ negated).trans (relabel_releaseWhole h negated)
    | eq | gt | lt | ge | le => exact relabel_releaseWhole h negated
  | and left right ihl ihr | or left right ihl ihr =>
    have hl := ihl fun v hv => (h v hv).narrow fun x hx => List.mem_append_left _ hx
    have hr := ihr fun v hv => (h v hv).narrow fun x hx => List.mem_append_right _ hx
    cases negated with
    | false => exact congrArg₂ (List.zipWith _) (hl false) (hr false)
    | true => exact relabel_releaseWhole h true
  | not value ih => exact ih h (!negated)
  | any | none | flavor f => exact relabel_releaseWhole h negated

namespace VersionRangeTables

theorem collapseLoop_of_forall {b : Bool} {xs : List Bool} {found : Option Bool}
    (h : ∀ x ∈ xs, x = b) (hfound : found = some b ∨ found = Option.none ∧ xs ≠ []) :
    collapseLoop xs found = some b := by
  induction xs generalizing found with
  | nil => simpa [collapseLoop] using hfound
  | cons x xs ih =>
    have hx := h x (by simp)
    have htail : collapseLoop xs (some b) = some b :=
      ih (fun y hy => h y (by simp [hy])) (.inl rfl)
    rcases hfound with rfl | ⟨rfl, -⟩ <;> simp [collapseLoop, hx, htail]

theorem satisfiable_relabel_map {m : List TableEntry} :
    ((map m).relabel label).satisfiable = Bool.true ↔ ∃ e ∈ m, Bool.true ∈ e.2.values := by
  simp [relabel, Exver.Sat.Tables.satisfiable, relabelEntry, VersionRangeTable.relabel]

/-- Not collapsing to false is having a value that is true. -/
theorem satisfiable_relabel {t : VersionRangeTables} (h : (t.relabel label).WellFormed) :
    (t.relabel label).satisfiable = (t.collapse != some Bool.false) := by
  cases t with
  | true | false => rfl
  | map m =>
    rw [Bool.eq_iff_iff, bne_iff_ne, satisfiable_relabel_map]
    constructor
    · rintro ⟨e, he, hmem⟩ hcollapse
      exact absurd (collapse_eq_some hcollapse e he _ hmem) (by decide)
    · intro hne
      by_contra hall
      apply hne
      apply collapseLoop_of_forall
      · intro x hx
        obtain ⟨e, he, hxe⟩ := List.mem_flatMap.mp hx
        cases x with
        | false => rfl
        | true => exact absurd ⟨e, he, hxe⟩ hall
      · -- The entry for unflavored versions has at least one value.
        obtain ⟨e, he⟩ := h.1 Option.none
        have hmem : e ∈ m.map (relabelEntry label) :=
          List.mem_of_mem_filter (he ▸ List.mem_singleton_self e)
        obtain ⟨x, xs, hvalues⟩ := (h.2 e hmem).values_cons
        obtain ⟨d, hd, rfl⟩ := List.mem_map.mp hmem
        have hx : x ∈ m.flatMap fun e => e.2.values :=
          List.mem_flatMap.mpr ⟨d, hd, List.mem_of_mem_head? (congrArg List.head? hvalues)⟩
        exact .inr ⟨rfl, List.ne_nil_of_mem hx⟩

end VersionRangeTables

/-- Reading pieces exactly on both sides. -/
theorem versionOf_spelled {t : VersionText} (h : t.WellFormed)
    (hsafe : ∀ n ∈ t.version.number, n ≤ 9007199254740991) :
    (Grammar.versionOf t).Spelled 9007199254740991 ∧ (Grammar.versionOf t).toRust = t.version := by
  have heq : Grammar.versionOf t = ⟨(t.numbers.map VersionText.numberOf).map JsNumber.ofNat,
      t.segments.map Grammar.identifierOf⟩ := by
    rw [Grammar.versionOf, List.map_map]
    congr 1
    apply List.map_congr_left
    intro d hd
    have hd' : VersionText.numberOf d ≤ 9007199254740991 := hsafe _ (List.mem_map_of_mem hd)
    exact JsNumber.round_natCast (hd'.trans (by norm_num))
  rw [heq]
  exact ⟨⟨_, _, rfl, by simpa using h.nonempty, hsafe, h.segments⟩, toRust_mk h.segments⟩

namespace SharedVersion

/-- The two readings of a shared version are one version. -/
theorem spelled (v : SharedVersion) :
    v.rust = v.ts.relabel toRust ∧ ∀ x ∈ v.ts.parts, x.Spelled 9007199254740991 := by
  obtain ⟨f, up, down, hlower, hup, hdown, htext, hts⟩ := ExtendedVersion.parse_pieces v.parse
  have hrust := Exver.ExtendedVersion.eq_of_fromStr_pieces hlower hup hdown (htext ▸ v.fromStr)
  have hf : f ≠ some [] := by
    have := v.flavor
    rwa [hrust] at this
  have hnull : Grammar.orNull f = f := by
    cases f with
    | none => rfl
    | some f => simpa [Grammar.orNull] using hf
  have hsafe := v.safe
  rw [hrust] at hsafe
  obtain ⟨hups, hupr⟩ := versionOf_spelled hup fun n hn => hsafe n (List.mem_append_left _ hn)
  obtain ⟨hdowns, hdownr⟩ :=
    versionOf_spelled hdown fun n hn => hsafe n (List.mem_append_right _ hn)
  rw [hts, hrust]
  refine ⟨by simp [relabel, hnull, hupr, hdownr], ?_⟩
  intro x hx
  simp only [parts, List.mem_cons, List.not_mem_nil, or_false] at hx
  rcases hx with rfl | rfl
  · exact hups
  · exact hdowns

theorem faithful (v : SharedVersion) {versions : List Version}
    (h : ∀ x ∈ versions, x.Spelled (2 ^ 53)) : Faithful toRust (v.ts.parts ++ versions) := by
  have hall : ∀ x ∈ v.ts.parts ++ versions, x.Spelled (2 ^ 53) := by
    intro x hx
    rcases List.mem_append.mp hx with hx | hx
    · exact (v.spelled.2 x hx).mono (by norm_num)
    · exact h x hx
  exact toRust_faithful hall

end SharedVersion

/-- An anchor is built alike on both sides. -/
theorem ofAnchor_relabel (op : CmpOp) {w : ExtendedVersion}
    (hparts : ∀ x ∈ w.parts, x.Spelled 9007199254740991) :
    ofAnchor (w.relabel toRust) op =
        some ((VersionRange.ofAnchor op w).relabel toRust) ∧
      ∀ x ∈ (VersionRange.ofAnchor op w).versions, x.Spelled (2 ^ 53) := by
  have hspelled : ∀ x ∈ w.parts, x.Spelled (2 ^ 53) :=
    fun x hx => (hparts x hx).mono (by norm_num)
  have hup := hparts w.upstream (by simp [parts])
  -- The upper bound that a caret or tilde adds has zero as its downstream version.
  have hbound {u : ExtendedVersion} (hu : u.upstream.Spelled (2 ^ 53))
      (hzero : u.downstream = zero) : ∀ x ∈ w.parts ++ u.parts, x.Spelled (2 ^ 53) := by
    intro x hx
    rcases List.mem_append.mp hx with hx | hx
    · exact hspelled x hx
    · simp only [parts, List.mem_cons, List.not_mem_nil, or_false] at hx
      rcases hx with rfl | rfl
      · exact hu
      · exact hzero ▸ Version.zero_spelled
  cases op with
  | caret =>
    obtain ⟨hmax, hmajor⟩ := caretMax_relabel hup
    exact ⟨by rw [ofAnchor, Exver.VersionRange.caret, hmax]; rfl, hbound hmajor rfl⟩
  | tilde =>
    obtain ⟨hmax, hminor⟩ := tildeMax_relabel hup
    exact ⟨by rw [ofAnchor, Exver.VersionRange.tilde, hmax]; rfl, hbound hminor rfl⟩
  | eq | gt | lt | ge | le | ne => exact ⟨rfl, hspelled⟩

namespace RangeTree

/-- The range of the crate is the relabelled range of the TypeScript library. -/
theorem rust_spelled (tree : RangeTree) : tree.rust = some (tree.ts.relabel toRust) ∧
      ∀ x ∈ tree.ts.versions, x.Spelled (2 ^ 53) := by
  induction tree with
  | anchor op v =>
    have hanchor := ofAnchor_relabel op v.spelled.2
    rw [← v.spelled.1] at hanchor
    exact hanchor
  | and left right ihl ihr | or left right ihl ihr =>
    refine ⟨by simp [rust, ts, ihl.1, ihr.1, VersionRange.relabel], ?_⟩
    intro x hx
    exact (List.mem_append.mp hx).elim (ihl.2 x) (ihr.2 x)
  | not value ih => exact ⟨by simp [rust, ts, ih.1, VersionRange.relabel], ih.2⟩
  | any | none | flavor f _ => exact ⟨rfl, by simp [ts, VersionRange.versions]⟩

end RangeTree

/-- On texts that both accept, the crate and the TypeScript library order
versions alike, and for every range over such versions they agree on which
versions and which releases match and on whether any can. -/
theorem implementations_agree :
    (∀ v w : SharedVersion, v.rust.partialCmp w.rust = v.ts.compare w.ts) ∧
      ∀ tree : RangeTree, ∃ r, tree.rust = some r ∧
        (∀ v : SharedVersion, v.rust.satisfies r = v.ts.satisfies tree.ts) ∧
        (∀ vs : List SharedVersion, r.satisfiedByRelease (vs.map SharedVersion.rust) =
          tree.ts.satisfiedByRelease (vs.map SharedVersion.ts)) ∧
        r.satisfiable = tree.ts.satisfiable := by
  constructor
  · intro v w
    rw [v.spelled.1, w.spelled.1]
    apply ExtendedVersion.relabel_partialCmp
    exact v.faithful fun x hx => (w.spelled.2 x hx).mono (by norm_num)
  · intro tree
    obtain ⟨hrust, hspelled⟩ := tree.rust_spelled
    refine ⟨_, hrust, ?_, ?_, ?_⟩
    · intro v
      rw [v.spelled.1]
      exact VersionRange.relabel_satisfies v.ts tree.ts (v.faithful hspelled)
    · intro vs
      have hlabels : vs.map SharedVersion.rust =
          (vs.map SharedVersion.ts).map (relabel toRust) := by
        rw [List.map_map]
        exact List.map_congr_left fun v _ => v.spelled.1
      have hfaithful : ∀ v ∈ vs.map SharedVersion.ts,
          Faithful toRust (v.parts ++ tree.ts.versions) := by
        intro v hv
        obtain ⟨u, -, rfl⟩ := List.mem_map.mp hv
        exact u.faithful hspelled
      rw [hlabels, Exver.VersionRange.satisfiedByRelease, VersionRange.satisfiedByRelease,
        relabel_releaseMatches hfaithful]
    · obtain ⟨t, ht⟩ := VersionRange.exists_hasTables (toRust_faithful hspelled) _ fun v hv => hv
      rw [Exver.VersionRange.satisfiable, VersionRange.satisfiable, ht.tables, ht.relabel,
        Option.map_some, Option.map_some,
        VersionRangeTables.satisfiable_relabel ht.decides.wellFormed]

def sharedOne : SharedVersion where
  text := "1:0".toList
  rust := ⟨none, ⟨[1], []⟩, ⟨[0], []⟩⟩
  ts := ⟨none, Grammar.versionOf ⟨["1".toList], []⟩, Grammar.versionOf ⟨["0".toList], []⟩⟩
  fromStr := by decide
  parse := rfl
  safe := by decide
  flavor := by decide

theorem implementations_agree_caret : ∃ r, (RangeTree.anchor .caret sharedOne).rust = some r ∧
    sharedOne.rust.satisfies r = sharedOne.ts.satisfies (RangeTree.anchor .caret sharedOne).ts := by
  obtain ⟨r, hrust, hsatisfies, -⟩ := implementations_agree.2 (.anchor .caret sharedOne)
  exact ⟨r, hrust, hsatisfies sharedOne⟩

end StartTech.StartCore

import StartTech.StartCore.Rereading

/-!
# How ranges are built

Ranges come from texts and from versions that were parsed, and are put together
by the operations of the library. All of them compare with versions that can be
written down: the numbers are rounded natural numbers, also after incrementing,
and normal forms compare with the versions of the range and their flavors only.
-/

namespace StartTech.StartCore

open Foundation
open ExtendedVersion (incrementIdx)
open Exver (CmpOp RangeExpr SpecText VersionText)

/-- The ranges that parsing and the operations of the library give. -/
inductive VersionRange.Built : VersionRange → Prop
  | parse {s : Text} {r : VersionRange} (h : VersionRange.parse s = some r) : Built r
  | anchor (op : CmpOp) {s : Text} {v : ExtendedVersion} (h : ExtendedVersion.parse s = some v) :
      Built (VersionRange.ofAnchor op v)
  | flavor (f : Option Text) : Built (.flavor f)
  | and {left right : VersionRange} (hl : Built left) (hr : Built right) : Built (.and left right)
  | or {left right : VersionRange} (hl : Built left) (hr : Built right) : Built (.or left right)
  | not {value : VersionRange} (h : Built value) : Built (.not value)
  | andAll {xs : List VersionRange} (h : ∀ x ∈ xs, Built x) : Built (VersionRange.andAll xs)
  | orAll {xs : List VersionRange} (h : ∀ x ∈ xs, Built x) : Built (VersionRange.orAll xs)
  | normalize {r n : VersionRange} (h : Built r) (hn : r.normalize = some n) : Built n

section Versions

theorem round_ne_nan (q : ℚ) : JsNumber.round q ≠ .nan := by
  simp only [JsNumber.round]
  split <;> simp

/-- Counting up a rounded natural number gives one. -/
theorem addOne_round (n : Nat) : ∃ m : Nat, (JsNumber.round n).addOne = JsNumber.round m := by
  cases h : JsNumber.round n with
  | nan => exact absurd h (round_ne_nan _)
  | infinity negative => exact ⟨n, h.symm⟩
  | finite q =>
    obtain ⟨k, rfl, -⟩ := JsNumber.exists_nat_of_round h
    exact ⟨k + 1, by simp [JsNumber.addOne]⟩

theorem zero_eq_round : JsNumber.zero = JsNumber.round (0 : Nat) := by
  rw [JsNumber.round_natCast (Nat.zero_le _)]
  simp [JsNumber.zero]

theorem Version.zero_written : Version.zero.Written := by
  refine ⟨by simp [Version.zero], ?_, by simp [Version.zero]⟩
  intro x hx
  rw [List.mem_singleton.mp hx]
  exact ⟨0, zero_eq_round⟩

theorem versionOf_written {t : VersionText} (h : t.WellFormed) : (Grammar.versionOf t).Written := by
  refine ⟨by simpa [Grammar.versionOf] using h.nonempty, ?_, ?_⟩
  · intro x hx
    obtain ⟨d, -, rfl⟩ := List.mem_map.mp hx
    exact ⟨_, rfl⟩
  · intro i hi
    obtain ⟨s, hs, rfl⟩ := List.mem_map.mp hi
    exact ⟨s, h.segments s hs, rfl⟩

theorem orNull_written {f : Option Text} (h : ∀ g ∈ f, g.all Char.isLower = true) :
    ∀ g ∈ Grammar.orNull f, g ≠ [] ∧ g.all Char.isLower = true := by
  intro g hg
  obtain ⟨hmem, hne⟩ := Option.mem_filter_iff.mp hg
  exact ⟨by simpa using hne, h g hmem⟩

theorem specOf_written {t : SpecText} (h : t.WellFormed) : (Grammar.specOf t).Written := by
  refine ⟨orNull_written h.flavor, versionOf_written h.upstream, ?_⟩
  cases hd : t.downstream with
  | none =>
    simp only [Grammar.specOf, hd]
    exact Version.zero_written
  | some down =>
    simp only [Grammar.specOf, hd]
    exact versionOf_written (h.downstream down hd)

variable {v : ExtendedVersion}

theorem ExtendedVersion.parse_written {s : Text} (h : ExtendedVersion.parse s = some v) :
    v.Written := by
  obtain ⟨f, up, down, hf, hup, hdown, -, rfl⟩ := ExtendedVersion.parse_pieces h
  exact ⟨orNull_written hf, versionOf_written hup, versionOf_written hdown⟩

/-- The significant numbers, one of which is incremented. -/
theorem semanticNumber_written (h : v.upstream.Written) :
    v.semanticNumber ≠ [] ∧ ∀ x ∈ v.semanticNumber, ∃ n : Nat, x = JsNumber.round n := by
  obtain ⟨x, rest, hnum⟩ := List.exists_cons_of_ne_nil h.nonempty
  have hsem : v.semanticNumber = x :: rest.rdropWhile (· == JsNumber.zero) := by
    rw [ExtendedVersion.semanticNumber, hnum]
  rw [hsem]
  refine ⟨by simp, fun y hy => h.numbers y ?_⟩
  rw [hnum]
  rcases List.mem_cons.mp hy with rfl | hy
  · simp
  · exact List.mem_cons_of_mem _ ((List.rdropWhile_prefix _ _).mem hy)

theorem incrementIdx_lt {number : List JsNumber} (h : number ≠ []) :
    incrementIdx number < number.length := by
  rw [incrementIdx]
  cases hfind : number.findIdx? (· != JsNumber.zero) with
  | none =>
    have := List.length_pos_of_ne_nil h
    simp only [Option.getD_none]
    omega
  | some i => exact (List.findIdx?_eq_some_iff_findIdx_eq.mp hfind).1

/-- An upper bound: some significant numbers and an incremented one. -/
theorem bound_written (h : v.Written) (i : Nat) {x : JsNumber}
    (hx : ∃ n : Nat, x = JsNumber.round n) : ExtendedVersion.Written
      ⟨v.flavor, ⟨v.semanticNumber.take i ++ [x], v.upstream.prerelease⟩, Version.zero⟩ := by
  refine ⟨h.flavor, ⟨by simp, ?_, h.upstream.identifiers⟩, Version.zero_written⟩
  intro y hy
  rcases List.mem_append.mp hy with hy | hy
  · exact (semanticNumber_written h.upstream).2 y (List.mem_of_mem_take hy)
  · rw [List.mem_singleton.mp hy]
    exact hx

theorem ExtendedVersion.Written.incrementMajor (h : v.Written) : v.incrementMajor.Written := by
  obtain ⟨hne, hround⟩ := semanticNumber_written h.upstream
  have hlt := incrementIdx_lt hne
  simp only [ExtendedVersion.incrementMajor, List.getElem?_eq_getElem hlt]
  apply bound_written h
  obtain ⟨n, hn⟩ := hround _ (List.getElem_mem hlt)
  rw [hn]
  exact addOne_round n

theorem ExtendedVersion.Written.incrementMinor (h : v.Written) : v.incrementMinor.Written := by
  obtain ⟨hne, hround⟩ := semanticNumber_written h.upstream
  apply bound_written h
  have horZero (n : Nat) : (JsNumber.round n).orZero = JsNumber.round n := by
    cases hr : JsNumber.round n with
    | nan => exact absurd hr (round_ne_nan _)
    | _ => rfl
  cases hget : v.semanticNumber[incrementIdx v.semanticNumber + 1]? with
  | none =>
    rw [Option.getD_none, zero_eq_round, horZero]
    exact addOne_round 0
  | some x =>
    obtain ⟨n, rfl⟩ := hround x (List.mem_of_getElem? hget)
    rw [Option.getD_some, horZero]
    exact addOne_round n

end Versions

namespace VersionRange

variable {xs : List VersionRange} {v : ExtendedVersion}

theorem andAll_written (h : ∀ x ∈ xs, x.Written) : (andAll xs).Written :=
  andAll_induction trivial trivial h fun _ _ => And.intro

theorem orAll_written (h : ∀ x ∈ xs, x.Written) : (orAll xs).Written :=
  orAll_induction trivial trivial h fun _ _ => And.intro

theorem ofAnchor_written (op : CmpOp) (h : v.Written) : (ofAnchor op v).Written := by
  have hpair {w : ExtendedVersion} (hw : w.Written) :
      (andAll [.anchor .ge v, .anchor .lt w]).Written := by
    apply andAll_written
    simp [Written, h, hw]
  cases op with
  | caret => exact hpair h.incrementMajor
  | tilde => exact hpair h.incrementMinor
  | _ => exact ⟨by simp, by simp, h⟩

/-- The flavors that the range asks for are lowercase letters, or null. -/
def Lower : VersionRange → Prop
  | .and left right | .or left right => left.Lower ∧ right.Lower
  | .not value => value.Lower
  | .flavor f => ∀ g ∈ f, g.all Char.isLower = true
  | .any | .none | .anchor _ _ => True

theorem ofAnchor_lower (op : CmpOp) (v : ExtendedVersion) : (ofAnchor op v).Lower := by
  cases op <;> simp [ofAnchor, andAll, andLoop, andNext, Lower]

end VersionRange

namespace Grammar

/-- The versions and flavors of an expression are well formed. -/
def WellFormed : RangeExpr SpecText → Prop
  | .parens e | .not e => WellFormed e
  | .anchor _ t => t.WellFormed
  | .any | .none => True
  | .flavor f => f.all Char.isLower = true
  | .link l _ r => WellFormed l ∧ WellFormed r

theorem parseRange_written {e : RangeExpr SpecText} (h : WellFormed e) :
    (parseRange e).Written := by
  induction e with
  | parens e ih => exact ih h
  | anchor op t => exact VersionRange.ofAnchor_written _ (specOf_written h)
  | not e ih => exact ih h
  | any | none | flavor f => trivial
  | link l op r ihl ihr =>
    rcases op with _ | _ | _
    all_goals exact ⟨ihl h.1, ihr h.2⟩

theorem parseRange_lower {e : RangeExpr SpecText} (h : WellFormed e) : (parseRange e).Lower := by
  induction e with
  | parens e ih => exact ih h
  | anchor op t => exact VersionRange.ofAnchor_lower _ _
  | not e ih => exact ih h
  | any | none => trivial
  | flavor f =>
    rintro g hg
    cases hg
    exact h
  | link l op r ihl ihr =>
    rcases op with _ | _ | _
    all_goals exact ⟨ihl h.1, ihr h.2⟩

end Grammar

section Tables

/-- Where a table of the atom may be cut. The tables for all other flavors have
no cuts. -/
def FlavorAtom.Admits (p : VersionRangePoint) : FlavorAtom → Prop
  | .flavor f => ExtendedVersion.Written ⟨f, p.upstream, p.downstream⟩
  | .flavorNot _ => False

/-- An entry that can be turned into written ranges. -/
def EntryWritten (e : TableEntry) : Prop := ∀ p ∈ e.2.points, e.1.Admits p

def VersionRangeTables.Written (t : VersionRangeTables) : Prop := ∀ e ∈ t.entries, EntryWritten e

variable {a b c k : FlavorAtom} {p : VersionRangePoint} {m : List TableEntry}
  {t : VersionRangeTable}

/-- A cut of either side is a cut of the intersection. -/
theorem FlavorAtom.admits_flavorAnd (h : flavorAnd a b = some c) (hp : a.Admits p ∨ b.Admits p) :
    c.Admits p := by
  cases a with
  | flavor f =>
    cases b with
    | flavor g =>
      simp only [flavorAnd] at h
      split at h
      · rename_i heq
        cases h
        subst heq
        exact hp.elim id id
      · cases h
    | flavorNot gs =>
      simp only [flavorAnd] at h
      split at h
      · cases h
      · cases h
        exact hp.elim id False.elim
  | flavorNot fs =>
    cases b with
    | flavor g =>
      simp only [flavorAnd] at h
      split at h
      · cases h
      · cases h
        exact hp.elim False.elim id
    | flavorNot gs => exact hp.elim False.elim False.elim

theorem FlavorAtom.admits_of_deepEqual (h : a.deepEqual b = true) (hp : a.Admits p) :
    b.Admits p := by
  cases a with
  | flavor f =>
    cases b with
    | flavor g =>
      cases beq_iff_eq.mp h
      exact hp
    | flavorNot gs => cases h
  | flavorNot fs => exact False.elim hp

theorem DeepMap.mem_set {e : TableEntry} (h : e ∈ DeepMap.set m k t) : e ∈ m ∨ e = (k, t) := by
  rw [DeepMap.set] at h
  split at h
  · obtain ⟨d, hd, heq⟩ := List.mem_map.mp h
    split at heq
    · exact .inr heq.symm
    · exact .inl (heq ▸ hd)
  · simpa using h

theorem DeepMap.exists_of_get (h : DeepMap.get m k = some t) :
    ∃ e ∈ m, e.1.deepEqual k = true ∧ e.2 = t := by
  obtain ⟨e, he, rfl⟩ := Option.map_eq_some_iff.mp h
  exact ⟨e, List.mem_of_find?_eq_some he, by simpa using List.find?_some he, rfl⟩

namespace VersionRangeTables

variable {c t : VersionRangeTables} {p q : Option VersionRangePoint}

theorem Written.set (hc : c.Written) {k : FlavorAtom} {t : VersionRangeTable}
    (ht : EntryWritten (k, t)) : (VersionRangeTables.map (DeepMap.set c.entries k t)).Written := by
  intro e he
  rcases DeepMap.mem_set he with he | rfl
  · exact hc e he
  · exact ht

/-- One round of the double loop keeps the entries written. -/
theorem Written.andStep {c' : VersionRangeTables} (hc : c.Written) {pair : TableEntry × TableEntry}
    (hl : EntryWritten pair.1) (hr : EntryWritten pair.2) (h : andStep c pair = some c') :
    c'.Written := by
  simp only [VersionRangeTables.andStep] at h
  split at h
  · cases h
    exact hc
  · rename_i k hk
    obtain ⟨t, ht, h⟩ := Option.bind_eq_some_iff.mp h
    have hpoints : ∀ p ∈ t.points, k.Admits p := by
      intro p hp
      apply FlavorAtom.admits_flavorAnd hk
      exact (VersionRangeTable.zip_points ht p hp).imp (hl p) (hr p)
    split at h
    · cases h
      exact hc.set hpoints
    · rename_i prev hprev
      obtain ⟨merged, hmerged, h⟩ := Option.bind_eq_some_iff.mp h
      cases h
      obtain ⟨e, he, hequal, rfl⟩ := DeepMap.exists_of_get hprev
      refine hc.set fun p hp => ?_
      rcases VersionRangeTable.zip_points hmerged p hp with hp | hp
      · exact hpoints p hp
      · exact FlavorAtom.admits_of_deepEqual hequal (hc e he p hp)

theorem Written.and {a b : VersionRangeTables} (ha : a.Written) (hb : b.Written)
    (h : VersionRangeTables.and a b = some t) : t.Written := by
  unfold VersionRangeTables.and at h
  split at h
  · cases h
    exact hb
  · cases h
    exact ha
  · cases h
    simp [Written, entries]
  · cases h
    simp [Written, entries]
  · rename_i am bm
    have hpairs : ∀ pair ∈ am.product bm, EntryWritten pair.1 ∧ EntryWritten pair.2 := by
      intro pair hpair
      obtain ⟨hl, hr⟩ := List.mem_product.mp hpair
      exact ⟨ha _ hl, hb _ hr⟩
    have hloop (pairs : List (TableEntry × TableEntry)) (c : VersionRangeTables) (hc : c.Written)
        (hpairs : ∀ pair ∈ pairs, EntryWritten pair.1 ∧ EntryWritten pair.2)
        (h : pairs.foldlM VersionRangeTables.andStep c = some t) : t.Written := by
      induction pairs generalizing c with
      | nil =>
        cases h
        exact hc
      | cons pair pairs ih =>
        obtain ⟨d, hd, h⟩ := Option.bind_eq_some_iff.mp h
        obtain ⟨hl, hr⟩ := hpairs pair (by simp)
        exact ih d (hc.andStep hl hr hd) (fun q hq => hpairs q (List.mem_cons_of_mem _ hq)) h
    exact hloop _ .true (by simp [Written, entries]) hpairs h

theorem Written.not (h : t.Written) : t.not.Written := by
  cases t with
  | true | false => simp [Written, entries, VersionRangeTables.not]
  | map m =>
    intro e he
    obtain ⟨d, hd, rfl⟩ := List.mem_map.mp he
    exact h d hd

theorem cmp_written {v : ExtendedVersion} (h : v.Written) (side : Side) (left right : Bool) :
    (cmp v side left right).Written := by
  intro e he
  simp only [cmp, cmpPoint, entries, List.mem_cons, List.not_mem_nil, or_false] at he
  rcases he with rfl | rfl
  · intro p hp
    rw [List.mem_singleton.mp hp]
    exact h
  · intro p hp
    cases hp

theorem bounds_written {f : Option Text}
    (hp : ∀ x ∈ p, ExtendedVersion.Written ⟨f, x.upstream, x.downstream⟩)
    (hq : ∀ x ∈ q, ExtendedVersion.Written ⟨f, x.upstream, x.downstream⟩) :
    ∀ x ∈ bounds f p q, x.Written := by
  have hlower {x : VersionRangePoint} (hx : x ∈ p) : (bounds.lower f x).Written := by
    refine ⟨?_, ?_, hp x hx⟩ <;> split <;> simp
  have hupper {x : VersionRangePoint} (hx : x ∈ q) : (bounds.upper f x).Written := by
    refine ⟨?_, ?_, hq x hx⟩ <;> split <;> simp
  intro x hx
  cases p with
  | none =>
    cases q with
    | none => simp [bounds] at hx
    | some y =>
      rw [bounds, List.mem_singleton] at hx
      exact hx ▸ hupper rfl
  | some y =>
    cases q with
    | none =>
      rw [bounds, List.mem_singleton] at hx
      exact hx ▸ hlower rfl
    | some z =>
      simp only [bounds] at hx
      split at hx
      · rw [List.mem_singleton.mp hx]
        exact ⟨by simp, by simp, hp y rfl⟩
      · simp only [List.mem_cons, List.not_mem_nil, or_false] at hx
        rcases hx with rfl | rfl
        · exact hlower rfl
        · exact hupper rfl

/-- The conjunction for a segment of a table compares with the cuts only. -/
theorem minterm_written {atom : FlavorAtom} (hp : ∀ x ∈ p, atom.Admits x)
    (hq : ∀ x ∈ q, atom.Admits x) : (minterm atom p q).Written := by
  cases atom with
  | flavor f =>
    apply VersionRange.andAll_written
    simp only [List.nil_append]
    split
    · intro x hx
      rw [List.mem_singleton.mp hx]
      trivial
    · exact bounds_written hp hq
  | flavorNot fs =>
    have hpnone : p = none := Option.eq_none_iff_forall_not_mem.mpr hp
    have hqnone : q = none := Option.eq_none_iff_forall_not_mem.mpr hq
    subst hpnone hqnone
    apply VersionRange.andAll_written
    simp only [bounds, List.append_nil]
    split
    · intro x hx
      rw [List.mem_singleton.mp hx]
      simp [VersionRange.Written]
    · intro x hx
      obtain ⟨f, -, rfl⟩ := List.mem_map.mp hx
      trivial

theorem Written.minterms (h : t.Written) : (minterms t).Written := by
  unfold VersionRangeTables.minterms
  split
  · trivial
  · split
    · trivial
    · apply VersionRange.orAll_written
      intro x hx
      obtain ⟨e, he, hx⟩ := List.mem_flatMap.mp hx
      obtain ⟨i, -, rfl⟩ := mem_entryMinterms.mp hx
      apply minterm_written
      · intro p hp
        simp only [VersionRangeTable.pointBefore] at hp
        split at hp
        · cases hp
        · exact h e he p (List.mem_of_getElem? hp)
      · exact fun p hp => h e he p (List.mem_of_getElem? hp)

end VersionRangeTables

end Tables

namespace VersionRange

open VersionRangeTables hiding true

theorem Written.tables {r : VersionRange} (h : r.Written) {t : VersionRangeTables}
    (ht : r.tables = some t) : t.Written := by
  induction r generalizing t with
  | anchor op v =>
    obtain ⟨hcaret, htilde, hv⟩ := h
    have heq {u : VersionRangeTables} (hu : VersionRangeTables.and (cmp v .before false true)
        (cmp v .after true false) = some u) : u.Written :=
      (cmp_written hv _ _ _).and (cmp_written hv _ _ _) hu
    cases op with
    | caret => exact absurd rfl hcaret
    | tilde => exact absurd rfl htilde
    | eq => exact heq ht
    | ne =>
      obtain ⟨u, hu, rfl⟩ := Option.map_eq_some_iff.mp ht
      exact (heq hu).not
    | gt | lt | ge | le =>
      cases ht
      exact cmp_written hv _ _ _
  | and left right ihl ihr =>
    obtain ⟨s, hs, ht⟩ := Option.bind_eq_some_iff.mp ht
    obtain ⟨u, hu, ht⟩ := Option.bind_eq_some_iff.mp ht
    exact (ihl h.1 hs).and (ihr h.2 hu) ht
  | or left right ihl ihr =>
    obtain ⟨s, hs, ht⟩ := Option.bind_eq_some_iff.mp ht
    obtain ⟨u, hu, ht⟩ := Option.bind_eq_some_iff.mp ht
    rw [or_pair] at ht
    obtain ⟨w, hw, rfl⟩ := Option.map_eq_some_iff.mp ht
    exact ((ihl h.1 hs).not.and (ihr h.2 hu).not hw).not
  | not value ih =>
    obtain ⟨u, hu, rfl⟩ := Option.map_eq_some_iff.mp ht
    exact (ih h hu).not
  | any | none =>
    cases ht
    simp [VersionRangeTables.Written, entries]
  | flavor f =>
    cases ht
    intro e he
    simp only [eqFlavor, entries, List.mem_cons, List.not_mem_nil, or_false] at he
    rcases he with rfl | rfl
    all_goals
      intro p hp
      cases hp

theorem Written.normalize {r : VersionRange} (h : r.Written) {n : VersionRange}
    (hn : r.normalize = some n) : n.Written := by
  have hpos {r n : VersionRange} (h : r.Written)
      (hn : r.tables.map minterms = some n) : n.Written := by
    obtain ⟨t, ht, rfl⟩ := Option.map_eq_some_iff.mp hn
    exact (h.tables ht).minterms
  have hatom {r n : VersionRange} (h : r.Written)
      (hn : (if r.hasReleaseVeto then some r else r.tables.map minterms) = some n) : n.Written := by
    split at hn
    · cases hn
      exact h
    · exact hpos h hn
  induction r generalizing n with
  | and left right ihl ihr =>
    rw [VersionRange.normalize] at hn
    split at hn
    · obtain ⟨l, hl, hn⟩ := Option.bind_eq_some_iff.mp hn
      obtain ⟨q, hq, hn⟩ := Option.bind_eq_some_iff.mp hn
      cases hn
      apply andAll_written
      simpa using ⟨ihl h.1 hl, ihr h.2 hq⟩
    · exact hpos h hn
  | or left right ihl ihr =>
    rw [VersionRange.normalize] at hn
    split at hn
    · obtain ⟨l, hl, hn⟩ := Option.bind_eq_some_iff.mp hn
      obtain ⟨q, hq, hn⟩ := Option.bind_eq_some_iff.mp hn
      cases hn
      apply orAll_written
      simpa using ⟨ihl h.1 hl, ihr h.2 hq⟩
    · exact hpos h hn
  | anchor op v | not value | any | none | flavor f => exact hatom h hn

end VersionRange

end StartTech.StartCore

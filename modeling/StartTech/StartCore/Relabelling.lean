import StartTech.StartCore.Tables
import StartTech.Exver.Correctness

/-!
# The TypeScript tables are relabelled Rust tables

The tables only compare versions, so replacing the versions by others in the
same order changes the labels and nothing else. Labelled with versions of the
Rust crate, the tables of a range are the ones the crate computes, and what is
proved about those holds of these.
-/

namespace StartTech.StartCore

open Foundation
open Exver.Sat (Tables Table tablesOf TableMap Point Decides)
open Exver (CmpOp)

variable {label : Version → Exver.Version}

variable (label) in
/-- Labels that are ordered as the versions they stand for. -/
def Faithful (versions : List Version) : Prop :=
  ∀ a ∈ versions, ∀ b ∈ versions, (label a).cmp (label b) = a.compare b

theorem Faithful.mono {l m : List Version}
    (h : Faithful label m) (hsub : ∀ v ∈ l, v ∈ m) : Faithful label l :=
  fun a ha b hb => h a (hsub a ha) b (hsub b hb)

theorem Faithful.narrow {l m n : List Version}
    (h : Faithful label (l ++ m)) (hsub : ∀ v ∈ n, v ∈ m) : Faithful label (l ++ n) := by
  apply h.mono
  intro v hv
  rcases List.mem_append.mp hv with hv | hv
  · exact List.mem_append_left _ hv
  · exact List.mem_append_right _ (hsub v hv)

namespace ExtendedVersion

def parts (v : ExtendedVersion) : List Version := [v.upstream, v.downstream]

variable (label) in
def relabel (v : ExtendedVersion) : Exver.ExtendedVersion :=
  ⟨v.flavor, label v.upstream, label v.downstream⟩

variable {v : ExtendedVersion}

theorem relabel_partialCmp {w : ExtendedVersion} (h : Faithful label (v.parts ++ w.parts)) :
    (v.relabel label).partialCmp (w.relabel label) = v.compare w := by
  have hup := h v.upstream (by simp [parts]) w.upstream (by simp [parts])
  have hdown := h v.downstream (by simp [parts]) w.downstream (by simp [parts])
  simp only [Exver.ExtendedVersion.partialCmp, relabel, compare, hup, hdown]
  by_cases hf : v.flavor = w.flavor
  · cases v.upstream.compare w.upstream <;> simp [hf]
  · simp [hf]

end ExtendedVersion

open ExtendedVersion (parts satisfies greaterThanOrEqual lessThan)

namespace VersionRange

/-- The versions that deciding a range compares with. -/
def versions : VersionRange → List Version
  | .anchor .caret v => v.parts ++ v.incrementMajor.parts
  | .anchor .tilde v => v.parts ++ v.incrementMinor.parts
  | .anchor _ v => v.parts
  | .and left right | .or left right => left.versions ++ right.versions
  | .not value => value.versions
  | .any | .none | .flavor _ => []

variable (label) in
/-- The same range over the labels, with carets and tildes written out. -/
def relabel : VersionRange → Exver.VersionRange
  | .anchor .eq v => .anchor Exver.EQ (v.relabel label)
  | .anchor .gt v => .anchor Exver.GT (v.relabel label)
  | .anchor .lt v => .anchor Exver.LT (v.relabel label)
  | .anchor .ge v => .anchor Exver.GTE (v.relabel label)
  | .anchor .le v => .anchor Exver.LTE (v.relabel label)
  | .anchor .ne v => .anchor Exver.NEQ (v.relabel label)
  | .anchor .caret v =>
    .and (.anchor Exver.GTE (v.relabel label))
      (.anchor Exver.LT (v.incrementMajor.relabel label))
  | .anchor .tilde v =>
    .and (.anchor Exver.GTE (v.relabel label))
      (.anchor Exver.LT (v.incrementMinor.relabel label))
  | .and left right => .and left.relabel right.relabel
  | .or left right => .or left.relabel right.relabel
  | .not value => .not value.relabel
  | .any => .any
  | .none => .none
  | .flavor f => .flavor f

theorem relabel_satisfies_anchor (v : ExtendedVersion) (op : CmpOp) (w : ExtendedVersion)
    (h : Faithful label (v.parts ++ (anchor op w).versions)) :
    (v.relabel label).satisfies ((anchor op w).relabel label) = v.satisfies (.anchor op w) := by
  -- Comparing gives the same outcome on both sides, and then the operators agree.
  have hcmp (u : ExtendedVersion) (hu : ∀ x ∈ u.parts, x ∈ (anchor op w).versions) :
      (v.relabel label).partialCmp (u.relabel label) = v.compare u :=
    ExtendedVersion.relabel_partialCmp (h.narrow hu)
  cases op
  case caret | tilde =>
    have hlow := hcmp w fun x hx => List.mem_append_left _ hx
    have hhigh := hcmp _ fun x hx => List.mem_append_right _ hx
    simp only [relabel, Exver.ExtendedVersion.satisfies, satisfies,
      greaterThanOrEqual, lessThan, hlow, hhigh]
    congr 1
    · cases v.compare w with
      | none => rfl
      | some o => cases o <;> rfl
    · generalize ExtendedVersion.compare v _ = o
      cases o with
      | none => rfl
      | some o => cases o <;> rfl
  all_goals
    have hw := hcmp w fun x hx => hx
    simp only [relabel, Exver.ExtendedVersion.satisfies, satisfies, hw,
      ExtendedVersion.equals, ExtendedVersion.greaterThan, lessThan,
      greaterThanOrEqual, ExtendedVersion.lessThanOrEqual]
    cases v.compare w with
    | none => rfl
    | some o => cases o <;> rfl

/-- A version satisfies a range as its label satisfies the relabelled range. -/
theorem relabel_satisfies (v : ExtendedVersion)
    (r : VersionRange) (h : Faithful label (v.parts ++ r.versions)) :
    (v.relabel label).satisfies (r.relabel label) = v.satisfies r := by
  induction r with
  | anchor op w => exact relabel_satisfies_anchor v op w h
  | and left right ihl ihr | or left right ihl ihr =>
    have hl := ihl (h.narrow fun x hx => List.mem_append_left _ hx)
    have hr := ihr (h.narrow fun x hx => List.mem_append_right _ hx)
    simp only [relabel, Exver.ExtendedVersion.satisfies, satisfies, hl, hr]
  | not value ih =>
    simp only [relabel, Exver.ExtendedVersion.satisfies, satisfies, ih h]
  | any | none => rfl
  | flavor f => exact Bool.beq_comm

end VersionRange

variable {versions : List Version} {v : ExtendedVersion}

namespace FlavorAtom

def relabel : FlavorAtom → Exver.Sat.FlavorAtom
  | .flavor f => .flavor f
  | .flavorNot flavors => .flavorNot flavors.toFinset

theorem relabel_flavorAnd (a b : FlavorAtom) :
    (flavorAnd a b).map relabel = Exver.Sat.FlavorAtom.and a.relabel b.relabel := by
  cases a with
  | flavor f =>
    cases b with
    | flavor g => by_cases h : f = g <;> simp [flavorAnd, relabel, Exver.Sat.FlavorAtom.and]
    | flavorNot t => by_cases h : f ∈ t <;> simp [flavorAnd, relabel, Exver.Sat.FlavorAtom.and, h]
  | flavorNot s =>
    cases b with
    | flavor g => by_cases h : g ∈ s <;> simp [flavorAnd, relabel, Exver.Sat.FlavorAtom.and, h]
    | flavorNot t =>
      have hunion : (s ++ t.filter (· ∉ s)).toFinset = s.toFinset ∪ t.toFinset := by
        ext f
        by_cases hf : f ∈ s <;> simp [hf]
      simp only [flavorAnd, relabel, Exver.Sat.FlavorAtom.and, hunion, Option.map_some]

theorem deepEqual_iff (a b : FlavorAtom) : a.deepEqual b = true ↔ a.relabel = b.relabel := by
  cases a with
  | flavor f => cases b <;> simp [deepEqual, relabel]
  | flavorNot s =>
    cases b with
    | flavor g => simp [deepEqual, relabel]
    | flavorNot t =>
      simp only [deepEqual, relabel, Bool.and_eq_true, List.all_eq_true, decide_eq_true_eq,
        Exver.Sat.FlavorAtom.flavorNot.injEq, Finset.ext_iff, List.mem_toFinset]
      constructor
      · rintro ⟨hst, hts⟩ f
        exact ⟨hst f, hts f⟩
      · intro h
        exact ⟨fun f => (h f).mp, fun f => (h f).mpr⟩

end FlavorAtom

namespace VersionRangePoint

variable (label) in
def relabel (p : VersionRangePoint) : Point :=
  ⟨label p.upstream, label p.downstream, p.side.toInt⟩

/-- The point lies next to versions of the list. -/
def Within (versions : List Version) (p : VersionRangePoint) : Prop :=
  p.upstream ∈ versions ∧ p.downstream ∈ versions

theorem relabel_cmp (h : Faithful label versions) {p q : VersionRangePoint} (hp : p.Within versions)
    (hq : q.Within versions) :
    (p.relabel label).cmp (q.relabel label) = compareVersionRangePoints p q := by
  simp only [Point.cmp, relabel, compareVersionRangePoints,
    h p.upstream hp.1 q.upstream hq.1, h p.downstream hp.2 q.downstream hq.2]

end VersionRangePoint

namespace VersionRangeTable

variable (label) in
def relabel (t : VersionRangeTable) : Table :=
  ⟨t.points.map (VersionRangePoint.relabel label), t.values⟩

def Within (versions : List Version) (t : VersionRangeTable) : Prop :=
  ∀ p ∈ t.points, p.Within versions

variable {t r a b : VersionRangeTable} {i : Nat} {func : Bool → Bool → Bool}

theorem Within.point (h : t.Within versions) : ∀ p ∈ t.points[i]?, p.Within versions :=
  fun p hp => h p (List.mem_of_getElem? hp)

theorem Within.pointBefore (h : t.Within versions) : ∀ p ∈ t.pointBefore i, p.Within versions := by
  intro p hp
  rw [VersionRangeTable.pointBefore] at hp
  split at hp
  · cases hp
  · exact h.point p hp

theorem relabel_pushValue (c : VersionRangeTable) (next : Bool) :
    (c.pushValue next).relabel label = (c.relabel label).pushValue next := by
  simp only [pushValue, Table.pushValue, relabel]
  by_cases h : c.values.getLast? = some next <;> simp [h]

theorem relabel_pushPoint (c : VersionRangeTable) (p : VersionRangePoint) :
    (c.pushPoint p).relabel label = (c.relabel label).pushPoint (p.relabel label) := by
  simp [pushPoint, Table.pushPoint, relabel]

/-- The merge walk takes the same turns on the labels. -/
theorem relabel_zipLoop (h : Faithful label versions) (func : Bool → Bool → Bool) (fuel : Nat)
    (a b c : VersionRangeTable) (ha : a.Within versions) (hb : b.Within versions) :
    Table.zipLoop func fuel (a.relabel label) (b.relabel label) (c.relabel label) =
      (zipLoop func fuel a b c).map (relabel label) := by
  induction fuel generalizing a b c with
  | zero => rfl
  | succ fuel ih =>
    obtain ⟨ap, av⟩ := a
    obtain ⟨bp, bv⟩ := b
    have hround (a' b' : VersionRangeTable) (c' : VersionRangeTable) (next : Bool)
        (p : VersionRangePoint) (ha' : a'.points ⊆ ap) (hb' : b'.points ⊆ bp) :
        Table.zipLoop func fuel (a'.relabel label) (b'.relabel label)
            (((c'.relabel label).pushValue next).pushPoint (p.relabel label)) =
          (zipLoop func fuel a' b' ((c'.pushValue next).pushPoint p)).map (relabel label) := by
      rw [← relabel_pushValue, ← relabel_pushPoint]
      exact ih a' b' _ (fun q hq => ha q (ha' hq)) fun q hq => hb q (hb' hq)
    cases av with
    | nil => rfl
    | cons va avs =>
      cases bv with
      | nil => rfl
      | cons vb bvs =>
        cases ap with
        | nil =>
          cases bp with
          | nil => exact congrArg some (relabel_pushValue c (func va vb)).symm
          | cons q qs =>
            exact hround ⟨[], va :: avs⟩ ⟨qs, bvs⟩ c (func va vb) q (by simp) (by simp)
        | cons p ps =>
          cases bp with
          | nil =>
            exact hround ⟨ps, avs⟩ ⟨[], vb :: bvs⟩ c (func va vb) p (by simp) (by simp)
          | cons q qs =>
            have hcmp := VersionRangePoint.relabel_cmp h (ha p (by simp)) (hb q (by simp))
            simp only [Table.zipLoop, zipLoop, relabel, List.map_cons, hcmp]
            cases compareVersionRangePoints p q with
            | lt =>
              exact hround ⟨ps, avs⟩ ⟨q :: qs, vb :: bvs⟩ c (func va vb) p (by simp) (by simp)
            | eq =>
              exact hround ⟨ps, avs⟩ ⟨qs, bvs⟩ c (func va vb) p (by simp) (by simp)
            | gt =>
              exact hround ⟨p :: ps, va :: avs⟩ ⟨qs, bvs⟩ c (func va vb) q (by simp) (by simp)

/-- What every round of the walk keeps holds of its result. -/
theorem zipLoop_invariant (P : VersionRangeTable → Prop) (points : List VersionRangePoint)
    (left right : List Bool)
    (hval : ∀ c, ∀ va ∈ left, ∀ vb ∈ right, P c → P (c.pushValue (func va vb)))
    (hpoint : ∀ c, ∀ p ∈ points, P c → P (c.pushPoint p)) (fuel : Nat) (a b c : VersionRangeTable)
    (hap : a.points ⊆ points) (hav : a.values ⊆ left) (hbp : b.points ⊆ points)
    (hbv : b.values ⊆ right) (hc : P c) (h : zipLoop func fuel a b c = some r) : P r := by
  induction fuel generalizing a b c with
  | zero => simp [zipLoop] at h
  | succ fuel ih =>
    obtain ⟨ap, av⟩ := a
    obtain ⟨bp, bv⟩ := b
    cases av with
    | nil => simp [zipLoop] at h
    | cons va avs =>
      cases bv with
      | nil => simp [zipLoop] at h
      | cons vb bvs =>
        obtain ⟨hva, havs⟩ := List.cons_subset.mp hav
        obtain ⟨hvb, hbvs⟩ := List.cons_subset.mp hbv
        have hpush := hval c va hva vb hvb hc
        cases ap with
        | nil =>
          cases bp with
          | nil =>
            simp only [zipLoop, Option.some.injEq] at h
            exact h ▸ hpush
          | cons q qs =>
            obtain ⟨hq, hqs⟩ := List.cons_subset.mp hbp
            exact ih _ _ _ hap hav hqs hbvs (hpoint _ q hq hpush) h
        | cons p ps =>
          obtain ⟨hp, hps⟩ := List.cons_subset.mp hap
          cases bp with
          | nil => exact ih _ _ _ hps havs hbp hbv (hpoint _ p hp hpush) h
          | cons q qs =>
            obtain ⟨hq, hqs⟩ := List.cons_subset.mp hbp
            simp only [zipLoop] at h
            cases hcmp : compareVersionRangePoints p q with
            | lt =>
              rw [hcmp] at h
              exact ih _ _ _ hps havs hbp hbv (hpoint _ p hp hpush) h
            | eq =>
              rw [hcmp] at h
              exact ih _ _ _ hps havs hqs hbvs (hpoint _ p hp hpush) h
            | gt =>
              rw [hcmp] at h
              exact ih _ _ _ hap hav hqs hbvs (hpoint _ q hq hpush) h

/-- Every point of the result is a point of one side. -/
theorem zip_points (h : zip a b func = some r) : ∀ p ∈ r.points, p ∈ a.points ∨ p ∈ b.points := by
  refine zipLoop_invariant (fun c => ∀ p ∈ c.points, p ∈ a.points ∨ p ∈ b.points)
    (a.points ++ b.points) a.values b.values ?_ ?_ _ a b ⟨[], []⟩ (by simp) (by simp) (by simp)
    (by simp) ?_ h
  · intro c va _ vb _ hc p hp
    simp only [pushValue] at hp
    split at hp
    · exact hc p (List.dropLast_subset _ hp)
    · exact hc p hp
  · intro c p hp hc q hq
    rcases List.mem_append.mp hq with hq | hq
    · exact hc q hq
    · rw [List.mem_singleton.mp hq]
      exact List.mem_append.mp hp
  · simp

/-- Every value of the result combines a value of each side. -/
theorem zip_values (h : zip a b func = some r) :
    ∀ v ∈ r.values, ∃ va ∈ a.values, ∃ vb ∈ b.values, v = func va vb := by
  refine zipLoop_invariant
    (fun c => ∀ v ∈ c.values, ∃ va ∈ a.values, ∃ vb ∈ b.values, v = func va vb)
    (a.points ++ b.points) a.values b.values ?_ ?_ _ a b ⟨[], []⟩ (by simp) (by simp) (by simp)
    (by simp) ?_ h
  · intro c va hva vb hvb hc v hv
    simp only [pushValue] at hv
    split at hv
    · exact hc v hv
    · rcases List.mem_append.mp hv with hv | hv
      · exact hc v hv
      · exact ⟨va, hva, vb, hvb, List.mem_singleton.mp hv⟩
  · intro c p _ hc v hv
    exact hc v hv
  · simp

/-- Combining tables and relabelling them commute. -/
theorem relabel_zip (h : Faithful label versions) (func : Bool → Bool → Bool)
    (ha : a.Within versions) (hb : b.Within versions) :
    Table.zip (a.relabel label) (b.relabel label) func = (zip a b func).map (relabel label) := by
  rw [Table.zip, zip]
  simpa [relabel] using relabel_zipLoop h func (a.points.length + b.points.length + 1) a b
    ⟨[], []⟩ ha hb

end VersionRangeTable

variable (label) in
/-- An entry over the labels. -/
def relabelEntry (e : TableEntry) : Exver.Sat.Entry := (e.1.relabel, e.2.relabel label)

/-- An entry of the double loop's result and the pair it comes from. -/
def JoinedFrom (pair : TableEntry × TableEntry) (e : TableEntry) : Prop :=
  flavorAnd pair.1.1 pair.2.1 = some e.1 ∧
    VersionRangeTable.zip pair.1.2 pair.2.2 (· && ·) = some e.2

namespace DeepMap

/-- A key that is not there yet is found nowhere and goes to the end. -/
theorem get_set_new {m : List TableEntry} {k : FlavorAtom} (t : VersionRangeTable)
    (hnew : k.relabel ∉ (m.map (relabelEntry label)).map Prod.fst) :
    get m k = none ∧ set m k t = m ++ [(k, t)] := by
  have hne : ∀ e ∈ m, e.1.deepEqual k = false := by
    intro e he
    rw [Bool.eq_false_iff]
    intro heq
    rw [FlavorAtom.deepEqual_iff] at heq
    exact hnew (heq ▸ List.mem_map_of_mem (List.mem_map_of_mem he))
  have hfind : m.find? (fun e => e.1.deepEqual k) = none := by
    rw [List.find?_eq_none]
    intro e he
    simp [hne e he]
  have hany : (m.any fun e => e.1.deepEqual k) = false := by
    rw [List.any_eq_false]
    intro e he
    simp [hne e he]
  exact ⟨by simp [get, hfind], by simp [set, hany]⟩

end DeepMap

namespace VersionRangeTables

variable (label) in
def relabel : VersionRangeTables → Tables
  | .true => .true
  | .false => .false
  | .map m => .map (m.map (relabelEntry label))

def Within (versions : List Version) (t : VersionRangeTables) : Prop :=
  ∀ e ∈ t.entries, e.2.Within versions

theorem relabel_not (t : VersionRangeTables) : t.not.relabel label = (t.relabel label).not := by
  cases t with
  | true | false => rfl
  | map m =>
    simp [VersionRangeTables.not, relabel, Tables.not, relabelEntry, VersionRangeTable.relabel]

variable {t a b : VersionRangeTables} {pair : TableEntry × TableEntry}

theorem Within.not (h : t.Within versions) : t.not.Within versions := by
  cases t with
  | true | false => simp [Within, entries, VersionRangeTables.not]
  | map m =>
    intro e he
    obtain ⟨d, hd, rfl⟩ := List.mem_map.mp he
    exact h d hd

theorem andStep_join (h : Faithful label versions) (c : VersionRangeTables)
    (hleft : pair.1.2.Within versions) (hright : pair.2.2.Within versions) {d : Exver.Sat.Entry}
    (hj : TableMap.Joined (relabelEntry label pair.1, relabelEntry label pair.2) d)
    (hnew : d.1 ∉ (c.entries.map (relabelEntry label)).map Prod.fst) :
    ∃ e, andStep c pair = some (.map (c.entries ++ [e])) ∧ relabelEntry label e = d ∧
      JoinedFrom pair e := by
  have hatom : (flavorAnd pair.1.1 pair.2.1).map FlavorAtom.relabel = some d.1 :=
    (FlavorAtom.relabel_flavorAnd _ _).trans hj.atom
  have htable : (VersionRangeTable.zip pair.1.2 pair.2.2 (· && ·)).map
      (VersionRangeTable.relabel label) = some d.2 :=
    (VersionRangeTable.relabel_zip h (· && ·) hleft hright).symm.trans hj.table
  obtain ⟨atom, ha, hda⟩ := Option.map_eq_some_iff.mp hatom
  obtain ⟨table, ht, hdt⟩ := Option.map_eq_some_iff.mp htable
  rw [← hda] at hnew
  obtain ⟨hget, hset⟩ := DeepMap.get_set_new table hnew
  refine ⟨(atom, table), ?_, Prod.ext hda hdt, ha, ht⟩
  simp [andStep, ha, ht, hget, hset]

/-- The double loop appends one entry for every pair of atoms that meet. -/
theorem foldlM_andStep (h : Faithful label versions) (pairs : List (TableEntry × TableEntry))
    (hwithin : ∀ pair ∈ pairs, pair.1.2.Within versions ∧ pair.2.2.Within versions)
    (c : VersionRangeTables) {es : TableMap}
    (hes : TableMap.JoinedAll (pairs.map (Prod.map (relabelEntry label) (relabelEntry label))) es)
    (hnodup : ((c.entries.map (relabelEntry label) ++ es).map Prod.fst).Nodup) :
    ∃ new, pairs.foldlM andStep c = some (if new = [] then c else .map (c.entries ++ new)) ∧
      new.map (relabelEntry label) = es ∧ ∀ e ∈ new, ∃ pair ∈ pairs, JoinedFrom pair e := by
  induction pairs generalizing c es with
  | nil =>
    cases hes
    exact ⟨[], by simp, rfl, by simp⟩
  | cons pair pairs ih =>
    have htail : ∀ pair ∈ pairs, pair.1.2.Within versions ∧ pair.2.2.Within versions :=
      fun p hp => hwithin p (by simp [hp])
    cases hes with
    | skip hnone htails =>
      obtain ⟨new, hrun, hnew, hfrom⟩ := ih htail c htails hnodup
      refine ⟨new, ?_, hnew, ?_⟩
      · have hskip := (FlavorAtom.relabel_flavorAnd pair.1.1 pair.2.1).trans hnone
        simpa [andStep, Option.map_eq_none_iff.mp hskip] using hrun
      · intro e he
        obtain ⟨p, hp, hj⟩ := hfrom e he
        exact ⟨p, by simp [hp], hj⟩
    | @join _ _ d ds hj htails =>
      have hkey : d.1 ∉ (c.entries.map (relabelEntry label)).map Prod.fst := by
        rw [List.map_append, List.nodup_append] at hnodup
        intro hmem
        exact hnodup.2.2 _ hmem d.1 (by simp) rfl
      obtain ⟨hleft, hright⟩ := hwithin pair (by simp)
      obtain ⟨e, hstep, rfl, hje⟩ := andStep_join h c hleft hright hj hkey
      obtain ⟨new, hrun, hnew, hfrom⟩ := ih htail (.map (c.entries ++ [e])) htails
        (by simpa [entries] using hnodup)
      refine ⟨e :: new, ?_, by simp [hnew], ?_⟩
      · rw [List.foldlM_cons, hstep]
        refine hrun.trans ?_
        by_cases hnil : new = [] <;> simp [entries]
      · intro e' he'
        rcases List.mem_cons.mp he' with rfl | he'
        · exact ⟨pair, by simp, hje⟩
        · obtain ⟨p, hp, hjp⟩ := hfrom e' he'
          exact ⟨p, by simp [hp], hjp⟩

/-- Where the entries of a conjunction come from. -/
def Conjoined (a b t : VersionRangeTables) : Prop :=
  ∀ e ∈ t.entries, e ∈ a.entries ∨ e ∈ b.entries ∨
    ∃ pair ∈ a.entries.product b.entries, JoinedFrom pair e

/-- Conjunction and relabelling commute. -/
theorem relabel_and (h : Faithful label versions) (ha : a.Within versions) (hb : b.Within versions)
    (hwa : (a.relabel label).WellFormed) (hwb : (b.relabel label).WellFormed) :
    ∃ t, VersionRangeTables.and a b = some t ∧
      Tables.and (a.relabel label) (b.relabel label) = some (t.relabel label) ∧
      Conjoined a b t := by
  cases a with
  | true => exact ⟨b, rfl, by cases b <;> rfl, fun e he => .inr (.inl he)⟩
  | false =>
    cases b with
    | true => exact ⟨.false, rfl, rfl, by simp [Conjoined, entries]⟩
    | false => exact ⟨.false, rfl, rfl, by simp [Conjoined, entries]⟩
    | map bm => exact ⟨.false, rfl, rfl, by simp [Conjoined, entries]⟩
  | map am =>
    cases b with
    | true => exact ⟨.map am, rfl, rfl, fun e he => .inl he⟩
    | false => exact ⟨.false, rfl, rfl, by simp [Conjoined, entries]⟩
    | map bm =>
      obtain ⟨es, hes, hpart⟩ := Tables.exists_joinedAll hwa hwb
      have hpairs : ∀ pair ∈ am.product bm,
          pair.1.2.Within versions ∧ pair.2.2.Within versions := by
        intro pair hp
        have hmem := List.mem_product.mp hp
        exact ⟨ha _ hmem.1, hb _ hmem.2⟩
      obtain ⟨new, hrun, rfl, hfrom⟩ := foldlM_andStep h (am.product bm) hpairs .true
        (by simpa [List.product, List.map_flatMap, List.flatMap_map, Function.comp_def] using hes)
        (by simpa [entries] using hpart.keys_nodup)
      have hne : new ≠ [] := by
        rintro rfl
        obtain ⟨e, he⟩ := hpart none
        simp at he
      refine ⟨.map new, ?_, Tables.and_of_joinedAll hes hpart, ?_⟩
      · rw [VersionRangeTables.and, hrun, if_neg hne]
        rfl
      · intro e he
        exact .inr (.inr (hfrom e he))

/-- The tables of the flavors that no atom names have a single value. -/
def FlavorNotAll (b : Bool) (t : VersionRangeTables) : Prop :=
  ∀ e ∈ t.entries, ∀ flavors, e.1 = .flavorNot flavors → ∀ v ∈ e.2.values, v = b

theorem FlavorNotAll.not {b : Bool} (h : t.FlavorNotAll b) : t.not.FlavorNotAll (!b) := by
  cases t with
  | true | false => simp [FlavorNotAll, entries, VersionRangeTables.not]
  | map m =>
    intro e he flavors hatom v hv
    obtain ⟨d, hd, rfl⟩ := List.mem_map.mp he
    obtain ⟨w, hw, rfl⟩ := List.mem_map.mp hv
    rw [h d hd flavors hatom w hw]

theorem Conjoined.flavorNotAll {b : Bool} {s u : VersionRangeTables} (h : Conjoined s t u)
    (hs : s.FlavorNotAll b) (ht : t.FlavorNotAll b) : u.FlavorNotAll b := by
  intro e he flavors hatom v hv
  rcases h e he with hmem | hmem | ⟨pair, hpair, hand, hzip⟩
  · exact hs e hmem flavors hatom v hv
  · exact ht e hmem flavors hatom v hv
  · -- Only two complements meet in a complement.
    have hmem := List.mem_product.mp hpair
    obtain ⟨va, hva, vb, hvb, rfl⟩ := VersionRangeTable.zip_values hzip v hv
    obtain ⟨⟨fa, ta⟩, ⟨fb, tb⟩⟩ := pair
    rw [hatom] at hand
    cases fa with
    | flavor f =>
      cases fb with
      | flavor g => simp [flavorAnd] at hand
      | flavorNot g => simp [flavorAnd] at hand
    | flavorNot f =>
      cases fb with
      | flavor g => simp [flavorAnd] at hand
      | flavorNot g => rw [hs _ hmem.1 f rfl va hva, ht _ hmem.2 g rfl vb hvb, Bool.and_self]

theorem Conjoined.within (h : Conjoined a b t) (ha : a.Within versions)
    (hb : b.Within versions) : t.Within versions := by
  intro e he
  rcases h e he with hmem | hmem | ⟨pair, hpair, hj⟩
  · exact ha e hmem
  · exact hb e hmem
  · have hmem := List.mem_product.mp hpair
    exact fun p hp =>
      (VersionRangeTable.zip_points hj.2 p hp).elim (ha _ hmem.1 p) (hb _ hmem.2 p)

theorem or_pair (a b : VersionRangeTables) : VersionRangeTables.or [a, b] =
      (VersionRangeTables.and a.not b.not).map VersionRangeTables.not := by
  have htrue : VersionRangeTables.and .true a.not = some a.not := rfl
  simp [VersionRangeTables.or, htrue]

theorem relabel_cmp (v : ExtendedVersion) (side : Side) (left right : Bool) :
    (cmp v side left right).relabel label = Tables.cmp (v.relabel label) side.toInt left right := by
  simp [cmp, cmpPoint, relabel, relabelEntry, FlavorAtom.relabel, VersionRangeTable.relabel,
    VersionRangePoint.relabel, Tables.cmp, Table.fromSplit,
    Table.fromValue, ExtendedVersion.relabel]

theorem relabel_eqFlavor (f : Option Text) : (eqFlavor f).relabel label = Tables.eqFlavor f := by
  simp [eqFlavor, relabel, relabelEntry, FlavorAtom.relabel, VersionRangeTable.relabel,
    Tables.eqFlavor, Table.fromValue]

theorem cmp_within (h : ∀ x ∈ v.parts, x ∈ versions) (side : Side) (left right : Bool) :
    (cmp v side left right).Within versions := by
  have hup := h v.upstream (by simp [parts])
  have hdown := h v.downstream (by simp [parts])
  simp [Within, cmp, cmpPoint, entries, VersionRangeTable.Within, VersionRangePoint.Within, hup,
    hdown]

end VersionRangeTables

namespace VersionRange

open VersionRangeTables hiding false

variable (label) in
/-- The tables of a range, which relabelled are those of the relabelled range. -/
structure HasTables (versions : List Version) (r : VersionRange) (t : VersionRangeTables) :
    Prop where
  tables : r.tables = some t
  relabel : tablesOf (r.relabel label) = some (t.relabel label)
  within : t.Within versions
  flavorNot : r.hasReleaseVeto = false → t.FlavorNotAll false

variable {r : VersionRange} {t : VersionRangeTables}

theorem HasTables.decides (h : HasTables label versions r t) :
    Decides (r.relabel label) (t.relabel label) := by
  obtain ⟨u, hu, hd⟩ := Exver.Sat.tablesOf_decides (r.relabel label)
  rw [h.relabel, Option.some.injEq] at hu
  exact hu ▸ hd

variable (label) in
theorem hasTables_cmp (op : CmpOp)
    (hv : ∀ x ∈ v.parts, x ∈ versions) {side : Side} {left right : Bool}
    (htables : (anchor op v).tables = some (cmp v side left right))
    (hsat : tablesOf ((anchor op v).relabel label) =
      some (Tables.cmp (v.relabel label) side.toInt left right)) :
    HasTables label versions (.anchor op v) (cmp v side left right) where
  tables := htables
  relabel := by rw [hsat, relabel_cmp]
  within := cmp_within hv side left right
  flavorNot _ := by simp [FlavorNotAll, VersionRangeTables.cmp, cmpPoint, entries]

/-- A conjunction of two ranges, or of two cuts. -/
theorem hasTables_and (h : Faithful label versions) {a b : VersionRange} {s : VersionRangeTables}
    (ha : HasTables label versions a s) (hb : HasTables label versions b t)
    (htables : r.tables = VersionRangeTables.and s t)
    (hrelabel : tablesOf (r.relabel label) = Tables.and (s.relabel label) (t.relabel label))
    (hveto : r.hasReleaseVeto = false → a.hasReleaseVeto = false ∧ b.hasReleaseVeto = false) :
    ∃ u, HasTables label versions r u := by
  obtain ⟨u, hand, hsat, hjoin⟩ := relabel_and h ha.within hb.within ha.decides.wellFormed
    hb.decides.wellFormed
  refine ⟨u, htables.trans hand, hrelabel.trans hsat, hjoin.within ha.within hb.within, ?_⟩
  intro hno
  exact hjoin.flavorNotAll (ha.flavorNot (hveto hno).1) (hb.flavorNot (hveto hno).2)

theorem HasTables.not (h : HasTables label versions r t) :
    HasTables label versions (.not r) t.not where
  tables := by simp [VersionRange.tables, h.tables]
  relabel := by simp [VersionRange.relabel, tablesOf, h.relabel, relabel_not]
  within := h.within.not
  flavorNot hveto := by simp [hasReleaseVeto] at hveto

theorem hasTables_anchor (h : Faithful label versions) (op : CmpOp) (v : ExtendedVersion)
    (hv : ∀ x ∈ (anchor op v).versions, x ∈ versions) :
    ∃ t, HasTables label versions (.anchor op v) t := by
  have hparts : ∀ x ∈ v.parts, x ∈ versions := by
    intro x hx
    apply hv
    cases op <;> simp [VersionRange.versions, hx]
  have hge := hasTables_cmp label .ge hparts rfl rfl
  have hle := hasTables_cmp label .le hparts rfl rfl
  have heq : ∃ t, HasTables label versions (.anchor .eq v) t := by
    refine hasTables_and h hge hle rfl ?_ fun _ => ⟨rfl, rfl⟩
    rfl
  cases op with
  | eq => exact heq
  | ne =>
    obtain ⟨t, ht⟩ := heq
    refine ⟨t.not, congrArg (Option.map VersionRangeTables.not) ht.tables, ?_, ht.within.not, ?_⟩
    · rw [relabel_not]
      exact congrArg (Option.map Tables.not) ht.relabel
    · simp [hasReleaseVeto]
  | gt => exact ⟨_, hasTables_cmp label .gt hparts rfl rfl⟩
  | lt => exact ⟨_, hasTables_cmp label .lt hparts rfl rfl⟩
  | ge => exact ⟨_, hge⟩
  | le => exact ⟨_, hle⟩
  | caret | tilde =>
    have hlt := hasTables_cmp label .lt
      (fun x hx => hv x (List.mem_append_right v.parts hx)) rfl rfl
    refine hasTables_and h hge hlt rfl ?_ fun _ => ⟨rfl, rfl⟩
    rfl

/-- Every range has tables. -/
theorem exists_hasTables (h : Faithful label versions) (r : VersionRange)
    (hr : ∀ v ∈ r.versions, v ∈ versions) : ∃ t, HasTables label versions r t := by
  induction r with
  | anchor op v => exact hasTables_anchor h op v hr
  | and left right ihl ihr =>
    obtain ⟨s, hs⟩ := ihl fun x hx => hr x (List.mem_append_left _ hx)
    obtain ⟨t, ht⟩ := ihr fun x hx => hr x (List.mem_append_right _ hx)
    apply hasTables_and h hs ht
    · simp [tables, hs.tables, ht.tables]
    · simp [relabel, tablesOf, hs.relabel, ht.relabel]
    · simp [hasReleaseVeto]
  | or left right ihl ihr =>
    obtain ⟨s, hs⟩ := ihl fun x hx => hr x (List.mem_append_left _ hx)
    obtain ⟨t, ht⟩ := ihr fun x hx => hr x (List.mem_append_right _ hx)
    obtain ⟨u, hand, hsat, hjoin⟩ := relabel_and h hs.not.within ht.not.within
      hs.not.decides.wellFormed ht.not.decides.wellFormed
    rw [relabel_not, relabel_not] at hsat
    refine ⟨u.not, ?_, ?_, (hjoin.within hs.not.within ht.not.within).not, ?_⟩
    · simp [tables, hs.tables, ht.tables, or_pair, hand]
    · simp [relabel, tablesOf, hs.relabel, ht.relabel, Tables.or, hsat, relabel_not]
    · intro hveto
      simp only [hasReleaseVeto, Bool.or_eq_false_iff] at hveto
      exact (hjoin.flavorNotAll (hs.flavorNot hveto.1).not (ht.flavorNot hveto.2).not).not
  | not value ih =>
    obtain ⟨t, ht⟩ := ih hr
    exact ⟨t.not, ht.not⟩
  | any => exact ⟨.true, rfl, rfl, by simp [Within, entries], by simp [FlavorNotAll, entries]⟩
  | none => exact ⟨.false, rfl, rfl, by simp [Within, entries], by simp [FlavorNotAll, entries]⟩
  | flavor f =>
    refine ⟨eqFlavor f, rfl, congrArg some (relabel_eqFlavor f).symm, ?_, ?_⟩
    · simp [Within, entries, eqFlavor, VersionRangeTable.Within]
    · simp [FlavorNotAll, entries, eqFlavor]

end VersionRange

end StartTech.StartCore

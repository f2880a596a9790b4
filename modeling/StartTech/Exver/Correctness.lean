import StartTech.Exver.TableMaps

/-!
# The tables of a range decide it

The table of a range gives every version the truth value the range has on it.
Each point of the table lies just below or just above a version the range
compares with.
-/

namespace StartTech.Exver

open Foundation Foundation.Comparator Std
open ExtendedVersion (satisfies partialCmp)

namespace Sat

/-- Where a version lies on the line of versions. -/
def Position.ofVersion (v : ExtendedVersion) : Position := Cut.at (Point.ofVersion v)

/-- The point lies next to one of the versions. -/
def Point.Beside (versions : List ExtendedVersion) (p : Point) : Prop :=
  (p.side = -1 ∨ p.side = 1) ∧
    ∃ v ∈ versions, p.upstream = v.upstream ∧ p.downstream = v.downstream

theorem Point.Beside.mono {l m : List ExtendedVersion} (h : ∀ v ∈ l, v ∈ m) {p : Point}
    (hp : p.Beside l) : p.Beside m := by
  obtain ⟨hside, v, hv, heq⟩ := hp
  exact ⟨hside, v, h v hv, heq⟩

/-- The order of two versions of one flavor. -/
def cmpLine (v w : ExtendedVersion) : Ordering :=
  (v.upstream.cmp w.upstream).then (v.downstream.cmp w.downstream)

theorem cmpLine_swap (v w : ExtendedVersion) : cmpLine w v = (cmpLine v w).swap := by
  rw [cmpLine, cmpLine, Ordering.swap_then, (OrientedCmp.eq_swap : w.upstream.cmp v.upstream = _),
    (OrientedCmp.eq_swap : w.downstream.cmp v.downstream = _)]

/-- A point next to `w` lies below `v` when `w` does, or when they are equal and
the point is the lower one. -/
theorem Position.ofVersion_below (v w : ExtendedVersion) (side : Int) :
    (Position.ofVersion v).below ⟨w.upstream, w.downstream, side⟩ =
      ((cmpLine v w).swap.then (compare side 0) == .lt) := by
  rw [← cmpLine_swap]
  simp [Position.ofVersion, Cut.at, Point.ofVersion, Point.cmp, cmpLine, Ordering.then_assoc]

/-- What the tables of a range owe it. -/
structure Decides (r : VersionRange) (t : Tables) : Prop where
  wellFormed : t.WellFormed
  points : ∀ p ∈ t.points, p.Beside r.anchors
  valueAt : ∀ v, t.valueAt v.flavor (Position.ofVersion v) = some (v.satisfies r)

/-- A single cut decides an anchor whose operator agrees with it on each outcome. -/
theorem decides_cmp {op : Operator} (hop : op ≠ NEQ) (w : ExtendedVersion) {side : Int}
    (hside : side = -1 ∨ side = 1) {left right : Bool}
    (h : ∀ o : Ordering, Operator.accepts op o =
      if o.swap.then (compare side 0) == .lt then right else left) :
    Decides (.anchor op w) (Tables.cmp w side left right) := by
  obtain ⟨hwf, hpts, hval⟩ := Tables.cmp_spec w side left right
  refine ⟨hwf, ?_, ?_⟩
  · intro p hp
    rw [hpts, List.mem_singleton] at hp
    exact hp ▸ ⟨hside, w, by simp [VersionRange.anchors], rfl, rfl⟩
  · intro v
    rw [hval, Position.ofVersion_below]
    by_cases hf : v.flavor = w.flavor
    · simp [satisfies, partialCmp, hf, h, cmpLine]
    · have hop' : (op == NEQ) = false := beq_eq_false_iff_ne.mpr hop
      have hf' : (v.flavor == w.flavor) = false := beq_eq_false_iff_ne.mpr hf
      simp [satisfies, partialCmp, if_neg hf, hf', hop']

theorem tablesEq_decides (w : ExtendedVersion) :
    ∃ t, tablesEq w = some t ∧ Decides (.anchor EQ w) t := by
  have hge : Decides (.anchor GTE w) (.cmp w (-1) false true) :=
    decides_cmp (by decide) w (.inl rfl) (by intro o; cases o <;> rfl)
  have hle : Decides (.anchor LTE w) (Tables.cmp w 1 true false) :=
    decides_cmp (by decide) w (.inr rfl) (by intro o; cases o <;> rfl)
  obtain ⟨t, hand, ht⟩ := Tables.and_spec hge.wellFormed hle.wellFormed
  refine ⟨t, hand, ht.wellFormed, ?_, ?_⟩
  · intro p hp
    exact (ht.points p hp).elim (hge.points p) (hle.points p)
  · intro v
    rw [ht.valueAt, hge.valueAt, hle.valueAt]
    simp only [satisfies]
    cases v.partialCmp w with
    | none => rfl
    | some o => cases o <;> rfl

theorem Decides.not {r : VersionRange} {t : Tables} (h : Decides r t) : Decides (.not r) t.not := by
  obtain ⟨hwf, hpts, hval⟩ := Tables.not_spec h.wellFormed
  refine ⟨hwf, ?_, ?_⟩
  · intro p hp
    exact h.points p (hpts ▸ hp)
  · intro v
    rw [hval, h.valueAt]
    rfl

theorem Decides.combined {op : Bool → Bool → Bool} {a b r : VersionRange} {ta tb t : Tables}
    (ha : Decides a ta) (hb : Decides b tb) (ht : Tables.Combined op ta tb t)
    (hanchors : r.anchors = a.anchors ++ b.anchors)
    (hsat : ∀ v : ExtendedVersion, v.satisfies r = op (v.satisfies a) (v.satisfies b)) :
    Decides r t := by
  refine ⟨ht.wellFormed, ?_, ?_⟩
  · intro p hp
    rw [hanchors]
    rcases ht.points p hp with hp | hp
    · exact (ha.points p hp).mono fun v hv => List.mem_append_left _ hv
    · exact (hb.points p hp).mono fun v hv => List.mem_append_right _ hv
  · intro v
    rw [ht.valueAt, ha.valueAt, hb.valueAt, hsat]
    rfl

/-- Every operator is one of the six named ones. -/
theorem Operator.cases (op : Operator) :
    op = EQ ∨ op = NEQ ∨ op = LT ∨ op = LTE ∨ op = GT ∨ op = GTE := by
  cases op with
  | ok c | err c => cases c <;> decide

theorem tablesOf_anchor_decides (op : Operator) (w : ExtendedVersion) :
    ∃ t, tablesOf (.anchor op w) = some t ∧ Decides (.anchor op w) t := by
  obtain ⟨te, heq, hte⟩ := tablesEq_decides w
  rcases Operator.cases op with rfl | rfl | rfl | rfl | rfl | rfl
  · exact ⟨te, heq, hte⟩
  · refine ⟨te.not, ?_, hte.not.wellFormed, hte.not.points, ?_⟩
    · simp [tablesOf, NEQ, EQ, heq]
    · intro v
      rw [hte.not.valueAt]
      simp only [satisfies]
      cases v.partialCmp w with
      | none => rfl
      | some o => cases o <;> rfl
  · exact ⟨_, rfl, decides_cmp (by decide) w (.inl rfl) (by intro o; cases o <;> rfl)⟩
  · exact ⟨_, rfl, decides_cmp (by decide) w (.inr rfl) (by intro o; cases o <;> rfl)⟩
  · exact ⟨_, rfl, decides_cmp (by decide) w (.inr rfl) (by intro o; cases o <;> rfl)⟩
  · exact ⟨_, rfl, decides_cmp (by decide) w (.inl rfl) (by intro o; cases o <;> rfl)⟩

/-- The tables of every range exist and decide it. -/
theorem tablesOf_decides (r : VersionRange) : ∃ t, tablesOf r = some t ∧ Decides r t := by
  induction r with
  | anchor op w => exact tablesOf_anchor_decides op w
  | and a b iha ihb =>
    obtain ⟨ta, ha, hda⟩ := iha
    obtain ⟨tb, hb, hdb⟩ := ihb
    obtain ⟨t, hand, ht⟩ := Tables.and_spec hda.wellFormed hdb.wellFormed
    exact ⟨t, by simp [tablesOf, ha, hb, hand], hda.combined hdb ht rfl fun _ => rfl⟩
  | or a b iha ihb =>
    obtain ⟨ta, ha, hda⟩ := iha
    obtain ⟨tb, hb, hdb⟩ := ihb
    obtain ⟨t, hor, ht⟩ := Tables.or_spec hda.wellFormed hdb.wellFormed
    exact ⟨t, by simp [tablesOf, ha, hb, hor], hda.combined hdb ht rfl fun _ => rfl⟩
  | not a ih =>
    obtain ⟨ta, ha, hda⟩ := ih
    exact ⟨ta.not, by simp [tablesOf, ha], hda.not⟩
  | any => exact ⟨.true, rfl, trivial, by simp [Tables.points], fun _ => rfl⟩
  | none => exact ⟨.false, rfl, trivial, by simp [Tables.points], fun _ => rfl⟩
  | flavor f =>
    obtain ⟨hwf, hpts, hval⟩ := Tables.eqFlavor_spec f
    exact ⟨_, rfl, hwf, by simp [hpts], fun v => hval v.flavor _⟩

/-- A true value anywhere makes the tables satisfiable. -/
theorem Tables.satisfiable_of_valueAt {t : Tables} {f : Option Text} {x : Position}
    (h : t.valueAt f x = some Bool.true) : t.satisfiable = Bool.true := by
  cases t with
  | true => rfl
  | false => simp [valueAt] at h
  | map m =>
    obtain ⟨e, hfind, hval⟩ := Option.bind_eq_some_iff.mp h
    simp only [satisfiable, List.any_eq_true]
    exact ⟨e, List.mem_of_find?_eq_some hfind, Bool.true, List.mem_of_getElem? hval, rfl⟩

/-- Satisfiable tables have a true segment in the table of a flavor. -/
theorem Tables.WellFormed.exists_cell {m : TableMap} (h : (Tables.map m).WellFormed)
    (hs : (Tables.map m).satisfiable = Bool.true) :
    ∃ e ∈ m, ∃ f i, i ≤ e.2.points.length ∧ e.2.values[i]? = some Bool.true ∧
      ∀ x, (Tables.map m).valueAt f x = e.2.valueAt x := by
  simp only [satisfiable, List.any_eq_true] at hs
  obtain ⟨e, he, b, hb, rfl⟩ := hs
  obtain ⟨i, hi, hget⟩ := List.getElem_of_mem hb
  obtain ⟨f, hf⟩ := e.1.exists_contains
  obtain ⟨e', he'⟩ := h.1 f
  have hmem : e ∈ m.filter fun e => e.1.contains f := List.mem_filter.mpr ⟨he, hf⟩
  obtain rfl : e = e' := by simpa [he'] using hmem
  have hlen := (h.2 e he).length_eq
  exact ⟨e, he, f, i, by omega, hget ▸ List.getElem?_eq_getElem hi, valueAt_map he'⟩

end Sat

/-- Whether two ranges intersect is whether their conjunction is satisfiable. -/
theorem VersionRange.intersects_eq (a b : VersionRange) :
    a.intersects b = (VersionRange.and a b).satisfiable := by
  obtain ⟨ta, ha, hda⟩ := Sat.tablesOf_decides a
  obtain ⟨tb, hb, hdb⟩ := Sat.tablesOf_decides b
  obtain ⟨t, hand, -⟩ := Sat.Tables.and_spec hda.wellFormed hdb.wellFormed
  simp [VersionRange.intersects, VersionRange.satisfiable, Sat.tablesOf, ha, hb, hand]

theorem VersionRange.satisfiable_of_satisfies {r : VersionRange} {v : ExtendedVersion}
    (h : v.satisfies r = true) : r.satisfiable = some true := by
  obtain ⟨t, ht, hd⟩ := Sat.tablesOf_decides r
  have hval := hd.valueAt v
  rw [h] at hval
  simp [VersionRange.satisfiable, ht, Sat.Tables.satisfiable_of_valueAt hval]

/-- The tables of a range are well formed and give each version the truth value
that the range has on it, so no satisfied range is reported empty and no two
ranges with a common version are reported disjoint. -/
theorem tablesOf_correct : (∀ r : VersionRange, ∃ t, Sat.tablesOf r = some t ∧ t.WellFormed ∧
      ∀ v : ExtendedVersion, t.valueAt v.flavor (Sat.Position.ofVersion v) = some (v.satisfies r)) ∧
      (∀ (r : VersionRange) (v : ExtendedVersion), v.satisfies r = true →
        r.satisfiable = some true) ∧
      ∀ (a b : VersionRange) (v : ExtendedVersion), v.satisfies a = true →
        v.satisfies b = true → a.intersects b = some true := by
  refine ⟨?_, ?_, ?_⟩
  · intro r
    obtain ⟨t, ht, hd⟩ := Sat.tablesOf_decides r
    exact ⟨t, ht, hd.wellFormed, hd.valueAt⟩
  · intro r v h
    exact VersionRange.satisfiable_of_satisfies h
  · intro a b v ha hb
    rw [VersionRange.intersects_eq]
    have hand : v.satisfies (.and a b) = true := by simp [satisfies, ha, hb]
    exact VersionRange.satisfiable_of_satisfies hand

/-- `2:0` lies in `>=1:0` and in `!=1:0`, so both are satisfiable and they intersect. -/
theorem tablesOf_correct_at_two :
    (VersionRange.anchor GTE ⟨none, ⟨[1], []⟩, ⟨[0], []⟩⟩).satisfiable = some true ∧
      (VersionRange.anchor GTE ⟨none, ⟨[1], []⟩, ⟨[0], []⟩⟩).intersects
        (.anchor NEQ ⟨none, ⟨[1], []⟩, ⟨[0], []⟩⟩) = some true :=
  ⟨tablesOf_correct.2.1 _ ⟨none, ⟨[2], []⟩, ⟨[0], []⟩⟩ (by decide),
    tablesOf_correct.2.2 _ _ ⟨none, ⟨[2], []⟩, ⟨[0], []⟩⟩ (by decide) (by decide)⟩

end StartTech.Exver

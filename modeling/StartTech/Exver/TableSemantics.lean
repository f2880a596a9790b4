import StartTech.Exver.Tables

/-!
# What the truth tables mean

A table gives every position on the line of versions one truth value. The
merge walk combines these values pointwise; the double loop over flavor atoms
does so atom by atom and keeps the atoms a partition.
-/

namespace StartTech.Exver.Sat

open Foundation.Comparator Std

/-- A position on the line of versions. -/
abbrev Position := Cut Point.cmp

namespace Table

/-- Points increase strictly and every segment between them has a value. -/
structure WellFormed (t : Table) : Prop where
  increasing : Increasing Point.cmp t.points
  length_eq : t.values.length = t.points.length + 1

/-- The value of the segment in which a position lies. -/
def valueAt (t : Table) (x : Position) : Option Bool := t.values[x.rank t.points]?

/-- The value of a table under construction, whose last segment is still open
and gets its value from `rest`. -/
def openValueAt (c : Table) (x : Position) (rest : Option Bool) : Option Bool :=
  if x.rank c.points < c.points.length then c.values[x.rank c.points]? else rest

variable {p : Point} {ps : List Point} {v va vb : Bool} {vs : List Bool} {x : Position}
  {c a b a' b' : Table} {f : Bool → Bool → Bool}

theorem valueAt_cons_not_below (h : x.below p = false) :
    (Table.mk (p :: ps) (v :: vs)).valueAt x = some v := by
  simp [valueAt, x.rank_cons_not_below h]

theorem valueAt_nil : (Table.mk [] (v :: vs)).valueAt x = some v := by
  simp [valueAt]

theorem WellFormed.tail (h : (Table.mk (p :: ps) (v :: vs)).WellFormed) :
    (Table.mk ps vs).WellFormed where
  increasing := (List.pairwise_cons.mp h.increasing).2
  length_eq := by simpa using h.length_eq

theorem WellFormed.values_cons {t : Table} (h : t.WellFormed) : ∃ v vs, t.values = v :: vs := by
  cases hv : t.values with
  | nil => simpa [hv] using h.length_eq
  | cons v vs => exact ⟨v, vs, rfl⟩

/-- Closing the open segment gives it the pushed value. -/
theorem pushValue_spec (hlen : c.points.length = c.values.length) (next : Bool) :
    (c.pushValue next).values.length = (c.pushValue next).points.length + 1 ∧
      (c.pushValue next).points.Sublist c.points ∧
      ∀ x, (c.pushValue next).valueAt x = c.openValueAt x (some next) := by
  by_cases hlast : c.values.getLast? = some next
  · obtain ⟨points, values⟩ := c
    obtain ⟨vs, rfl⟩ := List.getLast?_eq_some_iff.mp hlast
    rcases List.eq_nil_or_concat' points with rfl | ⟨ps, p, rfl⟩
    · simp at hlen
    -- The value repeats, so that the last point goes.
    have hpush : pushValue ⟨ps ++ [p], vs ++ [next]⟩ next = ⟨ps, vs ++ [next]⟩ := by
      simp [pushValue]
    have hl : ps.length = vs.length := by simpa using hlen
    rw [hpush]
    refine ⟨by simp [hl], List.sublist_append_left ps [p], fun x => ?_⟩
    have hle := x.rank_le ps
    have hone := x.rank_le [p]
    simp only [valueAt, openValueAt, x.rank_append, List.length_append, List.length_singleton]
    by_cases hfull : x.rank ps = ps.length
    · -- Both the old segment and the reopened one carry the repeated value.
      have hval : (vs ++ [next])[ps.length]? = some next := by simp [hl]
      rw [if_pos hfull, hfull, hval]
      rcases Nat.lt_or_ge (x.rank [p]) 1 with h | h
      · have h0 : x.rank [p] = 0 := by omega
        simp [h0, hval]
      · rw [if_neg (by omega)]
    · rw [if_neg hfull, if_pos (by omega)]
  · have hpush : c.pushValue next = ⟨c.points, c.values ++ [next]⟩ := by simp [pushValue, hlast]
    rw [hpush]
    refine ⟨by simp [hlen], .refl _, fun x => ?_⟩
    have hle := x.rank_le c.points
    simp only [valueAt, openValueAt]
    split
    · rw [List.getElem?_append_left (by omega)]
    · have heq : x.rank c.points = c.values.length := by omega
      simp [heq]

/-- Opening a new segment at a point above all others: positions below the
point keep their value, the others are left to what comes next. -/
theorem pushPoint_openValueAt (hp : ∀ q ∈ c.points, q.cmp p = .lt) (x : Position)
    (rest : Option Bool) :
    (c.pushPoint p).openValueAt x rest = if x.below p then rest else c.valueAt x := by
  have hle := x.rank_le c.points
  simp only [pushPoint, openValueAt, valueAt, x.rank_append, List.length_append,
    List.length_singleton]
  cases hb : x.below p with
  | true =>
    have hfull := x.rank_eq_length fun q hq => x.lower (hp q hq) hb
    rw [if_pos hfull, x.rank_cons_below hb]
    simp
  | false =>
    rw [x.rank_cons_not_below hb]
    split <;> rename_i hfull
    · simp [hfull]
    · rw [if_pos (by omega)]
      simp

/-- What the merge walk owes its caller: both sides are combined pointwise above
the open table `c`, and no point is made up. -/
structure ZipResult (f : Bool → Bool → Bool) (a b c r : Table) : Prop where
  wellFormed : r.WellFormed
  points : ∀ p ∈ r.points, p ∈ c.points ∨ p ∈ a.points ∨ p ∈ b.points
  valueAt : ∀ x, r.valueAt x = c.openValueAt x (Option.map₂ f (a.valueAt x) (b.valueAt x))

/-- The state of the walk at the start of a round. -/
structure ZipState (a b c : Table) : Prop where
  left : a.WellFormed
  right : b.WellFormed
  increasing : Increasing Point.cmp c.points
  length_eq : c.points.length = c.values.length
  before : ∀ p ∈ c.points, ∀ q, q ∈ a.points ∨ q ∈ b.points → p.cmp q = .lt

/-- What passing the point `p` does to a table whose first value is `v`: the
points that remain lie above it, and so do the segments that keep their values. -/
structure Passes (p : Point) (v : Bool) (a a' : Table) : Prop where
  wellFormed : a'.WellFormed
  points : ∀ q ∈ a'.points, q ∈ a.points ∧ p.cmp q = .lt
  above : ∀ x : Position, x.below p = true → a.valueAt x = a'.valueAt x
  below : ∀ x : Position, x.below p = false → a.valueAt x = some v

theorem Passes.step {q : Point} (h : (Table.mk (q :: ps) (v :: vs)).WellFormed)
    (heq : p.cmp q = .eq) : Passes p v ⟨q :: ps, v :: vs⟩ ⟨ps, vs⟩ where
  wellFormed := h.tail
  points s hs := ⟨List.mem_cons_of_mem q hs,
    TransCmp.lt_of_eq_of_lt heq ((List.pairwise_cons.mp h.increasing).1 s hs)⟩
  above x hx := by simp [valueAt, x.rank_cons_below (x.congr heq ▸ hx)]
  below x hx := valueAt_cons_not_below (x.congr heq ▸ hx)

theorem Passes.stay (h : (Table.mk ps (v :: vs)).WellFormed) (hlt : ∀ q ∈ ps, p.cmp q = .lt) :
    Passes p v ⟨ps, v :: vs⟩ ⟨ps, v :: vs⟩ where
  wellFormed := h
  points q hq := ⟨hq, hlt q hq⟩
  above _ _ := rfl
  below x hx := by
    cases ps with
    | nil => exact valueAt_nil
    | cons q ps =>
      apply valueAt_cons_not_below
      by_contra hne
      simp [x.lower (hlt q (by simp)) (by simpa using hne)] at hx

theorem WellFormed.lt_of_head {q : Point} (h : (Table.mk (q :: ps) vs).WellFormed)
    (hlt : p.cmp q = .lt) : ∀ s ∈ q :: ps, p.cmp s = .lt :=
  List.forall_mem_cons.mpr ⟨hlt, fun s hs =>
    TransCmp.lt_trans hlt ((List.pairwise_cons.mp h.increasing).1 s hs)⟩

section Rounds

variable (h : ZipState a b c) (ha : Passes p va a a') (hb : Passes p vb b b')
  (hmem : p ∈ a.points ∨ p ∈ b.points)

include h hmem

theorem ZipState.before_point (next : Bool) : ∀ q ∈ (c.pushValue next).points, q.cmp p = .lt :=
  fun q hq => h.before q ((pushValue_spec h.length_eq next).2.1.subset hq) p hmem

include ha hb

/-- What both sides are behind a point decides what they are. -/
theorem ZipState.advance {r : Table}
    (hr : ZipResult f a' b' ((c.pushValue (f va vb)).pushPoint p) r) : ZipResult f a b c r := by
  obtain ⟨hlen, hpts, hval⟩ := pushValue_spec h.length_eq (f va vb)
  refine ⟨hr.wellFormed, ?_, ?_⟩
  · intro q hq
    rcases hr.points q hq with hq | hq
    · rcases List.mem_append.mp hq with hq | hq
      · exact .inl (hpts.subset hq)
      · rw [List.mem_singleton.mp hq]
        exact .inr hmem
    · exact .inr (hq.imp (fun hq => (ha.points q hq).1) fun hq => (hb.points q hq).1)
  · intro x
    rw [hr.valueAt x, pushPoint_openValueAt (h.before_point hmem _)]
    cases hbelow : x.below p with
    | true =>
      have hfull := x.rank_eq_length fun q hq => x.lower (h.before q hq p hmem) hbelow
      rw [ha.above x hbelow, hb.above x hbelow]
      simp [openValueAt, hfull]
    | false =>
      rw [ha.below x hbelow, hb.below x hbelow]
      simp [hval x]

theorem ZipState.next : ZipState a' b' ((c.pushValue (f va vb)).pushPoint p) := by
  obtain ⟨hlen, hpts, -⟩ := pushValue_spec h.length_eq (f va vb)
  refine ⟨ha.wellFormed, hb.wellFormed, List.pairwise_append.mpr ⟨h.increasing.sublist hpts,
    List.pairwise_singleton _ _, fun q hq r hr => ?_⟩, by simp [pushPoint, hlen], ?_⟩
  · rw [List.mem_singleton.mp hr]
    exact h.before_point hmem _ q hq
  intro q hq s hs
  have hs := hs.imp (ha.points s) (hb.points s)
  rcases List.mem_append.mp hq with hq | hq
  · exact h.before q (hpts.subset hq) s (hs.imp And.left And.left)
  · rw [List.mem_singleton.mp hq]
    exact hs.elim And.right And.right

end Rounds

/-- The merge walk ends within its rounds, reads no list out of bounds and
combines both tables pointwise. -/
theorem zipLoop_spec (f : Bool → Bool → Bool) (fuel : Nat) (a b c : Table) (h : ZipState a b c)
    (hfuel : a.points.length + b.points.length < fuel) :
    ∃ r, zipLoop f fuel a b c = some r ∧ ZipResult f a b c r := by
  induction fuel generalizing a b c with
  | zero => omega
  | succ fuel ih =>
    obtain ⟨ap, av⟩ := a
    obtain ⟨bp, bv⟩ := b
    obtain ⟨va, avs, rfl⟩ := h.left.values_cons
    obtain ⟨vb, bvs, rfl⟩ := h.right.values_cons
    -- Each way of moving on consumes the least remaining point and recurses.
    have round {a' b' : Table} {p : Point} (ha : Passes p va ⟨ap, va :: avs⟩ a')
        (hb : Passes p vb ⟨bp, vb :: bvs⟩ b') (hmem : p ∈ ap ∨ p ∈ bp)
        (hlt : a'.points.length + b'.points.length < fuel) :
        ∃ r, zipLoop f fuel a' b' ((c.pushValue (f va vb)).pushPoint p) = some r ∧
          ZipResult f ⟨ap, va :: avs⟩ ⟨bp, vb :: bvs⟩ c r := by
      obtain ⟨r, hrun, hr⟩ := ih a' b' _ (h.next ha hb hmem) hlt
      exact ⟨r, hrun, h.advance ha hb hmem hr⟩
    have hrefl (p : Point) : p.cmp p = .eq := ReflCmp.compare_self
    cases ap with
    | nil =>
      cases bp with
      | nil =>
        obtain ⟨hlen, hpts, hval⟩ := pushValue_spec h.length_eq (f va vb)
        refine ⟨c.pushValue (f va vb), rfl, ⟨h.increasing.sublist hpts, hlen⟩, ?_, ?_⟩
        · intro q hq
          exact .inl (hpts.subset hq)
        · intro x
          rw [hval x]
          rfl
      | cons q qs =>
        exact round (.stay h.left (by simp)) (.step h.right (hrefl q)) (by simp)
          (by simp at hfuel ⊢; omega)
    | cons p ps =>
      cases bp with
      | nil =>
        exact round (.step h.left (hrefl p)) (.stay h.right (by simp)) (by simp)
          (by simp at hfuel ⊢; omega)
      | cons q qs =>
        simp only [zipLoop]
        cases hpq : p.cmp q with
        | lt =>
          exact round (.step h.left (hrefl p)) (.stay h.right (h.right.lt_of_head hpq)) (by simp)
            (by simp at hfuel ⊢; omega)
        | gt =>
          have hqp : q.cmp p = .lt := OrientedCmp.lt_of_gt hpq
          exact round (.stay h.left (h.left.lt_of_head hqp)) (.step h.right (hrefl q)) (by simp)
            (by simp at hfuel ⊢; omega)
        | eq =>
          exact round (.step h.left (hrefl p)) (.step h.right hpq) (by simp)
            (by simp at hfuel ⊢; omega)

/-- Combining two well-formed tables succeeds and is pointwise. -/
theorem zip_spec (ha : a.WellFormed) (hb : b.WellFormed) (f : Bool → Bool → Bool) :
    ∃ r, zip a b f = some r ∧ r.WellFormed ∧ (∀ p ∈ r.points, p ∈ a.points ∨ p ∈ b.points) ∧
      ∀ x, r.valueAt x = Option.map₂ f (a.valueAt x) (b.valueAt x) := by
  have hstart : ZipState a b ⟨[], []⟩ := ⟨ha, hb, .nil, rfl, by simp⟩
  obtain ⟨r, hrun, hr⟩ := zipLoop_spec f (a.points.length + b.points.length + 1) a b
    ⟨[], []⟩ hstart (by omega)
  refine ⟨r, hrun, hr.wellFormed, ?_, ?_⟩
  · intro p hp
    simpa using hr.points p hp
  · intro x
    rw [hr.valueAt x]
    simp [openValueAt]

end Table

end StartTech.Exver.Sat

import StartTech.StartCore.Relabelling

/-!
# Normal forms keep their meaning

Without negations a release is judged version by version, so there it suffices
that the conjunctions read off the tables describe the segments on which the
tables are true. No conjunction needs a negation: a flavor that the range does
not name satisfies none of its positive parts. Parts with a negation are only
put together again.
-/

namespace StartTech.StartCore

open Foundation Foundation.Comparator
open ExtendedVersion (satisfies)
open Exver (CmpOp)
open Exver.Sat (Position)

/-- Versions labelled by their place in a list. -/
def placeLabel (l : List Version) (v : Version) : Exver.Version :=
  ⟨[placeIn Version.compare l v], []⟩

theorem placeLabel_faithful (l : List Version) : Faithful (placeLabel l) l := by
  intro a ha b hb
  have hsingle (m n : Nat) : Exver.Version.cmp ⟨[m], []⟩ ⟨[n], []⟩ = compare m n := by
    change ((compare m n).then .eq).then .eq = compare m n
    cases compare m n <;> rfl
  rw [placeLabel, placeLabel, hsingle, compare_placeIn ha hb]

namespace VersionRange

variable {x r : VersionRange} {xs : List VersionRange}

theorem andLoop_cons (hx : x ≠ .none) (xs : List VersionRange) (y : VersionRange) :
    andLoop (x :: xs) y = andLoop xs (andNext y x) := by
  cases x <;> first | rfl | exact absurd rfl hx

theorem orLoop_cons (hx : x ≠ .any) (xs : List VersionRange) (y : VersionRange) :
    orLoop (x :: xs) y = orLoop xs (orNext y x) := by
  cases x <;> first | rfl | exact absurd rfl hx

section

variable (v : ExtendedVersion)
include v

theorem satisfies_andNext (y x : VersionRange) :
    v.satisfies (andNext y x) = (v.satisfies y && v.satisfies x) := by
  cases x <;> cases y <;> simp [andNext, satisfies]

theorem satisfies_andAll (xs : List VersionRange) :
    v.satisfies (andAll xs) = xs.all fun x => v.satisfies x := by
  have hloop (y : VersionRange) :
      v.satisfies (andLoop xs y) = (v.satisfies y && xs.all fun x => v.satisfies x) := by
    induction xs generalizing y with
    | nil => simp [andLoop]
    | cons x xs ih =>
      by_cases hx : x = .none
      · simp [hx, andLoop, satisfies]
      · rw [andLoop_cons hx, ih, satisfies_andNext, List.all_cons, Bool.and_assoc]
  rw [andAll, hloop]
  simp [satisfies]

theorem satisfies_orNext (y x : VersionRange) :
    v.satisfies (orNext y x) = (v.satisfies y || v.satisfies x) := by
  cases x <;> cases y <;> simp [orNext, satisfies]

theorem satisfies_orAll (xs : List VersionRange) :
    v.satisfies (orAll xs) = xs.any fun x => v.satisfies x := by
  have hloop (y : VersionRange) :
      v.satisfies (orLoop xs y) = (v.satisfies y || xs.any fun x => v.satisfies x) := by
    induction xs generalizing y with
    | nil => simp [orLoop]
    | cons x xs ih =>
      by_cases hx : x = .any
      · simp [hx, orLoop, satisfies]
      · rw [orLoop_cons hx, ih, satisfies_orNext, List.any_cons, Bool.or_assoc]
  rw [orAll, hloop]
  simp [satisfies]

end

/-- How two operands with a unit and an absorbing range are put together. -/
def Pairs (unit zero l r both all : VersionRange) : Prop :=
  (all = zero ∧ (l = zero ∨ r = zero)) ∨ (all = l ∧ r = unit) ∨ (all = r ∧ l = unit) ∨ all = both

theorem andAll_pair (l r : VersionRange) : Pairs .any .none l r (.and l r) (andAll [l, r]) := by
  cases l <;> cases r <;> simp [Pairs, andAll, andLoop, andNext]

theorem orAll_pair (l r : VersionRange) : Pairs .none .any l r (.or l r) (orAll [l, r]) := by
  cases l <;> cases r <;> simp [Pairs, orAll, orLoop, orNext]

section

variable (versions : List ExtendedVersion)
include versions

theorem length_releaseWhole (r : VersionRange)
    (negated : Bool) : (releaseWhole r versions negated).length = versions.length := by
  cases negated <;> simp [releaseWhole]

theorem length_releaseMatches (r : VersionRange)
    (negated : Bool) : (releaseMatches versions r negated).length = versions.length := by
  induction r generalizing negated with
  | anchor op v => cases op <;> simp [releaseMatches, length_releaseWhole]
  | and l r ihl ihr => cases negated <;> simp [releaseMatches, length_releaseWhole, ihl, ihr]
  | or l r ihl ihr => cases negated <;> simp [releaseMatches, length_releaseWhole, ihl, ihr]
  | not r ih => simp [releaseMatches, ih]
  | any | none | flavor f => simp [releaseMatches, length_releaseWhole]

theorem releaseMatches_any :
    releaseMatches versions .any false = List.replicate versions.length true := by
  simp [releaseMatches, releaseWhole, satisfies]

theorem releaseMatches_none :
    releaseMatches versions .none false = List.replicate versions.length false := by
  simp [releaseMatches, releaseWhole, satisfies]

end

/-- Combining with a constant list on the right. -/
theorem zipWith_replicate (op : Bool → Bool → Bool) (b : Bool) {l : List Bool} {n : Nat}
    (h : l.length = n) : List.zipWith op l (List.replicate n b) = l.map (op · b) := by
  subst h
  induction l with
  | nil => rfl
  | cons x xs ih => simp [List.replicate_succ, ih]

/-- Leaving out units and stopping at an absorbing range says the same about a
release. -/
theorem Pairs.releaseMatches {unit zero l both all : VersionRange} {versions : List ExtendedVersion}
    {op : Bool → Bool → Bool} {u z : Bool} (h : Pairs unit zero l r both all)
    (hunit : releaseMatches versions unit false = List.replicate versions.length u)
    (hzero : releaseMatches versions zero false = List.replicate versions.length z)
    (hcomm : ∀ a b, op a b = op b a) (hu : ∀ a, op a u = a) (hz : ∀ a, op a z = z)
    (hboth : releaseMatches versions both false = List.zipWith op
      (releaseMatches versions l false) (releaseMatches versions r false)) :
    releaseMatches versions all false = List.zipWith op
      (releaseMatches versions l false) (releaseMatches versions r false) := by
  have hl := length_releaseMatches versions l false
  have hr := length_releaseMatches versions r false
  rcases h with ⟨rfl, rfl | rfl⟩ | ⟨rfl, rfl⟩ | ⟨rfl, rfl⟩ | rfl
  · rw [List.zipWith_comm_of_comm hcomm, hzero, zipWith_replicate _ _ hr]
    simp [hz, hr]
  · rw [hzero, zipWith_replicate _ _ hl]
    simp [hz, hl]
  · rw [hunit, zipWith_replicate _ _ hl]
    simp [hu]
  · rw [List.zipWith_comm_of_comm hcomm, hunit, zipWith_replicate _ _ hr]
    simp [hu]
  · exact hboth

section

variable (versions : List ExtendedVersion)
include versions

theorem releaseMatches_andAll (l r : VersionRange) :
    releaseMatches versions (andAll [l, r]) false = releaseMatches versions (.and l r) false :=
  (andAll_pair l r).releaseMatches (releaseMatches_any versions) (releaseMatches_none versions)
    Bool.and_comm Bool.and_true Bool.and_false rfl

theorem releaseMatches_orAll (l r : VersionRange) :
    releaseMatches versions (orAll [l, r]) false = releaseMatches versions (.or l r) false :=
  (orAll_pair l r).releaseMatches (releaseMatches_none versions) (releaseMatches_any versions)
    Bool.or_comm Bool.or_false Bool.or_true rfl

/-- Without a negation every declared version speaks for itself. -/
theorem releaseMatches_of_no_veto (h : r.hasReleaseVeto = false) :
    releaseMatches versions r false = versions.map fun v => v.satisfies r := by
  induction r with
  | anchor op w =>
    cases op with
    | ne => simp [hasReleaseVeto] at h
    | _ => rfl
  | and l r ihl ihr | or l r ihl ihr =>
    simp only [hasReleaseVeto, Bool.or_eq_false_iff] at h
    simp [releaseMatches, ihl h.1, ihr h.2, List.zipWith_map, satisfies]
  | not r => simp [hasReleaseVeto] at h
  | any | none | flavor f => rfl

end

section Induction

variable {P : VersionRange → Prop} (hany : P .any) (hnone : P .none) (h : ∀ x ∈ xs, P x)

include hany hnone h

/-- `andAll` builds nothing but conjunctions of its operands. -/
theorem andAll_induction (hand : ∀ l r, P l → P r → P (.and l r)) : P (andAll xs) := by
  have hloop (y : VersionRange) (hy : P y) : P (andLoop xs y) := by
    induction xs generalizing y with
    | nil => exact hy
    | cons x xs ih =>
      obtain ⟨hx, hxs⟩ := List.forall_mem_cons.mp h
      by_cases heq : x = .none
      · rwa [heq]
      · rw [andLoop_cons heq]
        apply ih hxs
        unfold andNext
        split
        · exact hy
        · exact hx
        · exact hand y x hy hx
  exact hloop .any hany

/-- `orAll` builds nothing but disjunctions of its operands. -/
theorem orAll_induction (hor : ∀ l r, P l → P r → P (.or l r)) : P (orAll xs) := by
  have hloop (y : VersionRange) (hy : P y) : P (orLoop xs y) := by
    induction xs generalizing y with
    | nil => exact hy
    | cons x xs ih =>
      obtain ⟨hx, hxs⟩ := List.forall_mem_cons.mp h
      by_cases heq : x = .any
      · rwa [heq]
      · rw [orLoop_cons heq]
        apply ih hxs
        unfold orNext
        split
        · exact hy
        · exact hx
        · exact hor y x hy hx
  exact hloop .none hnone

end Induction

end VersionRange

namespace VersionRangeTables

open VersionRange

variable {label : Version → Exver.Version} {v : ExtendedVersion} {b : Bool} {t : VersionRangeTables}
  {e : TableEntry}

/-- The position of a version on the line of labels. -/
abbrev positionOf (label : Version → Exver.Version) (v : ExtendedVersion) : Position :=
  Position.ofVersion (v.relabel label)

/-- An anchor accepts the versions of its flavor on one side of a point. -/
theorem satisfies_cut (op : CmpOp) (operator : Exver.Operator) (f : Option Text)
    (p : VersionRangePoint) (left right : Bool)
    (h : Faithful label (v.parts ++ (anchor op ⟨f, p.upstream, p.downstream⟩).versions))
    (hop : operator ≠ Exver.NEQ)
    (hrel : ∀ w, (anchor op w).relabel label = .anchor operator (w.relabel label))
    (haccepts : ∀ o : Ordering, Exver.Operator.accepts operator o =
      if o.swap.then (compare p.side.toInt 0) == .lt then right else left) :
    v.satisfies (.anchor op ⟨f, p.upstream, p.downstream⟩) =
      (v.flavor == f && if (positionOf label v).below (p.relabel label) then right else left) := by
  have hside : p.side.toInt = -1 ∨ p.side.toInt = 1 := by
    cases p.side with
    | before => exact .inl rfl
    | after => exact .inr rfl
  have hd := Exver.Sat.decides_cmp hop (ExtendedVersion.relabel label ⟨f, p.upstream, p.downstream⟩)
    hside haccepts
  have hval := hd.valueAt (v.relabel label)
  rw [(Exver.Sat.Tables.cmp_spec _ _ _ _).2.2, Option.some.injEq] at hval
  rw [← relabel_satisfies v _ h, hrel, ← hval]
  rfl

section Segments

variable {versions : List Version} (h : Faithful label versions)
  (hv : ∀ x ∈ v.parts, x ∈ versions) {p q : VersionRangePoint} (hp : p.Within versions)
  (hq : q.Within versions) (f : Option Text)

include h hv

theorem faithful_point {p : VersionRangePoint} (hp : p.Within versions) :
    Faithful label (v.parts ++ [p.upstream, p.downstream]) := by
  apply h.mono
  intro x hx
  rcases List.mem_append.mp hx with hx | hx
  · exact hv x hx
  · simp only [List.mem_cons, List.not_mem_nil, or_false] at hx
    rcases hx with rfl | rfl
    · exact hp.1
    · exact hp.2

include hp in
theorem satisfies_lower : v.satisfies (bounds.lower f p) =
      (v.flavor == f && (positionOf label v).below (p.relabel label)) := by
  have hpt := faithful_point h hv hp
  obtain ⟨up, down, side⟩ := p
  cases side with
  | before =>
    have hcut := satisfies_cut .ge Exver.GTE f ⟨up, down, .before⟩ Bool.false Bool.true hpt
      (by decide) (fun _ => rfl) (by intro o; cases o <;> rfl)
    simpa [bounds.lower] using hcut
  | after =>
    have hcut := satisfies_cut .gt Exver.GT f ⟨up, down, .after⟩ Bool.false Bool.true hpt
      (by decide) (fun _ => rfl) (by intro o; cases o <;> rfl)
    simpa [bounds.lower] using hcut

include hq in
theorem satisfies_upper : v.satisfies (bounds.upper f q) =
      (v.flavor == f && !(positionOf label v).below (q.relabel label)) := by
  have hpt := faithful_point h hv hq
  obtain ⟨up, down, side⟩ := q
  cases side with
  | before =>
    have hcut := satisfies_cut .lt Exver.LT f ⟨up, down, .before⟩ Bool.true Bool.false hpt
      (by decide) (fun _ => rfl) (by intro o; cases o <;> rfl)
    simpa [bounds.upper] using hcut
  | after =>
    have hcut := satisfies_cut .le Exver.LTE f ⟨up, down, .after⟩ Bool.true Bool.false hpt
      (by decide) (fun _ => rfl) (by intro o; cases o <;> rfl)
    simpa [bounds.upper] using hcut

include hp hq in
/-- Between the two sides of a version lies only what is equal to it. -/
theorem satisfies_adjacent (hadj : adjacentVersionRangePoints p q = Bool.true) :
    v.satisfies (.anchor .eq ⟨f, p.upstream, p.downstream⟩) =
      (v.satisfies (bounds.lower f p) && v.satisfies (bounds.upper f q)) := by
  simp only [adjacentVersionRangePoints, Bool.and_eq_true, beq_iff_eq] at hadj
  obtain ⟨⟨⟨hup, hdown⟩, hps⟩, hqs⟩ := hadj
  -- The upper side of the first version is the second point, up to the order.
  have hup' : (⟨p.upstream, p.downstream, .after⟩ : VersionRangePoint).Within versions := hp
  have hsame : ((⟨p.upstream, p.downstream, .after⟩ : VersionRangePoint).relabel label).cmp
      (q.relabel label) = .eq := by
    rw [VersionRangePoint.relabel_cmp h hup' hq, compareVersionRangePoints, hup, hdown, hqs]
    rfl
  have hupper : v.satisfies (bounds.upper f q) =
      v.satisfies (bounds.upper f ⟨p.upstream, p.downstream, .after⟩) := by
    rw [satisfies_upper h hv hq, satisfies_upper h hv hup', (positionOf label v).congr hsame]
  have hlow : bounds.lower f p = .anchor .ge ⟨f, p.upstream, p.downstream⟩ := by
    rw [bounds.lower, if_pos hps]
  have hhigh : bounds.upper f ⟨p.upstream, p.downstream, .after⟩ =
      .anchor .le ⟨f, p.upstream, p.downstream⟩ := rfl
  rw [hupper, hlow, hhigh]
  simp only [satisfies, ExtendedVersion.equals,
    ExtendedVersion.greaterThanOrEqual, ExtendedVersion.lessThanOrEqual]
  cases v.compare ⟨f, p.upstream, p.downstream⟩ with
  | none => rfl
  | some o => cases o <;> rfl

/-- The conjunction for a segment describes it. -/
theorem satisfies_minterm (p q : Option VersionRangePoint) (hp : ∀ x ∈ p, x.Within versions)
    (hq : ∀ x ∈ q, x.Within versions) :
    v.satisfies (minterm (.flavor f) p q) =
      (v.flavor == f && (p.all fun x => (positionOf label v).below (x.relabel label)) &&
        q.all fun x => !(positionOf label v).below (x.relabel label)) := by
  have hflavor : v.satisfies (.flavor f) = (v.flavor == f) := Bool.beq_comm
  cases p with
  | none =>
    cases q with
    | none => simp [minterm, bounds, satisfies_andAll, hflavor]
    | some q => simp [minterm, bounds, satisfies_andAll, satisfies_upper h hv (hq q rfl)]
  | some p =>
    have hlow := satisfies_lower h hv (hp p rfl) f
    cases q with
    | none => simp [minterm, bounds, satisfies_andAll, hlow]
    | some q =>
      have hhigh := satisfies_upper h hv (hq q rfl) f
      have hboth : v.satisfies (minterm (.flavor f) (some p) (some q)) =
          (v.satisfies (bounds.lower f p) && v.satisfies (bounds.upper f q)) := by
        cases hadj : adjacentVersionRangePoints p q with
        | true =>
          simpa [minterm, bounds, satisfies_andAll, hadj] using
            satisfies_adjacent h hv (hp p rfl) (hq q rfl) f hadj
        | false => simp [minterm, bounds, satisfies_andAll, hadj]
      rw [hboth, hlow, hhigh]
      cases v.flavor == f <;> simp

end Segments

theorem collapseLoop_eq_some {xs : List Bool} {found : Option Bool}
    (h : collapseLoop xs found = some b) : (∀ x ∈ xs, x = b) ∧ ∀ x ∈ found, x = b := by
  induction xs generalizing found with
  | nil =>
    exact ⟨by simp, fun x hx => Option.some.inj (hx.symm.trans h)⟩
  | cons x xs ih =>
    have hstep : collapseLoop xs (some x) = some b ∧ ∀ y ∈ found, y = x := by
      cases found with
      | none => exact ⟨h, by simp⟩
      | some y =>
        simp only [collapseLoop, bne_iff_ne, ite_not] at h
        split at h
        · rename_i hxy
          exact ⟨hxy ▸ h, by simp [hxy]⟩
        · cases h
    obtain ⟨htail, hhead⟩ := ih hstep.1
    have hx := hhead x rfl
    exact ⟨List.forall_mem_cons.mpr ⟨hx, htail⟩, fun y hy => (hstep.2 y hy).trans hx⟩

/-- Tables that collapse have a single value. -/
theorem collapse_eq_some (h : t.collapse = some b) : ∀ e ∈ t.entries, ∀ x ∈ e.2.values, x = b := by
  cases t with
  | true | false => simp [entries]
  | map m =>
    intro e he x hx
    exact (collapseLoop_eq_some h).1 x (List.mem_flatMap.mpr ⟨e, he, hx⟩)

theorem mem_entryMinterms {x : VersionRange} :
    x ∈ entryMinterms e ↔ ∃ i, e.2.values[i]? = some Bool.true ∧
      x = minterm e.1 (e.2.pointBefore i) e.2.points[i]? := by
  simp only [entryMinterms, List.mem_filterMap, List.mem_range]
  constructor
  · rintro ⟨i, _, hx⟩
    split at hx
    · exact ⟨i, ‹_›, (Option.some.inj hx).symm⟩
    · cases hx
  · rintro ⟨i, hi, rfl⟩
    exact ⟨i, (List.getElem?_eq_some_iff.mp hi).1, by simp [hi]⟩

section Tables

variable {versions : List Version} {r : VersionRange} {m : List TableEntry}

variable (h : Faithful label versions)
include h

/-- Some entry is responsible for the flavor of a version, and every such entry
has the value that the range has on the version. -/
theorem responsible (hr : ∀ x ∈ v.parts ++ r.versions, x ∈ versions)
    (hm : HasTables label versions r (.map m)) :
    (∃ e ∈ m, e.1.relabel.contains v.flavor = Bool.true) ∧
      ∀ e ∈ m, e.1.relabel.contains v.flavor = Bool.true → (e.2.relabel label).WellFormed ∧
        (e.2.relabel label).valueAt (positionOf label v) = some (v.satisfies r) := by
  obtain ⟨hpart, hwf⟩ := hm.decides.wellFormed
  obtain ⟨d, hd⟩ := hpart v.flavor
  have hval := hm.decides.valueAt (v.relabel label)
  rw [relabel_satisfies v r (h.mono hr)] at hval
  have hvd := (Exver.Sat.Tables.valueAt_map hd (positionOf label v)).symm.trans hval
  constructor
  · have hmem : d ∈ (m.map (relabelEntry label)).filter fun e => e.1.contains v.flavor := by
      simp [hd]
    obtain ⟨hmem, hcontains⟩ := List.mem_filter.mp hmem
    obtain ⟨e, he, rfl⟩ := List.mem_map.mp hmem
    exact ⟨e, he, hcontains⟩
  · intro e he hcontains
    have hmem : relabelEntry label e ∈
        (m.map (relabelEntry label)).filter fun e => e.1.contains v.flavor :=
      List.mem_filter.mpr ⟨List.mem_map_of_mem he, hcontains⟩
    rw [hd, List.mem_singleton] at hmem
    refine ⟨hwf _ (List.mem_map_of_mem he), ?_⟩
    rw [← hvd, ← hmem]
    rfl

/-- Whether a version satisfies the conjunction for a segment of its own flavor
is whether it lies in the segment. -/
theorem satisfies_minterm_iff (hv : ∀ x ∈ v.parts, x ∈ versions)
    {t : VersionRangeTable} (ht : t.Within versions) (hwf : (t.relabel label).WellFormed)
    {i : Nat} (hi : i ≤ t.points.length) :
    v.satisfies (minterm (.flavor v.flavor) (t.pointBefore i) t.points[i]?) = Bool.true ↔
      (positionOf label v).rank (t.relabel label).points = i := by
  rw [satisfies_minterm h hv v.flavor _ _ ht.pointBefore ht.point,
    Cut.rank_eq_iff _ hwf.increasing (by simpa [VersionRangeTable.relabel] using hi)]
  simp only [VersionRangeTable.relabel, VersionRangeTable.pointBefore, beq_self_eq_true,
    Bool.true_and, Bool.and_eq_true, Option.all_eq_true, List.getElem?_map]
  by_cases h0 : i = 0 <;> simp [h0]

/-- The conjunctions read off the tables of a range without negations hold of
the versions that satisfy the range. -/
theorem satisfies_entryMinterms (hr : ∀ x ∈ v.parts ++ r.versions, x ∈ versions)
    (hm : HasTables label versions r (.map m)) (hveto : r.hasReleaseVeto = Bool.false) :
    (∃ e ∈ m, ∃ x ∈ entryMinterms e, v.satisfies x = Bool.true) ↔ v.satisfies r = Bool.true := by
  obtain ⟨hsome, hall⟩ := responsible h hr hm
  have hv : ∀ x ∈ v.parts, x ∈ versions := fun x hx => hr x (List.mem_append_left _ hx)
  have hpos {e : TableEntry} (he : e ∈ m) {i : Nat} (hi : e.2.values[i]? = some Bool.true) :
      ∃ f, e.1 = .flavor f := by
    cases hatom : e.1 with
    | flavor f => exact ⟨f, rfl⟩
    | flavorNot s =>
      have := hm.flavorNot hveto e he s hatom Bool.true (List.mem_of_getElem? hi)
      cases this
  constructor
  · rintro ⟨e, he, x, hx, hsat⟩
    obtain ⟨i, hi, rfl⟩ := mem_entryMinterms.mp hx
    obtain ⟨f, hatom⟩ := hpos he hi
    rw [hatom] at hsat
    have hflavor : v.flavor = f := by
      rw [satisfies_minterm h hv f _ _ (hm.within e he).pointBefore (hm.within e he).point] at hsat
      simp only [Bool.and_eq_true, beq_iff_eq] at hsat
      exact hsat.1.1
    subst hflavor
    obtain ⟨hwf, hval⟩ := hall e he (by simp [hatom, FlavorAtom.relabel,
      Exver.Sat.FlavorAtom.contains])
    have hlen : i ≤ e.2.points.length := by
      have hlt := (List.getElem?_eq_some_iff.mp hi).1
      have hlen := hwf.length_eq
      simp only [VersionRangeTable.relabel, List.length_map] at hlen
      omega
    rw [satisfies_minterm_iff h hv (hm.within e he) hwf hlen] at hsat
    rw [Exver.Sat.Table.valueAt, hsat] at hval
    exact Option.some.inj (hval.symm.trans hi)
  · intro hsat
    obtain ⟨e, he, hcontains⟩ := hsome
    obtain ⟨hwf, hval⟩ := hall e he hcontains
    rw [hsat] at hval
    obtain ⟨f, hatom⟩ := hpos he hval
    have hflavor : v.flavor = f := by
      simpa [hatom, FlavorAtom.relabel, Exver.Sat.FlavorAtom.contains] using hcontains
    refine ⟨e, he, _, mem_entryMinterms.mpr ⟨_, hval, rfl⟩, ?_⟩
    rw [hatom, ← hflavor, satisfies_minterm_iff h hv (hm.within e he) hwf]
    have hle := (positionOf label v).rank_le (e.2.relabel label).points
    simpa [VersionRangeTable.relabel] using hle

end Tables

theorem hasReleaseVeto_entryMinterms {f : Option Text} (he : e.1 = .flavor f) :
    ∀ x ∈ entryMinterms e, x.hasReleaseVeto = Bool.false := by
  have hlower (p : VersionRangePoint) : (bounds.lower f p).hasReleaseVeto = Bool.false := by
    cases hs : p.side <;> simp [bounds.lower, hasReleaseVeto, hs]
  have hupper (q : VersionRangePoint) : (bounds.upper f q).hasReleaseVeto = Bool.false := by
    cases hs : q.side <;> simp [bounds.upper, hasReleaseVeto, hs]
  intro x hx
  obtain ⟨i, -, rfl⟩ := mem_entryMinterms.mp hx
  rw [he]
  generalize (e.2.pointBefore i) = p
  generalize e.2.points[i]? = q
  refine andAll_induction (P := (hasReleaseVeto · = Bool.false)) rfl rfl ?_
    fun l r hl hr => by simp [hasReleaseVeto, hl, hr]
  cases p with
  | none => cases q <;> simp [bounds, hasReleaseVeto, hupper]
  | some p =>
    cases q with
    | none => simp [bounds, hlower]
    | some q =>
      cases hadj : adjacentVersionRangePoints p q <;>
        simp [bounds, hadj, hlower, hupper, hasReleaseVeto]

/-- The normal form of a range without negations has none either and is
satisfied by the same versions. -/
theorem minterms_spec {r : VersionRange} (ht : r.tables = some t)
    (hveto : r.hasReleaseVeto = Bool.false) :
    (minterms t).hasReleaseVeto = Bool.false ∧
      ∀ v : ExtendedVersion, v.satisfies (minterms t) = v.satisfies r := by
  have htables (v : ExtendedVersion) :
      HasTables (placeLabel (v.parts ++ r.versions)) (v.parts ++ r.versions) r t := by
    obtain ⟨u, hu⟩ := exists_hasTables (placeLabel_faithful (v.parts ++ r.versions)) r
      fun x hx => List.mem_append_right _ hx
    rw [hu.tables, Option.some.injEq] at ht
    exact ht ▸ hu
  have hflavor : t.FlavorNotAll Bool.false :=
    (htables ⟨none, .zero, .zero⟩).flavorNot hveto
  have hconst (v : ExtendedVersion) {b : Bool} (hb : t.collapse = some b) : v.satisfies r = b := by
    have hfaithful := placeLabel_faithful (v.parts ++ r.versions)
    have hval := (htables v).decides.valueAt (v.relabel (placeLabel (v.parts ++ r.versions)))
    rw [relabel_satisfies v r hfaithful] at hval
    cases t with
    | true | false => exact Option.some.inj (hval.symm.trans hb)
    | map m =>
      obtain ⟨⟨e, he, hcontains⟩, hall⟩ := responsible hfaithful (fun x hx => hx) (htables v)
      exact collapse_eq_some hb e he _ (List.mem_of_getElem? (hall e he hcontains).2)
  by_cases hany : t = .true ∨ t.collapse = some Bool.true
  · have hcollapse : t.collapse = some Bool.true := hany.elim (fun h => h ▸ rfl) id
    rw [minterms, if_pos hany]
    exact ⟨rfl, fun v => (hconst v hcollapse).symm⟩
  by_cases hnone : t = .false ∨ t.collapse = some Bool.false
  · have hcollapse : t.collapse = some Bool.false := hnone.elim (fun h => h ▸ rfl) id
    rw [minterms, if_neg hany, if_pos hnone]
    exact ⟨rfl, fun v => (hconst v hcollapse).symm⟩
  cases t with
  | true => simp at hany
  | false => simp at hnone
  | map m =>
    have hminterms : minterms (.map m) = orAll (m.flatMap entryMinterms) := by
      rw [minterms, if_neg hany, if_neg hnone]
      rfl
    rw [hminterms]
    constructor
    · refine orAll_induction (P := (hasReleaseVeto · = Bool.false)) rfl rfl ?_
        fun l r hl hr => by simp [hasReleaseVeto, hl, hr]
      intro x hx
      obtain ⟨e, he, hxe⟩ := List.mem_flatMap.mp hx
      cases hatom : e.1 with
      | flavor f => exact hasReleaseVeto_entryMinterms hatom x hxe
      | flavorNot s =>
        obtain ⟨i, hi, -⟩ := mem_entryMinterms.mp hxe
        have := hflavor e he s hatom Bool.true (List.mem_of_getElem? hi)
        cases this
    · intro v
      rw [satisfies_orAll, Bool.eq_iff_iff, ← satisfies_entryMinterms (placeLabel_faithful _)
        (fun x hx => hx) (htables v) hveto]
      simp [List.any_eq_true]

end VersionRangeTables

namespace VersionRange

/-- A range that says the same about every release and every version. -/
structure Restates (n r : VersionRange) : Prop where
  releases : ∀ versions, releaseMatches versions n false = releaseMatches versions r false
  versions : ∀ v : ExtendedVersion, v.satisfies n = v.satisfies r

theorem normalize_spec (r : VersionRange) : ∃ n, r.normalize = some n ∧ Restates n r := by
  have hpos {r : VersionRange} (hveto : r.hasReleaseVeto = false) :
      ∃ n, r.tables.map VersionRangeTables.minterms = some n ∧ Restates n r := by
    obtain ⟨t, ht⟩ := exists_hasTables (placeLabel_faithful r.versions) r fun _ hx => hx
    obtain ⟨hno, hsat⟩ := VersionRangeTables.minterms_spec ht.tables hveto
    refine ⟨_, by rw [ht.tables]; rfl, fun versions => ?_, hsat⟩
    rw [releaseMatches_of_no_veto versions hno, releaseMatches_of_no_veto versions hveto]
    exact List.map_congr_left fun v _ => hsat v
  have hatom {r : VersionRange} (h : r.normalize =
      if r.hasReleaseVeto then some r else r.tables.map VersionRangeTables.minterms) :
      ∃ n, r.normalize = some n ∧ Restates n r := by
    cases hveto : r.hasReleaseVeto with
    | true => exact ⟨r, by rw [h, hveto]; rfl, fun _ => rfl, fun _ => rfl⟩
    | false =>
      rw [h, hveto]
      exact hpos hveto
  induction r with
  | and left right ihl ihr =>
    obtain ⟨nl, hl, hrl, hsl⟩ := ihl
    obtain ⟨nr, hr, hrr, hsr⟩ := ihr
    cases hveto : (VersionRange.and left right).hasReleaseVeto with
    | false =>
      rw [normalize, hveto]
      exact hpos hveto
    | true =>
      refine ⟨andAll [nl, nr], by simp [normalize, hveto, hl, hr], fun versions => ?_, fun v => ?_⟩
      · simp [releaseMatches_andAll, releaseMatches, hrl, hrr]
      · simp [satisfies_andAll, hsl, hsr, satisfies]
  | or left right ihl ihr =>
    obtain ⟨nl, hl, hrl, hsl⟩ := ihl
    obtain ⟨nr, hr, hrr, hsr⟩ := ihr
    cases hveto : (VersionRange.or left right).hasReleaseVeto with
    | false =>
      rw [normalize, hveto]
      exact hpos hveto
    | true =>
      refine ⟨orAll [nl, nr], by simp [normalize, hveto, hl, hr], fun versions => ?_, fun v => ?_⟩
      · simp [releaseMatches_orAll, releaseMatches, hrl, hrr]
      · simp [satisfies_orAll, hsl, hsr, satisfies]
  | anchor op v | not value | any | none | flavor f => exact hatom rfl

/-- Normalizing succeeds, and the result is satisfied by the same releases and by
the same versions. -/
theorem normalize_preserves (r : VersionRange) : ∃ n, r.normalize = some n ∧
      (∀ versions, n.satisfiedByRelease versions = r.satisfiedByRelease versions) ∧
      ∀ v : ExtendedVersion, v.satisfies n = v.satisfies r := by
  obtain ⟨n, hn, hrelease, hsat⟩ := normalize_spec r
  refine ⟨n, hn, fun versions => ?_, hsat⟩
  rw [satisfiedByRelease, satisfiedByRelease, hrelease]

/-- `>=1:0 && <=1:0` becomes `=1:0`. -/
example : (VersionRange.and (.anchor .ge ⟨Option.none, ⟨[.finite 1], []⟩, .zero⟩)
    (.anchor .le ⟨Option.none, ⟨[.finite 1], []⟩, .zero⟩)).normalize =
      some (.anchor .eq ⟨Option.none, ⟨[.finite 1], []⟩, .zero⟩) := by
  decide +kernel

end VersionRange

end StartTech.StartCore

import StartTech.Exver.TableSemantics
import Mathlib.Data.List.ProdSigma
import Mathlib.Data.Fintype.EquivFin

/-!
# Flavor partitions under the cross product

The keys of a table map form a partition of the flavors. The intersections of
two partitions form a partition again, so the double loop never meets a key
twice and the branch that merges two tables under one key is never taken.
-/

namespace StartTech.Exver.Sat

open Foundation
open Tables (andStep)

namespace FlavorAtom

/-- The computed atom is the intersection, and there is none when it is empty. -/
theorem any_and (a b : FlavorAtom) (f : Option Text) :
    (FlavorAtom.and a b).any (·.contains f) = (a.contains f && b.contains f) := by
  have mixed (g : Option Text) (set : Finset (Option Text)) :
      (if g ∈ set then none else some (flavor g)).any (·.contains f) =
        ((flavor g).contains f && (flavorNot set).contains f) := by
    by_cases hfg : f = g
    · subst hfg
      by_cases hmem : f ∈ set <;> simp [contains, hmem]
    · by_cases hmem : g ∈ set <;> simp [contains, hmem, hfg]
  cases a with
  | flavor fa =>
    cases b with
    | flavor fb =>
      by_cases hf : f = fa
      · subst hf
        by_cases hfb : f = fb <;> simp [FlavorAtom.and, contains, hfb]
      · by_cases hfb : fa = fb <;> simp [FlavorAtom.and, contains, hfb, hf]
    | flavorNot sb => exact mixed fa sb
  | flavorNot sa =>
    cases b with
    | flavor fb =>
      rw [Bool.and_comm]
      exact mixed fb sa
    | flavorNot sb => simp [FlavorAtom.and, contains]

/-- No atom is empty: there are more flavors than a finite set excludes. -/
theorem exists_contains (a : FlavorAtom) : ∃ f, a.contains f = true := by
  cases a with
  | flavor f => exact ⟨f, by simp [contains]⟩
  | flavorNot set =>
    obtain ⟨f, hf⟩ := Infinite.exists_notMem_finset set
    exact ⟨f, by simp [contains, hf]⟩

end FlavorAtom

open FlavorAtom (contains any_and)

abbrev Entry := FlavorAtom × Table

namespace TableMap

/-- Exactly one entry of the map is responsible for each flavor. -/
def Partition (m : TableMap) : Prop :=
  ∀ f, ∃ e, m.filter (fun e => e.1.contains f) = [e]

/-- The pairs of entries that are both responsible for a flavor. -/
def both (f : Option Text) (pair : Entry × Entry) : Bool :=
  pair.1.1.contains f && pair.2.1.contains f

theorem filter_product (am bm : TableMap) (f : Option Text) : (am.product bm).filter (both f) =
      (am.filter fun e => e.1.contains f).product (bm.filter fun e => e.1.contains f) := by
  induction am with
  | nil => rfl
  | cons ea am ih =>
    have hhead : (bm.map (Prod.mk ea)).filter (both f) =
        if ea.1.contains f then (bm.filter fun e => e.1.contains f).map (Prod.mk ea)
        else [] := by
      rw [List.filter_map]
      cases ha : ea.1.contains f <;> simp [both, Function.comp_def, ha]
    change ((bm.map (Prod.mk ea)) ++ am.product bm).filter (both f) = _
    rw [List.filter_append, hhead, ih]
    cases ha : ea.1.contains f with
    | true => simp [ha, List.product]
    | false => simp [ha]

/-- One entry of the result: the joined atom with the combined table. -/
structure Joined (pair : Entry × Entry) (e : Entry) : Prop where
  atom : FlavorAtom.and pair.1.1 pair.2.1 = some e.1
  table : Table.zip pair.1.2 pair.2.2 (· && ·) = some e.2
  wellFormed : e.2.WellFormed
  points : ∀ p ∈ e.2.points, p ∈ pair.1.2.points ∨ p ∈ pair.2.2.points
  valueAt : ∀ x, e.2.valueAt x =
    Option.map₂ (· && ·) (pair.1.2.valueAt x) (pair.2.2.valueAt x)

/-- The result of the double loop over a list of pairs, none of which collide. -/
inductive JoinedAll : List (Entry × Entry) → TableMap → Prop
  | nil : JoinedAll [] []
  | skip {pair pairs es} (h : FlavorAtom.and pair.1.1 pair.2.1 = none)
      (tail : JoinedAll pairs es) : JoinedAll (pair :: pairs) es
  | join {pair pairs e es} (h : Joined pair e) (tail : JoinedAll pairs es) :
      JoinedAll (pair :: pairs) (e :: es)

variable {pairs : List (Entry × Entry)} {es : TableMap} {e : Entry}

theorem JoinedAll.exists (h : ∀ pair ∈ pairs, pair.1.2.WellFormed ∧ pair.2.2.WellFormed) :
    ∃ es, JoinedAll pairs es := by
  induction pairs with
  | nil => exact ⟨[], .nil⟩
  | cons pair pairs ih =>
    obtain ⟨es, hes⟩ := ih fun pair hp => h pair (by simp [hp])
    cases hatom : FlavorAtom.and pair.1.1 pair.2.1 with
    | none => exact ⟨es, .skip hatom hes⟩
    | some atom =>
      obtain ⟨ha, hb⟩ := h pair (by simp)
      obtain ⟨table, hzip, hwf, hpts, hval⟩ := Table.zip_spec ha hb (· && ·)
      exact ⟨(atom, table) :: es, .join ⟨hatom, hzip, hwf, hpts, hval⟩ hes⟩

theorem JoinedAll.mem (h : JoinedAll pairs es) (he : e ∈ es) : ∃ pair ∈ pairs, Joined pair e := by
  induction h with
  | nil => simp at he
  | skip _ _ ih =>
    obtain ⟨pair, hmem, hj⟩ := ih he
    exact ⟨pair, by simp [hmem], hj⟩
  | @join pair _ _ _ hj _ ih =>
    rcases List.mem_cons.mp he with rfl | he
    · exact ⟨pair, by simp, hj⟩
    · obtain ⟨pair, hmem, hj⟩ := ih he
      exact ⟨pair, by simp [hmem], hj⟩

/-- Entries responsible for a flavor come from the pairs responsible for it. -/
theorem JoinedAll.filter (h : JoinedAll pairs es) (f : Option Text) :
    JoinedAll (pairs.filter (both f)) (es.filter fun e => e.1.contains f) := by
  induction h with
  | nil => exact .nil
  | @skip pair _ _ hnone _ ih =>
    have hb : both f pair = false := by
      rw [both, ← any_and, hnone]
      rfl
    simpa [hb] using ih
  | @join pair _ e _ hj _ ih =>
    have hb : both f pair = e.1.contains f := by
      rw [both, ← any_and, hj.atom]
      rfl
    cases he : e.1.contains f with
    | true => simpa [hb, he] using JoinedAll.join hj ih
    | false => simpa [hb, he] using ih

/-- A pair whose atom is new to the result is appended to it. -/
theorem andStep_new {out : TableMap} {pair : Entry × Entry} (h : Joined pair e)
    (hnew : e.1 ∉ out.map Prod.fst) : andStep out pair = some (out ++ [e]) := by
  have hne : ∀ d ∈ out, (d.1 == e.1) = false := by
    intro d hd
    rw [beq_eq_false_iff_ne]
    rintro heq
    exact hnew (heq ▸ List.mem_map_of_mem hd)
  have hfind : out.find? (fun d => d.1 == e.1) = none := by
    rw [List.find?_eq_none]
    intro d hd
    simp [hne d hd]
  have hfilter : out.filter (fun d => d.1 != e.1) = out := by
    rw [List.filter_eq_self]
    intro d hd
    simp [bne, hne d hd]
  simp [andStep, h.atom, h.table, remove, insert, hfind, hfilter]

/-- The double loop appends the joined entries, never meeting an atom twice. -/
theorem JoinedAll.foldlM (h : JoinedAll pairs es) (out : TableMap)
    (hnodup : ((out ++ es).map Prod.fst).Nodup) :
    pairs.foldlM andStep out = some (out ++ es) := by
  induction h generalizing out with
  | nil => simp
  | skip hnone _ ih =>
    simpa [andStep, hnone] using ih out hnodup
  | @join pair _ e _ hj _ ih =>
    have hnew : e.1 ∉ out.map Prod.fst := by
      rw [List.map_append, List.nodup_append] at hnodup
      intro hmem
      exact hnodup.2.2 _ hmem e.1 (by simp) rfl
    rw [List.foldlM_cons, andStep_new hj hnew]
    simpa using ih (out ++ [e]) (by simpa using hnodup)

/-- The entry responsible for a flavor in the joined map is joined from the two
that are responsible for it. -/
theorem JoinedAll.responsible {am bm : TableMap} (h : JoinedAll (am.product bm) es)
    {f : Option Text} {ea eb : Entry} (ha : am.filter (fun e => e.1.contains f) = [ea])
    (hb : bm.filter (fun e => e.1.contains f) = [eb]) :
    ∃ e, es.filter (fun e => e.1.contains f) = [e] ∧ Joined (ea, eb) e := by
  have hf := h.filter f
  have hboth : both f (ea, eb) = true := by
    have hea : ea ∈ am.filter fun e => e.1.contains f := by simp [ha]
    have heb : eb ∈ bm.filter fun e => e.1.contains f := by simp [hb]
    simp [both, (List.mem_filter.mp hea).2, (List.mem_filter.mp heb).2]
  rw [filter_product, ha, hb] at hf
  generalize es.filter (fun e => e.1.contains f) = found at hf ⊢
  cases hf with
  | skip hnone _ =>
    rw [both, ← any_and, hnone] at hboth
    simp at hboth
  | join hj htail =>
    cases htail
    exact ⟨_, rfl, hj⟩

theorem Partition.keys_nodup {m : TableMap} (h : m.Partition) : (m.map Prod.fst).Nodup := by
  rw [List.nodup_iff_count_le_one]
  intro k
  obtain ⟨f, hf⟩ := k.exists_contains
  obtain ⟨e, he⟩ := h f
  calc (m.map Prod.fst).count k = ((m.map Prod.fst).filter (·.contains f)).count k :=
        (List.count_filter (by simpa using hf)).symm
    _ = ([e].map Prod.fst).count k := by rw [List.filter_map, ← he]; rfl
    _ ≤ 1 := List.count_le_length

end TableMap

namespace Tables

/-- The atoms partition the flavors and every table is well formed. -/
def WellFormed : Tables → Prop
  | .true | .false => True
  | .map m => m.Partition ∧ ∀ e ∈ m, e.2.WellFormed

def points : Tables → List Point
  | .true | .false => []
  | .map m => m.flatMap fun e => e.2.points

/-- The truth value at a position of the line of versions of a flavor. -/
def valueAt (t : Tables) (f : Option Text) (x : Position) : Option Bool :=
  match t with
  | .true => some Bool.true
  | .false => some Bool.false
  | .map m => (m.find? fun e => e.1.contains f).bind fun e => e.2.valueAt x

theorem valueAt_map {m : TableMap} {f : Option Text} {e : Entry}
    (h : m.filter (fun e => e.1.contains f) = [e]) (x : Position) :
    (map m).valueAt f x = e.2.valueAt x := by
  simp [valueAt, ← List.head?_filter, h]

variable {t a b : Tables} {am bm : TableMap}

/-- No position falls outside the tables. -/
theorem WellFormed.exists_valueAt (h : t.WellFormed) (f : Option Text) (x : Position) :
    ∃ v, t.valueAt f x = some v := by
  cases t with
  | true | false => exact ⟨_, rfl⟩
  | map m =>
    obtain ⟨e, he⟩ := h.1 f
    have hmem : e ∈ m := List.mem_of_mem_filter (he ▸ List.mem_singleton_self e)
    have hlen := (h.2 e hmem).length_eq
    have hle := x.rank_le e.2.points
    rw [valueAt_map he x]
    exact ⟨_, List.getElem?_eq_getElem (by omega)⟩

/-- What combining two tables owes its caller. -/
structure Combined (op : Bool → Bool → Bool) (a b t : Tables) : Prop where
  wellFormed : t.WellFormed
  points : ∀ p ∈ t.points, p ∈ a.points ∨ p ∈ b.points
  valueAt : ∀ f x, t.valueAt f x = Option.map₂ op (a.valueAt f x) (b.valueAt f x)

/-- The double loop over two partitions joins their entries into a partition. -/
theorem exists_joinedAll (ha : (map am).WellFormed) (hb : (map bm).WellFormed) :
    ∃ es, TableMap.JoinedAll (am.product bm) es ∧ es.Partition := by
  have hwf : ∀ pair ∈ am.product bm, pair.1.2.WellFormed ∧ pair.2.2.WellFormed := by
    intro pair hp
    have hmem := List.mem_product.mp hp
    exact ⟨ha.2 _ hmem.1, hb.2 _ hmem.2⟩
  obtain ⟨es, hes⟩ := TableMap.JoinedAll.exists hwf
  refine ⟨es, hes, fun f => ?_⟩
  obtain ⟨ea, hea⟩ := ha.1 f
  obtain ⟨eb, heb⟩ := hb.1 f
  obtain ⟨e, he, -⟩ := hes.responsible hea heb
  exact ⟨e, he⟩

theorem and_of_joinedAll {es : TableMap} (hes : TableMap.JoinedAll (am.product bm) es)
    (hpart : es.Partition) : and (.map am) (.map bm) = some (.map es) := by
  rw [and, hes.foldlM [] (by simpa using hpart.keys_nodup)]
  rfl

theorem and_map_spec (ha : (map am).WellFormed) (hb : (map bm).WellFormed) :
    ∃ t, and (.map am) (.map bm) = some t ∧ Combined (· && ·) (.map am) (.map bm) t := by
  obtain ⟨es, hes, hpart⟩ := exists_joinedAll ha hb
  refine ⟨.map es, and_of_joinedAll hes hpart, ?_⟩
  refine ⟨⟨hpart, ?_⟩, ?_, ?_⟩
  · intro e he
    obtain ⟨_, _, hj⟩ := hes.mem he
    exact hj.wellFormed
  · intro p hp
    obtain ⟨e, he, hpe⟩ := List.mem_flatMap.mp hp
    obtain ⟨pair, hpair, hj⟩ := hes.mem he
    have hmem := List.mem_product.mp hpair
    exact (hj.points p hpe).imp (fun h => List.mem_flatMap.mpr ⟨pair.1, hmem.1, h⟩)
      (fun h => List.mem_flatMap.mpr ⟨pair.2, hmem.2, h⟩)
  · intro f x
    obtain ⟨ea, hea⟩ := ha.1 f
    obtain ⟨eb, heb⟩ := hb.1 f
    obtain ⟨e, he, hj⟩ := hes.responsible hea heb
    rw [valueAt_map he, valueAt_map hea, valueAt_map heb, hj.valueAt]

/-- Conjunction is pointwise and stays on a partition. -/
theorem and_spec (ha : a.WellFormed) (hb : b.WellFormed) :
    ∃ t, and a b = some t ∧ Combined (· && ·) a b t := by
  have htrue (o : Option Bool) : o = Option.map₂ (· && ·) (some Bool.true) o := by
    cases o <;> rfl
  have htrue' (o : Option Bool) : o = Option.map₂ (· && ·) o (some Bool.true) := by
    cases o <;> simp
  cases a with
  | true => exact ⟨b, by cases b <;> rfl, hb, fun p => .inr, fun _ _ => htrue _⟩
  | false =>
    refine ⟨.false, by cases b <;> rfl, trivial, by simp [points], fun f x => ?_⟩
    obtain ⟨v, hv⟩ := hb.exists_valueAt f x
    rw [hv]
    simp [valueAt]
  | map am =>
    cases b with
    | true => exact ⟨.map am, rfl, ha, fun p => .inl, fun _ _ => htrue' _⟩
    | false =>
      refine ⟨.false, rfl, trivial, by simp [points], fun f x => ?_⟩
      obtain ⟨v, hv⟩ := ha.exists_valueAt f x
      rw [hv]
      simp [valueAt]
    | map bm => exact and_map_spec ha hb

/-- Negation changes values only. -/
theorem not_spec (h : t.WellFormed) : t.not.WellFormed ∧ t.not.points = t.points ∧
      ∀ f x, t.not.valueAt f x = (t.valueAt f x).map (! ·) := by
  cases t with
  | true | false => exact ⟨trivial, rfl, fun _ _ => rfl⟩
  | map m =>
    refine ⟨⟨?_, ?_⟩, ?_, ?_⟩
    · intro f
      obtain ⟨e, he⟩ := h.1 f
      refine ⟨(e.1, { e.2 with values := e.2.values.map (! ·) }), ?_⟩
      rw [List.filter_map]
      simpa [Function.comp_def] using congrArg
        (List.map fun e => (e.1, Table.mk e.2.points (e.2.values.map (! ·)))) he
    · intro e he
      obtain ⟨d, hd, rfl⟩ := List.mem_map.mp he
      exact ⟨(h.2 d hd).increasing, by simpa using (h.2 d hd).length_eq⟩
    · simp [points, not, List.flatMap_map]
    · intro f x
      simp only [valueAt, not, List.find?_map, Function.comp_def]
      cases m.find? fun e => e.1.contains f with
      | none => rfl
      | some e => simp [Table.valueAt]

/-- Disjunction is pointwise and stays on a partition. -/
theorem or_spec (ha : a.WellFormed) (hb : b.WellFormed) :
    ∃ t, or a b = some t ∧ Combined (· || ·) a b t := by
  obtain ⟨hna, hpa, hva⟩ := not_spec ha
  obtain ⟨hnb, hpb, hvb⟩ := not_spec hb
  obtain ⟨t, hand, ht⟩ := and_spec hna hnb
  obtain ⟨hnt, hpt, hvt⟩ := not_spec ht.wellFormed
  refine ⟨t.not, by rw [or, hand]; rfl, hnt, ?_, ?_⟩
  · intro p hp
    rw [hpt] at hp
    rw [← hpa, ← hpb]
    exact ht.points p hp
  · intro f x
    rw [hvt, ht.valueAt, hva, hvb]
    cases a.valueAt f x <;> cases b.valueAt f x <;> simp

/-- One flavor on a table of its own and all others on a constant one. -/
theorem map_flavor_spec (f : Option Text) {t : Table} (ht : t.WellFormed) :
    (map [(.flavor f, t), (.flavorNot {f}, Table.fromValue Bool.false)]).WellFormed ∧
      ∀ g x, (map [(.flavor f, t), (.flavorNot {f}, Table.fromValue Bool.false)]).valueAt
        g x = if g = f then t.valueAt x else some Bool.false := by
  have hconst : (Table.fromValue Bool.false).WellFormed := ⟨.nil, rfl⟩
  refine ⟨⟨?_, by simp [ht, hconst]⟩, ?_⟩
  · intro g
    by_cases hg : g = f
    · exact ⟨(.flavor f, t), by simp [contains, hg]⟩
    · exact ⟨(.flavorNot {f}, .fromValue Bool.false), by simp [contains, hg]⟩
  · intro g x
    by_cases hg : g = f
    · simp [valueAt, contains, hg]
    · simp [valueAt, contains, hg, Table.fromValue, Table.valueAt]

theorem eqFlavor_spec (f : Option Text) : (eqFlavor f).WellFormed ∧ (eqFlavor f).points = [] ∧
      ∀ g x, (eqFlavor f).valueAt g x = some (g == f) := by
  obtain ⟨hwf, hval⟩ := map_flavor_spec f (t := Table.fromValue Bool.true) ⟨.nil, rfl⟩
  refine ⟨hwf, rfl, fun g x => ?_⟩
  rw [eqFlavor, hval]
  by_cases hg : g = f <;> simp [hg, Table.fromValue, Table.valueAt]

theorem cmp_spec (v : ExtendedVersion) (side : Int) (left right : Bool) :
    (cmp v side left right).WellFormed ∧
      (cmp v side left right).points = [⟨v.upstream, v.downstream, side⟩] ∧
      ∀ f x, (cmp v side left right).valueAt f x =
        some (f == v.flavor && if x.below ⟨v.upstream, v.downstream, side⟩ then right else left) := by
  obtain ⟨hwf, hval⟩ := map_flavor_spec v.flavor
    (t := Table.fromSplit ⟨v.upstream, v.downstream, side⟩ left right)
    ⟨List.pairwise_singleton _ _, rfl⟩
  refine ⟨hwf, rfl, fun f x => ?_⟩
  rw [cmp, hval]
  by_cases hf : f = v.flavor
  · cases hb : x.below ⟨v.upstream, v.downstream, side⟩ with
    | true => simp [hf, Table.fromSplit, Table.valueAt, x.rank_cons_below hb]
    | false => simp [hf, Table.fromSplit, Table.valueAt, x.rank_cons_not_below hb]
  · simp [hf]

end Tables

end StartTech.Exver.Sat

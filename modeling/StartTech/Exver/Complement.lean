import StartTech.Exver.Constructors
import StartTech.Exver.Correctness

/-!
# Complements

The tables of a range say at every position of the line whether it holds there, also between the
versions that there are. A range and its negation share no position and leave none out.
-/

namespace StartTech.Exver

open Foundation Foundation.Comparator

namespace Sat

/-- Every segment of a table has a position. -/
theorem Table.WellFormed.exists_position {t : Table} (h : t.WellFormed) {i : Nat}
    (hi : i ≤ t.points.length) : ∃ x : Position, t.valueAt x = t.values[i]? := by
  cases hq : t.points[i]? with
  | none =>
    refine ⟨⟨fun _ => true, fun _ _ => rfl, fun _ => rfl⟩, ?_⟩
    rw [Table.valueAt, (Cut.rank_eq_iff _ h.increasing hi).mpr ⟨fun _ _ => rfl, by simp [hq]⟩]
  | some q =>
    refine ⟨.at q, ?_⟩
    rw [Table.valueAt, (Cut.rank_eq_iff _ h.increasing hi).mpr ⟨?_, ?_⟩]
    · intro p hp
      obtain ⟨hne, hp⟩ := Option.ite_none_left_eq_some.mp hp
      obtain ⟨hlt, rfl⟩ := List.getElem?_eq_some_iff.mp hp
      obtain ⟨hlt', rfl⟩ := List.getElem?_eq_some_iff.mp hq
      exact beq_iff_eq.mpr (List.pairwise_iff_getElem.mp h.increasing _ _ hlt hlt' (by omega))
    · rw [hq]
      simp [Cut.at, Std.ReflCmp.compare_self]

/-- Tables are satisfiable if there is a position at which they are true. -/
theorem Tables.WellFormed.exists_valueAt_true {t : Tables} (h : t.WellFormed)
    (hs : t.satisfiable = Bool.true) : ∃ f x, t.valueAt f x = some Bool.true := by
  cases t with
  | true => exact ⟨none, .ofVersion ⟨none, .default, .default⟩, rfl⟩
  | false => cases hs
  | map m =>
    obtain ⟨e, he, f, i, hi, hvalue, hval⟩ := h.exists_cell hs
    obtain ⟨x, hx⟩ := (h.2 e he).exists_position hi
    exact ⟨f, x, by rw [hval, hx, hvalue]⟩

end Sat

namespace VersionRange

open Exver.Sat

/-- Whether a range holds at a position of the line of a flavor. -/
def truth (r : VersionRange) (f : Option Text) (x : Position) : Bool :=
  ((tablesOf r).bind fun t => t.valueAt f x).getD false

variable {a b r : VersionRange} {f : Option Text} {x : Position}

theorem exists_tables (r : VersionRange) :
    ∃ t, tablesOf r = some t ∧ t.WellFormed ∧ ∀ f x, t.valueAt f x = some (r.truth f x) := by
  obtain ⟨t, ht, hd⟩ := tablesOf_decides r
  refine ⟨t, ht, hd.wellFormed, fun f x => ?_⟩
  obtain ⟨v, hv⟩ := hd.wellFormed.exists_valueAt f x
  rw [truth, ht, Option.bind_some, hv, Option.getD_some]

theorem truth_complement (h : tablesOf a = (tablesOf b).map Tables.not) :
    a.truth f x = !b.truth f x := by
  obtain ⟨t, ht, hwf, hval⟩ := exists_tables b
  rw [truth, h, ht, Option.map_some, Option.bind_some, (Tables.not_spec hwf).2.2, hval]
  rfl

theorem truth_combined {op : Bool → Bool → Bool} {join : Tables → Tables → Option Tables}
    (h : tablesOf r = (tablesOf a).bind fun ta => (tablesOf b).bind (join ta))
    (hjoin : ∀ ta tb, ta.WellFormed → tb.WellFormed →
      ∃ t, join ta tb = some t ∧ Tables.Combined op ta tb t) :
    r.truth f x = op (a.truth f x) (b.truth f x) := by
  obtain ⟨ta, ha, hwfa, hvala⟩ := exists_tables a
  obtain ⟨tb, hb, hwfb, hvalb⟩ := exists_tables b
  obtain ⟨t, hand, ht⟩ := hjoin ta tb hwfa hwfb
  rw [truth, h, ha, hb, Option.bind_some, Option.bind_some, hand, Option.bind_some, ht.valueAt,
    hvala, hvalb]
  rfl

theorem truth_and : (VersionRange.and a b).truth f x = (a.truth f x && b.truth f x) :=
  truth_combined rfl fun _ _ => Tables.and_spec

@[simp] theorem truth_any : any.truth f x = true := rfl

@[simp] theorem truth_none : none.truth f x = false := rfl

theorem truth_smartAnd : (smartAnd a b).truth f x = (a.truth f x && b.truth f x) := by
  unfold smartAnd
  split
  · simp
  · simp
  · simp
  · simp
  · exact truth_and

theorem truth_smartOr : (smartOr a b).truth f x = (a.truth f x || b.truth f x) := by
  unfold smartOr
  split
  · simp
  · simp
  · simp
  · simp
  · exact truth_combined rfl fun _ _ => Tables.or_spec

theorem truth_smartNot (r : VersionRange) : (smartNot r).truth f x = !r.truth f x := by
  cases r with
  | anchor op v =>
    rw [smartNot]
    split_ifs with heq hne
    · subst heq
      exact truth_complement rfl
    · subst hne
      rw [truth_complement (a := .anchor NEQ v) (b := .anchor EQ v) rfl, Bool.not_not]
    · exact truth_complement rfl
  | not a => rw [truth_complement (a := .not a) rfl, Bool.not_not, smartNot]
  | any | none => rfl
  | and | or | flavor => exact truth_complement rfl

theorem satisfiable_iff (r : VersionRange) :
    ∃ b, r.satisfiable = some b ∧ (b = true ↔ ∃ f x, r.truth f x = true) := by
  obtain ⟨t, ht, hwf, hval⟩ := exists_tables r
  refine ⟨t.satisfiable, by rw [satisfiable, ht]; rfl, ?_⟩
  constructor
  · intro h
    obtain ⟨f, x, hx⟩ := hwf.exists_valueAt_true h
    exact ⟨f, x, Option.some.inj ((hval f x).symm.trans hx)⟩
  · rintro ⟨f, x, hx⟩
    exact Tables.satisfiable_of_valueAt (hx ▸ hval f x)

theorem satisfiable_congr (h : ∀ f x, a.truth f x = b.truth f x) :
    a.satisfiable = b.satisfiable := by
  obtain ⟨s, hs, hiff⟩ := satisfiable_iff a
  obtain ⟨s', hs', hiff'⟩ := satisfiable_iff b
  rw [hs, hs', Option.some_inj, Bool.eq_iff_iff, hiff, hiff']
  simp [h]

/-- A range and its negation share nothing and make up everything, and intersecting is symmetric. -/
theorem complement_laws (r s : VersionRange) :
    (smartAnd r (smartNot r)).satisfiable = some false ∧ r.intersects (smartNot r) = some false ∧
      (smartOr r (smartNot r)).satisfiable = some true ∧ r.intersects s = s.intersects r := by
  rw [intersects_eq, intersects_eq, intersects_eq]
  refine ⟨?_, ?_, ?_, ?_⟩
  · exact satisfiable_congr (b := none) (by simp [truth_smartAnd, truth_smartNot])
  · exact satisfiable_congr (b := none) (by simp [truth_and, truth_smartNot])
  · exact satisfiable_congr (b := any) (by simp [truth_smartOr, truth_smartNot])
  · exact satisfiable_congr (by simp [truth_and, Bool.and_comm])

end VersionRange

end StartTech.Exver

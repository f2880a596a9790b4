import StartTech.Exver.Correctness

/-!
# The line of versions is dense at parsed versions

A segment between two points of a table holds a version as soon as the points
lie beside parsed versions. The witness below or just above such a version has
an empty numeric prerelease identifier, which no text parses to: it sorts
before every identifier that a text can spell.
-/

namespace StartTech.Exver

open Foundation Foundation.Comparator Std
open Ordering (then_eq_lt)

namespace PreReleaseSegment

/-- The segment is a value of the source's type: its number is a machine word. -/
def Fits : PreReleaseSegment → Prop
  | .number n => n < Text.wordLimit
  | _ => True

/-- The least segment. -/
def least : PreReleaseSegment := .bigNumber []

theorem least_cmp {s : PreReleaseSegment} (h : s ≠ least) : cmp least s = .lt := by
  have hpos {t : Text} (ht : t ≠ []) : compare 0 t.byteLen = .lt := by
    obtain ⟨c, rest, rfl⟩ := List.exists_cons_of_ne_nil ht
    have hc := c.utf8Size_pos
    exact Nat.compare_eq_lt.mpr (by rw [Text.byteLen_cons]; omega)
  cases s with
  | number n =>
    have hne : Text.decimal n ≠ [] := List.ne_nil_of_length_pos Nat.length_toDigits_pos
    simp [cmp, least, cmpNumeric, hpos hne]
  | bigNumber t =>
    have hne : t ≠ [] := by
      rintro rfl
      exact h rfl
    simp [cmp, least, cmpNumeric, hpos hne]
  | string t => rfl

end PreReleaseSegment

open PreReleaseSegment (least)

namespace Version

structure Fits (v : Version) : Prop where
  number : ∀ n ∈ v.number, n < Text.wordLimit
  prerelease : ∀ s ∈ v.prerelease, s.Fits

/-- What parsing guarantees and the order needs: no segment is the least one. -/
structure Spelled (v : Version) : Prop extends v.Fits where
  least : least ∉ v.prerelease

theorem parsePrereleaseSegment_spelled {input seg : Text} {s : PreReleaseSegment}
    (h : parsePrereleaseSegment input seg = .ok s) : s.Fits ∧ s ≠ least := by
  unfold parsePrereleaseSegment at h
  split at h
  · simp at h
  · rename_i hne
    split at h
    · split at h
      · simp at h
      · split at h
        · rename_i hn
          cases h
          exact ⟨Text.parseUsize_lt hn, by simp [least]⟩
        · cases h
          exact ⟨trivial, by simpa [least] using hne⟩
    · split at h
      · simp at h
      · cases h
        exact ⟨trivial, by simp [least]⟩

variable {v w : Version} {l : List PreReleaseSegment}

/-- Parsed versions fit and do not have the least segment. -/
theorem fromStr_spelled {s : Text} (h : fromStr s = .ok v) : v.Spelled := by
  obtain ⟨hnum, hpre⟩ := fromStr_eq_ok h
  have hsegs : ∀ seg ∈ v.prerelease, seg.Fits ∧ seg ≠ least := by
    intro seg hseg
    obtain ⟨_, hok⟩ := exists_of_parsePrerelease hpre hseg
    exact parsePrereleaseSegment_spelled hok
  refine ⟨⟨?_, fun seg hseg => (hsegs seg hseg).1⟩, fun hmem => (hsegs _ hmem).2 rfl⟩
  intro n hn
  obtain ⟨_, _, hparse⟩ := Fallible.exists_of_mapM_some hnum hn
  exact Text.parseUsize_lt hparse

theorem default_fits : default.Fits := ⟨by simp [default, Text.wordLimit], by simp [default]⟩

theorem cmpNumber_lt_concat (l : List Nat) : cmpNumber l (l ++ [1]) = .lt := by
  induction l with
  | nil => rfl
  | cons n l ih =>
    rw [cmpNumber_unfold]
    simpa using ih

theorem cmpNumber_zero_ne_gt (l : List Nat) : cmpNumber [0] l ≠ .gt := by
  have hnil (l : List Nat) : cmpNumber [] l ≠ .gt := by
    induction l with
    | nil => decide
    | cons n l ih =>
      rw [cmpNumber_unfold]
      rcases Nat.eq_zero_or_pos n with rfl | hn
      · simpa using ih
      · simp [Nat.compare_eq_lt.mpr hn]
  have hzero : cmpNumber [0] l = cmpNumber [] l := by
    rw [cmpNumber_unfold [0], cmpNumber_unfold []]
    rfl
  exact hzero ▸ hnil l

/-- A prerelease comes before the release and before later prereleases. -/
theorem cmpPrerelease_eq_lt_iff (l m : List PreReleaseSegment) : cmpPrerelease l m = .lt ↔
      l ≠ [] ∧ (m = [] ∨ List.compareLex PreReleaseSegment.cmp l m = .lt) := by
  cases l with
  | nil => cases m <;> exact iff_of_false nofun (by simp)
  | cons s l =>
    cases m with
    | nil => exact ⟨fun _ => ⟨by simp, .inl rfl⟩, fun _ => rfl⟩
    | cons t m => simp [cmpPrerelease]

theorem compareLex_lt_concat (l : List PreReleaseSegment) (s : PreReleaseSegment) :
    List.compareLex PreReleaseSegment.cmp l (l ++ [s]) = .lt := by
  induction l with
  | nil => rfl
  | cons t l ih =>
    have ht : PreReleaseSegment.cmp t t = .eq := ReflCmp.compare_self
    simp [List.compareLex_cons_cons, ht, ih]

theorem compareLex_least (hne : l ≠ []) (h : least ∉ l) :
    List.compareLex PreReleaseSegment.cmp [least] l = .lt := by
  obtain ⟨s, l, rfl⟩ := List.exists_cons_of_ne_nil hne
  have hs : s ≠ least := by
    rintro rfl
    exact h (by simp)
  simp [List.compareLex_cons_cons, PreReleaseSegment.least_cmp hs]

theorem cmpPrerelease_least (h : least ∉ l) : cmpPrerelease [least] l = .lt := by
  rw [cmpPrerelease_eq_lt_iff]
  refine ⟨by simp, ?_⟩
  by_cases hne : l = []
  · exact .inl hne
  · exact .inr (compareLex_least hne h)

/-- Appending the least segment stays below everything that was above. -/
theorem compareLex_concat_least {m : List PreReleaseSegment} (hm : least ∉ m)
    (h : List.compareLex PreReleaseSegment.cmp l m = .lt) :
    List.compareLex PreReleaseSegment.cmp (l ++ [least]) m = .lt := by
  induction l generalizing m with
  | nil =>
    cases m with
    | nil => nomatch h
    | cons s m => exact compareLex_least (by simp) hm
  | cons t l ih =>
    cases m with
    | nil => nomatch h
    | cons s m =>
      rw [List.compareLex_cons_cons, then_eq_lt] at h
      rw [List.cons_append, List.compareLex_cons_cons, then_eq_lt]
      refine h.imp id fun htail => ⟨htail.1, ih ?_ htail.2⟩
      exact fun hmem => hm (by simp [hmem])

theorem exists_below (hw : w.Spelled) : ∃ m : Version, m.Fits ∧ m.cmp w = .lt := by
  refine ⟨⟨[0], [least]⟩, ⟨?_, ?_⟩, ?_⟩
  · simp [Text.wordLimit]
  · simp [least, PreReleaseSegment.Fits]
  · have hnum := cmpNumber_zero_ne_gt w.number
    rw [cmp, then_eq_lt]
    cases hc : cmpNumber [0] w.number with
    | lt => exact .inl rfl
    | eq => exact .inr ⟨rfl, cmpPrerelease_least hw.least⟩
    | gt => exact absurd hc hnum

theorem exists_above (hw : w.Fits) : ∃ m : Version, m.Fits ∧ w.cmp m = .lt := by
  refine ⟨⟨w.number ++ [1], []⟩, ⟨?_, by simp⟩, ?_⟩
  · intro n hn
    rcases List.mem_append.mp hn with hn | hn
    · exact hw.number n hn
    · rw [List.mem_singleton.mp hn]
      decide
  · rw [cmp, cmpNumber_lt_concat]
    rfl

theorem exists_between (hv : v.Spelled) (hw : w.Spelled) (h : v.cmp w = .lt) :
    ∃ m : Version, m.Fits ∧ v.cmp m = .lt ∧ m.cmp w = .lt := by
  have hfits : least.Fits := trivial
  have hself (l : List Nat) : cmpNumber l l = .eq := ReflCmp.compare_self
  rw [cmp, then_eq_lt] at h
  rw [cmpPrerelease_eq_lt_iff] at h
  rcases h with hnum | ⟨hnum, hpre⟩
  · refine ⟨⟨w.number, [least]⟩, ⟨hw.number, by simpa using hfits⟩, ?_, ?_⟩
    · simp [cmp, hnum]
    · simp [cmp, hself, cmpPrerelease_least hw.least]
  · refine ⟨⟨v.number, v.prerelease ++ [least]⟩, ⟨hv.number, ?_⟩, ?_, ?_⟩
    · intro s hs
      rcases List.mem_append.mp hs with hs | hs
      · exact hv.prerelease s hs
      · rw [List.mem_singleton.mp hs]
        exact hfits
    · rw [cmp, then_eq_lt, cmpPrerelease_eq_lt_iff]
      exact .inr ⟨hself _, hpre.1, .inr (compareLex_lt_concat _ _)⟩
    · rw [cmp, then_eq_lt, cmpPrerelease_eq_lt_iff]
      exact .inr ⟨hnum, by simp, hpre.2.imp id (compareLex_concat_least hw.least)⟩

end Version

namespace Sat

namespace Point

/-- Both versions of the point have the shape that parsing guarantees. -/
structure Spelled (p : Point) : Prop where
  upstream : p.upstream.Spelled
  downstream : p.downstream.Spelled
  side : p.side = -1 ∨ p.side = 1

/-- A version on the line, with its flavor left open. -/
def mid (upstream downstream : Version) : Point := ⟨upstream, downstream, 0⟩

variable {q p : Point}

theorem exists_below (hq : q.Spelled) :
    ∃ u d : Version, u.Fits ∧ d.Fits ∧ (mid u d).cmp q = .lt := by
  obtain ⟨d, hd, hlt⟩ := Version.exists_below hq.downstream
  have hself : q.upstream.cmp q.upstream = .eq := ReflCmp.compare_self
  exact ⟨q.upstream, d, hq.upstream.toFits, hd, by simp [cmp, mid, hself, hlt]⟩

theorem exists_above (hp : p.Spelled) :
    ∃ u d : Version, u.Fits ∧ d.Fits ∧ p.cmp (mid u d) = .lt := by
  obtain ⟨d, hd, hlt⟩ := Version.exists_above hp.downstream.toFits
  have hself : p.upstream.cmp p.upstream = .eq := ReflCmp.compare_self
  exact ⟨p.upstream, d, hp.upstream.toFits, hd, by simp [cmp, mid, hself, hlt]⟩

theorem exists_between (hp : p.Spelled) (hq : q.Spelled) (h : p.cmp q = .lt) :
    ∃ u d : Version, u.Fits ∧ d.Fits ∧ p.cmp (mid u d) = .lt ∧ (mid u d).cmp q = .lt := by
  have hself (v : Version) : v.cmp v = .eq := ReflCmp.compare_self
  rw [cmp, then_eq_lt, then_eq_lt] at h
  rcases h with hup | ⟨hup, hdown | ⟨hdown, hside⟩⟩
  · -- The upstreams differ: revise the downstream of the lower point upwards.
    obtain ⟨d, hd, hlt⟩ := Version.exists_above hp.downstream.toFits
    exact ⟨p.upstream, d, hp.upstream.toFits, hd, by simp [cmp, mid, hself, hlt],
      by simp [cmp, mid, hup]⟩
  · obtain ⟨d, hd, hlt, hgt⟩ := Version.exists_between hp.downstream hq.downstream hdown
    exact ⟨p.upstream, d, hp.upstream.toFits, hd, by simp [cmp, mid, hself, hlt],
      by simp [cmp, mid, hup, hgt]⟩
  · -- Only the version itself lies between its two sides.
    have hlt : p.side < q.side := compare_lt_iff_lt.mp hside
    have hps : compare p.side 0 = .lt :=
      compare_lt_iff_lt.mpr (by rcases hp.side with h | h <;> rcases hq.side with h' | h' <;> omega)
    have hqs : compare 0 q.side = .lt :=
      compare_lt_iff_lt.mpr (by rcases hp.side with h | h <;> rcases hq.side with h' | h' <;> omega)
    exact ⟨p.upstream, p.downstream, hp.upstream.toFits, hp.downstream.toFits,
      by simp [cmp, mid, hself, hps],
      by simp [cmp, mid, hup, hdown, hqs]⟩

end Point

variable {t : Table} {i : Nat}

/-- Every segment of a table beside parsed versions holds a version. -/
theorem Table.WellFormed.exists_in_segment (h : t.WellFormed) (hpts : ∀ p ∈ t.points, p.Spelled)
    (hle : i ≤ t.points.length) :
    ∃ u d : Version, u.Fits ∧ d.Fits ∧
      ∀ f, t.valueAt (Position.ofVersion ⟨f, u, d⟩) = t.values[i]? := by
  have hseg (u d : Version)
      (hlast : ∀ p ∈ if i = 0 then none else t.points[i - 1]?, p.cmp (.mid u d) = .lt)
      (hhead : ∀ q ∈ t.points[i]?, (Point.mid u d).cmp q = .lt) (f : Option Text) :
      t.valueAt (.ofVersion ⟨f, u, d⟩) = t.values[i]? := by
    rw [Table.valueAt, (Cut.rank_eq_iff _ h.increasing hle).mpr ⟨?_, ?_⟩]
    · intro p hp
      exact beq_iff_eq.mpr (hlast p hp)
    · intro q hq
      have hgt : q.cmp (.mid u d) = .gt := OrientedCmp.gt_of_lt (hhead q hq)
      change (q.cmp (.mid u d) == .lt) = false
      rw [hgt]
      rfl
  cases hp : if i = 0 then none else t.points[i - 1]? with
  | none =>
    cases hq : t.points[i]? with
    | none =>
      exact ⟨.default, .default, Version.default_fits, Version.default_fits,
        hseg _ _ (by simp [hp]) (by simp [hq])⟩
    | some q =>
      obtain ⟨u, d, hu, hd, hlt⟩ := Point.exists_below (hpts q (List.mem_of_getElem? hq))
      exact ⟨u, d, hu, hd, hseg u d (by simp [hp]) (by simpa [hq] using hlt)⟩
  | some p =>
    obtain ⟨hi, hp'⟩ := (Option.ite_none_left_eq_some).mp hp
    have hmem := List.mem_of_getElem? hp'
    cases hq : t.points[i]? with
    | none =>
      obtain ⟨u, d, hu, hd, hlt⟩ := Point.exists_above (hpts p hmem)
      exact ⟨u, d, hu, hd, hseg u d (by simpa [hp] using hlt) (by simp [hq])⟩
    | some q =>
      have hpq : p.cmp q = .lt := by
        obtain ⟨hlt, rfl⟩ := List.getElem?_eq_some_iff.mp hp'
        obtain ⟨hlt', rfl⟩ := List.getElem?_eq_some_iff.mp hq
        exact List.pairwise_iff_getElem.mp h.increasing _ _ hlt hlt' (by omega)
      obtain ⟨u, d, hu, hd, hlt, hgt⟩ :=
        Point.exists_between (hpts p hmem) (hpts q (List.mem_of_getElem? hq)) hpq
      exact ⟨u, d, hu, hd, hseg u d (by simpa [hp] using hlt) (by simpa [hq] using hgt)⟩

end Sat

namespace ExtendedVersion

structure Fits (v : ExtendedVersion) : Prop where
  upstream : v.upstream.Fits
  downstream : v.downstream.Fits

/-- The version comes from a text. -/
def Parsed (v : ExtendedVersion) : Prop := ∃ s, fromStr s = .ok v

variable {v : ExtendedVersion}

theorem Parsed.spelled (h : v.Parsed) : v.upstream.Spelled ∧ v.downstream.Spelled := by
  obtain ⟨_, h⟩ := h
  obtain ⟨-, -, _, -, hu, hd⟩ := fromStr_eq_ok h
  exact ⟨Version.fromStr_spelled hu, Version.fromStr_spelled hd⟩

end ExtendedVersion

/-- A range over parsed versions that is reported satisfiable holds a version. -/
theorem VersionRange.exists_satisfies {r : VersionRange} (hr : ∀ w ∈ r.anchors, w.Parsed)
    (h : r.satisfiable = some true) : ∃ v : ExtendedVersion, v.Fits ∧ v.satisfies r = true := by
  obtain ⟨t, ht, hd⟩ := Sat.tablesOf_decides r
  have hsat : t.satisfiable = true := by simpa [VersionRange.satisfiable, ht] using h
  have hval := hd.valueAt
  cases t with
  | true => exact ⟨⟨Option.none, .default, .default⟩, ⟨Version.default_fits, Version.default_fits⟩,
      (Option.some.inj (hval _)).symm⟩
  | false => simp [Sat.Tables.satisfiable] at hsat
  | map m =>
    obtain ⟨e, he, f, i, hi, hvalue, hcell⟩ := hd.wellFormed.exists_cell hsat
    have hpts : ∀ p ∈ e.2.points, p.Spelled := by
      intro p hp
      obtain ⟨hside, w, hw, hup, hdown⟩ := hd.points p (List.mem_flatMap.mpr ⟨e, he, hp⟩)
      exact ⟨hup ▸ (hr w hw).spelled.1, hdown ▸ (hr w hw).spelled.2, hside⟩
    obtain ⟨u, d, hu, hdf, hseg⟩ := (hd.wellFormed.2 e he).exists_in_segment hpts hi
    refine ⟨⟨f, u, d⟩, ⟨hu, hdf⟩, ?_⟩
    have hv := hval ⟨f, u, d⟩
    rw [hcell, hseg f, hvalue] at hv
    exact (Option.some.inj hv).symm

/-- Over parsed versions, satisfiability is exact: a reported range holds a version
and two ranges reported to intersect share one. -/
theorem satisfiable_exact :
    (∀ r : VersionRange, (∀ w ∈ r.anchors, w.Parsed) → r.satisfiable = some true →
      ∃ v : ExtendedVersion, v.Fits ∧ v.satisfies r = true) ∧
      ∀ a b : VersionRange, (∀ w ∈ a.anchors, w.Parsed) → (∀ w ∈ b.anchors, w.Parsed) →
        a.intersects b = some true →
        ∃ v : ExtendedVersion, v.Fits ∧ v.satisfies a = true ∧ v.satisfies b = true := by
  refine ⟨fun r hr h => VersionRange.exists_satisfies hr h, ?_⟩
  intro a b ha hb h
  rw [VersionRange.intersects_eq] at h
  have hanchors : ∀ w ∈ (VersionRange.and a b).anchors, w.Parsed := by
    intro w hw
    exact (List.mem_append.mp hw).elim (ha w) (hb w)
  obtain ⟨v, hfits, hv⟩ := VersionRange.exists_satisfies hanchors h
  simp only [ExtendedVersion.satisfies, Bool.and_eq_true] at hv
  exact ⟨v, hfits, hv⟩

/-- `0-0:0-0`, the least version that a text can spell. -/
def ExtendedVersion.zero : ExtendedVersion :=
  ⟨none, ⟨[0], [.number 0]⟩, ⟨[0], [.number 0]⟩⟩

open ExtendedVersion (zero)

theorem ExtendedVersion.zero_parsed : zero.Parsed :=
  ⟨"0-0:0-0".toList, by decide⟩

/-- Even the range below the least spelled version holds a version. -/
theorem satisfiable_exact_below_zero : (∃ v : ExtendedVersion, v.Fits ∧
      v.satisfies (.anchor LT ExtendedVersion.zero) = true) ∧
      ∃ v : ExtendedVersion, v.Fits ∧ v.satisfies (.anchor LT ExtendedVersion.zero) = true ∧
        v.satisfies (.anchor NEQ ExtendedVersion.zero) = true := by
  have hparsed (op : Operator) : ∀ w ∈ (VersionRange.anchor op zero).anchors, w.Parsed := by
    intro w hw
    rw [List.mem_singleton.mp hw]
    exact ExtendedVersion.zero_parsed
  exact ⟨satisfiable_exact.1 _ (hparsed LT) (by decide),
    satisfiable_exact.2 _ _ (hparsed LT) (hparsed NEQ) (by decide)⟩

namespace Version

/-- The identifier zero is the least one that a text can spell. -/
theorem parsePrereleaseSegment_ge_zero {input seg : Text} {s : PreReleaseSegment}
    (h : parsePrereleaseSegment input seg = .ok s) : s.cmp (.number 0) ≠ .lt := by
  unfold parsePrereleaseSegment at h
  split at h
  · simp at h
  · rename_i hne
    split at h
    · rename_i hdigits
      split at h
      · simp at h
      · split at h
        · cases h
          simp [PreReleaseSegment.cmp, Nat.compare_eq_lt]
        · cases h
          have hdigit : ∀ c ∈ seg, c.isDigit = true := List.all_eq_true.mp hdigits
          have hpos : 0 < seg.length := List.length_pos_of_ne_nil (by simpa using hne)
          have hzero : Text.decimal 0 = ['0'] := rfl
          have hzeroDigit : ∀ c ∈ ['0'], c.isDigit = true := by
            intro c hc
            rw [List.mem_singleton.mp hc]
            rfl
          simp only [PreReleaseSegment.cmp, PreReleaseSegment.cmpNumeric, hzero,
            Text.byteLen_eq_length_of_isDigit hdigit, ne_eq, then_eq_lt,
            Nat.compare_eq_lt, Nat.compare_eq_eq]
          rintro (hlt | ⟨hlen, hlt⟩)
          · exact absurd hlt (by change ¬ seg.length < 1; omega)
          · rw [Text.compare_digits seg ['0'] hdigit hzeroDigit hlen, Nat.compare_eq_lt] at hlt
            exact absurd hlt (Nat.not_lt_zero _)
    · split at h
      · simp at h
      · cases h
        simp [PreReleaseSegment.cmp]

theorem fromStr_ge_zero {s : Text} {v : Version} (h : fromStr s = .ok v) :
    v.cmp ⟨[0], [.number 0]⟩ ≠ .lt := by
  rw [cmp, ne_eq, then_eq_lt, cmpPrerelease_eq_lt_iff]
  rintro (hlt | ⟨-, hne, hempty | hlt⟩)
  · exact cmpNumber_zero_ne_gt v.number (OrientedCmp.gt_of_lt hlt)
  · simp at hempty
  · obtain ⟨seg, segs, hsegs⟩ := List.exists_cons_of_ne_nil hne
    obtain ⟨_, hok⟩ := exists_of_parsePrerelease (fromStr_eq_ok h).2
      (hsegs ▸ List.mem_cons_self : seg ∈ v.prerelease)
    rw [hsegs, List.compareLex_cons_cons, then_eq_lt] at hlt
    rcases hlt with hlt | ⟨-, hlt⟩
    · exact parsePrereleaseSegment_ge_zero hok hlt
    · cases segs <;> nomatch hlt

end Version

/-- The version that makes the range below `0-0:0-0` satisfiable is not one that a
text can spell. -/
theorem ExtendedVersion.Parsed.not_below_zero {v : ExtendedVersion} (h : v.Parsed) :
    v.satisfies (.anchor LT .zero) = false := by
  obtain ⟨_, h⟩ := h
  obtain ⟨-, -, _, -, hu, hd⟩ := ExtendedVersion.fromStr_eq_ok h
  have hlt : (v.upstream.cmp ⟨[0], [.number 0]⟩).then (v.downstream.cmp ⟨[0], [.number 0]⟩) ≠
      .lt := by
    rw [ne_eq, then_eq_lt]
    rintro (hlt | ⟨-, hlt⟩)
    · exact Version.fromStr_ge_zero hu hlt
    · exact Version.fromStr_ge_zero hd hlt
  simp only [ExtendedVersion.satisfies, ExtendedVersion.partialCmp]
  by_cases hf : v.flavor = zero.flavor
  · rw [if_pos hf]
    exact beq_eq_false_iff_ne.mpr hlt
  · rw [if_neg hf]
    rfl

end StartTech.Exver

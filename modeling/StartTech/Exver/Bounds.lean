import StartTech.Exver.Acceptance
import StartTech.Exver.Correctness
import StartTech.Exver.Equality

/-!
# Carets and tildes

The bound of a caret raises the first number that is not zero, and the bound of a tilde the one
behind it. Both are computed from a text, where any number may be the greatest word.
-/

namespace StartTech.Exver

open Foundation

/-- The place of the first number that is not zero, or of the first one. -/
def leadIdx (number : List Nat) : Nat := (number.findIdx? (· != 0)).getD 0

/-- The number at a place, with zeros behind the last one. -/
def numberAt (number : List Nat) (i : Nat) : Nat := number[i]?.getD 0

/-- Keep the numbers before a place and add one to the next. -/
def raised (i : Nat) (number : List Nat) : List Nat := number.take i ++ [numberAt number i + 1]

variable {number zeros : List Nat} {i : Nat} {v w : ExtendedVersion}

theorem cmpNumber_raised (hi : i ≤ number.length) :
    Version.cmpNumber number (raised i number) = .lt := by
  induction number generalizing i with
  | nil =>
    obtain rfl := Nat.le_zero.mp hi
    rfl
  | cons n rest ih =>
    cases i with
    | zero => exact congrArg (Ordering.then · _) (Nat.compare_eq_lt.mpr n.lt_succ_self)
    | succ i =>
      have hself : compare n n = .eq := Std.ReflOrd.compare_self
      exact (congrArg (Ordering.then · _) hself).trans (ih (Nat.le_of_succ_le_succ hi))

theorem raised_append (tail : List Nat) (hi : i < number.length) :
    raised i (number ++ tail) = raised i number := by
  rw [raised, numberAt, List.take_append_of_le_length hi.le, List.getElem?_append_left hi, raised,
    numberAt]

theorem raised_raised (hi : i < number.length) :
    raised i (raised (i + 1) number) = raised i number := by
  have hlen : i < (number.take (i + 1)).length := by
    rw [List.length_take]
    omega
  calc raised i (raised (i + 1) number)
    _ = raised i (number.take (i + 1)) := raised_append _ hlen
    _ = raised i (number.take (i + 1) ++ number.drop (i + 1)) := (raised_append _ hlen).symm
    _ = raised i number := by rw [List.take_append_drop]

theorem numberAt_append (hzeros : ∀ z ∈ zeros, z = 0) (i : Nat) :
    numberAt (number ++ zeros) i = numberAt number i := by
  rw [numberAt, numberAt, List.getElem?_append]
  split_ifs with hlt
  · rfl
  · rw [List.getElem?_eq_none (Nat.le_of_not_lt hlt)]
    cases hz : zeros[i - number.length]? with
    | none => rfl
    | some z => exact hzeros z (List.mem_of_getElem? hz)

/-- The significant numbers are those without some zeros at the end. -/
theorem semanticNumber_append {v : Version} (h : v.number ≠ []) :
    ∃ sem zeros, v.semanticNumber = some sem ∧ v.number = sem ++ zeros ∧ (∀ z ∈ zeros, z = 0) ∧
      majorIdx sem < sem.length ∧ majorIdx sem = leadIdx v.number := by
  obtain ⟨n, rest, hnum, hsem⟩ := Version.semanticNumber_eq h
  have hzeros : ∀ z ∈ rest.rtakeWhile (· == 0), z = 0 := fun z hz => by
    simpa using List.mem_rtakeWhile_imp hz
  have hsplit : v.number = n :: rest.rdropWhile (· == 0) ++ rest.rtakeWhile (· == 0) := by
    rw [hnum, List.cons_append, List.rdropWhile_append_rtakeWhile]
  refine ⟨_, _, hsem, hsplit, hzeros, majorIdx_lt (by simp), ?_⟩
  have hnone : (rest.rtakeWhile (· == 0)).findIdx? (· != 0) = none :=
    List.findIdx?_eq_none_iff.mpr fun z hz => by simp [hzeros z hz]
  rw [leadIdx, hsplit, List.findIdx?_append, hnone, Option.map_none, majorIdx]
  cases hidx : (n :: rest.rdropWhile (· == 0)).findIdx? (· != 0) with
  | some i => rfl
  | none =>
    have hall := List.findIdx?_eq_none_iff.mp hidx
    by_cases hne : rest.rdropWhile (· == 0) = []
    · rw [hne]
      rfl
    · have hlast := List.rdropWhile_last_not (· == 0) rest hne
      exact absurd (hall _ (List.mem_cons_of_mem _ (List.getLast_mem hne))) (by simpa using hlast)

theorem leadIdx_lt (h : number ≠ []) : leadIdx number < number.length := by
  obtain ⟨sem, zeros, -, rfl, -, hlt, hidx⟩ := semanticNumber_append (v := ⟨number, []⟩) h
  rw [← hidx, List.length_append]
  omega

namespace ExtendedVersion

open VersionRange (smartAnd caretMax tildeMax)

/-- The bound that raises the upstream number of a version at a place. -/
def upper (v : ExtendedVersion) (i : Nat) : ExtendedVersion :=
  ⟨v.flavor, ⟨raised i v.upstream.number, v.upstream.prerelease⟩, .default⟩

/-- Raising the number at a place does not leave the words. -/
def Raises (v : ExtendedVersion) (i : Nat) : Prop :=
  numberAt v.upstream.number i + 1 < Text.wordLimit

/-- The place that a caret raises; a tilde raises the next one. -/
def caretIdx (v : ExtendedVersion) : Nat := leadIdx v.upstream.number

/-- The bound as machine words give it. -/
def wrapped (v : ExtendedVersion) (i : Nat) : ExtendedVersion :=
  ⟨v.flavor, ⟨v.upstream.number.take i ++ [wordSucc (numberAt v.upstream.number i)],
    v.upstream.prerelease⟩, .default⟩

theorem wrapped_eq_upper_iff : v.wrapped i = v.upper i ↔ v.Raises i := by
  rw [wrapped, upper, raised, Raises]
  constructor
  · intro h
    have hsucc : wordSucc (numberAt v.upstream.number i) = numberAt v.upstream.number i + 1 := by
      simpa using h
    exact hsucc ▸ VersionRange.wordSucc_lt _
  · intro h
    rw [wordSucc, Nat.mod_eq_of_lt h]

theorem caretMax_eq (h : v.upstream.number ≠ []) : caretMax v = some (v.wrapped v.caretIdx) := by
  obtain ⟨sem, zeros, hsem, hnum, hzeros, hlt, hidx⟩ := semanticNumber_append h
  rw [wrapped, caretIdx, ← hidx, hnum, numberAt_append hzeros, numberAt,
    List.getElem?_eq_getElem hlt, List.take_append_of_le_length hlt.le, caretMax, hsem]
  simp [hlt]

theorem tildeMax_eq (h : v.upstream.number ≠ []) :
    tildeMax v = some (v.wrapped (v.caretIdx + 1)) := by
  obtain ⟨sem, zeros, hsem, hnum, hzeros, hlt, hidx⟩ := semanticNumber_append h
  rw [wrapped, caretIdx, ← hidx, hnum, numberAt_append hzeros, numberAt,
    List.take_append_of_le_length hlt, List.take_add_one, tildeMax, hsem]
  simp

/-- The range from a version up to a bound. -/
def upTo (v max : ExtendedVersion) : VersionRange := smartAnd (.anchor GTE v) (.anchor LT max)

/-- A version lies from an anchor on and below the bound that is raised at a place. -/
def Reaches (v : ExtendedVersion) (i : Nat) (w : ExtendedVersion) : Prop :=
  w.flavor = v.flavor ∧ w.partialCmp v ≠ some .lt ∧ w.partialCmp (v.upper i) = some .lt

theorem satisfies_bounds :
    w.satisfies (v.upTo (v.upper i)) = true ↔ v.Reaches i w := by
  by_cases hf : w.flavor = v.flavor
  · simp [upTo, smartAnd, satisfies, Reaches, upper, partialCmp, hf, GTE, LT, Operator.accepts]
  · simp [upTo, smartAnd, satisfies, Reaches, partialCmp, hf, GTE, NEQ]

theorem partialCmp_eq_lt : v.partialCmp w = some .lt ↔
    v.flavor = w.flavor ∧ (Sat.Point.ofVersion v).cmp (Sat.Point.ofVersion w) = .lt := by
  simp [partialCmp, Sat.Point.cmp, Sat.Point.ofVersion]

theorem partialCmp_upper (hi : i ≤ v.upstream.number.length) :
    v.partialCmp (v.upper i) = some .lt := by
  simp [partialCmp, upper, Version.cmp, cmpNumber_raised hi]

theorem reaches_self (hi : i ≤ v.upstream.number.length) : v.Reaches i v := by
  have hself (v : Version) : v.cmp v = .eq := Std.ReflCmp.compare_self
  exact ⟨rfl, by simp [partialCmp, hself], partialCmp_upper hi⟩

theorem Reaches.caret (hi : i < v.upstream.number.length) (h : v.Reaches (i + 1) w) :
    v.Reaches i w := by
  have hupper : (v.upper (i + 1)).upper i = v.upper i := by
    simp [upper, raised_raised hi]
  have hlt := partialCmp_upper (i := i) (v := v.upper (i + 1)) (by simp [upper, raised]; omega)
  rw [hupper, partialCmp_eq_lt] at hlt
  obtain ⟨hflavor, hge, hbelow⟩ := h
  rw [partialCmp_eq_lt] at hbelow
  exact ⟨hflavor, hge, partialCmp_eq_lt.mpr
    ⟨hbelow.1.trans hlt.1, Std.TransCmp.lt_trans hbelow.2 hlt.2⟩⟩

theorem caret_eq (h : v.upstream.number ≠ []) :
    VersionRange.caret v = some (v.upTo (v.wrapped v.caretIdx)) :=
  congrArg (Option.map _) (caretMax_eq h)

theorem tilde_eq (h : v.upstream.number ≠ []) :
    VersionRange.tilde v = some (v.upTo (v.wrapped (v.caretIdx + 1))) :=
  congrArg (Option.map _) (tildeMax_eq h)

/-- The ranges of a caret and of a tilde nest around their anchor. -/
theorem caret_tilde_nest (v : ExtendedVersion) (h : v.upstream.number ≠ [])
    (hc : v.Raises v.caretIdx) (ht : v.Raises (v.caretIdx + 1)) :
    ∃ c t, VersionRange.caret v = some c ∧ VersionRange.tilde v = some t ∧ v.satisfies t = true ∧
      ∀ w : ExtendedVersion, (w.satisfies t = true → w.satisfies c = true) ∧
        (w.satisfies c = true ↔ v.Reaches v.caretIdx w) ∧
        (w.satisfies t = true ↔ v.Reaches (v.caretIdx + 1) w) := by
  have hlt := leadIdx_lt h
  refine ⟨v.upTo (v.upper v.caretIdx), v.upTo (v.upper (v.caretIdx + 1)), ?_, ?_,
    satisfies_bounds.mpr (reaches_self hlt), fun w => ?_⟩
  · rw [caret_eq h, wrapped_eq_upper_iff.mpr hc]
  · rw [tilde_eq h, wrapped_eq_upper_iff.mpr ht]
  · rw [satisfies_bounds, satisfies_bounds]
    exact ⟨.caret hlt, .rfl, .rfl⟩

/-- The version `0.2.5-rc:1`: the tilde takes in `0.2.5:0`, the caret `0.2.7:0` too, and neither
takes in `0.3:0`. -/
theorem caret_tilde_nest_zero : ∃ c t,
    VersionRange.caret ⟨none, ⟨[0, 2, 5], [.string ['r', 'c']]⟩, ⟨[1], []⟩⟩ = some c ∧
    VersionRange.tilde ⟨none, ⟨[0, 2, 5], [.string ['r', 'c']]⟩, ⟨[1], []⟩⟩ = some t ∧
    satisfies ⟨none, ⟨[0, 2, 5], [.string ['r', 'c']]⟩, ⟨[1], []⟩⟩ t = true ∧
    satisfies ⟨none, ⟨[0, 2, 5], []⟩, .default⟩ t = true ∧
    satisfies ⟨none, ⟨[0, 2, 5], []⟩, .default⟩ c = true ∧
    ¬ satisfies ⟨none, ⟨[0, 2, 7], []⟩, .default⟩ t = true ∧
    satisfies ⟨none, ⟨[0, 2, 7], []⟩, .default⟩ c = true ∧
    ¬ satisfies ⟨none, ⟨[0, 3], []⟩, .default⟩ c = true := by
  obtain ⟨c, t, hc, ht, hself, hw⟩ :=
    caret_tilde_nest ⟨none, ⟨[0, 2, 5], [.string ['r', 'c']]⟩, ⟨[1], []⟩⟩ (by decide)
      (by unfold Raises; decide) (by unfold Raises; decide)
  have hin := (hw ⟨none, ⟨[0, 2, 5], []⟩, .default⟩).2.2.mpr (by unfold Reaches; decide)
  refine ⟨c, t, hc, ht, hself, hin, (hw _).1 hin, ?_, ?_, ?_⟩
  · rw [(hw _).2.2, Reaches]
    decide
  · rw [(hw _).2.1, Reaches]
    decide
  · rw [(hw _).2.1, Reaches]
    decide

end ExtendedVersion

namespace VersionRange

/-- The place that a caret or a tilde raises. -/
def raisedIdx (v : ExtendedVersion) (op : CmpOp) : Nat :=
  if op = .tilde then v.caretIdx + 1 else v.caretIdx

/-- A caret, a tilde or an anchor without operator, which stands for a caret. -/
def isBounded (op : Option CmpOp) : Bool := op.getD .caret == .caret || op.getD .caret == .tilde

/-- The anchors that the parser comes to. It stops behind an atom that fails. -/
def visited : RangeExpr Text → List (Option CmpOp × Text)
  | .parens e | .not e => visited e
  | .anchor op spec => [(op, spec)]
  | .any | .none | .flavor _ => []
  | .link left _ right =>
    visited left ++ if (parseVersionRange left).toBool then visited right else []

/-- The carets, tildes and bare anchors of a text that the parser comes to, with their versions. -/
def Visits (s : Text) (op : Option CmpOp) (spec : Text) (v : ExtendedVersion) : Prop :=
  ∃ e rest, Grammar.versionRange (s.length + 1) s = some (e, rest) ∧ (op, spec) ∈ visited e ∧
    isBounded op = true ∧ ExtendedVersion.parseSpec spec = .ok v

/-- An anchor is read with a bound that does not wrap around, and its version is in its range. -/
def Holds (op : Option CmpOp) (spec : Text) (v : ExtendedVersion) : Prop :=
  ∃ r, parseAnchor op spec = .ok r ∧ r = v.upTo (v.upper (raisedIdx v (op.getD .caret))) ∧
    v.satisfies r = true

theorem holds_iff {op : Option CmpOp} {spec : Text} {v : ExtendedVersion}
    (hop : isBounded op = true) (hv : ExtendedVersion.parseSpec spec = .ok v) :
    Holds op spec v ↔ v.Raises (raisedIdx v (op.getD .caret)) := by
  have hne : v.upstream.number ≠ [] := by
    obtain ⟨_, -, hv⟩ := Fallible.bind_eq_ok.mp hv
    obtain ⟨u, hu, hv⟩ := Fallible.bind_eq_ok.mp hv
    obtain ⟨d, -, hv⟩ := Fallible.bind_eq_ok.mp hv
    cases hv
    exact (Version.fromStr_wellFormed hu).nonempty
  have hlt := leadIdx_lt hne
  have hanchor : parseAnchor op spec =
      .ok (v.upTo (v.wrapped (raisedIdx v (op.getD .caret)))) := by
    rw [parseAnchor, hv, Fallible.ok_bind]
    rcases Bool.or_eq_true_iff.mp hop with hop | hop
    · rw [beq_iff_eq.mp hop, ofAnchor, ExtendedVersion.caret_eq hne]
      rfl
    · rw [beq_iff_eq.mp hop, ofAnchor, ExtendedVersion.tilde_eq hne]
      rfl
  have hle : raisedIdx v (op.getD .caret) ≤ v.upstream.number.length := by
    rw [raisedIdx]
    split
    · exact hlt
    · exact hlt.le
  rw [Holds, hanchor]
  constructor
  · rintro ⟨r, hr, rfl, -⟩
    refine ExtendedVersion.wrapped_eq_upper_iff.mp ?_
    simpa [ExtendedVersion.upTo, smartAnd] using hr
  · intro hr
    exact ⟨_, rfl, congrArg _ (ExtendedVersion.wrapped_eq_upper_iff.mpr hr), by
      rw [ExtendedVersion.wrapped_eq_upper_iff.mpr hr]
      exact ExtendedVersion.satisfies_bounds.mpr (ExtendedVersion.reaches_self hle)⟩

/-- Reading a text, no bound wraps around and every caret, tilde or bare anchor takes in its own
version, exactly if none of them raises the greatest word. What a text of one anchor is read as is
the range of that anchor. -/
theorem anchors_hold_iff (s : Text) : ((∀ op spec v, Visits s op spec v → Holds op spec v) ↔
      ∀ op spec v, Visits s op spec v → v.Raises (raisedIdx v (op.getD .caret))) ∧
    ∀ op spec rest, Grammar.versionRange (s.length + 1) s = some (.anchor op spec, rest) →
      fromStr s = parseAnchor op spec := by
  refine ⟨forall₄_congr fun op spec v h => ?_, fun op spec rest h => ?_⟩
  · obtain ⟨_, _, -, -, hop, hv⟩ := h
    exact holds_iff hop hv
  · rw [fromStr, h]
    rfl

/-- The bound of the greatest word wraps around. -/
theorem greatest_word_unsatisfied : (fromStr "^18446744073709551615".toList).map
    (ExtendedVersion.satisfies ⟨Option.none, ⟨[18446744073709551615], []⟩, .default⟩) =
      .ok false := by
  decide +kernel

end VersionRange

end StartTech.Exver

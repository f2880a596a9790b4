import StartTech.JsonPtr.Layout

/-!
# Parts of a pointer

A slice and a common prefix are exact pointers when they are taken from an exact pointer.
-/

namespace StartTech.JsonPtr

open Foundation Text
open Option (bind_some map_some)

variable {left right : List PtrSegment}

/-- A range of segments comes out whole wherever the slices are cut, except that an
empty range at the end is refused when there is a second slice. -/
theorem sliceSegments_eq {startIdx endIdx : Nat} (hle : startIdx ≤ endIdx)
    (hend : endIdx ≤ left.length + right.length)
    (hstart : startIdx < left.length + right.length ∨ right = []) :
    sliceSegments left right startIdx endIdx =
      some (some (((left ++ right).take endIdx).drop startIdx)) := by
  rw [sliceSegments]
  by_cases hfirst : startIdx ≤ left.length
  · rw [if_pos hfirst]
    by_cases hlast : endIdx ≤ left.length
    · rw [if_pos hlast, if_pos hle, List.take_append_of_le_length hlast]
    · have hleft : left.take endIdx = left := List.take_of_length_le (by omega)
      rw [if_neg hlast, if_pos (by omega), List.take_append, hleft,
        List.drop_append_of_le_length hfirst]
  · have hsub : startIdx - left.length < right.length := by
      rcases hstart with h | rfl
      · omega
      · rw [List.length_nil] at hend
        omega
    have hleft : left.take endIdx = left := List.take_of_length_le (by omega)
    have hdrop : left.drop startIdx = [] := List.drop_eq_nil_of_le (by omega)
    rw [if_neg hfirst, if_pos hsub, checkedSub, if_pos (by omega), bind_some,
      if_pos (by omega), if_pos (by omega), List.take_append, hleft, List.drop_append, hdrop,
      List.nil_append]

/-- A range that ends behind the last segment yields nothing. -/
theorem sliceSegments_none (startIdx : Nat) {endIdx : Nat}
    (hend : left.length + right.length < endIdx) :
    sliceSegments left right startIdx endIdx = some none := by
  rw [sliceSegments]
  by_cases hfirst : startIdx ≤ left.length
  · rw [if_pos hfirst, if_neg (by omega), if_neg (by omega)]
  · rw [if_neg hfirst]
    by_cases hsub : startIdx - left.length < right.length
    · rw [if_pos hsub, checkedSub, if_pos (by omega), bind_some, if_neg (by omega)]
    · rw [if_neg hsub]

namespace JsonPointer

variable {l l' : List Text} {i n cut : Nat} {upper : Bound} {p other : JsonPointer}
  {segments : List PtrSegment}

theorem position_take (h : i ≤ n) : position (l.take n) i = position l i := by
  rw [position, List.take_take, Nat.min_eq_left h, position]

theorem length_cut (offset : Nat) (l : List Text) (cut : Nat) :
    ((layout offset l).take cut).length + ((layout offset l).drop cut).length = l.length := by
  rw [← List.length_append, List.take_append_drop, layout_length]

theorem position_succ {s : Text} (h : l[i]? = some s) :
    position l (i + 1) = position l i + 1 + byteLen (escape s) := by
  simp [position, List.take_add_one, h]
  omega

theorem sliceSegments_exact (offset : Nat) (l : List Text) {lower : Bound}
    (hle : lower.startIdx ≤ upper.endIdx l.length) (hend : upper.endIdx l.length ≤ l.length)
    (hstart : lower.startIdx < l.length ∨ l.length ≤ cut) :
    (exact offset l).sliceSegments cut lower upper =
      some (some (layout (offset + position l lower.startIdx)
        ((l.take (upper.endIdx l.length)).drop lower.startIdx))) := by
  have htotal := length_cut offset l cut
  have hstart' : lower.startIdx < l.length ∨ (layout offset l).drop cut = [] :=
    hstart.imp_right fun hcut => List.drop_eq_nil_of_le (by rwa [layout_length])
  rw [← htotal] at hstart'
  rw [sliceSegments, len_exact]
  change JsonPtr.sliceSegments ((layout offset l).take cut) ((layout offset l).drop cut) _ _ = _
  rw [sliceSegments_eq hle (by omega) hstart', List.take_append_drop, layout_take, layout_drop,
    position_take hle]

/-- The last range of a layout ends where the text does. -/
theorem stop_layout (n : Nat) (s : Text) (l : List Text) :
    ((layout (n + 1 + byteLen (escape s)) l).getLast?.getD (segmentAt n s)).range.stop =
      n + byteLen (escapeAll (s :: l)) := by
  induction l generalizing n s with
  | nil =>
    simp [layout]
    omega
  | cons t l ih =>
    rw [layout, List.getLast?_cons, Option.getD_some, ih, escapeAll_cons s, byteLen_slash,
      byteLen_append]
    omega

/-- The text of a part of a list. -/
theorem slice_escapeAll (l : List Text) (h : i ≤ n) : Text.slice (escapeAll l) (position l i)
        (position l i + byteLen (escapeAll ((l.take n).drop i))) =
      some (escapeAll ((l.take n).drop i)) := by
  have hsplit : escapeAll l =
      escapeAll (l.take i) ++ (escapeAll ((l.take n).drop i) ++ escapeAll (l.drop n)) := by
    rw [← List.append_assoc, ← escapeAll_append, ← escapeAll_append]
    conv_lhs => rw [← List.take_append_drop n l, ← List.take_append_drop i (l.take n)]
    rw [List.take_take, Nat.min_eq_left h]
  conv_lhs => rw [hsplit]
  exact slice_append _ _ _

/-- The offset of a slice; an empty one starts at zero. -/
def sliceOffset (offset : Nat) (l part : List Text) (i : Nat) : Nat :=
  if part = [] then 0 else offset + position l i

theorem slice_exact (offset : Nat) (l : List Text) {lower : Bound}
    (hle : lower.startIdx ≤ upper.endIdx l.length) (hend : upper.endIdx l.length ≤ l.length)
    (hstart : lower.startIdx < l.length ∨ l.length ≤ cut) :
    (exact offset l).slice cut lower upper = some (some (exact
        (sliceOffset offset l ((l.take (upper.endIdx l.length)).drop lower.startIdx) lower.startIdx)
        ((l.take (upper.endIdx l.length)).drop lower.startIdx))) := by
  have htext := slice_escapeAll l hle
  rw [slice, sliceSegments_exact offset l hle hend hstart]
  generalize (l.take (upper.endIdx l.length)).drop lower.startIdx = part at htext ⊢
  cases part with
  | nil => rfl
  | cons s rest =>
    have hstop := stop_layout (offset + position l lower.startIdx) s rest
    simp only [layout, bind_some, range_segmentAt, checkedSub_one, hstop]
    simp only [exact, checkedSub_add, Nat.add_assoc offset, bind_some, htext,
      map_some, sliceOffset, reduceCtorEq, if_false, layout]

theorem slice_exact_none (offset : Nat) (l : List Text) (cut : Nat) (lower : Bound)
    (hend : l.length < upper.endIdx l.length) :
    (exact offset l).slice cut lower upper = some none := by
  have hsegs : (exact offset l).sliceSegments cut lower upper = some none := by
    rw [sliceSegments, len_exact]
    apply sliceSegments_none
    exact Nat.lt_of_le_of_lt (Nat.le_of_eq (length_cut offset l cut)) hend
  rw [slice, hsegs]
  rfl

/-- How many segments two lists have in common at their start. -/
def commonLen : List Text → List Text → Nat
  | s :: l, t :: l' => if s = t then commonLen l l' + 1 else 0
  | _, _ => 0

theorem commonLen_le (l l' : List Text) : commonLen l l' ≤ l.length := by
  induction l generalizing l' with
  | nil => simp [commonLen]
  | cons s l ih =>
    cases l' with
    | nil => simp [commonLen]
    | cons t l' =>
      have := ih l'
      rw [commonLen]
      split
      · simpa using this
      · exact Nat.zero_le _

theorem commonLoop_eq (hother : other.iter = some l')
    (h : segments.mapM (PtrSegment.text p.src p.offset) = some l) (idx : Nat) :
    commonLoop p other idx segments = some (idx + commonLen l (l'.drop idx)) := by
  induction segments generalizing l idx with
  | nil =>
    obtain rfl : [] = l := Option.some.inj h
    simp [commonLoop, commonLen]
  | cons seg segments ih =>
    obtain ⟨s, l, hs, hl, rfl⟩ := Fallible.mapM_cons_eq_some.mp h
    rw [commonLoop, hs, bind_some, getSegment_of_iter hother, bind_some,
      ← List.head?_drop]
    cases hdrop : l'.drop idx with
    | nil => simp [commonLen]
    | cons t rest =>
      have hrest : l'.drop (idx + 1) = rest := by
        rw [← List.tail_drop, hdrop, List.tail_cons]
      rw [List.head?_cons, commonLen]
      by_cases heq : s = t
      · rw [if_pos (by rw [heq]), if_pos heq, ih hl, hrest]
        congr 1
        omega
      · rw [if_neg (fun h => heq (Option.some.inj h).symm), if_neg heq]
        rfl

theorem commonIdx_exact (offset : Nat) (l : List Text) (h : n ≤ l.length) :
    (exact offset l).commonIdx n = some (position l n) := by
  cases n with
  | zero => rfl
  | succ last =>
    obtain ⟨s, hs⟩ : ∃ s, l[last]? = some s := ⟨_, List.getElem?_eq_getElem h⟩
    simp only [commonIdx, exact, layout_getElem?, hs, map_some, range_segmentAt,
      Nat.add_assoc offset, checkedSub_add, position_succ hs]

theorem commonPrefix_exact (offset : Nat) (l : List Text) (cut : Nat)
    (hother : other.iter = some l') :
    (exact offset l).commonPrefix cut other = some (exact offset (l.take (commonLen l l'))) := by
  have hle := commonLen_le l l'
  have hloop := commonLoop_eq hother (iter_exact offset l) 0
  rw [List.drop_zero, Nat.zero_add] at hloop
  rw [commonPrefix, hloop, bind_some, commonIdx_exact offset l hle, bind_some]
  generalize commonLen l l' = n at hle ⊢
  have htext : Text.slice (exact offset l).src 0 (position l n) = some (escapeAll (l.take n)) := by
    simpa [position, exact] using slice_escapeAll l (Nat.zero_le n)
  have hsegs : (exact offset l).sliceSegments cut (.included 0) (.excluded n) =
      some (some (layout (offset + position l 0) ((l.take n).drop 0))) :=
    sliceSegments_exact offset l (Nat.zero_le n) hle (by cases l <;> simp [Bound.startIdx])
  rw [htext, hsegs]
  rfl

theorem startsWithLoop_eq (hp : p.iter = some l)
    (h : segments.mapM (PtrSegment.text other.src other.offset) = some l') (idx : Nat) :
    startsWithLoop p other idx segments = some (l'.isPrefixOf (l.drop idx)) := by
  induction segments generalizing l' idx with
  | nil =>
    obtain rfl : [] = l' := Option.some.inj h
    rfl
  | cons seg segments ih =>
    obtain ⟨s, l', hs, hl', rfl⟩ := Fallible.mapM_cons_eq_some.mp h
    rw [startsWithLoop, hs, getSegment_of_iter hp, ← List.head?_drop]
    cases hdrop : l.drop idx with
    | nil => rfl
    | cons t rest =>
      have hrest : l.drop (idx + 1) = rest := by
        rw [← List.tail_drop, hdrop, List.tail_cons]
      rw [List.isPrefixOf_cons_cons, ih hl', hrest]
      by_cases heq : t = s
      · simp [heq]
      · simp [heq, Ne.symm heq]

theorem startsWith_eq (hp : p.iter = some l) (hother : other.iter = some l') :
    startsWithLoop p other 0 other.segments = some (l'.isPrefixOf l) :=
  startsWithLoop_eq hp hother 0

theorem stripPrefix_none (hp : p.iter = some l) (cut : Nat) (hother : other.iter = some l')
    (h : l'.isPrefixOf l = false) : p.stripPrefix cut other = some none := by
  rw [stripPrefix, startsWith_eq hp hother, h]
  rfl

/-- Nothing is left behind the whole pointer. -/
theorem stripPrefix_self (hp : p.iter = some l) (cut : Nat) (hother : other.iter = some l) :
    p.stripPrefix cut other = some (some root) := by
  rw [stripPrefix, startsWith_eq hp hother, len_of_iter hp, len_of_iter hother]
  simp

end JsonPointer

end StartTech.JsonPtr

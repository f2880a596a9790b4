import StartTech.Foundation.Fallible
import StartTech.JsonPtr.Pointer

/-!
# The exact pointer to a list of segments

For a list of segments and an offset there is one pointer whose text is the escaped
text of the list and whose ranges are where the segments stand in it. It iterates to
the list, and edits at an offset of zero lead from one such pointer to another.
-/

namespace StartTech.JsonPtr

open Foundation Text
open PtrSegment (shift text mapRange)

/-- The text of a list of segments. -/
def escapeAll (l : List Text) : Text := l.flatMap fun s => '/' :: escape s

/-- The segment that stands at a byte position. -/
def segmentAt (position : Nat) (s : Text) : PtrSegment :=
  if s.any isSpecial then .escaped ⟨position + 1, position + 1 + byteLen (escape s)⟩ s
  else .unescaped ⟨position + 1, position + 1 + byteLen (escape s)⟩

def layout : Nat → List Text → List PtrSegment
  | _, [] => []
  | position, s :: l => segmentAt position s :: layout (position + 1 + byteLen (escape s)) l

/-- The pointer to a list of segments at an offset. -/
def JsonPointer.exact (offset : Nat) (l : List Text) : JsonPointer where
  src := escapeAll l
  offset := offset
  segments := layout offset l

@[simp] theorem escape_nil : escape [] = [] := rfl

@[simp] theorem escape_cons (c : Char) (s : Text) : escape (c :: s) = escapeChar c ++ escape s :=
  List.flatMap_cons

@[simp] theorem escape_append (s t : Text) : escape (s ++ t) = escape s ++ escape t :=
  List.flatMap_append

/-- A character is written as it is unless it is special. -/
theorem escapeChar_cases (c : Char) :
    c = '~' ∧ escapeChar c = ['~', '0'] ∨ c = '/' ∧ escapeChar c = ['~', '1'] ∨
      isSpecial c = false ∧ escapeChar c = [c] := by
  by_cases htilde : c = '~'
  · subst htilde
    exact .inl ⟨rfl, rfl⟩
  · by_cases hslash : c = '/'
    · subst hslash
      exact .inr (.inl ⟨rfl, rfl⟩)
    · refine .inr (.inr ⟨by simp [isSpecial, htilde, hslash], ?_⟩)
      unfold escapeChar
      split
      · exact absurd rfl htilde
      · exact absurd rfl hslash
      · rfl

theorem escapeChar_of_not_special {c : Char} (h : isSpecial c = false) : escapeChar c = [c] := by
  rcases escapeChar_cases c with ⟨rfl, -⟩ | ⟨rfl, -⟩ | ⟨-, hc⟩
  · cases h
  · cases h
  · exact hc

theorem escape_eq_self {s : Text} (h : s.any isSpecial = false) : escape s = s := by
  induction s with
  | nil => rfl
  | cons c rest ih =>
    simp only [List.any_cons, Bool.or_eq_false_iff] at h
    rw [escape_cons, escapeChar_of_not_special h.1, ih h.2]
    rfl

theorem byteLen_escape (s : Text) : byteLen (escape s) = byteLen s + s.countP isSpecial := by
  induction s with
  | nil => rfl
  | cons c rest ih =>
    rw [escape_cons, byteLen_append, List.countP_cons]
    rcases escapeChar_cases c with ⟨rfl, hc⟩ | ⟨rfl, hc⟩ | ⟨hs, hc⟩
    · change 2 + _ = 1 + _ + (_ + 1)
      omega
    · change 2 + _ = 1 + _ + (_ + 1)
      omega
    · rw [hc, hs]
      simp
      omega

theorem decimal_not_special (n : Nat) : (decimal n).any isSpecial = false := by
  rw [List.any_eq_false]
  intro c hc hspecial
  have hdigit := decimal_isDigit hc
  simp only [isSpecial, Bool.or_eq_true, beq_iff_eq] at hspecial
  rcases hspecial with rfl | rfl
  · exact absurd hdigit (by decide)
  · exact absurd hdigit (by decide)

@[simp] theorem escapeAll_nil : escapeAll [] = [] := rfl

@[simp] theorem escapeAll_cons (s : Text) (l : List Text) :
    escapeAll (s :: l) = '/' :: (escape s ++ escapeAll l) := by
  simp [escapeAll]

@[simp] theorem escapeAll_append (l l' : List Text) :
    escapeAll (l ++ l') = escapeAll l ++ escapeAll l' :=
  List.flatMap_append

@[simp] theorem utf8Size_slash : '/'.utf8Size = 1 := rfl

theorem byteLen_slash (s : Text) : byteLen ('/' :: s) = 1 + byteLen s := rfl

/-- The text in front of the segment with some number. -/
def position (l : List Text) (i : Nat) : Nat := byteLen (escapeAll (l.take i))

@[simp] theorem range_segmentAt (n : Nat) (s : Text) :
    (segmentAt n s).range = ⟨n + 1, n + 1 + byteLen (escape s)⟩ := by
  unfold segmentAt
  split <;> rfl

theorem segmentAt_shift (n k : Nat) (s : Text) : (segmentAt n s).shift k = segmentAt (n + k) s := by
  have hrange : (⟨n + 1 + k, n + 1 + byteLen (escape s) + k⟩ : Range) =
      ⟨n + k + 1, n + k + 1 + byteLen (escape s)⟩ := by
    congr 1 <;> omega
  unfold segmentAt shift
  split
  · simp [mapRange, hrange]
  · simp [mapRange, hrange]

theorem layout_append (n : Nat) (l l' : List Text) :
    layout n (l ++ l') = layout n l ++ layout (n + byteLen (escapeAll l)) l' := by
  induction l generalizing n with
  | nil => rfl
  | cons s l ih =>
    rw [List.cons_append, layout, ih, escapeAll_cons, byteLen_slash, byteLen_append]
    congr 3
    omega

theorem layout_shift (n k : Nat) (l : List Text) :
    (layout n l).map (shift k) = layout (n + k) l := by
  induction l generalizing n with
  | nil => rfl
  | cons s l ih =>
    rw [layout, List.map_cons, ih, segmentAt_shift]
    congr 2
    omega

@[simp] theorem layout_length (n : Nat) (l : List Text) : (layout n l).length = l.length := by
  induction l generalizing n with
  | nil => rfl
  | cons s l ih => simp [layout, ih]

theorem layout_take (n : Nat) (l : List Text) (i : Nat) :
    (layout n l).take i = layout n (l.take i) := by
  induction l generalizing n i with
  | nil => simp [layout]
  | cons s l ih =>
    cases i with
    | zero => rfl
    | succ i => simp [layout, ih]

theorem layout_drop (n : Nat) (l : List Text) (i : Nat) :
    (layout n l).drop i = layout (n + position l i) (l.drop i) := by
  conv_lhs => rw [← List.take_append_drop i l]
  rw [layout_append]
  by_cases h : i ≤ l.length
  · rw [List.drop_left' (by simp [h])]
    rfl
  · have h : l.length ≤ i := by omega
    simp [List.drop_eq_nil_of_le h, layout, h]

theorem layout_getElem? (n : Nat) (l : List Text) (i : Nat) :
    (layout n l)[i]? = l[i]?.map (segmentAt (n + position l i)) := by
  have hhead : (layout n l)[i]? = ((layout n l).drop i).head? := by
    rw [List.head?_drop]
  rw [hhead, layout_drop, ← List.head?_drop]
  cases l.drop i with
  | nil | cons s rest => rfl

theorem checkedSub_add (a b : Nat) : checkedSub (a + b) a = some b := by
  rw [checkedSub, if_pos (Nat.le_add_right a b), Nat.add_sub_cancel_left]

theorem checkedSub_one (a : Nat) : checkedSub (a + 1) 1 = some a := by
  rw [Nat.add_comm, checkedSub_add]

/-- A segment has its text where it stands. -/
theorem text_segmentAt (offset : Nat) (front s back : Text) :
    (segmentAt (offset + byteLen front) s).text (front ++ '/' :: (escape s ++ back)) offset =
      some s := by
  unfold segmentAt
  split
  · rfl
  · rename_i hplain
    have hescape := escape_eq_self (Bool.eq_false_iff.mpr hplain)
    have hslice := slice_append (front ++ ['/']) s back
    rw [byteLen_append, List.append_assoc] at hslice
    rw [text, hescape, Nat.add_assoc offset, Nat.add_assoc offset, checkedSub_add,
      checkedSub_add]
    exact hslice

namespace JsonPointer

theorem mapM_text_layout (offset : Nat) (front : Text) (l : List Text) :
    (layout (offset + byteLen front) l).mapM (text (front ++ escapeAll l) offset) =
      some l := by
  induction l generalizing front with
  | nil => rfl
  | cons s l ih =>
    have hrest := ih (front ++ '/' :: escape s)
    have hnext : offset + byteLen (front ++ '/' :: escape s) =
        offset + byteLen front + 1 + byteLen (escape s) := by
      rw [byteLen_append, byteLen_slash]
      omega
    rw [hnext, List.append_assoc, List.cons_append] at hrest
    rw [layout, List.mapM_cons, escapeAll_cons, text_segmentAt, hrest]
    rfl

@[simp] theorem iter_exact (offset : Nat) (l : List Text) : (exact offset l).iter = some l :=
  mapM_text_layout offset [] l

@[simp] theorem len_exact (offset : Nat) (l : List Text) : (exact offset l).len = l.length :=
  layout_length offset l

variable {p : JsonPointer} {l l' : List Text}

theorem getSegment_of_iter (h : p.iter = some l) (i : Nat) : p.getSegment i = some l[i]? := by
  have hplace := Fallible.getElem?_of_mapM_some h i
  rw [getSegment]
  cases hseg : p.segments[i]? with
  | none =>
    rw [hseg] at hplace
    cases hl : l[i]? with
    | none => rfl
    | some s => simp [hl] at hplace
  | some seg =>
    rw [hseg] at hplace
    cases hl : l[i]? with
    | none => simp [hl] at hplace
    | some s =>
      rw [hl] at hplace
      have htext : seg.text p.src p.offset = some s := Option.some.inj hplace
      simp [htext]

theorem len_of_iter (h : p.iter = some l) : p.len = l.length :=
  (Fallible.length_of_mapM_some h).symm

theorem pushEnd_eq (p : JsonPointer) (s : Text) : p.pushEnd s = { p with
      src := p.src ++ '/' :: escape s
      segments := p.segments ++ [segmentAt (byteLen p.src) s] } := by
  have hsrc : p.src ++ ['/'] ++ escape s = p.src ++ '/' :: escape s := List.append_assoc _ _ _
  have hstop : byteLen (p.src ++ '/' :: escape s) = byteLen p.src + 1 + byteLen (escape s) := by
    rw [byteLen_append, byteLen_slash, Nat.add_assoc]
  simp [pushEnd, segmentAt, hsrc, hstop]

/-- Pushing an index is pushing its digits. -/
theorem pushEndIdx_eq (p : JsonPointer) (n : Nat) : p.pushEndIdx n = p.pushEnd (decimal n) := by
  have hescape := escape_eq_self (decimal_not_special n)
  have hstop : byteLen (p.src ++ '/' :: decimal n) = byteLen p.src + 1 + byteLen (decimal n) := by
    rw [byteLen_append, byteLen_slash, Nat.add_assoc]
  simp [pushEnd_eq, pushEndIdx, segmentAt, decimal_not_special, hescape, hstop]

theorem pushStart_eq (p : JsonPointer) (s : Text) : p.pushStart s = { p with
      src := '/' :: escape s ++ p.src
      segments := segmentAt 0 s :: p.segments.map (shift (1 + byteLen (escape s))) } := by
  have hlen : byteLen s + s.countP isSpecial + 1 = 1 + byteLen (escape s) := by
    rw [byteLen_escape, Nat.add_comm]
  simp [pushStart, segmentAt, hlen]

theorem pushStartIdx_eq (p : JsonPointer) (n : Nat) :
    p.pushStartIdx n = p.pushStart (decimal n) := by
  have hescape := escape_eq_self (decimal_not_special n)
  simp [pushStart_eq, pushStartIdx, segmentAt, decimal_not_special, hescape]

theorem pushEnd_exact (l : List Text) (s : Text) : (exact 0 l).pushEnd s = exact 0 (l ++ [s]) := by
  simp [pushEnd_eq, exact, layout_append, layout]

theorem pushStart_exact (l : List Text) (s : Text) :
    (exact 0 l).pushStart s = exact 0 (s :: l) := by
  simp [pushStart_eq, exact, layout_shift, layout]

theorem foldl_pushEnd_exact (l l' : List Text) :
    l'.foldl pushEnd (exact 0 l) = exact 0 (l ++ l') := by
  induction l' generalizing l with
  | nil => simp
  | cons s l' ih => rw [List.foldl_cons, pushEnd_exact, ih, List.append_assoc]; rfl

theorem foldl_pushStart_exact (l l' : List Text) :
    l'.foldl pushStart (exact 0 l) = exact 0 (l'.reverse ++ l) := by
  induction l' generalizing l with
  | nil => rfl
  | cons s l' ih => simp [pushStart_exact, ih]

theorem rebase_segmentAt (offset' srcLen offset n : Nat) (s : Text) :
    rebase offset' srcLen offset (segmentAt (offset' + n) s) =
      some (segmentAt (offset + srcLen + n) s) := by
  have hrange : (⟨n + 1 + srcLen + offset, n + 1 + byteLen (escape s) + srcLen + offset⟩ : Range) =
      ⟨offset + srcLen + n + 1, offset + srcLen + n + 1 + byteLen (escape s)⟩ := by
    congr 1 <;> omega
  rw [rebase, range_segmentAt, Nat.add_assoc offset' n, checkedSub_add, Option.bind_some,
    Nat.add_assoc offset' (n + 1), checkedSub_add, Option.map_some, hrange]
  unfold segmentAt
  split <;> rfl

theorem rebase_layout (offset' srcLen offset n : Nat) (l : List Text) :
    (layout (offset' + n) l).mapM (rebase offset' srcLen offset) =
      some (layout (offset + srcLen + n) l) := by
  induction l generalizing n with
  | nil => rfl
  | cons s l ih =>
    have hrest := ih (n + 1 + byteLen (escape s))
    rw [← Nat.add_assoc, ← Nat.add_assoc] at hrest
    rw [layout, List.mapM_cons, rebase_segmentAt, hrest, layout]
    simp [Option.pure_def, Nat.add_assoc]

/-- Adding is right at any offset. -/
theorem add_exact (offset offset' : Nat) (l l' : List Text) :
    (exact offset l).add (exact offset' l') = some (exact offset (l ++ l')) := by
  have hsegs := rebase_layout offset' (byteLen (escapeAll l)) offset 0 l'
  simp only [Nat.add_zero] at hsegs
  simp [add, exact, hsegs, layout_append]

theorem truncate_exact (l : List Text) (n : Nat) :
    (exact 0 l).truncate n = some (exact 0 (l.take n)) := by
  simp only [truncate, exact, layout_getElem?, Nat.zero_add]
  cases hn : l[n]? with
  | none => rw [List.take_of_length_le (List.getElem?_eq_none_iff.mp hn)]; rfl
  | some s =>
    have htext : Text.truncate (escapeAll l) (position l n) = some (escapeAll (l.take n)) := by
      have hsplit := escapeAll_append (l.take n) (l.drop n)
      rw [List.take_append_drop] at hsplit
      rw [hsplit]
      exact truncate_append _ _
    simp [range_segmentAt, checkedSub_one, htext, layout_take]

/-- Popping the last segment is truncating in front of it. -/
theorem popEnd_eq (p : JsonPointer) : p.popEnd = p.truncate (p.len - 1) := by
  rw [popEnd, List.getLast?_eq_getElem?, List.dropLast_eq_take]
  rfl

theorem popStart_exact (s : Text) : (exact 0 [s]).popStart = some (exact 0 []) := by
  have htext := removeRange_append [] ('/' :: escape s) []
  simp only [List.nil_append, byteLen_nil, Nat.zero_add, List.append_nil, byteLen_slash] at htext
  simp [popStart, exact, layout, checkedSub, htext]

end JsonPointer

end StartTech.JsonPtr

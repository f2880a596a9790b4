import StartTech.JsonPtr.Access
import StartTech.JsonPtr.Parsing
import StartTech.JsonPtr.Slicing

/-!
# Pointers whose ranges start where their segments stand

Pushing, slicing and parsing all start a range where its segment stands in the text, also where
parsing ends it too early. Behind a prefix that is cut off, the other segments are still read as
they were if the pointer has no offset. In a slice the cut counts the offset twice.
-/

namespace StartTech.JsonPtr

open Foundation Text ImblValue

/-- The value at the end of some readings; a reading that panics does so once the way comes to
it. -/
def getReadings : List (Option Text) → Value → Option (Option Value)
  | [], doc => some (some doc)
  | none :: _, _ => none
  | some seg :: rest, doc =>
    match get [seg] doc with
    | none => some none
    | some x => getReadings rest x

theorem getReadings_map_some (l : List Text) (doc : Value) :
    getReadings (l.map some) doc = some (get l doc) := by
  induction l generalizing doc with
  | nil => rfl
  | cons seg l ih =>
    rw [List.map_cons, getReadings, get_cons seg l]
    cases get [seg] doc with
    | none => rfl
    | some x => exact ih x

namespace JsonPointer

def get (p : JsonPointer) (doc : Value) : Option (Option Value) := getReadings p.readings doc

variable {p other : JsonPointer} {l l' tail : List Text} {text : Text}

theorem get_of_iter (h : p.iter = some l) (doc : Value) : p.get doc = some (JsonPtr.get l doc) := by
  rw [get, readings, Fallible.mapM_eq_some_iff.mp h, getReadings_map_some]

/-- Where the ranges of some segments start. -/
def starts (segments : List PtrSegment) : List Nat := segments.map fun seg => seg.range.start

/-- A pointer reads as a list, and each range starts where its segment stands in the text. -/
structure Stands (p : JsonPointer) (l : List Text) : Prop where
  reads : p.iter = some l
  source : escapeAll l <+: p.src
  placed : starts p.segments = starts (layout p.offset l)

theorem stands_exact (offset : Nat) (l : List Text) : (exact offset l).Stands l :=
  ⟨iter_exact offset l, List.prefix_rfl, rfl⟩

theorem starts_marks (n : Nat) (l : List Text) : starts (marks n l) = starts (layout n l) := by
  induction l generalizing n with
  | nil => rfl
  | cons s l ih =>
    have hstart : (markedAt (n + 1) s).range.start = n + 1 := by
      unfold markedAt
      split <;> rfl
    rw [marks, layout, starts, starts, List.map_cons, List.map_cons, hstart, range_segmentAt]
    exact congrArg _ (ih _)

/-- What the parser makes of a text that it accepts, which may end in an open escape. -/
theorem parse_marks (h : parse text = some (.ok p)) :
    ∃ l rest, (rest = [] ∨ rest = ['~']) ∧ text = escapeAll l ++ rest ∧
      p = ⟨text, 0, marks 0 l⟩ := by
  by_cases hhead : text.head? = some '/'
  · obtain ⟨tail, rfl⟩ := List.head?_eq_some_iff.mp hhead
    obtain ⟨s, l, wrong, hwell, htail, hwrong⟩ := exists_segments tail
    have htext : '/' :: tail = escapeAll (s :: l) ++ wrong := by
      rw [escapeAll_cons, ← hwell]
      exact congrArg _ htail
    obtain ⟨idx, before, last, hlast, hparse⟩ := parse_segments s l wrong
    rw [← htext, h] at hparse
    split at hparse
    · refine ⟨s :: l, wrong, ?_⟩
      rcases hwrong with rfl | rfl | ⟨c, rest, rfl, hzero, hone⟩
      · cases hparse
        exact ⟨.inl rfl, htext, by rw [← hlast]⟩
      · cases hparse
        exact ⟨.inr rfl, htext, by rw [← hlast]⟩
      · simp [parseLoop, Except.map] at hparse
    · cases hparse
  · cases text with
    | nil =>
      cases h
      exact ⟨[], [], .inl rfl, rfl, rfl⟩
    | cons c rest =>
      have hc : c ≠ '/' := fun hc => hhead (congrArg some hc)
      rw [parse, if_neg hc] at h
      cases h

/-- A pointer that was parsed stands if it can be read. -/
theorem stands_parse (h : parse text = some (.ok p)) (hiter : p.iter = some l) : p.Stands l := by
  obtain ⟨l₀, rest, -, htext, rfl⟩ := parse_marks h
  obtain rfl : l₀ = l := by
    rw [htext, iter_marks] at hiter
    split at hiter
    · exact Option.some.inj hiter
    · cases hiter
  exact ⟨hiter, ⟨rest, htext.symm⟩, starts_marks 0 l₀⟩

theorem lt_start {n a : Nat} (h : a ∈ starts (layout n l)) : n < a := by
  induction l generalizing n with
  | nil => cases h
  | cons s l ih =>
    rw [layout, starts, List.map_cons, range_segmentAt] at h
    rcases List.mem_cons.mp h with rfl | h
    · exact Nat.lt_succ_self n
    · exact Nat.lt_trans (by omega) (ih h)

/-- A segment behind some part of the text is read from the rest. -/
theorem text_behind (front back : Text) {seg : PtrSegment}
    (h : byteLen front ≤ seg.range.start) :
    seg.text back (byteLen front) = seg.text (front ++ back) 0 := by
  cases seg with
  | escaped range s => rfl
  | unescaped range =>
    obtain ⟨start, stop⟩ := range
    obtain ⟨start, rfl⟩ := Nat.exists_eq_add_of_le (show byteLen front ≤ start from h)
    rw [PtrSegment.text, PtrSegment.text]
    by_cases hstop : byteLen front ≤ stop
    · obtain ⟨stop, rfl⟩ := Nat.exists_eq_add_of_le hstop
      simp [checkedSub, slice_add]
    · have hle : ¬ byteLen front + start ≤ stop := by omega
      simp [checkedSub, hstop, Text.slice, hle]

theorem position_left (l' tail : List Text) :
    position (l' ++ tail) l'.length = byteLen (escapeAll l') := by
  rw [position, List.take_left]

/-- The segment with some number as it is read once the text is cut in front of it. -/
def behind (p : JsonPointer) (n : Nat) : Option Text :=
  p.segments[n]?.bind fun seg =>
    (checkedSub seg.range.start 1).bind fun start =>
      (Text.slice p.src start (byteLen p.src)).bind fun src => seg.text src start

namespace Stands

variable (h : p.Stands l)
include h

theorem start_getElem? (n : Nat) :
    p.segments[n]?.map (fun seg => seg.range.start) =
      l[n]?.map fun _ => p.offset + position l n + 1 := by
  have hplace := congrArg (fun l : List Nat => l[n]?) h.placed
  simp only [starts, List.getElem?_map, layout_getElem?, Option.map_map, Function.comp_def,
    range_segmentAt] at hplace
  exact hplace

/-- What is left behind a prefix that is not all of the pointer. -/
theorem stripPrefix_eq (cut : Nat) (hother : other.iter = some l') (hl : l = l' ++ tail)
    (hne : tail ≠ []) : p.stripPrefix cut other =
      (Text.slice p.src (p.offset + position l l'.length) (byteLen p.src)).map fun src =>
        some ⟨src, p.offset + position l l'.length, p.segments.drop l'.length⟩ := by
  have hlen := len_of_iter h.reads
  have hlt : l'.length < l.length := by
    rw [hl, List.length_append]
    have := List.length_pos_iff.mpr hne
    omega
  have hstart := h.start_getElem? l'.length
  rw [List.getElem?_eq_getElem hlt, Option.map_some] at hstart
  obtain ⟨seg, hseg, hrange⟩ := Option.map_eq_some_iff.mp hstart
  have hsegments : p.sliceSegments cut (.included l'.length) .unbounded =
      some (some (p.segments.drop l'.length)) := by
    have htotal : (p.segments.take cut).length + (p.segments.drop cut).length = l.length := by
      rw [← List.length_append, List.take_append_drop]
      exact hlen
    rw [sliceSegments, Bound.startIdx, Bound.endIdx, hlen, sliceSegments_eq (Nat.le_of_lt hlt)
      (Nat.le_of_eq htotal.symm) (.inl (htotal.symm ▸ hlt)), List.take_append_drop,
      List.take_of_length_le (Nat.le_of_eq hlen)]
  rw [stripPrefix, startsWith_eq h.reads hother, List.isPrefixOf_iff_prefix.mpr ⟨tail, hl.symm⟩,
    Option.bind_some, if_neg (by simp), hlen, len_of_iter hother, if_neg (Nat.ne_of_gt hlt), hseg]
  simp only [hrange, checkedSub_one, Option.bind_some, hsegments, Option.map_some]
  cases Text.slice p.src (p.offset + position l l'.length) (byteLen p.src) <;> rfl

/-- The text behind a prefix. -/
theorem src_split (hl : l = l' ++ tail) : ∃ rest, p.src = escapeAll l' ++ (escapeAll tail ++ rest) ∧
    Text.slice p.src (position l l'.length) (byteLen p.src) = some (escapeAll tail ++ rest) := by
  obtain ⟨rest, hsrc⟩ := h.source
  have hsplit : p.src = escapeAll l' ++ (escapeAll tail ++ rest) := by
    rw [← hsrc, hl, escapeAll_append, List.append_assoc]
  have hslice := slice_append (escapeAll l') (escapeAll tail ++ rest) []
  rw [List.append_nil, ← hsplit, ← byteLen_append, ← hsplit] at hslice
  exact ⟨rest, hsplit, by rwa [hl, position_left]⟩

/-- Without an offset, what is left behind a prefix is read as it was. -/
theorem stripPrefix_reads (hoffset : p.offset = 0) (cut : Nat) (hother : other.iter = some l')
    (hl : l = l' ++ tail) :
    ∃ q, p.stripPrefix cut other = some (some q) ∧ q.iter = some tail := by
  by_cases hne : tail = []
  · rw [hne, List.append_nil] at hl
    exact ⟨root, stripPrefix_self h.reads cut (hl ▸ hother), by rw [hne]; rfl⟩
  · obtain ⟨rest, hsplit, hslice⟩ := h.src_split hl
    refine ⟨_, by rw [h.stripPrefix_eq cut hother hl hne, hoffset, Nat.zero_add, hslice,
      Option.map_some], Fallible.mapM_eq_some_iff.mpr ?_⟩
    subst hl
    have hplaced := congrArg (List.drop l'.length) h.placed
    rw [starts, starts, ← List.map_drop, ← List.map_drop, layout_drop, hoffset, Nat.zero_add,
      List.drop_left] at hplaced
    have hreads := congrArg (List.drop l'.length) (Fallible.mapM_eq_some_iff.mp h.reads)
    rw [← List.map_drop, ← List.map_drop, List.drop_left] at hreads
    rw [← hreads, hoffset, hsplit]
    refine List.map_congr_left fun seg hseg => ?_
    have hstart : position (l' ++ tail) l'.length < seg.range.start := by
      apply lt_start (l := tail)
      rw [starts, ← hplaced]
      exact List.mem_map_of_mem hseg
    rw [position_left] at hstart ⊢
    exact text_behind _ _ (Nat.le_of_lt hstart)

end Stands

/-- Without an offset, what is left behind a prefix is exact. -/
theorem stripPrefix_exact (l : List Text) (cut : Nat) (hother : other.iter = some l')
    (hl : l = l' ++ tail) : (exact 0 l).stripPrefix cut other =
      some (some (exact (sliceOffset 0 l tail l'.length) tail)) := by
  by_cases hne : tail = []
  · rw [hne, List.append_nil] at hl
    rw [stripPrefix_self (iter_exact 0 l) cut (hl ▸ hother), hne]
    rfl
  · obtain ⟨rest, hsplit, hslice⟩ := (stands_exact 0 l).src_split hl
    obtain rfl : rest = [] := by simpa [exact, hl] using hsplit
    rw [(stands_exact 0 l).stripPrefix_eq cut hother hl hne, show (exact 0 l).offset = 0 from rfl,
      Nat.zero_add, hslice, Option.map_some, List.append_nil, sliceOffset, if_neg hne, Nat.zero_add]
    simp only [exact, layout_drop, Nat.zero_add]
    rw [hl, List.drop_left]

end JsonPointer

/-- A pointer with the list that it stands for. -/
structure Standing where
  pointer : JsonPointer
  list : List Text
  stands : pointer.Stands list

namespace Standing

/-- The pointer to a list as pushing its segments makes it. -/
def ofList (l : List Text) : Standing := ⟨.exact 0 l, l, JsonPointer.stands_exact 0 l⟩

/-- Whether a pointer goes on behind the end of another. -/
def below (p q : Standing) : Bool := q.list.isPrefixOf p.list && q.list != p.list

/-- No slice is cut when a pointer is stripped of another. -/
def cutsWell (p q : Standing) : Bool := p.pointer.offset == 0 || !p.below q

end Standing

end StartTech.JsonPtr

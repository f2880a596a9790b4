import StartTech.JsonPtr.Layout

/-!
# Reading a pointer back from its text

The parser ends the range of a segment one byte behind the start of its last
character. Where that character has several bytes the range ends inside of it, and
taking the text of the range fails: at once if an escape follows, else when the
segment is used.
-/

namespace StartTech.JsonPtr

open Foundation Text
open List (append_assoc)

/-- The end of the range of a segment when the parser has read a part of it, from a byte
position on. -/
def mark : Nat → Nat → Text → Nat
  | _, stop, [] => stop
  | idx, _, c :: s =>
    mark (idx + byteLen (escapeChar c)) (if isSpecial c then idx + 2 else idx + 1) s

/-- The part of a segment in front of its first escape. -/
def plainHead (s : Text) : Text := s.takeWhile fun c => !isSpecial c

/-- The last character, if there is one, is a single byte. -/
def endsInByte (s : Text) : Bool := s.getLast?.all fun c => c.utf8Size == 1

theorem mark_append (idx stop : Nat) (s t : Text) :
    mark idx stop (s ++ t) = mark (idx + byteLen (escape s)) (mark idx stop s) t := by
  induction s generalizing idx stop with
  | nil => rfl
  | cons d s ih => rw [List.cons_append, mark, mark, ih, escape_cons, byteLen_append, Nat.add_assoc]

theorem mark_concat (idx stop : Nat) (s : Text) (c : Char) : mark idx stop (s ++ [c]) =
      if isSpecial c then idx + byteLen (escape s) + 2 else idx + byteLen (escape s) + 1 := by
  rw [mark_append, mark, mark]

/-- Special characters are single bytes, so that the mark is right behind them. -/
theorem mark_of_endsInByte (idx : Nat) {s : Text} (h : endsInByte s = true) :
    mark idx idx s = idx + byteLen (escape s) := by
  rcases List.eq_nil_or_concat s with rfl | ⟨s, c, rfl⟩
  · rfl
  · rw [List.concat_eq_append] at h ⊢
    simp only [endsInByte, List.getLast?_concat, Option.all_some, beq_iff_eq] at h
    rw [mark_concat, escape_append, byteLen_append]
    rcases escapeChar_cases c with ⟨rfl, -⟩ | ⟨rfl, -⟩ | ⟨hs, hc⟩
    · rfl
    · rfl
    · simp [hs, hc, h, Nat.add_assoc]

/-- The text up to the mark, of a segment without escapes. -/
theorem slice_mark (front s back : Text) (hplain : s.any isSpecial = false) :
    Text.slice (front ++ (s ++ back)) (byteLen front) (mark (byteLen front) (byteLen front) s) =
      if endsInByte s then some s else none := by
  split
  · rename_i hends
    rw [mark_of_endsInByte _ hends, escape_eq_self hplain]
    exact slice_append front s back
  · rename_i hends
    rcases List.eq_nil_or_concat s with rfl | ⟨s, c, rfl⟩
    · exact absurd rfl hends
    · rw [List.concat_eq_append] at hplain hends ⊢
      simp only [endsInByte, List.getLast?_concat, Option.all_some, beq_iff_eq] at hends
      simp only [List.any_append, List.any_cons, List.any_nil, Bool.or_false,
        Bool.or_eq_false_iff] at hplain
      have hpos := c.utf8Size_pos
      rw [mark_concat, escape_eq_self hplain.1, hplain.2, append_assoc]
      exact slice_inside front s back Nat.one_pos (by omega)

namespace JsonPointer

variable (src : Text) (idx : Nat) (rest : Text) (segments : List PtrSegment) {c : Char}

theorem byteLen_escapeChar (h : isSpecial c = true) : byteLen (escapeChar c) = 2 := by
  rcases escapeChar_cases c with ⟨rfl, hc⟩ | ⟨rfl, hc⟩ | ⟨hs, -⟩
  · rfl
  · rfl
  · rw [hs] at h
    cases h

theorem parseLoop_special (h : isSpecial c = true) (segment : PtrSegment) :
    parseLoop src idx (escapeChar c ++ rest) segments segment false =
      (unescapeInto src (idx + 1) c segment).bind fun segment =>
        parseLoop src (idx + 2) rest segments segment false := by
  rcases escapeChar_cases c with ⟨rfl, hc⟩ | ⟨rfl, hc⟩ | ⟨hs, -⟩
  · rfl
  · rfl
  · rw [hs] at h
    cases h

theorem parseLoop_char (h : isSpecial c = false) (segment : PtrSegment) :
    parseLoop src idx (c :: rest) segments segment false =
      parseLoop src (idx + c.utf8Size) rest segments (readInto idx c segment) false := by
  conv_lhs => unfold parseLoop
  split
  · cases h
  · cases h
  · rfl

/-- Without escapes the parser only moves the end of the range. -/
theorem parseLoop_plain {s : Text} (hplain : s.any isSpecial = false) (start stop : Nat) :
    parseLoop src idx (s ++ rest) segments (.unescaped ⟨start, stop⟩) false =
      parseLoop src (idx + byteLen (escape s)) rest segments
        (.unescaped ⟨start, mark idx stop s⟩) false := by
  induction s generalizing idx stop with
  | nil => rfl
  | cons c s ih =>
    simp only [List.any_cons, Bool.or_eq_false_iff] at hplain
    rw [List.cons_append, parseLoop_char _ _ _ _ hplain.1, readInto]
    simp [ih _ hplain.2, escape_cons, mark, escapeChar_of_not_special hplain.1, hplain.1,
      byteLen_cons, byteLen_nil, Nat.add_assoc, Bool.false_eq_true]

/-- Behind an escape the parser also collects the characters. -/
theorem parseLoop_escaped (s : Text) (start stop : Nat) (t : Text) :
    parseLoop src idx (escape s ++ rest) segments (.escaped ⟨start, stop⟩ t) false =
      parseLoop src (idx + byteLen (escape s)) rest segments
        (.escaped ⟨start, mark idx stop s⟩ (t ++ s)) false := by
  induction s generalizing idx stop t with
  | nil => simp [mark]
  | cons c s ih =>
    rw [escape_cons, append_assoc, mark]
    cases hc : isSpecial c with
    | true =>
      have hlen : byteLen (escapeChar c) = 2 := byteLen_escapeChar hc
      rw [parseLoop_special _ _ _ _ hc, unescapeInto, Option.bind_some, ih]
      simp [hlen, Nat.add_assoc, append_assoc]
    | false =>
      rw [escapeChar_of_not_special hc, List.singleton_append, parseLoop_char _ _ _ _ hc, readInto]
      simp [ih, byteLen_cons, byteLen_nil, Nat.add_assoc, Bool.false_eq_true,
        append_assoc]

end JsonPointer

/-- A segment as the parser leaves it, from where its text starts. -/
def markedAt (start : Nat) (s : Text) : PtrSegment :=
  if s.any isSpecial then .escaped ⟨start, mark start start s⟩ s
  else .unescaped ⟨start, mark start start s⟩

/-- The segments as the parser leaves them, from where their text starts. -/
def marks : Nat → List Text → List PtrSegment
  | _, [] => []
  | n, s :: l => markedAt (n + 1) s :: marks (n + 1 + byteLen (escape s)) l

/-- The text up to the first tilde that is not followed by a zero or a one. -/
def wellEscaped : Text → Text
  | '~' :: '0' :: s => '~' :: '0' :: wellEscaped s
  | '~' :: '1' :: s => '~' :: '1' :: wellEscaped s
  | '~' :: _ => []
  | c :: s => c :: wellEscaped s
  | [] => []

/-- A text is the rest of a segment and more segments, up to a wrong escape if there is one. -/
theorem exists_segments (t : Text) : ∃ s l wrong, wellEscaped t = escape s ++ escapeAll l ∧
      t = wellEscaped t ++ wrong ∧
      (wrong = [] ∨ wrong = ['~'] ∨ ∃ c rest, wrong = '~' :: c :: rest ∧ c ≠ '0' ∧ c ≠ '1') := by
  fun_induction wellEscaped t with
  | case1 t ih =>
    obtain ⟨s, l, wrong, hs, ht, hwrong⟩ := ih
    exact ⟨'~' :: s, l, wrong, congrArg (['~', '0'] ++ ·) hs, congrArg (['~', '0'] ++ ·) ht, hwrong⟩
  | case2 t ih =>
    obtain ⟨s, l, wrong, hs, ht, hwrong⟩ := ih
    exact ⟨'/' :: s, l, wrong, congrArg (['~', '1'] ++ ·) hs, congrArg (['~', '1'] ++ ·) ht, hwrong⟩
  | case3 t hzero hone =>
    refine ⟨[], [], '~' :: t, rfl, rfl, .inr ?_⟩
    cases t with
    | nil => exact .inl rfl
    | cons c rest =>
      refine .inr ⟨c, rest, rfl, ?_, ?_⟩
      · rintro rfl
        exact hzero rest rfl
      · rintro rfl
        exact hone rest rfl
  | case4 c t _ _ hne ih =>
    obtain ⟨s, l, wrong, hs, ht, hwrong⟩ := ih
    by_cases hc : c = '/'
    · exact ⟨[], s :: l, wrong, by rw [hc, hs]; rfl, congrArg _ ht, hwrong⟩
    · have hspecial : isSpecial c = false := by
        simpa [isSpecial, hc] using hne
      refine ⟨c :: s, l, wrong, ?_, congrArg _ ht, hwrong⟩
      rw [escape_cons, escapeChar_of_not_special hspecial, hs]
      rfl
  | case5 => exact ⟨[], [], [], rfl, rfl, .inl rfl⟩

/-- The parser does not panic in a segment. -/
def readable (s : Text) : Bool := !s.any isSpecial || endsInByte (plainHead s)

/-- The text of a segment can be taken once it is parsed. -/
def showable (s : Text) : Bool := s.any isSpecial || endsInByte s

/-- A segment is free of escapes or has a first one. -/
theorem plainHead_cases (s : Text) : s.any isSpecial = false ∧ plainHead s = s ∨
      s.any isSpecial = true ∧ ∃ c rest, isSpecial c = true ∧ s = plainHead s ++ c :: rest ∧
        (plainHead s).any isSpecial = false := by
  induction s with
  | nil => exact .inl ⟨rfl, rfl⟩
  | cons d s ih =>
    cases hd : isSpecial d with
    | true =>
      exact .inr ⟨by simp [hd], d, s, hd, by simp [plainHead, hd], by simp [plainHead, hd]⟩
    | false =>
      have hhead : plainHead (d :: s) = d :: plainHead s := by simp [plainHead, hd]
      rw [hhead]
      rw [List.any_cons, List.any_cons, hd]
      rcases ih with ⟨hplain, hs⟩ | ⟨hspecial, c, rest, hc, hs, hplain⟩
      · exact .inl ⟨hplain, by rw [hs]⟩
      · exact .inr ⟨hspecial, c, rest, hc, by rw [List.cons_append, ← hs], hplain⟩

theorem readable_and_showable (s : Text) :
    (readable s && showable s) = endsInByte (plainHead s) := by
  rcases plainHead_cases s with ⟨hplain, hs⟩ | ⟨hspecial, -⟩
  · rw [readable, showable, hplain, hs]
    rfl
  · rw [readable, showable, hspecial]
    simp

namespace JsonPointer

/-- The parser reads a segment to its end, or panics at its first escape. -/
theorem parseLoop_segment (front s rest : Text) (segments : List PtrSegment) :
    parseLoop (front ++ (escape s ++ rest)) (byteLen front) (escape s ++ rest) segments
        (.unescaped ⟨byteLen front, byteLen front⟩) false =
      if readable s then
        parseLoop (front ++ (escape s ++ rest)) (byteLen front + byteLen (escape s)) rest segments
          (markedAt (byteLen front) s) false
      else none := by
  rcases plainHead_cases s with ⟨hplain, -⟩ | ⟨hspecial, c, tail, hc, hs, hplain⟩
  · have hloop := parseLoop_plain (front ++ (escape s ++ rest)) (byteLen front) rest segments hplain
    simp only [readable, markedAt, hplain, Bool.not_false, Bool.true_or, if_true,
      Bool.false_eq_true, if_false]
    rw [← hloop, escape_eq_self hplain]
  · rw [readable, hspecial, markedAt, if_pos hspecial, Bool.not_true, Bool.false_or]
    generalize plainHead s = head at hs hplain
    subst hs
    have hlen := byteLen_escapeChar hc
    have htext : escape (head ++ c :: tail) ++ rest =
        head ++ (escapeChar c ++ (escape tail ++ rest)) := by
      rw [escape_append, escape_cons, escape_eq_self hplain, append_assoc, append_assoc]
    rw [htext, parseLoop_plain _ _ _ _ hplain, parseLoop_special _ _ _ _ hc, unescapeInto,
      slice_mark front head _ hplain]
    by_cases hends : endsInByte head = true
    · rw [if_pos hends, if_pos hends, Option.map_some, Option.bind_some, parseLoop_escaped,
        mark_append, mark, if_pos hc, escape_append, byteLen_append, escape_cons,
        byteLen_append, hlen]
      simp [Nat.add_assoc, append_assoc, Nat.reduceAdd]
    · rw [if_neg hends, if_neg hends]
      rfl

/-- The parser reads segments up to what follows them, or panics in one. -/
theorem parseLoop_segments (front s : Text) (l : List Text) (rest : Text)
    (segments : List PtrSegment) :
    ∃ idx before last, before ++ [last] = segments ++ markedAt (byteLen front) s ::
          marks (byteLen front + byteLen (escape s)) l ∧
      parseLoop (front ++ (escape s ++ (escapeAll l ++ rest))) (byteLen front)
          (escape s ++ (escapeAll l ++ rest)) segments
          (.unescaped ⟨byteLen front, byteLen front⟩) false =
        if (s :: l).all readable then
          parseLoop (front ++ (escape s ++ (escapeAll l ++ rest))) idx rest before last false
        else none := by
  induction l generalizing front s segments with
  | nil =>
    refine ⟨byteLen front + byteLen (escape s), segments, markedAt (byteLen front) s, rfl, ?_⟩
    rw [List.all_cons, List.all_nil, Bool.and_true]
    exact parseLoop_segment front s rest segments
  | cons t l ih =>
    obtain ⟨idx, before, last, hlast, hnext⟩ :=
      ih (front ++ (escape s ++ ['/'])) t (segments ++ [markedAt (byteLen front) s])
    have hsrc : front ++ (escape s ++ ['/']) ++ (escape t ++ (escapeAll l ++ rest)) =
        front ++ (escape s ++ (escapeAll (t :: l) ++ rest)) := by
      simp
    have hstart : byteLen (front ++ (escape s ++ ['/'])) =
        byteLen front + byteLen (escape s) + 1 := by
      rw [byteLen_append, byteLen_append]
      rfl
    rw [hsrc, hstart] at hnext
    rw [hstart] at hlast
    refine ⟨idx, before, last, by simp [hlast, marks], ?_⟩
    rw [parseLoop_segment, List.all_cons]
    cases readable s with
    | false => rfl
    | true =>
      rw [if_pos rfl, Bool.true_and, ← hnext, escapeAll_cons, List.cons_append, append_assoc]
      rfl

/-- The parser's result on the text of a list of segments with something behind it. -/
theorem parse_segments (s : Text) (l : List Text) (rest : Text) :
    ∃ idx before last, before ++ [last] = marks 0 (s :: l) ∧
      parse (escapeAll (s :: l) ++ rest) =
        if (s :: l).all readable then
          (parseLoop (escapeAll (s :: l) ++ rest) idx rest before last false).map fun r =>
            r.map fun segments => ⟨escapeAll (s :: l) ++ rest, 0, segments⟩
        else none := by
  obtain ⟨idx, before, last, hlast, hloop⟩ := parseLoop_segments ['/'] s l rest []
  refine ⟨idx, before, last, hlast, ?_⟩
  rw [List.singleton_append, show byteLen ['/'] = '/'.utf8Size from rfl] at hloop
  rw [escapeAll_cons, List.cons_append, append_assoc, parse, if_pos rfl,
    show (1 : Nat) = '/'.utf8Size from rfl, hloop]
  split <;> rfl

/-- The parser's result on the text of a list of segments. -/
theorem parse_escapeAll (l : List Text) : parse (escapeAll l) =
      if l.all readable then some (.ok ⟨escapeAll l, 0, marks 0 l⟩) else none := by
  cases l with
  | nil => rfl
  | cons s l =>
    obtain ⟨idx, before, last, hlast, hparse⟩ := parse_segments s l []
    rw [List.append_nil, parseLoop, hlast] at hparse
    exact hparse

theorem text_markedAt (front s back : Text) :
    (markedAt (byteLen front + 1) s).text (front ++ '/' :: (escape s ++ back)) 0 =
      if showable s then some s else none := by
  rw [markedAt]
  cases hspecial : s.any isSpecial with
  | true =>
    rw [showable, hspecial]
    rfl
  | false =>
    have hslice := slice_mark (front ++ ['/']) s back hspecial
    rw [byteLen_append, append_assoc] at hslice
    rw [showable, hspecial, Bool.false_or, ← hslice, escape_eq_self hspecial]
    rfl

theorem mapM_text_marks (front : Text) (l : List Text) (back : Text) :
    (marks (byteLen front) l).mapM (PtrSegment.text (front ++ (escapeAll l ++ back)) 0) =
      if l.all showable then some l else none := by
  induction l generalizing front with
  | nil => rfl
  | cons s l ih =>
    have hrest := ih (front ++ '/' :: escape s)
    rw [byteLen_append, byteLen_slash, ← Nat.add_assoc, append_assoc, List.cons_append]
      at hrest
    rw [marks, List.mapM_cons, escapeAll_cons, List.cons_append, append_assoc, text_markedAt, hrest,
      List.all_cons]
    cases showable s with
    | false => rfl
    | true =>
      cases l.all showable with
      | false => rfl
      | true => rfl

theorem iter_marks (l : List Text) (back : Text) :
    (⟨escapeAll l ++ back, 0, marks 0 l⟩ : JsonPointer).iter =
      if l.all showable then some l else none :=
  mapM_text_marks [] l back

/-- Parsing the text of a list gives the list back, unless some segment has a character
of several bytes in front of its first escape or of its end. -/
theorem iter_parse_iff (l : List Text) :
    (∃ p, parse (escapeAll l) = some (.ok p) ∧ p.iter = some l) ↔
      ∀ s ∈ l, endsInByte (plainHead s) = true := by
  have hiter := iter_marks l []
  rw [List.append_nil] at hiter
  have hboth : (∀ s ∈ l, endsInByte (plainHead s) = true) ↔
      l.all readable = true ∧ l.all showable = true := by
    simp only [← readable_and_showable, Bool.and_eq_true, List.all_eq_true]
    constructor
    · intro h
      exact ⟨fun s hs => (h s hs).1, fun s hs => (h s hs).2⟩
    · rintro ⟨hread, hshow⟩ s hs
      exact ⟨hread s hs, hshow s hs⟩
  rw [hboth, parse_escapeAll]
  constructor
  · rintro ⟨p, hparse, hp⟩
    split at hparse
    · rename_i hread
      cases hparse
      rw [hiter] at hp
      split at hp
      · exact ⟨hread, ‹_›⟩
      · cases hp
    · cases hparse
  · rintro ⟨hread, hshow⟩
    exact ⟨_, if_pos hread, hiter.trans (if_pos hshow)⟩

variable {l : List Text} {rest : Text}

theorem marks_eq_layout (h : ∀ s ∈ l, endsInByte s = true) (n : Nat) : marks n l = layout n l := by
  induction l generalizing n with
  | nil => rfl
  | cons s l ih =>
    have hmark := mark_of_endsInByte (n + 1) (h s (by simp))
    rw [marks, layout, ih (fun t ht => h t (by simp [ht])), markedAt, segmentAt, hmark]

/-- Where every mark is right, parsing gives the exact pointer. -/
theorem parse_exact (h : ∀ s ∈ l, endsInByte (plainHead s) = true ∧ endsInByte s = true) :
    parse (escapeAll l) = some (.ok (exact 0 l)) := by
  have hread : l.all readable = true := by
    rw [List.all_eq_true]
    intro s hs
    rw [readable, (h s hs).1, Bool.or_true]
  rw [parse_escapeAll, if_pos hread, marks_eq_layout fun s hs => (h s hs).2]
  rfl

/-- A pointer that is pushed together from a list, at either end, iterates to the list.
Parsing its text gives the list back exactly when every segment has a single byte in
front of its first escape, or of its end. -/
theorem pointer_roundTrip (l : List Text) :
    (l.foldl pushEnd root).iter = some l ∧ (l.reverse.foldl pushStart root).iter = some l ∧
      (l.reverse.foldl pushStart root).asRef = (l.foldl pushEnd root).asRef ∧
      ((∃ p, parse (l.foldl pushEnd root).asRef = some (.ok p) ∧ p.iter = some l) ↔
        ∀ s ∈ l, endsInByte (plainHead s) = true) := by
  have hend : l.foldl pushEnd root = exact 0 l := foldl_pushEnd_exact [] l
  have hstart : l.reverse.foldl pushStart root = exact 0 l := by
    have := foldl_pushStart_exact [] l.reverse
    rwa [List.reverse_reverse, List.append_nil] at this
  rw [hend, hstart]
  exact ⟨iter_exact 0 l, iter_exact 0 l, rfl, iter_parse_iff l⟩

/-- The text of a segment that is one accented letter is parsed to a range inside of the
letter, and iterating panics; with an escape behind the letter, parsing panics. -/
theorem pointer_accented : parse ([['é']].foldl pushEnd root).asRef =
        some (.ok ⟨['/', 'é'], 0, [.unescaped ⟨1, 2⟩]⟩) ∧
      (⟨['/', 'é'], 0, [.unescaped ⟨1, 2⟩]⟩ : JsonPointer).iter = none ∧
      parse ([['é', '/']].foldl pushEnd root).asRef = none :=
  ⟨rfl, rfl, rfl⟩

end JsonPointer

end StartTech.JsonPtr

import StartTech.Exver.Reading

/-!
# The text of a range and what it parses to

Ranges are printed with parentheses around every part that is not a comparison,
and a conjunction is printed without an operator. A range that was built by the
constructors of the crate is parsed back from its text as it was.
-/

namespace StartTech.Exver

open Foundation

def PreReleaseSegment.display : PreReleaseSegment → Text
  | .number value => Text.decimal value
  | .bigNumber value => value
  | .string value => value

def Version.display (v : Version) : Text :=
  (if v.number.isEmpty then ['0'] else ['.'].intercalate (v.number.map Text.decimal)) ++
    if v.prerelease.isEmpty then []
    else '-' :: ['.'].intercalate (v.prerelease.map PreReleaseSegment.display)

def ExtendedVersion.display (v : ExtendedVersion) : Text :=
  flavorText v.flavor ++ (v.upstream.display ++ ':' :: v.downstream.display)

/-- The comparison that an operator is printed as. -/
def Operator.cmpOp : Operator → CmpOp
  | .err .lt => .ge
  | .ok .lt => .lt
  | .err .eq => .ne
  | .ok .eq => .eq
  | .err .gt => .le
  | .ok .gt => .gt

namespace VersionRange

def isExpr : VersionRange → Bool
  | .anchor _ _ | .any | .none => false
  | _ => true

/-- A part of a range, in parentheses when it is an expression. -/
def writeWithParens (isExpr : Bool) (t : Text) : Text := if isExpr then '(' :: t ++ [')'] else t

def display : VersionRange → Text
  | .anchor op v => (Operator.cmpOp op).text ++ v.display
  | .and a b => writeWithParens a.isExpr a.display ++ ' ' :: writeWithParens b.isExpr b.display
  | .or a b =>
    writeWithParens a.isExpr a.display ++ [' ', '|', '|', ' '] ++
      writeWithParens b.isExpr b.display
  | .not a => '!' :: writeWithParens a.isExpr a.display
  | .any => ['*']
  | .none => ['!']
  | .flavor f => '#' :: f.getD []

end VersionRange

/-- A version that the parser could have returned: it has a number, its numbers
are machine words, and its segments are stored as the parser stores them. -/
structure Version.WellFormed (v : Version) : Prop where
  nonempty : v.number ≠ []
  numbers : ∀ n ∈ v.number, n < Text.wordLimit
  segments : ∀ seg ∈ v.prerelease, ∃ input text,
    Version.parsePrereleaseSegment input text = .ok seg

/-- No flavor, or one of lowercase letters. -/
def WellFormedFlavor (flavor : Option Text) : Prop :=
  ∀ f ∈ flavor, f ≠ [] ∧ f.all Char.isLower = true

structure ExtendedVersion.WellFormed (v : ExtendedVersion) : Prop where
  flavor : WellFormedFlavor v.flavor
  upstream : v.upstream.WellFormed
  downstream : v.downstream.WellFormed

/-- The ranges that the constructors of the crate build from well-formed versions. -/
inductive VersionRange.Built : VersionRange → Prop
  | any : Built .any
  | none : Built .none
  | anchor (op : Operator) {v : ExtendedVersion} (hv : v.WellFormed) : Built (.anchor op v)
  | flavor {f : Option Text} (hf : WellFormedFlavor f) : Built (.flavor f)
  | caret {v : ExtendedVersion} (hv : v.WellFormed) {r : VersionRange}
      (h : VersionRange.caret v = some r) : Built r
  | tilde {v : ExtendedVersion} (hv : v.WellFormed) {r : VersionRange}
      (h : VersionRange.tilde v = some r) : Built r
  | and {a b : VersionRange} (ha : Built a) (hb : Built b) : Built (smartAnd a b)
  | or {a b : VersionRange} (ha : Built a) (hb : Built b) : Built (smartOr a b)
  | not {a : VersionRange} (ha : Built a) : Built (smartNot a)

theorem PreReleaseSegment.display_segmentOf {s : Text} (h : VersionText.isIdentifier s = true) :
    (VersionText.segmentOf s).display = s := by
  rcases VersionText.segmentOf_eq s with ⟨heq, hdigits⟩ | heq | heq
  · rw [heq]
    exact VersionText.decimal_numberOf h hdigits
  · rw [heq]
    rfl
  · rw [heq]
    rfl

theorem VersionText.isPlain_decimal (n : Nat) : isPlain (Text.decimal n) = true := by
  rcases Nat.eq_zero_or_pos n with rfl | hpos
  · decide
  · have hhead := Text.decimal_head hpos.ne'
    simp [isPlain, hhead]

open VersionText (numberOf segmentOf isIdentifier isPlain_decimal text version)

/-- A well-formed version is printed as a text that stands for it. -/
theorem Version.WellFormed.pieces {v : Version} (h : v.WellFormed) :
    ∃ t : VersionText, t.WellFormed ∧ t.Plain ∧ t.Fits ∧ t.text = v.display ∧ t.version = v := by
  have hsegment : ∀ seg ∈ v.prerelease, isIdentifier seg.display = true ∧
      segmentOf seg.display = seg := by
    intro seg hseg
    obtain ⟨input, text, hparse⟩ := h.segments seg hseg
    obtain ⟨hident, rfl⟩ := VersionText.eq_segmentOf_of_parse hparse
    rw [PreReleaseSegment.display_segmentOf hident]
    exact ⟨hident, rfl⟩
  refine ⟨⟨v.number.map Text.decimal, v.prerelease.map PreReleaseSegment.display⟩,
    ⟨?_, ?_, ?_⟩, ?_, ?_, ?_, ?_⟩
  · simpa using h.nonempty
  · intro d hd
    obtain ⟨n, -, rfl⟩ := List.mem_map.mp hd
    exact VersionText.isNumeral_decimal n
  · intro s hs
    obtain ⟨seg, hseg, rfl⟩ := List.mem_map.mp hs
    exact (hsegment seg hseg).1
  · intro d hd
    obtain ⟨n, -, rfl⟩ := List.mem_map.mp hd
    exact isPlain_decimal n
  · intro d hd
    obtain ⟨n, hn, rfl⟩ := List.mem_map.mp hd
    rw [numberOf, Text.ofDigitChars_decimal]
    exact h.numbers n hn
  · simp [text, Version.display, h.nonempty]
  · have hnum : (v.number.map Text.decimal).map numberOf = v.number := by
      simp [numberOf, Function.comp_def, Text.ofDigitChars_decimal]
    have hpre : (v.prerelease.map PreReleaseSegment.display).map segmentOf =
        v.prerelease := by
      rw [List.map_map]
      exact (List.map_congr_left fun seg hseg => (hsegment seg hseg).2).trans (List.map_id _)
    simp [version, hnum, hpre]

/-- The pieces of a text that both sides of an anchor agree on. -/
structure SpecText.StandsFor (t : SpecText) (v : ExtendedVersion) : Prop where
  wellFormed : t.WellFormed
  upstream : t.upstream.Plain
  downstream : ∀ down ∈ t.downstream, down.Plain
  fits : t.Fits
  text : t.text = v.display
  version : t.version = v

theorem ExtendedVersion.WellFormed.pieces {v : ExtendedVersion} (h : v.WellFormed) :
    ∃ t : SpecText, t.StandsFor v := by
  obtain ⟨up, hup, hupp, hupf, huptext, hupv⟩ := h.upstream.pieces
  obtain ⟨down, hdown, hdownp, hdownf, hdowntext, hdownv⟩ := h.downstream.pieces
  have hflavor : v.flavor.filter (fun f => !f.isEmpty) = v.flavor := by
    cases hf : v.flavor with
    | none => rfl
    | some f => simpa using (h.flavor f hf).1
  refine ⟨⟨v.flavor, up, some down⟩, ⟨fun f hf => (h.flavor f hf).2, hup, ?_⟩, hupp, ?_,
    ⟨hupf, ?_⟩, ?_, ?_⟩
  · simpa using hdown
  · simpa using hdownp
  · simpa using hdownf
  · simp [SpecText.text, ExtendedVersion.display, huptext, hdowntext]
  · simp [SpecText.version, hflavor, hupv, hdownv]

namespace VersionRange

/-- Neither everything nor nothing. -/
def Proper (r : VersionRange) : Prop := r ≠ .any ∧ r ≠ .none

/-- A range that the constructors leave as it is, all the way down. -/
def Normal : VersionRange → Prop
  | .anchor _ v => v.WellFormed
  | .and a b | .or a b => a.Normal ∧ b.Normal ∧ a.Proper ∧ b.Proper
  | .not a => a.Normal ∧ smartNot a = .not a
  | .any | .none => True
  | .flavor f => WellFormedFlavor f

variable {a b r : VersionRange} {v max : ExtendedVersion}

theorem smartAnd_of_proper (ha : a.Proper) (hb : b.Proper) : smartAnd a b = .and a b := by
  unfold smartAnd
  split
  · exact absurd rfl ha.1
  · exact absurd rfl hb.1
  · exact absurd rfl ha.2
  · exact absurd rfl hb.2
  · rfl

theorem smartOr_of_proper (ha : a.Proper) (hb : b.Proper) : smartOr a b = .or a b := by
  unfold smartOr
  split
  · exact absurd rfl ha.1
  · exact absurd rfl hb.1
  · exact absurd rfl ha.2
  · exact absurd rfl hb.2
  · rfl

theorem Normal.smartAnd (ha : a.Normal) (hb : b.Normal) : (smartAnd a b).Normal := by
  unfold VersionRange.smartAnd
  split
  · exact hb
  · exact ha
  · trivial
  · trivial
  · rename_i ha₁ ha₂ hb₁ hb₂
    exact ⟨ha, hb, ⟨ha₁, ha₂⟩, ⟨hb₁, hb₂⟩⟩

theorem Normal.smartOr (ha : a.Normal) (hb : b.Normal) : (smartOr a b).Normal := by
  unfold VersionRange.smartOr
  split
  · trivial
  · trivial
  · exact hb
  · exact ha
  · rename_i ha₁ ha₂ hb₁ hb₂
    exact ⟨ha, hb, ⟨ha₁, ha₂⟩, ⟨hb₁, hb₂⟩⟩

theorem Normal.smartNot (ha : a.Normal) : (smartNot a).Normal := by
  cases a with
  | anchor op v =>
    by_cases heq : op = EQ
    · have hanchor : VersionRange.smartNot (.anchor op v) = .anchor NEQ v := by
        simp [VersionRange.smartNot, heq]
      rw [hanchor]
      exact ha
    · by_cases hneq : op = NEQ
      · have hanchor : VersionRange.smartNot (.anchor op v) = .anchor EQ v := by
          simp [VersionRange.smartNot, hneq, show NEQ ≠ EQ by decide]
        rw [hanchor]
        exact ha
      · have hnot : VersionRange.smartNot (.anchor op v) = .not (.anchor op v) := by
          simp [VersionRange.smartNot, heq, hneq]
        rw [hnot]
        exact ⟨ha, hnot⟩
  | not a => exact ha.1
  | any | none => trivial
  | and a b | or a b | flavor f => exact ⟨ha, rfl⟩

theorem default_wellFormed : Version.default.WellFormed :=
  ⟨by decide, by decide, by simp [Version.default]⟩

theorem wordSucc_lt (n : Nat) : wordSucc n < Text.wordLimit := Nat.mod_lt _ (by decide)

/-- The significant numbers of a version and the place that is counted up. -/
theorem semanticNumber_of_wellFormed {v : Version} (h : v.WellFormed) :
    ∃ number, v.semanticNumber = some number ∧ majorIdx number < number.length ∧
      ∀ n ∈ number, n < Text.wordLimit := by
  obtain ⟨n, rest, hnum⟩ := List.exists_cons_of_ne_nil h.nonempty
  have hsem := Version.semanticNumber_cons n rest v.prerelease
  rw [← hnum] at hsem
  refine ⟨_, hsem, majorIdx_lt (by simp), ?_⟩
  intro m hm
  apply h.numbers m
  rw [hnum]
  rcases List.mem_cons.mp hm with rfl | hm
  · simp
  · exact List.mem_cons_of_mem n ((List.rdropWhile_prefix _ _).mem hm)

section

variable (hv : v.WellFormed)
include hv

/-- The upper bounds of carets and tildes are well formed. -/
theorem wellFormed_bound {number : List Nat} {n : Nat}
    (h : ∀ m ∈ number, m < Text.wordLimit) : ExtendedVersion.WellFormed
      ⟨v.flavor, ⟨number ++ [wordSucc n], v.upstream.prerelease⟩, .default⟩ := by
  refine ⟨hv.flavor, ⟨by simp, ?_, hv.upstream.segments⟩, default_wellFormed⟩
  intro m hm
  rcases List.mem_append.mp hm with hm | hm
  · exact h m hm
  · rw [List.mem_singleton.mp hm]
    exact wordSucc_lt n

theorem caretMax_wellFormed (h : caretMax v = some max) : max.WellFormed := by
  obtain ⟨number, hnum, hidx, hlt⟩ := semanticNumber_of_wellFormed hv.upstream
  simp only [caretMax, hnum, Option.bind_eq_bind, Option.bind_some,
    List.getElem?_eq_getElem hidx, Option.map_some, Option.toList_some, Option.some.injEq] at h
  subst h
  exact wellFormed_bound hv fun m hm => hlt m (List.mem_of_mem_take hm)

theorem tildeMax_wellFormed (h : tildeMax v = some max) : max.WellFormed := by
  obtain ⟨number, hnum, hidx, hlt⟩ := semanticNumber_of_wellFormed hv.upstream
  simp only [tildeMax, hnum, Option.bind_eq_bind, Option.bind_some,
    List.getElem?_eq_getElem hidx, Option.toList_some, Option.some.injEq] at h
  subst h
  apply wellFormed_bound hv
  intro m hm
  rcases List.mem_append.mp hm with hm | hm
  · exact hlt m (List.mem_of_mem_take hm)
  · rw [List.mem_singleton.mp hm]
    exact hlt _ (List.getElem_mem hidx)

/-- A pair of bounds is a normal range. -/
theorem normal_bounds (hmax : max.WellFormed) :
    (VersionRange.smartAnd (.anchor GTE v) (.anchor LT max)).Normal :=
  Normal.smartAnd (a := .anchor GTE v) (b := .anchor LT max) hv hmax

end

/-- The constructors build ranges that they leave as they are. -/
theorem Built.normal (h : r.Built) : r.Normal := by
  induction h with
  | any | none => trivial
  | anchor op hv => exact hv
  | flavor hf => exact hf
  | caret hv h =>
    obtain ⟨max, hmax, rfl⟩ := Option.map_eq_some_iff.mp h
    exact normal_bounds hv (caretMax_wellFormed hv hmax)
  | tilde hv h =>
    obtain ⟨max, hmax, rfl⟩ := Option.map_eq_some_iff.mp h
    exact normal_bounds hv (tildeMax_wellFormed hv hmax)
  | and _ _ iha ihb => exact iha.smartAnd ihb
  | or _ _ iha ihb => exact iha.smartOr ihb
  | not _ ih => exact ih.smartNot

/-- What the grammar reads a part of a printed range as. -/
def wrap (isExpr : Bool) (e : RangeExpr Text) : RangeExpr Text := if isExpr then .parens e else e

/-- What the grammar reads a printed range as. -/
def expr : VersionRange → RangeExpr Text
  | .anchor op v => .anchor (some (Operator.cmpOp op)) v.display
  | .and a b => .link (wrap a.isExpr a.expr) Option.none (wrap b.isExpr b.expr)
  | .or a b => .link (wrap a.isExpr a.expr) (some .or) (wrap b.isExpr b.expr)
  | .not a => .not (wrap a.isExpr a.expr)
  | .any => .any
  | .none => .none
  | .flavor f => .flavor (f.getD [])

theorem parse_wrap (b : Bool) (e : RangeExpr Text) :
    parseVersionRange (wrap b e) = parseVersionRange e := by
  cases b <;> rfl

theorem lastOp_wrap (r : VersionRange) : (wrap r.isExpr r.expr).lastOp = Option.none := by
  cases r <;> rfl

/-- What the grammar reads becomes the range that was printed. -/
theorem parse_expr (h : r.Normal) : parseVersionRange r.expr = .ok r := by
  induction r with
  | anchor op v =>
    obtain ⟨t, ht⟩ := ExtendedVersion.WellFormed.pieces h
    have hspec := ExtendedVersion.parseSpec_text ht.wellFormed ht.fits
    rw [ht.text, ht.version] at hspec
    have hop : ofAnchor v (Operator.cmpOp op) = some (.anchor op v) := by
      rcases op with o | o <;> cases o <;> rfl
    simp [expr, parseVersionRange, parseAnchor, hspec, hop, bind, Except.bind]
  | and a b iha ihb =>
    obtain ⟨ha, hb, hpa, hpb⟩ := h
    simp [expr, parseVersionRange, parse_wrap, iha ha, ihb hb, lastOp_wrap,
      smartAnd_of_proper hpa hpb, bind, Except.bind]
  | or a b iha ihb =>
    obtain ⟨ha, hb, hpa, hpb⟩ := h
    simp [expr, parseVersionRange, parse_wrap, iha ha, ihb hb, smartOr_of_proper hpa hpb, bind,
      Except.bind]
  | not a ih =>
    simp [expr, parseVersionRange, parse_wrap, ih h.1, h.2, bind, Except.bind]
  | any | none => rfl
  | flavor f =>
    cases f with
    | none => rfl
    | some f =>
      have hne : f ≠ [] := (h f rfl).1
      simp [expr, parseVersionRange, hne]

section Reading

open Grammar Peg

variable {depth : Nat} {rest s : Text} {c : Char} {v : ExtendedVersion} {r a b : VersionRange}

/-- Where a printed part ends: at the end, a parenthesis or a blank. -/
def Stop (rest : Text) : Prop := ∀ c ∈ rest.head?, c = ')' ∨ c = ' '

theorem Stop.ends (h : Stop rest) : Ends rest := by
  intro c hc
  rcases h c hc with rfl | rfl <;> decide

theorem Stop.head_ne (h : Stop rest) (hc : c ≠ ')' ∧ c ≠ ' ') : rest.head? ≠ some c := by
  intro heq
  rcases h c heq with rfl | rfl
  · exact hc.1 rfl
  · exact hc.2 rfl

/-- A printed comparison is read as an atom. -/
theorem atom_display_anchor (op : Operator) (hv : v.WellFormed) (hrest : Stop rest) :
    atom (depth + 1) (display (.anchor op v) ++ rest) = some (expr (.anchor op v), rest) := by
  obtain ⟨t, ht⟩ := hv.pieces
  have hread := @atom_anchor rest depth [] (some (Operator.cmpOp op)) t (by simp [Blank])
    ht.wellFormed ht.upstream ht.downstream hrest.ends (hrest.head_ne (by decide))
  simpa [anchorText, ht.text, display, expr] using hread

/-- What a printed range, or a part of one, starts with. -/
def startsRange (c : Char) : Bool := ['>', '<', '=', '!', '(', '*', '#'].contains c

theorem part_head_of (u : Text) (h : ∃ c w, r.display = c :: w ∧ startsRange c = true) :
    ∃ c w, writeWithParens r.isExpr r.display ++ u = c :: w ∧ startsRange c = true := by
  obtain ⟨c, w, heq, hc⟩ := h
  cases hexpr : r.isExpr with
  | true => exact ⟨'(', _, rfl, by decide⟩
  | false => exact ⟨c, w ++ u, by simp [writeWithParens, heq], hc⟩

theorem display_head (r : VersionRange) : ∃ c u, r.display = c :: u ∧ startsRange c = true := by
  induction r with
  | anchor op v => rcases op with o | o <;> cases o <;> exact ⟨_, _, rfl, by decide⟩
  | and a b iha ihb => exact part_head_of _ iha
  | or a b iha ihb =>
    rw [display, List.append_assoc]
    exact part_head_of _ iha
  | not a ih | any | none | flavor f => exact ⟨_, _, rfl, by decide⟩

/-- A part of a printed range starts with none of the characters between parts. -/
theorem part_head_ne (r : VersionRange) (rest : Text) (hc : startsRange c = false) :
    (writeWithParens r.isExpr r.display ++ rest).head? ≠ some c := by
  obtain ⟨d, u, heq, hd⟩ := part_head_of rest (display_head r)
  rw [heq]
  rintro h
  cases h
  rw [hc] at hd
  cases hd

/-- The range is read off its text, up to the blanks behind it. -/
def ReadsBack (r : VersionRange) : Prop :=
  ∀ (depth : Nat) (rest : Text), r.display.length ≤ depth → Closed rest →
    ∃ after, rangeOf (atom depth) (r.display ++ rest) = some (r.expr, after) ∧
      skip after = some ((), rest)

/-- A part of a printed range is read as an atom. -/
theorem atom_part (hr : r.Normal) (hproper : r.Proper) (hreads : r.ReadsBack)
    (hdepth : (writeWithParens r.isExpr r.display).length ≤ depth) (hrest : Stop rest) :
    atom depth (writeWithParens r.isExpr r.display ++ rest) =
      some (wrap r.isExpr r.expr, rest) := by
  obtain ⟨c, u, hcons, hc⟩ := part_head_of [] (display_head r)
  rw [List.append_nil] at hcons
  obtain ⟨depth, rfl⟩ : ∃ d, depth = d + 1 := by
    refine Nat.exists_eq_add_one.mpr (Nat.lt_of_lt_of_le ?_ hdepth)
    simp [hcons]
  cases hexpr : r.isExpr with
  | true =>
    have hlen : r.display.length ≤ depth := by
      simp only [writeWithParens, hexpr, if_true, List.length_append, List.length_cons,
        List.length_nil] at hdepth
      omega
    obtain ⟨after, hrange, hskip⟩ := hreads depth (')' :: rest) hlen (by simp [Closed])
    obtain ⟨d, w, hdisplay, hd⟩ := display_head r
    have hspace : (r.display ++ ')' :: rest).head? ≠ some ' ' := by
      rw [hdisplay]
      rintro h
      cases h
      cases hd
    have hatom := atom_of_isAtom (.parens (skip_of_head_ne hspace) hrange hskip)
    simpa [writeWithParens, wrap] using hatom
  | false =>
    cases r with
    | anchor op v => exact atom_display_anchor op hr hrest
    | any => exact absurd rfl hproper.1
    | none => exact absurd rfl hproper.2
    | and a b => cases hexpr
    | or a b => cases hexpr
    | not a => cases hexpr
    | flavor f => cases hexpr

/-- A single atom that ends where the range ends. -/
theorem range_single {e : RangeExpr Text} (hatom : atom depth s = some (e, rest))
    (hrest : Closed rest) : ∃ after, rangeOf (atom depth) s = some (e, after) ∧
      skip after = some ((), rest) :=
  @range_chain rest s depth e [] rest [] hatom (.nil _) (by simp [Blank]) hrest

/-- Two atoms that are linked by the text between them. -/
theorem range_pair {u : Text} {a b : RangeExpr Text} {op : Option Logic}
    (hfirst : atom depth s = some (a, ' ' :: u))
    (hlink : linked (atom depth) u = some ((op, b), rest)) (hspace : u.head? ≠ some ' ')
    (hrest : Closed rest) : ∃ after, rangeOf (atom depth) s = some (.link a op b, after) ∧
      skip after = some ((), rest) := by
  have hnext : next depth (' ' :: u) = some ((op, b), rest) := by
    rw [next, bind_of_eq_some (skip_blank hspace), hlink]
  exact @range_chain rest s depth a [(op, b)] _ [] hfirst (.cons hnext (.nil _)) (by simp [Blank])
    hrest

theorem Closed.stop (h : Closed rest) : Stop rest := fun c hc => .inl (h c hc)

theorem readsBack_and (h : (VersionRange.and a b).Normal) (iha : a.ReadsBack) (ihb : b.ReadsBack) :
    (VersionRange.and a b).ReadsBack := by
  obtain ⟨ha, hb, hpa, hpb⟩ := h
  intro depth rest hdepth hrest
  simp only [display, List.length_append, List.length_cons] at hdepth
  have hfirst := @atom_part depth (' ' :: (writeWithParens b.isExpr b.display ++ rest)) a ha hpa iha
    (by omega) (by simp [Stop])
  have hsecond := atom_part hb hpb ihb (show _ ≤ depth by omega) (Closed.stop hrest)
  have hlogic : logic (writeWithParens b.isExpr b.display ++ rest) = Option.none := by
    apply logic_eq_none
    intro c hc
    constructor
    · rintro rfl
      exact part_head_ne b rest (by decide) hc
    · rintro rfl
      exact part_head_ne b rest (by decide) hc
  have hspace := part_head_ne b rest (show startsRange ' ' = false by decide)
  have hlink : linked (atom depth) (writeWithParens b.isExpr b.display ++ rest) =
      some ((Option.none, wrap b.isExpr b.expr), rest) := by
    rw [linked, bind_of_eq_some (optional_of_eq_none hlogic),
      bind_of_eq_some (skip_of_head_ne hspace), bind_of_eq_some hsecond]
    rfl
  rw [display, List.append_assoc]
  exact range_pair hfirst hlink hspace hrest

theorem readsBack_or (h : (VersionRange.or a b).Normal) (iha : a.ReadsBack) (ihb : b.ReadsBack) :
    (VersionRange.or a b).ReadsBack := by
  obtain ⟨ha, hb, hpa, hpb⟩ := h
  intro depth rest hdepth hrest
  simp only [display, List.length_append] at hdepth
  have hfirst := @atom_part depth
    (' ' :: '|' :: '|' :: ' ' :: (writeWithParens b.isExpr b.display ++ rest)) a ha hpa iha
    (by omega) (by simp [Stop])
  have hsecond := atom_part hb hpb ihb (show _ ≤ depth by omega) (Closed.stop hrest)
  have hspace := part_head_ne b rest (show startsRange ' ' = false by decide)
  have hlink : linked (atom depth)
      ('|' :: '|' :: ' ' :: (writeWithParens b.isExpr b.display ++ rest)) =
        some ((some .or, wrap b.isExpr b.expr), rest) := by
    have hlogic : logic ('|' :: '|' :: ' ' :: (writeWithParens b.isExpr b.display ++ rest)) =
        some (.or, ' ' :: (writeWithParens b.isExpr b.display ++ rest)) := rfl
    rw [linked, bind_of_eq_some (optional_of_eq_some hlogic),
      bind_of_eq_some (skip_blank hspace), bind_of_eq_some hsecond]
    rfl
  simp only [display, List.append_assoc]
  exact range_pair hfirst hlink (by simp) hrest

/-- A negation is printed in front of a part that does not start with an equals sign. -/
theorem Normal.not_equals (h : (VersionRange.not a).Normal) (rest : Text) :
    a.Proper ∧ (writeWithParens a.isExpr a.display ++ rest).head? ≠ some '=' := by
  cases a with
  | anchor op v =>
    refine ⟨⟨by simp, by simp⟩, ?_⟩
    have heq : op ≠ EQ := by
      rintro rfl
      cases h.2
    rcases op with o | o <;> cases o
    all_goals first
      | exact absurd rfl heq
      | simp [writeWithParens, isExpr, display, Operator.cmpOp, CmpOp.text]
  | any | none => cases h.2
  | not a =>
    have hcycle := congrArg sizeOf h.2
    simp only [VersionRange.smartNot, VersionRange.not.sizeOf_spec] at hcycle
    omega
  | and a b | or a b | flavor f => exact ⟨⟨by simp, by simp⟩, by simp [writeWithParens, isExpr]⟩

theorem readsBack_not (h : (VersionRange.not a).Normal) (ih : a.ReadsBack) :
    (VersionRange.not a).ReadsBack := by
  intro depth rest hdepth hrest
  obtain ⟨hproper, hequals⟩ := Normal.not_equals h rest
  simp only [display, List.length_cons] at hdepth
  obtain ⟨depth, rfl⟩ := Nat.exists_eq_add_one.mpr ((Nat.succ_pos _).trans_le hdepth)
  have hatom := atom_part h.1 hproper ih (show _ ≤ depth by omega) (Closed.stop hrest)
  have hspace := part_head_ne a rest (show startsRange ' ' = false by decide)
  exact range_single (atom_of_isAtom
    (.not (anchor_bang hequals) (skip_of_head_ne hspace) hatom)) hrest

theorem readsBack_anchor (op : Operator) (hv : v.WellFormed) :
    (VersionRange.anchor op v).ReadsBack := by
  intro depth rest hdepth hrest
  obtain ⟨c, u, hcons, -⟩ := display_head (.anchor op v)
  obtain ⟨depth, rfl⟩ : ∃ d, depth = d + 1 := by
    refine Nat.exists_eq_add_one.mpr (Nat.lt_of_lt_of_le ?_ hdepth)
    simp [hcons]
  exact range_single (atom_display_anchor op hv (Closed.stop hrest)) hrest

theorem readsBack_flavor {f : Option Text} (hf : WellFormedFlavor f) :
    (VersionRange.flavor f).ReadsBack := by
  intro depth rest hdepth hrest
  obtain ⟨depth, rfl⟩ := Nat.exists_eq_add_one.mpr ((Nat.succ_pos _).trans_le hdepth)
  have hlower : (f.getD []).all Char.isLower = true := by
    cases f with
    | none => rfl
    | some f => exact (hf f rfl).2
  have hend : ∀ c ∈ rest.head?, c.isLower = false := by
    intro c hc
    rw [hrest c hc]
    decide
  exact range_single (atom_flavor hlower hend (hrest.head_ne (by decide))) hrest

/-- A range that the constructors leave as it is can be read off its text. -/
theorem Normal.readsBack (h : r.Normal) : r.ReadsBack := by
  induction r with
  | anchor op v => exact readsBack_anchor op h
  | and a b iha ihb => exact readsBack_and h (iha h.1) (ihb h.2.1)
  | or a b iha ihb => exact readsBack_or h (iha h.1) (ihb h.2.1)
  | not a ih => exact readsBack_not h (ih h.1)
  | any =>
    intro depth rest hdepth hrest
    obtain ⟨depth, rfl⟩ := Nat.exists_eq_add_one.mpr hdepth
    exact range_single atom_any hrest
  | none =>
    intro depth rest hdepth hrest
    obtain ⟨depth, rfl⟩ := Nat.exists_eq_add_one.mpr hdepth
    have hhead : ∀ c ∈ rest.head?, startsAtom c = false := by
      intro c hc
      rw [hrest c hc]
      decide
    exact range_single (atom_of_isAtom (.none (anchor_bang (hrest.head_ne (by decide)))
      (skip_of_head_ne (hrest.head_ne (by decide))) (atom_eq_none hhead depth))) hrest
  | flavor f => exact readsBack_flavor h

end Reading

/-- A range that the constructors leave as it is parses from its text. -/
theorem Normal.fromStr_display (h : r.Normal) : fromStr r.display = .ok r := by
  obtain ⟨after, hrange, -⟩ :=
    h.readsBack (r.display.length + 1) [] (Nat.le_succ _) (by simp [Grammar.Closed])
  rw [List.append_nil] at hrange
  rw [fromStr, Grammar.versionRange, hrange]
  exact parse_expr h

/-- Every range built from well-formed versions is parsed from its text to a
range that treats single versions and whole releases in the same way. -/
theorem display_parses_back (r : VersionRange) (h : r.Built) : ∃ r', fromStr r.display = .ok r' ∧
      (∀ v : ExtendedVersion, v.satisfies r' = v.satisfies r) ∧
      ∀ vs : List ExtendedVersion, r'.satisfiedByRelease vs = r.satisfiedByRelease vs :=
  ⟨r, h.normal.fromStr_display, fun _ => rfl, fun _ => rfl⟩

/-- The theorem at `>=0:0 (!(#))`. -/
theorem display_parses_back_negated_flavor : ∃ r',
    fromStr (smartAnd (.anchor GTE ⟨Option.none, .default, .default⟩)
      (smartNot (.flavor Option.none))).display = .ok r' ∧
        (∀ v : ExtendedVersion, v.satisfies r' = v.satisfies (smartAnd
          (.anchor GTE ⟨Option.none, .default, .default⟩) (smartNot (.flavor Option.none)))) ∧
        ∀ vs : List ExtendedVersion, r'.satisfiedByRelease vs =
          (smartAnd (.anchor GTE ⟨Option.none, .default, .default⟩)
            (smartNot (.flavor Option.none))).satisfiedByRelease vs :=
  display_parses_back _ (.and
    (.anchor GTE ⟨by simp [WellFormedFlavor], default_wellFormed, default_wellFormed⟩)
    (.not (.flavor (by simp [WellFormedFlavor]))))

end VersionRange

end StartTech.Exver

import StartTech.Exver.Reading
import StartTech.StartCore.TextRoundTrip

/-!
# The TypeScript grammar inside the grammar of the crate

Where the TypeScript grammar reads a range, the grammar of the crate reads the
same tree, as long as only blanks are used as white space and no number has a
leading zero. A negation sign is read as the empty range by both when no atom
follows it.
-/

namespace StartTech.StartCore

open Foundation Peg
open Exver.Grammar (Blank anchorText)
open Exver (AtomRules Ends Logic RangeExpr SpecText)
open Exver.Grammar (skip_append)
open Agree (refl)

namespace Grammar

variable {s rest sp u v mid : Text} {e : RangeExpr SpecText}
  {links : List (Option Logic × RangeExpr SpecText)} {x : RangeExpr SpecText × Text} {c : Char}
  {l : Option Logic × RangeExpr SpecText} {depth : Nat}

theorem space_eq_some {u : Unit} (h : space s = some (u, mid)) :
    ∃ sp, s = sp ++ mid ∧ (∀ c ∈ sp, isSpace c = true) ∧ ∀ c ∈ mid.head?, isSpace c = false := by
  obtain ⟨t, mid', hspan, h⟩ := bind_eq_some.mp h
  obtain ⟨-, rfl⟩ := pure_eq_some.mp h
  obtain ⟨sp, hs, rfl, hsp⟩ := reads_span _ _ _ _ hspan
  exact ⟨t, hs, hsp, leaves_span _ _ _ _ hspan⟩

/-- A version is not followed by a digit. -/
theorem leaves_version : Leaves isDigit version := by
  intro s v rest h
  obtain ⟨number, mid, hnum, h⟩ := bind_eq_some.mp h
  obtain ⟨pre, mid', hpre, h⟩ := bind_eq_some.mp h
  obtain ⟨-, rfl⟩ := pure_eq_some.mp h
  rcases optional_eq_some hpre with ⟨-, rfl, -⟩ | ⟨ids, -, hids⟩
  · exact (leaves_span1 isDigit).sepBy1 '.' _ _ _ hnum
  · have hseg : Leaves isIdentifierChar preReleaseSegment := by
      intro s a rest h
      obtain ⟨segment, mid, hspan, h⟩ := bind_eq_some.mp h
      split at h
      · cases h
      · obtain ⟨-, rfl⟩ := pure_eq_some.mp h
        exact leaves_span1 isIdentifierChar _ _ _ hspan
    obtain ⟨_, mid'', -, hsegs⟩ := bind_eq_some.mp hids
    intro c hc
    have hident := hseg.sepBy1 '.' _ _ _ hsegs c hc
    simp only [isIdentifierChar, Bool.or_eq_false_iff] at hident
    exact hident.1.1.1

theorem leaves_versionSpec : Leaves isDigit versionSpec := by
  intro s v rest h
  obtain ⟨f, mid, hf, h⟩ := bind_eq_some.mp h
  obtain ⟨up, mid', hup, h⟩ := bind_eq_some.mp h
  obtain ⟨down, mid'', hdown, h⟩ := bind_eq_some.mp h
  obtain ⟨-, rfl⟩ := pure_eq_some.mp h
  rcases optional_eq_some hdown with ⟨-, rfl, -⟩ | ⟨d, -, hd⟩
  · exact leaves_version _ _ _ hup
  · obtain ⟨_, rest, -, hver⟩ := bind_eq_some.mp hd
    exact leaves_version _ _ _ hver

variable {n : Nat} {p q : Peg (RangeExpr SpecText)}

theorem agree_linked (h : Agree n p q) (htakes : Takes 0 p) : Agree n (linked p) (linked q) := by
  apply (refl n space).bind takes_space
  intro _
  apply (refl n _).bind
    (takes_logic.bind fun _ => takes_space.bind fun _ => takes_pure _).optional
  intro _
  exact h.bind htakes fun _ => refl n _

theorem agree_rangeOf (h : Agree n p q) (htakes : Takes 1 p) : Agree n (rangeOf p) (rangeOf q) := by
  have htakes₀ := htakes.zero
  apply h.bind htakes₀
  intro _
  have hlinked := (takes_linked htakes).zero
  exact ((agree_linked h htakes₀).many hlinked).bind hlinked.many fun _ => refl n _

/-- More depth than the text is long makes no difference. -/
theorem agree_atom (n : Nat) : Agree n (atom (n + 1)) (atom (n + 2)) := by
  induction n with
  | zero =>
    intro s hs
    rw [List.eq_nil_of_length_eq_zero (Nat.le_zero.mp hs)]
    rw [atom_eq_none (by simp), atom_eq_none (by simp)]
  | succ n ih =>
    have htakes : Takes 1 (atom (n + 1)) := takes_atom _
    apply agree_oneOf
    refine .cons ?_ (.cons (refl _ _) (.cons ?_ (.cons (refl _ _)
      (.cons (refl _ _) (.cons (refl _ _) .nil)))))
    · apply agree_char_bind
      intro _
      apply (refl n space).bind takes_space
      intro _
      exact (agree_rangeOf ih htakes).bind (takes_rangeOf htakes).zero fun _ => refl n _
    · apply agree_char_bind
      intro _
      apply (refl n space).bind takes_space
      intro _
      exact ih.bind htakes.zero fun _ => refl n _

theorem isAtom_of_atom (h : atom (depth + 1) s = some (e, rest)) :
    (rules depth).IsAtom s e rest := AtomRules.isAtom_of_rule h

/-- Blanks are the only white space. -/
def Blanks (s : Text) : Prop := ∀ c ∈ s, isSpace c = true → c = ' '

theorem Blanks.blank (h : Blanks (sp ++ s)) (hsp : ∀ c ∈ sp, isSpace c = true) :
    Blank sp := fun c hc => h c (List.mem_append_left _ hc) (hsp c hc)

theorem Blanks.tail {t : Text} (h : Blanks (t ++ s)) : Blanks s :=
  fun c hc => h c (List.mem_append_right _ hc)

/-- The white space behind a character consists of blanks. -/
theorem Blanks.skip (h : Blanks (c :: u)) (hspace : space u = some ((), v)) :
    ∃ sp, u = sp ++ v ∧ Blank sp ∧ Blanks v ∧ v.head? ≠ some ' ' := by
  obtain ⟨sp, rfl, hsp, hv⟩ := space_eq_some hspace
  have htail : Blanks (sp ++ v) := @Blanks.tail _ [c] h
  exact ⟨sp, rfl, htail.blank hsp, htail.tail, fun heq => absurd (hv ' ' heq) (by decide)⟩

/-- No number of the expression has a leading zero. -/
def Plain : RangeExpr SpecText → Prop
  | .parens e | .not e => Plain e
  | .anchor _ t => t.upstream.Plain ∧ ∀ down ∈ t.downstream, down.Plain
  | .any | .none | .flavor _ => True
  | .link l _ r => Plain l ∧ Plain r

theorem plain_chain {first : RangeExpr SpecText} (h : Plain (.chain first links)) :
    Plain first ∧ ∀ l ∈ links, Plain l.2 := by
  induction links generalizing first with
  | nil => exact ⟨h, by simp⟩
  | cons l links ih =>
    obtain ⟨⟨hfirst, hl⟩, hlinks⟩ := @ih (.link first l.1 l.2) h
    refine ⟨hfirst, fun k hk => ?_⟩
    rcases List.mem_cons.mp hk with rfl | hk
    · exact hl
    · exact hlinks k hk

theorem map_chain (f : SpecText → Text) (first : RangeExpr SpecText)
    (links : List (Option Logic × RangeExpr SpecText)) :
    (RangeExpr.chain first links).map f =
      .chain (first.map f) (links.map fun l => (l.1, l.2.map f)) := by
  induction links generalizing first with
  | nil => rfl
  | cons l links ih => exact ih (.link first l.1 l.2)

/-- What can follow an atom: white space, and then an operator, the end of the
range or another atom. -/
def Follows (depth : Nat) (rest : Text) : Prop :=
  ∃ u, space rest = some ((), u) ∧
    ((∀ c ∈ u.head?, c ∈ [')', '|', '&']) ∨ ∃ x, atom depth u = some x)

theorem isSpace_or_head (h : space rest = some ((), u)) :
    ∀ c ∈ rest.head?, isSpace c = true ∨ c ∈ u.head? := by
  obtain ⟨sp, rfl, hsp, -⟩ := space_eq_some h
  intro c hc
  cases sp with
  | nil => exact .inr hc
  | cons d sp =>
    cases hc
    exact .inl (hsp c (by simp))

theorem startsAtom_of_atom (h : atom depth u = some x) : ∀ c ∈ u.head?, startsAtom c = true := by
  intro c hc
  by_contra hne
  have hnone := @atom_eq_none u (by
    intro d hd
    cases hc.symm.trans hd
    simpa using hne) depth
  rw [h] at hnone
  cases hnone

theorem Follows.head (h : Follows depth rest) :
    ∀ c ∈ rest.head?, startsAtom c = true ∨ c ∈ [')', '|', '&'] := by
  obtain ⟨u, hspace, hu⟩ := h
  intro c hc
  rcases isSpace_or_head hspace c hc with hsp | hc
  · exact .inl (by simp [startsAtom, hsp])
  · rcases hu with hu | ⟨x, hx⟩
    · exact .inr (hu c hc)
    · exact .inl (startsAtom_of_atom hx c hc)

theorem Follows.head_ne (h : Follows depth rest)
    (hc : startsAtom c = false ∧ c ∉ [')', '|', '&']) : rest.head? ≠ some c := by
  intro heq
  rcases h.head c heq with hstart | hmem
  · rw [hc.1] at hstart
    cases hstart
  · exact hc.2 hmem

theorem closing_cases (h : c ∈ [')', '|', '&']) : c = ')' ∨ c = '|' ∨ c = '&' := by
  simpa using h

/-- Behind a version nothing carries it on. -/
theorem Follows.ends (h : Follows depth rest)
    (hdigit : ∀ c ∈ rest.head?, c.isDigit = false) : Ends rest := by
  intro c hc
  have hnot := hdigit c hc
  rcases h.head c hc with hstart | hmem
  · simp only [startsAtom, hnot, isSpace, Bool.false_or, Bool.or_eq_true, beq_iff_eq,
      List.contains_iff_mem, List.mem_cons, List.not_mem_nil, or_false] at hstart
    rcases hstart with (((rfl | rfl) | rfl) | rfl) | rfl | rfl | rfl | rfl | rfl | rfl | rfl | rfl | rfl
    all_goals decide
  · rcases closing_cases hmem with rfl | rfl | rfl <;> decide

theorem follows_closed (h : space mid = some ((), rest))
    (hclosed : Closed rest) : Follows depth mid :=
  ⟨rest, h, .inl fun c hc => by simp [hclosed c hc]⟩

theorem follows_of_linked (h : linked (atom depth) mid = some (l, rest)) : Follows depth mid := by
  obtain ⟨_, u, hspace, h⟩ := bind_eq_some.mp h
  obtain ⟨op, v, hop, h⟩ := bind_eq_some.mp h
  obtain ⟨e, w, he, -⟩ := bind_eq_some.mp h
  refine ⟨u, hspace, ?_⟩
  rcases optional_eq_some hop with ⟨-, rfl, -⟩ | ⟨o, -, ho⟩
  · exact .inr ⟨_, he⟩
  · obtain ⟨o', mid', hlogic, -⟩ := bind_eq_some.mp ho
    obtain ⟨_, rfl, rfl⟩ := reads_logic _ _ _ hlogic
    refine .inl fun c hc => ?_
    cases o' with
    | or | and =>
      cases hc
      simp

theorem Follows.of_steps (h : Steps (linked (atom depth)) mid links rest)
    (hrest : Follows depth rest) : Follows depth mid := by
  cases h with
  | nil => exact hrest
  | cons hlink _ => exact follows_of_linked hlink

/-- An anchor is read alike. -/
theorem anchor_sim {d : Nat} (h : anchor s = some (e, rest)) (hblanks : Blanks s)
    (hplain : Plain e) (hrest : Follows depth rest) :
    Exver.Grammar.atom (d + 1) s = some (e.map SpecText.text, rest) := by
  obtain ⟨op, mid, hop, h⟩ := bind_eq_some.mp h
  obtain ⟨_, mid', hspace, h⟩ := bind_eq_some.mp h
  obtain ⟨t, mid'', ht, h⟩ := bind_eq_some.mp h
  obtain ⟨rfl, rfl⟩ := pure_eq_some.mp h
  have hends := hrest.ends (leaves_versionSpec _ _ _ ht)
  obtain ⟨sp, rfl, hsp, -⟩ := space_eq_some hspace
  obtain ⟨_, rfl, rfl, hwf⟩ := reads_versionSpec _ _ _ ht
  have htext : s = anchorText op sp t ++ mid'' := by
    rcases optional_eq_some hop with ⟨rfl, rfl, -⟩ | ⟨o, rfl, ho⟩
    · simp [anchorText]
    · obtain ⟨_, rfl, rfl⟩ := reads_cmpOp _ _ _ ho
      simp [anchorText]
  subst htext
  have hblank : Blank sp := by
    intro c hc
    exact hblanks c (by simp [anchorText, hc]) (hsp c hc)
  exact Exver.Grammar.atom_anchor hblank hwf hplain.1 hplain.2 hends (hrest.head_ne (by decide))

/-- A linked atom is read alike when atoms are. -/
theorem linked_sim (h : linked (atom depth) mid = some (l, rest)) (hblanks : Blanks mid)
    (hatom : ∀ u, u.length ≤ mid.length → Blanks u → atom depth u = some (l.2, rest) →
      Exver.Grammar.atom depth u = some (l.2.map SpecText.text, rest)) :
    Exver.Grammar.next depth mid = some ((l.1, l.2.map SpecText.text), rest) := by
  obtain ⟨_, u, hspace, h⟩ := bind_eq_some.mp h
  obtain ⟨op, v, hop, h⟩ := bind_eq_some.mp h
  obtain ⟨e, w, he, h⟩ := bind_eq_some.mp h
  obtain ⟨rfl, rfl⟩ := pure_eq_some.mp h
  obtain ⟨sp, rfl, hsp, hu⟩ := space_eq_some hspace
  have hblank := hblanks.blank hsp
  have hhead : u.head? ≠ some ' ' := fun heq => absurd (hu ' ' heq) (by decide)
  rw [Exver.Grammar.next, bind_of_eq_some (skip_append hblank hhead),
    Exver.Grammar.linked]
  rcases optional_eq_some hop with ⟨rfl, rfl, hnone⟩ | ⟨o, rfl, ho⟩
  · have hlogic : Exver.Grammar.logic v = none := by
      cases hl : Exver.Grammar.logic v with
      | none => rfl
      | some r =>
        have hl' : logic v = some r := hl
        rw [bind_of_eq_some (show logic v = some (r.1, r.2) from hl')] at hnone
        cases hnone
    have he' := hatom v (by simp) hblanks.tail he
    rw [bind_of_eq_some (optional_of_eq_none hlogic),
      bind_of_eq_some (Exver.Grammar.skip_of_head_ne hhead), bind_of_eq_some he']
    rfl
  · obtain ⟨o', mid₂, hlogic, ho⟩ := bind_eq_some.mp ho
    obtain ⟨_, mid₃, hspace', ho⟩ := bind_eq_some.mp ho
    obtain ⟨rfl, rfl⟩ := pure_eq_some.mp ho
    have hlogic' : Exver.Grammar.logic u = some (o', mid₂) := hlogic
    obtain ⟨t, rfl, -⟩ := reads_logic _ _ _ hlogic
    obtain ⟨sp', rfl, hsp', hv⟩ := space_eq_some hspace'
    have htail : Blanks (sp' ++ mid₃) := (hblanks.tail).tail
    have hv' : mid₃.head? ≠ some ' ' := fun heq => absurd (hv ' ' heq) (by decide)
    have he' := hatom mid₃ (by simp; omega) htail.tail he
    rw [bind_of_eq_some (optional_of_eq_some hlogic'),
      bind_of_eq_some (skip_append (htail.blank hsp') hv'), bind_of_eq_some he']
    rfl

/-- A simulation of the atoms of a depth. -/
def Simulates (depth : Nat) : Prop :=
  ∀ s e rest, atom depth s = some (e, rest) → s.length < depth → Blanks s → Plain e →
    Follows depth rest → Exver.Grammar.atom depth s = some (e.map SpecText.text, rest)

theorem Simulates.steps (h : Simulates depth)
    (hlinks : Steps (linked (atom depth)) mid links rest) (hlen : mid.length < depth)
    (hblanks : Blanks mid) (hplain : ∀ l ∈ links, Plain l.2) (hrest : Follows depth rest) :
    Steps (Exver.Grammar.next depth) mid
      (links.map fun l => (l.1, l.2.map SpecText.text)) rest := by
  induction hlinks with
  | nil => exact .nil _
  | @cons s mid rest l links hlink htail ih =>
    have htakes := takes_linked (takes_atom depth) _ _ _ hlink
    have hmid : Blanks mid := by
      obtain ⟨t, rfl, -⟩ := (reads_linked (reads_atom depth)) _ _ _ hlink
      exact hblanks.tail
    have hstep := linked_sim hlink hblanks fun u hu hub hatom =>
      h u l.2 mid hatom (by omega) hub (hplain l (by simp)) (hrest.of_steps htail)
    exact .cons hstep (ih (by omega) hmid (fun k hk => hplain k (List.mem_cons_of_mem _ hk)) hrest)

/-- A range is read alike, up to the white space behind it. -/
theorem Simulates.range (h : Simulates depth)
    (hrange : rangeOf (atom depth) s = some (e, mid)) (hlen : s.length < depth) (hblanks : Blanks s)
    (hplain : Plain e) (hmid : space mid = some ((), rest)) (hclosed : Closed rest) :
    ∃ after, Exver.Grammar.rangeOf (Exver.Grammar.atom depth) s =
        some (e.map SpecText.text, after) ∧
      Exver.Grammar.skip after = some ((), rest) := by
  obtain ⟨first, u, hfirst, hrange⟩ := bind_eq_some.mp hrange
  obtain ⟨links, v, hmany, hrange⟩ := bind_eq_some.mp hrange
  obtain ⟨rfl, rfl⟩ := pure_eq_some.mp hrange
  have hlinks := (steps_of_many hmany).1
  obtain ⟨hpf, hpl⟩ := plain_chain hplain
  have hfollows : Follows depth v := follows_closed hmid hclosed
  have hsim := h s first u hfirst hlen hblanks hpf (hfollows.of_steps hlinks)
  have htakes := takes_atom depth _ _ _ hfirst
  have hub : Blanks u := by
    obtain ⟨t, rfl, -⟩ := reads_atom depth _ _ _ hfirst
    exact hblanks.tail
  have hsteps := h.steps hlinks (by omega) hub hpl hfollows
  have hvb : Blanks v := by
    obtain ⟨ts, rfl, -⟩ := (reads_linked (reads_atom depth)).steps hlinks
    exact hub.tail
  obtain ⟨sp, rfl, hsp, -⟩ := space_eq_some hmid
  rw [map_chain]
  exact Exver.Grammar.range_chain hsim hsteps (hvb.blank hsp) hclosed

/-- An atom that follows is also read with one less depth. -/
theorem Follows.lower (h : Follows (depth + 1) rest) (hlen : rest.length < depth) :
    Follows depth rest := by
  obtain ⟨u, hspace, hu⟩ := h
  refine ⟨u, hspace, hu.imp_right ?_⟩
  rintro ⟨x, hx⟩
  have htakes := takes_space _ _ _ hspace
  obtain ⟨n, rfl⟩ := Nat.exists_eq_add_one.mpr ((Nat.zero_le _).trans_lt hlen)
  exact ⟨x, (agree_atom n u (by omega)).trans hx⟩

theorem not_isLower_of_startsAtom (h : startsAtom c = true) : c.isLower = false := by
  simp only [startsAtom, isSpace, Bool.or_eq_true, beq_iff_eq, List.contains_iff_mem,
    List.mem_cons, List.not_mem_nil, or_false] at h
  rcases h with (hdigit | ((rfl | rfl) | rfl) | rfl) | rfl | rfl | rfl | rfl | rfl | rfl | rfl | rfl | rfl
  · by_contra hlower
    rw [Bool.not_eq_false, Text.isLower_iff_toNat] at hlower
    exact absurd (hlower.1.trans (Char.isDigit_iff_toNat.mp hdigit).2) (by decide)
  all_goals decide

/-- What is negated by an atom does not start with an equals sign, or it would
have been read as an inequality. -/
theorem not_equals_of_anchor_eq_none (hanchor : anchor ('!' :: v) = none)
    (hatom : atom depth v = some x) : v.head? ≠ some '=' := by
  intro heq
  cases v with
  | nil => cases heq
  | cons c w =>
    cases heq
    cases depth with
    | zero => cases hatom
    | succ depth =>
      have heqanchor : anchor ('=' :: w) = some x := by
        cases isAtom_of_atom hatom with
        | anchor _ h => exact h
      have hop : cmpOp ('=' :: w) = some (.eq, w) := by
        simp [cmpOp, oneOf, choice, literal, bind_apply, map_apply, char_cons]
      have hop' : cmpOp ('!' :: '=' :: w) = some (.ne, w) := by
        simp [cmpOp, oneOf, choice, literal, bind_apply, map_apply, char_cons]
      rw [anchor, bind_of_eq_some (optional_of_eq_some hop)] at heqanchor
      obtain ⟨_, mid, hspace, h⟩ := bind_eq_some.mp heqanchor
      obtain ⟨t, mid', ht, -⟩ := bind_eq_some.mp h
      rw [anchor, bind_of_eq_some (optional_of_eq_some hop'), bind_of_eq_some hspace,
        bind_of_eq_some ht] at hanchor
      cases hanchor

theorem rust_anchor_bang (hsp : Blank sp) (h : sp = [] → v.head? ≠ some '=') :
    Exver.Grammar.anchor ('!' :: (sp ++ v)) = none := by
  apply Exver.Grammar.anchor_bang
  cases sp with
  | nil => exact h rfl
  | cons c sp =>
    rw [hsp c (by simp)]
    simp

/-- Atoms of every depth are read alike. -/
theorem simulates (depth : Nat) : Simulates depth := by
  induction depth with
  | zero =>
    intro s e rest h
    cases h
  | succ depth ih =>
    intro s e rest h hlen hblanks hplain hrest
    rcases isAtom_of_atom h with ⟨hspace, hrange, hmid⟩ | ⟨-, hanchor⟩ | ⟨hanchor, hspace, hatom⟩ |
      - | @⟨v, _, -, hspace, hatom⟩ | ⟨-, hf, -⟩
    · obtain ⟨sp, rfl, hsp, hv, hhead⟩ := hblanks.skip hspace
      simp only [List.length_cons, List.length_append] at hlen
      obtain ⟨after, hr, hskip⟩ := ih.range hrange (by omega) hv hplain hmid (by simp [Closed])
      exact Exver.Grammar.atom_of_isAtom (.parens (skip_append hsp hhead) hr hskip)
    · exact anchor_sim hanchor hblanks hplain hrest
    · obtain ⟨sp, rfl, hsp, hv, hhead⟩ := hblanks.skip hspace
      simp only [List.length_cons, List.length_append] at hlen
      have htakes := takes_atom depth _ _ _ hatom
      have hsim := ih _ _ rest hatom (by omega) hv hplain (hrest.lower (by omega))
      refine Exver.Grammar.atom_of_isAtom (.not (rust_anchor_bang hsp ?_)
        (skip_append hsp hhead) hsim)
      rintro rfl
      exact not_equals_of_anchor_eq_none hanchor hatom
    · exact Exver.Grammar.atom_any
    · obtain ⟨_, hspace', hv⟩ := hrest
      cases hspace.symm.trans hspace'
      obtain ⟨sp, rfl, hsp, -⟩ := hblanks.skip hspace
      simp only [List.length_cons, List.length_append] at hlen
      have hclosed : ∀ c ∈ v.head?, c ∈ [')', '|', '&'] := by
        rcases hv with hv | ⟨x, hx⟩
        · exact hv
        · -- An atom behind the sign would have been negated.
          cases v with
          | nil => simp
          | cons c v =>
            simp only [List.length_cons] at hlen
            obtain ⟨n, rfl⟩ := Nat.exists_eq_add_one.mpr (show 0 < depth by omega)
            have hagree := agree_atom n (c :: v) (by simp only [List.length_cons]; omega)
            cases hatom.symm.trans (hagree.trans hx)
      have hhead (d : Char) (hd : d ∉ [')', '|', '&']) : v.head? ≠ some d :=
        fun heq => hd (hclosed d heq)
      refine Exver.Grammar.atom_of_isAtom (.none (rust_anchor_bang hsp fun _ => hhead '=' (by simp))
        (skip_append hsp (hhead ' ' (by simp))) (Exver.Grammar.atom_eq_none ?_ depth))
      intro c hc
      rcases closing_cases (hclosed c hc) with rfl | rfl | rfl <;> decide
    · apply Exver.Grammar.atom_flavor hf
      · intro c hc
        rcases hrest.head c hc with hstart | hmem
        · exact not_isLower_of_startsAtom hstart
        · rcases closing_cases hmem with rfl | rfl | rfl <;> decide
      · exact hrest.head_ne (by decide)

/-- Where the TypeScript grammar accepts a text, the crate reads the same tree. -/
theorem versionRange_sim (h : parseAll (versionRange (s.length + 1)) s = some e)
    (hblanks : Blanks s) (hplain : Plain e) :
    Exver.VersionRange.fromStr s = Exver.VersionRange.parseVersionRange (e.map SpecText.text) := by
  obtain ⟨after, hrange, -⟩ := (simulates (s.length + 1)).range (parseAll_eq_some.mp h)
    (Nat.lt_succ_self _) hblanks hplain (show space [] = some ((), []) from rfl) (by simp [Closed])
  rw [Exver.VersionRange.fromStr, Exver.Grammar.versionRange, hrange]

end Grammar

end StartTech.StartCore

import StartTech.Exver.RangeExpr
import StartTech.Foundation.Peg

/-!
# The atoms of a range

Both grammars have one rule for atoms, over their own white space and versions, and the same
comparison operators, in an order of their own.
-/

namespace StartTech.Exver

open Foundation Peg

/-- What the rule for an atom is made of. -/
structure AtomRules (V : Type) where
  blank : Char → Bool
  anchor : Peg (RangeExpr V)
  range : Peg (RangeExpr V)
  atom : Peg (RangeExpr V)

namespace AtomRules

variable {V : Type}

variable (g : AtomRules V)

def skip : Peg Unit := do
  let _ ← span g.blank
  pure ()

def parens : Peg (RangeExpr V) := do
  char '('
  g.skip
  let e ← g.range
  g.skip
  char ')'
  pure (.parens e)

def rule : Peg (RangeExpr V) := oneOf
  [g.parens,
   g.anchor,
   do char '!'; g.skip; let e ← g.atom; pure (.not e),
   do char '*'; pure .any,
   do char '!'; pure .none,
   do char '#'; let f ← span Char.isLower; pure (.flavor f)]

/-- How an atom is read. -/
inductive IsAtom : Text → RangeExpr V → Text → Prop
  | parens {u v mid rest : Text} {e : RangeExpr V} (hopen : g.skip u = some ((), v))
      (hrange : g.range v = some (e, mid)) (hclose : g.skip mid = some ((), ')' :: rest)) :
      IsAtom ('(' :: u) (.parens e) rest
  | anchor {s rest : Text} {e : RangeExpr V} (hparens : g.parens s = none)
      (h : g.anchor s = some (e, rest)) : IsAtom s e rest
  | not {u v rest : Text} {e : RangeExpr V} (hanchor : g.anchor ('!' :: u) = none)
      (hskip : g.skip u = some ((), v)) (hatom : g.atom v = some (e, rest)) :
      IsAtom ('!' :: u) (.not e) rest
  | any {rest : Text} (hanchor : g.anchor ('*' :: rest) = none) : IsAtom ('*' :: rest) .any rest
  | none {v rest : Text} (hanchor : g.anchor ('!' :: rest) = none)
      (hskip : g.skip rest = some ((), v)) (hatom : g.atom v = none) :
      IsAtom ('!' :: rest) .none rest
  | flavor {f rest : Text} (hanchor : g.anchor ('#' :: (f ++ rest)) = none)
      (hf : f.all Char.isLower = true) (hrest : ∀ c ∈ rest.head?, c.isLower = false) :
      IsAtom ('#' :: (f ++ rest)) (.flavor f) rest

variable {g} {s rest : Text} {e : RangeExpr V}

theorem parens_eq_none (h : s.head? ≠ some '(') : g.parens s = none := char_bind_of_ne h

theorem IsAtom.rule_eq (h : g.IsAtom s e rest) : g.rule s = some (e, rest) := by
  rw [rule]
  cases h with
  | parens hopen hrange hclose =>
    apply oneOf_of_eq_some
    rw [AtomRules.parens, char_bind, bind_of_eq_some hopen, bind_of_eq_some hrange, bind_of_eq_some hclose]
    rfl
  | anchor hparens h =>
    rw [oneOf_of_eq_none hparens]
    exact oneOf_of_eq_some h
  | not hanchor hskip hatom =>
    rw [oneOf_of_eq_none (parens_eq_none (by simp)), oneOf_of_eq_none hanchor]
    apply oneOf_of_eq_some
    rw [char_bind, bind_of_eq_some hskip, bind_of_eq_some hatom]
    rfl
  | any hanchor =>
    rw [oneOf_of_eq_none (parens_eq_none (by simp)), oneOf_of_eq_none hanchor,
      oneOf_of_eq_none (char_bind_of_ne (by simp))]
    exact oneOf_of_eq_some char_bind
  | none hanchor hskip hatom =>
    rw [oneOf_of_eq_none (parens_eq_none (by simp)), oneOf_of_eq_none hanchor, oneOf_of_eq_none,
      oneOf_of_eq_none (char_bind_of_ne (by simp))]
    · exact oneOf_of_eq_some char_bind
    · rw [char_bind, bind_of_eq_some hskip, bind_of_eq_none hatom]
  | flavor hanchor hf hrest =>
    rw [oneOf_of_eq_none (parens_eq_none (by simp)), oneOf_of_eq_none hanchor,
      oneOf_of_eq_none (char_bind_of_ne (by simp)), oneOf_of_eq_none (char_bind_of_ne (by simp)),
      oneOf_of_eq_none (char_bind_of_ne (by simp))]
    apply oneOf_of_eq_some
    rw [char_bind, bind_of_eq_some (span_append (List.all_eq_true.mp hf) hrest)]
    rfl

theorem isAtom_of_rule (h : g.rule s = some (e, rest)) : g.IsAtom s e rest := by
  rcases oneOf_eq_some h with hparens | ⟨hparens, h⟩
  · obtain ⟨u, rfl, hp⟩ := char_bind_eq_some.mp hparens
    obtain ⟨_, v, hopen, hp⟩ := bind_eq_some.mp hp
    obtain ⟨f, mid, hrange, hp⟩ := bind_eq_some.mp hp
    obtain ⟨_, w, hclose, hp⟩ := bind_eq_some.mp hp
    obtain ⟨x, rfl, hp⟩ := char_bind_eq_some.mp hp
    obtain ⟨rfl, rfl⟩ := pure_eq_some.mp hp
    exact .parens hopen hrange hclose
  rcases oneOf_eq_some h with hanchor | ⟨hanchor, h⟩
  · exact .anchor hparens hanchor
  rcases oneOf_eq_some h with hnot | ⟨hnot, h⟩
  · obtain ⟨u, rfl, hp⟩ := char_bind_eq_some.mp hnot
    obtain ⟨_, v, hskip, hp⟩ := bind_eq_some.mp hp
    obtain ⟨f, mid, hatom, hp⟩ := bind_eq_some.mp hp
    obtain ⟨rfl, rfl⟩ := pure_eq_some.mp hp
    exact .not hanchor hskip hatom
  rcases oneOf_eq_some h with hany | ⟨-, h⟩
  · obtain ⟨u, rfl, hp⟩ := char_bind_eq_some.mp hany
    obtain ⟨rfl, rfl⟩ := pure_eq_some.mp hp
    exact .any hanchor
  rcases oneOf_eq_some h with hnone | ⟨-, h⟩
  · obtain ⟨u, rfl, hp⟩ := char_bind_eq_some.mp hnone
    obtain ⟨rfl, rfl⟩ := pure_eq_some.mp hp
    obtain ⟨v, hskip⟩ : ∃ v, g.skip u = some ((), v) := ⟨_, rfl⟩
    refine .none hanchor hskip ?_
    cases hatom : g.atom v with
    | none => rfl
    | some r =>
      rw [char_bind, bind_of_eq_some hskip, bind_of_eq_some hatom] at hnot
      cases hnot
  rcases oneOf_eq_some h with hflavor | ⟨-, h⟩
  · obtain ⟨u, rfl, hp⟩ := char_bind_eq_some.mp hflavor
    obtain ⟨f, mid, hf, hp⟩ := bind_eq_some.mp hp
    obtain ⟨rfl, rfl⟩ := pure_eq_some.mp hp
    have hrest := leaves_span _ _ _ _ hf
    obtain ⟨g, rfl, rfl, hlower⟩ := reads_span _ _ _ _ hf
    exact .flavor hanchor (List.all_eq_true.mpr hlower) hrest
  · cases h

theorem takes_rule (hanchor : Takes 1 g.anchor) (hrange : Takes 1 g.range) (hatom : Takes 1 g.atom) :
    Takes 1 g.rule := by
  intro s e rest h
  have hskip : Takes 0 g.skip := (takes_span _).bind fun _ => takes_pure ()
  cases isAtom_of_rule h with
  | parens hopen hr hclose =>
    have h₁ := hskip _ _ _ hopen
    have h₂ := hrange _ _ _ hr
    have h₃ := hskip _ _ _ hclose
    rw [List.length_cons] at h₃ ⊢
    omega
  | anchor _ h => exact hanchor _ _ _ h
  | not _ hs h =>
    have h₁ := hskip _ _ _ hs
    have h₂ := hatom _ _ _ h
    rw [List.length_cons]
    omega
  | any | none => exact Nat.le_refl _
  | flavor => simp

/-- No atom starts where no version does and none of the other characters stands. -/
theorem rule_eq_none (hanchor : g.anchor s = none)
    (h : ∀ c ∈ ['(', '!', '*', '#'], s.head? ≠ some c) : g.rule s = none := by
  cases hr : g.rule s with
  | none => rfl
  | some r =>
    obtain ⟨e, rest⟩ := r
    cases isAtom_of_rule hr with
    | anchor _ h => cases hanchor.symm.trans h
    | parens | not | any | none | flavor => exact absurd rfl (h _ (by simp))

end AtomRules

variable {ops : List CmpOp} {s : Text}

/-- The rule for operators in an order. -/
def operators (ops : List CmpOp) : Peg CmpOp := oneOf (ops.map fun op => do literal op.text; pure op)

theorem reads_operators (ops : List CmpOp) : Reads (operators ops) fun t op => t = op.text := by
  apply reads_oneOf
  intro p hp
  obtain ⟨op, -, rfl⟩ := List.mem_map.mp hp
  exact reads_word rfl

theorem takes_operators (ops : List CmpOp) : Takes 0 (operators ops) := by
  intro s op rest h
  obtain ⟨t, rfl, -⟩ := reads_operators ops s op rest h
  simp

theorem operators_of_head (h : ∀ c ∈ ['>', '<', '=', '!', '^', '~'], s.head? ≠ some c) :
    operators ops s = none := by
  cases hs : operators ops s with
  | none => rfl
  | some r =>
    obtain ⟨t, rfl, rfl⟩ := reads_operators ops s r.1 r.2 hs
    cases hop : r.1 <;> exact absurd (by rw [hop]; rfl) (h _ (by simp))

/-- A negation sign is no operator. -/
theorem operators_bang (h : s.head? ≠ some '=') : operators ops ('!' :: s) = none := by
  cases hs : operators ops ('!' :: s) with
  | none => rfl
  | some r =>
    obtain ⟨op, rest⟩ := r
    obtain ⟨t, heq, rfl⟩ := reads_operators ops _ _ _ hs
    cases op <;> cases heq
    exact absurd rfl h

end StartTech.Exver

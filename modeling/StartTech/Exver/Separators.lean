import StartTech.Exver.Grammar

/-!
# Separators between the atoms of a range

A separator that is left out means the one that was written last, or a conjunction if
there is none. Behind a disjunction this joins an atom to what is read so far in the wrong way,
and the result stays wrong unless an atom swallows everything before it.
-/

namespace StartTech.Exver

open Foundation
open VersionRange (parseVersionRange smartAnd smartOr)

/-- Put an atom behind a range, as a disjunction or as a conjunction. -/
def join (disjunction : Bool) (prev atom : VersionRange) : VersionRange :=
  if disjunction then smartOr prev atom else smartAnd prev atom

/-- Put the next atom behind a range, by the separator between them. -/
def combine (prev : VersionRange) (link : Option Logic × RangeExpr Text) :
    Except ParseError VersionRange := do
  .ok (join (link.1 == some .or) prev (← parseVersionRange link.2))

/-- Whether joining by the separators in force ends as joining by the written ones does, from a
range on where the two are apart or not. They come apart at a separator that is left out behind
`||`, unless both sides are everything or both are nothing. They meet again where everything is
joined by `||`, or nothing as a conjunction. -/
def meets : Bool → Option Logic → VersionRange → List (Option Logic × VersionRange) → Bool
  | apart, _, _, [] => !apart
  | apart, last, prev, (op, atom) :: rest =>
    meets
      (if op = none ∧ last = some .or then
        apart || !(prev == atom && (atom == .any || atom == .none))
      else apart && (if op = some .or then atom != .any else atom != .none))
      (op.or last) (join (op == some .or) prev atom) rest

section Folds

variable {f g a : VersionRange} {last : Option Logic}

theorem smartOr_eq (f a : VersionRange) : smartOr f a =
    if f = .any ∨ a = .any then .any else if f = .none then a else if a = .none then f
    else .or f a := by
  unfold smartOr
  split <;> simp_all

theorem smartAnd_eq (f a : VersionRange) : smartAnd f a =
    if f = .none ∨ a = .none then .none else if f = .any then a else if a = .any then f
    else .and f a := by
  unfold smartAnd
  split <;> simp_all

/-- Two ranges that come from one by joining atoms, once in a wrong way. -/
structure Apart (f g : VersionRange) : Prop where
  ne : f ≠ g
  left : f ≠ .none
  right : g ≠ .any

theorem or_eq_and_iff : smartOr f a = smartAnd f a ↔ f = a ∧ (a = .any ∨ a = .none) := by
  rw [smartOr_eq, smartAnd_eq]
  split_ifs <;> grind

theorem apart_of_ne (h : ¬ (f = a ∧ (a = .any ∨ a = .none))) :
    Apart (smartOr f a) (smartAnd f a) := by
  refine ⟨mt or_eq_and_iff.mp h, ?_, ?_⟩
  · rw [smartOr_eq]
    split_ifs <;> grind
  · rw [smartAnd_eq]
    split_ifs <;> grind

theorem Apart.carried (h : Apart f g) : Apart (smartOr f a) (smartAnd g a) := by
  obtain ⟨hne, hf, hg⟩ := h
  constructor <;> simp only [smartOr_eq, smartAnd_eq] <;> split_ifs <;> grind

theorem Apart.or (h : Apart f g) (ha : a ≠ .any) : Apart (smartOr f a) (smartOr g a) := by
  obtain ⟨hne, hf, hg⟩ := h
  have hcycle : VersionRange.or f a ≠ a := ne_of_apply_ne sizeOf (by simp)
  constructor <;> simp only [smartOr_eq] <;> split_ifs <;> grind

theorem Apart.and (h : Apart f g) (ha : a ≠ .none) : Apart (smartAnd f a) (smartAnd g a) := by
  obtain ⟨hne, hf, hg⟩ := h
  have hcycle : a ≠ VersionRange.and g a := ne_of_apply_ne sizeOf (by simp)
  constructor <;> simp only [smartAnd_eq] <;> split_ifs <;> grind

/-- The ranges that both ways of joining have come to. -/
def Beside (apart : Bool) (f g : VersionRange) : Prop := if apart then Apart f g else f = g

theorem Beside.carried {apart : Bool} (h : Beside apart f g) :
    Beside (apart || !(g == a && (a == .any || a == .none))) (smartOr f a) (smartAnd g a) := by
  cases apart with
  | true => exact Apart.carried h
  | false =>
    obtain rfl : f = g := h
    by_cases ha : f = a ∧ (a = .any ∨ a = .none)
    · have hflag : (f == a && (a == .any || a == .none)) = true := by simpa using ha
      rw [hflag]
      exact or_eq_and_iff.mpr ha
    · have hflag : (f == a && (a == .any || a == .none)) = false := by simpa using ha
      rw [hflag]
      exact apart_of_ne ha

theorem Beside.joined {apart : Bool} (h : Beside apart f g) (d : Bool) :
    Beside (apart && (if d then a != .any else a != .none)) (join d f a) (join d g a) := by
  cases apart with
  | false => exact congrArg (join d · a) h
  | true =>
    cases d with
    | true =>
      by_cases ha : a = .any
      · simp [Beside, join, smartOr_eq, ha]
      · simpa [Beside, join, ha] using Apart.or h ha
    | false =>
      by_cases ha : a = .none
      · simp [Beside, join, smartAnd_eq, ha]
      · simpa [Beside, join, ha] using Apart.and h ha

/-- The left fold by the separators in force. -/
def carried : Option Logic → VersionRange → List (Option Logic × VersionRange) → VersionRange
  | _, prev, [] => prev
  | last, prev, (op, atom) :: rest =>
    carried (op.or last) (join (op.or last == some .or) prev atom) rest

/-- The left fold by the written separators. -/
def written (prev : VersionRange) (links : List (Option Logic × VersionRange)) : VersionRange :=
  links.foldl (fun prev link => join (link.1 == some .or) prev link.2) prev

theorem carried_eq_iff (links : List (Option Logic × VersionRange)) {apart : Bool}
    (h : Beside apart f g) :
    carried last f links = written g links ↔ meets apart last g links = true := by
  induction links generalizing f g last apart with
  | nil =>
    cases apart with
    | false => simpa [carried, written, meets] using show f = g from h
    | true => simpa [carried, written, meets] using h.ne
  | cons link rest ih =>
    obtain ⟨op, a⟩ := link
    refine ih ?_
    by_cases hop : op = none ∧ last = some .or
    · obtain ⟨rfl, rfl⟩ := hop
      exact h.carried
    · have hsame : (op.or last == some .or) = (op == some .or) := by
        cases op <;> simp_all
      rw [if_neg hop, hsame]
      simpa using h.joined (op == some .or)

end Folds

/-- The atoms of links, parsed one after the other. -/
def parseLinks (links : List (Option Logic × RangeExpr Text)) :
    Except ParseError (List (Option Logic × VersionRange)) :=
  links.mapM fun link => do .ok (link.1, ← parseVersionRange link.2)

theorem parseLinks_cons (op : Option Logic) (right : RangeExpr Text)
    (rest : List (Option Logic × RangeExpr Text)) : parseLinks ((op, right) :: rest) = (do
      let atom ← parseVersionRange right
      .ok ((op, atom) :: (← parseLinks rest))) := by
  rw [parseLinks, List.mapM_cons]
  cases parseVersionRange right <;> rfl

theorem parseVersionRange_chain (first : RangeExpr Text)
    (links : List (Option Logic × RangeExpr Text)) :
    parseVersionRange (.chain first links) = (do
      let prev ← parseVersionRange first
      .ok (carried first.lastOp prev (← parseLinks links))) := by
  induction links generalizing first with
  | nil =>
    change parseVersionRange first = _
    cases parseVersionRange first <;> rfl
  | cons link rest ih =>
    obtain ⟨op, right⟩ := link
    refine (ih (.link first op right)).trans ?_
    rw [parseVersionRange, parseLinks_cons]
    cases parseVersionRange first with
    | error e => rfl
    | ok prev =>
      cases parseVersionRange right with
      | error e => rfl
      | ok atom =>
        cases parseLinks rest with
        | error e => by_cases hor : op.or first.lastOp = some .or <;> simp only [hor] <;> rfl
        | ok atoms =>
          by_cases hor : op.or first.lastOp = some .or
          · simp [hor, carried, join, RangeExpr.lastOp, bind, Except.bind]
          · simp [hor, carried, join, RangeExpr.lastOp, bind, Except.bind]

theorem foldlM_combine (prev : VersionRange) (links : List (Option Logic × RangeExpr Text)) :
    links.foldlM combine prev = (do .ok (written prev (← parseLinks links))) := by
  induction links generalizing prev with
  | nil => rfl
  | cons link rest ih =>
    obtain ⟨op, right⟩ := link
    rw [List.foldlM_cons, parseLinks_cons, combine]
    cases parseVersionRange right with
    | error e => rfl
    | ok atom =>
      refine (ih _).trans ?_
      cases parseLinks rest <;> rfl

/-- A chain of atoms is the left fold of the atoms, each by the separator before it, exactly if an
atom cannot be parsed or both ways of joining meet at the end. -/
theorem separators_apply_iff (first : RangeExpr Text)
    (links : List (Option Logic × RangeExpr Text)) :
    parseVersionRange (.chain first links) =
        (do links.foldlM combine (← parseVersionRange first)) ↔
      ∀ prev atoms, parseVersionRange first = .ok prev → parseLinks links = .ok atoms →
        meets false first.lastOp prev atoms = true := by
  rw [parseVersionRange_chain]
  simp only [foldlM_combine]
  cases parseVersionRange first with
  | error e => exact iff_of_true rfl nofun
  | ok prev =>
    cases parseLinks links with
    | error e => exact iff_of_true rfl nofun
    | ok atoms =>
      have hiff := @carried_eq_iff prev prev first.lastOp atoms false rfl
      simpa [bind, Except.bind] using hiff

/-- In `#a||#b #c||*` the last atom swallows what was joined in the wrong way. -/
example : meets false none (.flavor (some ['a'])) [(some .or, .flavor (some ['b'])),
    (none, .flavor (some ['c'])), (some .or, .any)] = true := rfl

/-- The range `#a||#b #c` is a disjunction of three. -/
theorem separator_carried : VersionRange.fromStr ['#', 'a', '|', '|', '#', 'b', ' ', '#', 'c'] =
      .ok (.or (.or (.flavor (some ['a'])) (.flavor (some ['b']))) (.flavor (some ['c']))) := by
  decide

end StartTech.Exver

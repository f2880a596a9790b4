import StartTech.ImblValue.Value
import Mathlib.Data.List.Perm.Subperm

/-!
# What a value denotes

A JSON document without addresses and without an order of members: an object is
its lookup function. Values are equal exactly when they denote the same
document, so everything about contents can be said with plain equality here.
-/

namespace StartTech.ImblValue

open Foundation
open InOMap (mem_of_get get_eq_none keys)
open InOMap (get)

/-- The number that two equal numbers share: the zeros become one. -/
def Number.canonical : Number → Number
  | .float bits => .float (if isZero bits then 0#64 else bits)
  | n => n

theorem Number.eq_iff (a b : Number) : a.eq b = true ↔ a.canonical = b.canonical := by
  cases a with
  | posInt a | negInt a => cases b <;> simp [Number.eq, canonical]
  | float a =>
    cases b with
    | posInt b => simp [Number.eq, canonical]
    | negInt b => simp [Number.eq, canonical]
    | float b =>
      have hzero : isZero 0#64 = true := by decide
      simp only [Number.eq, canonical, Bool.or_eq_true, beq_iff_eq, Bool.and_eq_true,
        Number.float.injEq]
      cases ha : isZero a <;> cases hb : isZero b
      · simp
      · simp only [Bool.false_eq_true, false_and, or_false, if_true]
        exact ⟨fun h => absurd (h ▸ ha) (by simp [hb]), fun h => absurd (h ▸ hzero) (by simp [ha])⟩
      · simp only [Bool.false_eq_true, and_false, or_false, if_false, if_true]
        exact ⟨fun h => absurd (h ▸ ha) (by simp [hb]), fun h => absurd (h ▸ hzero) (by simp [hb])⟩
      · simp

inductive Json
  | null
  | bool (b : Bool)
  | number (n : Number)
  | string (s : Text)
  | array (l : List Json)
  | object (m : Text → Option Json)

namespace Value

mutual

def denote : Value → Json
  | .null => .null
  | .bool b => .bool b
  | .number n => .number n.canonical
  | .string _ s => .string s
  | .array _ l => .array (denoteList l)
  | .object _ o => .object (denoteMembers o)

def denoteList : List Value → List Json
  | [] => []
  | x :: xs => denote x :: denoteList xs

def denoteMembers : List (Text × Value) → Text → Option Json
  | [], _ => none
  | (k, v) :: rest, key => if k = key then some (denote v) else denoteMembers rest key

end

@[simp] theorem denoteList_eq (l : List Value) : denoteList l = l.map denote := by
  induction l with
  | nil => rfl
  | cons x xs ih => simp [denoteList, ih]

@[simp] theorem denoteMembers_eq (o : List (Text × Value)) :
    denoteMembers o = fun k => (get o k).map denote := by
  funext key
  induction o with
  | nil => rfl
  | cons e o ih =>
    obtain ⟨k, v⟩ := e
    by_cases h : k = key <;> simp [denoteMembers, h, ih]

@[simp] theorem denote_array (ptr : Nat) (l : List Value) :
    denote (.array ptr l) = .array (l.map denote) := by
  rw [denote, denoteList_eq]

@[simp] theorem denote_object (ptr : Nat) (o : List (Text × Value)) :
    denote (.object ptr o) = .object fun k => (get o k).map denote := by
  rw [denote, denoteMembers_eq]

theorem eqList_iff {l m : List Value} (h : ∀ x ∈ l, ∀ y ∈ m, x.eq y = true ↔ x.denote = y.denote) :
    eqList l m = true ↔ l.map denote = m.map denote := by
  induction l generalizing m with
  | nil => cases m <;> simp [eqList]
  | cons x xs ih =>
    cases m with
    | nil => simp [eqList]
    | cons y ys =>
      have hxs := @ih ys fun x hx y hy => h x (by simp [hx]) y (by simp [hy])
      simp [eqList, h x (by simp) y (by simp), hxs]

theorem eqMembers_iff (o p : List (Text × Value)) :
    eqMembers o p = true ↔ ∀ e ∈ o, ∃ w, get p e.1 = some w ∧ e.2.eq w = true := by
  induction o with
  | nil => simp [eqMembers]
  | cons e o ih =>
    obtain ⟨k, v⟩ := e
    cases hk : get p k <;> simp [eqMembers, hk, ih]

/-- Maps of one size, one of which has an equal entry for each of the other's,
are equal as lookup functions. -/
theorem eqMembers_iff_get {o p : List (Text × Value)} (ho : InOMap.Unique o) (hp : InOMap.Unique p)
    (h : ∀ e ∈ o, ∀ e' ∈ p, e.2.eq e'.2 = true ↔ e.2.denote = e'.2.denote) :
    (o.length == p.length && eqMembers o p) = true ↔
      (fun k => (get o k).map denote) = fun k => (get p k).map denote := by
  rw [Bool.and_eq_true, beq_iff_eq, eqMembers_iff]
  constructor
  · rintro ⟨hlen, hall⟩
    have hsub : keys o ⊆ keys p := by
      intro k hk
      obtain ⟨e, he, rfl⟩ := List.mem_map.mp hk
      obtain ⟨w, hw, -⟩ := hall e he
      exact List.mem_map.mpr ⟨_, mem_of_get hw, rfl⟩
    have hperm : (keys o).Perm (keys p) :=
      (List.Nodup.subperm ho hsub).perm_of_length_le (by simp [keys, hlen])
    funext k
    cases hk : get o k with
    | none =>
      have hout : k ∉ keys p := hperm.mem_iff.not.mp (get_eq_none.mp hk)
      rw [get_eq_none.mpr hout]
    | some v =>
      have hmem := mem_of_get hk
      obtain ⟨w, hw, heq⟩ := hall _ hmem
      rw [show get p k = some w from hw]
      exact congrArg some ((h _ hmem _ (mem_of_get hw)).mp heq)
  · intro hget
    have hsome (k : Text) : (get o k).map denote = (get p k).map denote :=
      congrFun hget k
    have hkeys (k : Text) : k ∈ keys o ↔ k ∈ keys p := by
      rw [← not_iff_not, ← get_eq_none, ← get_eq_none,
        ← Option.map_eq_none_iff, hsome k, Option.map_eq_none_iff]
    constructor
    · have hperm := (List.perm_ext_iff_of_nodup ho hp).mpr hkeys
      simpa [keys] using hperm.length_eq
    · intro e he
      have hk := hsome e.1
      rw [InOMap.get_of_mem ho he] at hk
      obtain ⟨w, hw, heq⟩ := Option.map_eq_some_iff.mp hk.symm
      exact ⟨w, hw, (h e he _ (mem_of_get hw)).mpr heq.symm⟩

/-- Values are equal exactly when they denote the same document. -/
theorem eq_iff {a b : Value} (ha : a.WellFormed) (hb : b.WellFormed) :
    a.eq b = true ↔ a.denote = b.denote := by
  induction ha generalizing b with
  | null | bool x => cases b <;> simp [eq, denote]
  | number n => cases b <;> simp [eq, denote, Number.eq_iff]
  | string ptr s => cases b <;> simp [eq, denote]
  | @array ptr l hl ih =>
    cases b with
    | array ptr' m =>
      rw [eq, eqList_iff fun x hx y hy => ih x hx (hb.elements y hy)]
      simp
    | _ => simp [eq, denote]
  | @object ptr o ho hmem ih =>
    cases b with
    | object ptr' p =>
      rw [eq, eqMembers_iff_get ho hb.unique fun e he e' he' => ih e he (hb.members e' he')]
      simp
    | _ => simp [eq, denote]

end Value

end StartTech.ImblValue

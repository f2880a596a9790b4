import StartTech.Foundation.Text
import StartTech.ImblValue.InOMap

/-!
# JSON values with shared structure

Strings, arrays and objects are shared by reference. A value records where each
of them is stored, so that two equal values may or may not be one allocation.
The address takes part in no comparison of contents.

## Implementation notes

Equality first compares addresses and then contents. A correct address
comparison only ever shortens this, so the comparison of contents is all that
is modelled. Floats are finite and given by their bits; the two zeros compare
equal.
-/

namespace StartTech.ImblValue

open Foundation

inductive Number
  | posInt (n : Nat)
  | negInt (n : Int)
  | float (bits : BitVec 64)
  deriving DecidableEq, Repr

namespace Number

/-- The negative zero has only the sign bit set. -/
def isZero (bits : BitVec 64) : Bool := bits == 0#64 || bits == 0x8000000000000000#64

def eq : Number → Number → Bool
  | .posInt a, .posInt b => a == b
  | .negInt a, .negInt b => a == b
  | .float a, .float b => a == b || (isZero a && isZero b)
  | _, _ => false

end Number

inductive Value
  | null
  | bool (b : Bool)
  | number (n : Number)
  | string (ptr : Nat) (s : Text)
  | array (ptr : Nat) (l : List Value)
  | object (ptr : Nat) (o : List (Text × Value))
  deriving Repr

namespace Value

mutual

/-- Equality of contents; objects are compared without their order. -/
def eq : Value → Value → Bool
  | .null, .null => true
  | .bool a, .bool b => a == b
  | .number a, .number b => a.eq b
  | .string _ a, .string _ b => a == b
  | .array _ a, .array _ b => eqList a b
  | .object _ a, .object _ b => a.length == b.length && eqMembers a b
  | _, _ => false

def eqList : List Value → List Value → Bool
  | [], [] => true
  | x :: xs, y :: ys => eq x y && eqList xs ys
  | _, _ => false

/-- Every entry of the first map has an equal one in the second. -/
def eqMembers : List (Text × Value) → List (Text × Value) → Bool
  | [], _ => true
  | (k, v) :: rest, b =>
    (match InOMap.get b k with
      | some w => eq v w
      | none => false) && eqMembers rest b

end

/-- Every object has distinct keys, at every depth. -/
inductive WellFormed : Value → Prop
  | null : WellFormed .null
  | bool (b : Bool) : WellFormed (.bool b)
  | number (n : Number) : WellFormed (.number n)
  | string (ptr : Nat) (s : Text) : WellFormed (.string ptr s)
  | array {ptr : Nat} {l : List Value} (elements : ∀ x ∈ l, WellFormed x) :
      WellFormed (.array ptr l)
  | object {ptr : Nat} {o : List (Text × Value)} (unique : InOMap.Unique o)
      (members : ∀ e ∈ o, WellFormed e.2) : WellFormed (.object ptr o)

variable {ptr : Nat} {o : List (Text × Value)}

theorem WellFormed.elements {l : List Value} (h : (Value.array ptr l).WellFormed) :
    ∀ x ∈ l, x.WellFormed := by
  cases h with
  | array h => exact h

theorem WellFormed.unique (h : (Value.object ptr o).WellFormed) : InOMap.Unique o := by
  cases h with
  | object h _ => exact h

theorem WellFormed.members (h : (Value.object ptr o).WellFormed) : ∀ e ∈ o, e.2.WellFormed := by
  cases h with
  | object _ h => exact h

end Value

end StartTech.ImblValue

import StartTech.Foundation.JsNumber

/-!
# Versions of the TypeScript library

The same notion of version as in the Rust crate, implemented apart from it:
segments are script numbers, and a prerelease identifier is a number when it is
a safe integer and a string otherwise.
-/

namespace StartTech.StartCore

open Foundation
open Std (TransCmp)

/-- A prerelease identifier, of type `string | number`. -/
inductive Identifier
  | string (value : Text)
  | number (value : JsNumber)
  deriving DecidableEq

namespace Identifier

def toString : Identifier → Text
  | .string value => value
  | .number value => value.text

end Identifier

/-- The decimal text of `Number.MAX_SAFE_INTEGER`. -/
def maxSafeText : Text := "9007199254740991".toList

/-- The pattern `^[1-9][0-9]{15,}$`. -/
def isLongNumeral : Text → Bool
  | [] => false
  | c :: rest => c.isDigit && c != '0' && rest.all Char.isDigit && decide (15 ≤ rest.length)

def numericPrerelease : Identifier → Option Text
  | .number value => some value.text
  | .string value =>
    if !isLongNumeral value then none
    else if value.length > 16 || compareStrings value maxSafeText == .gt then some value
    else none

/-- One round of the loop over prerelease identifiers. -/
def compareIdentifiers (left right : Identifier) : Ordering :=
  match numericPrerelease left, numericPrerelease right with
  | some l, some r => (compare l.length r.length).then (compareStrings l r)
  | some _, none => .lt
  | none, some _ => .gt
  | none, none => compareStrings left.toString right.toString

/-- What the order of identifiers looks at. -/
def Identifier.key (id : Identifier) : Bool × Nat × List Nat :=
  match numericPrerelease id with
  | some digits => (false, digits.length, utf16 digits)
  | none => (true, 0, utf16 id.toString)

open Identifier (key)

instance : TransCmp compareIdentifiers := by
  have h : compareIdentifiers = compareLex (compareOn fun i => (key i).1)
      (compareLex (compareOn fun i => (key i).2.1)
        (compareOn fun i => (key i).2.2)) := by
    funext a b
    simp only [compareIdentifiers, compareLex, compareOn, key]
    cases numericPrerelease a with
    | none =>
      cases numericPrerelease b with
      | none => simp [compareStrings, compareOn]
      | some r => rfl
    | some l =>
      cases numericPrerelease b with
      | none => rfl
      | some r => simp [compareStrings, compareOn]
  rw [h]
  infer_instance

structure Version where
  number : List JsNumber
  prerelease : List Identifier
  deriving DecidableEq

namespace Version

/-- The version a missing downstream part stands for. -/
def zero : Version := ⟨[JsNumber.zero], []⟩

/-- Prereleases of the same numbers: none at all comes last. -/
def comparePrerelease (left right : List Identifier) : Ordering :=
  if left.isEmpty && !right.isEmpty then .gt
  else if !left.isEmpty && right.isEmpty then .lt
  else List.compareLex compareIdentifiers left right

def compare (a b : Version) : Ordering :=
  (Comparator.padded JsNumber.compareOrZero JsNumber.zero a.number b.number).then
    (comparePrerelease a.prerelease b.prerelease)

theorem comparePrerelease_eq : comparePrerelease =
    compareLex (compareOn List.isEmpty) (List.compareLex compareIdentifiers) := by
  funext a b
  cases a <;> cases b <;> rfl

instance : TransCmp comparePrerelease := by
  rw [comparePrerelease_eq]
  infer_instance

instance : TransCmp compare :=
  inferInstanceAs (TransCmp (compareLex
    (Comparator.on (Comparator.padded JsNumber.compareOrZero JsNumber.zero) Version.number)
    (Comparator.on comparePrerelease Version.prerelease)))

end Version

structure ExtendedVersion where
  flavor : Option Text
  upstream : Version
  downstream : Version
  deriving DecidableEq

namespace ExtendedVersion

/-- Versions of different flavors are not comparable. -/
def compare (a b : ExtendedVersion) : Option Ordering :=
  if a.flavor ≠ b.flavor then none
  else if a.upstream.compare b.upstream ≠ .eq then some (a.upstream.compare b.upstream)
  else some (a.downstream.compare b.downstream)

def greaterThan (a b : ExtendedVersion) : Bool := a.compare b == some .gt

def greaterThanOrEqual (a b : ExtendedVersion) : Bool :=
  a.compare b == some .gt || a.compare b == some .eq

def equals (a b : ExtendedVersion) : Bool := a.compare b == some .eq

def lessThan (a b : ExtendedVersion) : Bool := a.compare b == some .lt

def lessThanOrEqual (a b : ExtendedVersion) : Bool :=
  a.compare b == some .lt || a.compare b == some .eq

/-- The upstream numbers without zeros at the end, but for the first number. -/
def semanticNumber (v : ExtendedVersion) : List JsNumber :=
  match v.upstream.number with
  | [] => []
  | n :: rest => n :: rest.rdropWhile (· == JsNumber.zero)

/-- The first number that is not zero, or the last one. -/
def incrementIdx (number : List JsNumber) : Nat :=
  (number.findIdx? (· != JsNumber.zero)).getD (number.length - 1)

/-- The exclusive upper bound of a caret range. Incrementing a missing number
gives no number. -/
def incrementMajor (v : ExtendedVersion) : ExtendedVersion :=
  let number := v.semanticNumber
  let idx := incrementIdx number
  let next := match number[idx]? with
    | some n => n.addOne
    | none => JsNumber.nan
  ⟨v.flavor, ⟨number.take idx ++ [next], v.upstream.prerelease⟩, Version.zero⟩

/-- The exclusive upper bound of a tilde range. -/
def incrementMinor (v : ExtendedVersion) : ExtendedVersion :=
  let number := v.semanticNumber
  let idx := incrementIdx number
  let next := (number[idx + 1]?.getD JsNumber.zero).orZero.addOne
  ⟨v.flavor, ⟨number.take (idx + 1) ++ [next], v.upstream.prerelease⟩, Version.zero⟩

end ExtendedVersion

end StartTech.StartCore

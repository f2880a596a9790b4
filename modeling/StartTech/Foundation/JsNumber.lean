import StartTech.Foundation.Comparator
import Mathlib.Data.Int.Log
import Mathlib.Data.List.DropRight
import Mathlib.Data.Rat.Floor

/-!
# Numbers and strings of ECMAScript

A number is a 64-bit float. Its value is a rational, an infinity or no number
at all; arithmetic is exact and then rounded to the nearest float. A number is
written with the fewest decimal digits that round back to it.

## Implementation notes

The sign of zero is left out: nothing here can observe it. Every rational is a
value of the type; the floats are the values that `round` returns.
-/

namespace StartTech.Foundation

open Std (TransCmp)

inductive JsNumber
  | nan
  | infinity (negative : Bool)
  | finite (value : ℚ)
  deriving DecidableEq

namespace JsNumber

def zero : JsNumber := .finite 0

/-- A natural number as a value. -/
def ofNat (n : Nat) : JsNumber := .finite n

/-- The nearest integer, the even one of two that are equally near. -/
def halfEven (y : ℚ) : ℤ :=
  if 2 * (y - ⌊y⌋) < 1 ∨ (2 * (y - ⌊y⌋) = 1 ∧ ⌊y⌋ % 2 = 0) then ⌊y⌋ else ⌊y⌋ + 1

/-- The distance of neighbouring floats at the magnitude of a value. -/
def spacing (q : ℚ) : ℚ := 2 ^ max (Int.log 2 |q| - 52) (-1074)

def round (q : ℚ) : JsNumber :=
  let r := halfEven (q / spacing q) * spacing q
  if 2 ^ 1024 ≤ |r| then .infinity (decide (q < 0)) else .finite r

def addOne : JsNumber → JsNumber
  | .nan => .nan
  | .infinity negative => .infinity negative
  | .finite q => round (q + 1)

/-- The less-than operator, which is false whenever a side is no number. -/
def lt : JsNumber → JsNumber → Bool
  | .nan, _ | _, .nan => false
  | .infinity a, .infinity b => a && !b
  | .infinity a, .finite _ => a
  | .finite _, .infinity b => !b
  | .finite p, .finite q => decide (p < q)

/-- The value of `n || 0`. -/
def orZero : JsNumber → JsNumber
  | .nan => zero
  | n => n

/-- Compare as `>` and `<` do after `|| 0` on both sides. -/
def compareOrZero (left right : JsNumber) : Ordering :=
  if lt right.orZero left.orZero then .gt
  else if lt left.orZero right.orZero then .lt
  else .eq

/-- What `compareOrZero` looks at. -/
def orderKey : JsNumber → ℤ × ℚ
  | .nan => (0, 0)
  | .infinity negative => (if negative then -1 else 1, 0)
  | .finite q => (0, q)

theorem compareOrZero_eq (a b : JsNumber) : compareOrZero a b =
      compareLex (compareOn fun n => (orderKey n).1) (compareOn fun n => (orderKey n).2) a b := by
  have hfinite (p q : ℚ) :
      (if q < p then .gt else if p < q then .lt else .eq) = compare p q := by
    rcases lt_trichotomy p q with h | rfl | h
    · rw [if_neg (not_lt_of_gt h), if_pos h, compare_lt_iff_lt.mpr h]
    · simp
    · rw [if_pos h, compare_gt_iff_gt.mpr h]
  cases a with
  | nan =>
    cases b with
    | nan => rfl
    | infinity b => cases b <;> rfl
    | finite q => simp [compareOrZero, orZero, zero, lt, orderKey, compareLex, compareOn, hfinite]
  | infinity a =>
    cases b with
    | nan => cases a <;> rfl
    | infinity b => cases a <;> cases b <;> rfl
    | finite q => cases a <;> rfl
  | finite p =>
    cases b with
    | nan => simp [compareOrZero, orZero, zero, lt, orderKey, compareLex, compareOn, hfinite]
    | infinity b => cases b <;> rfl
    | finite q => simp [compareOrZero, orZero, lt, orderKey, compareLex, compareOn, hfinite]

instance : TransCmp compareOrZero := by
  have h : compareOrZero =
      compareLex (compareOn fun n => (orderKey n).1) (compareOn fun n => (orderKey n).2) := by
    funext a b
    exact compareOrZero_eq a b
  rw [h]
  infer_instance

/-- The place of the decimal point: the value has this many digits before it. -/
def pointPlace (q : ℚ) : ℤ := Int.log 10 q + 1

/-- The digits of a given number that round back to the value, nearest first. -/
def digitsOfLength (q : ℚ) (k : Nat) : Option Nat :=
  let scaled := q * 10 ^ ((k : ℤ) - pointPlace q)
  let low := ⌊scaled⌋₊
  (if 2 * (scaled - low) ≤ 1 then [low, low + 1] else [low + 1, low]).find? fun digits =>
    round (digits * 10 ^ (pointPlace q - k)) = .finite q

/-- The least number of digits from `k` on that suffice, and the digits. -/
def shortestFrom (q : ℚ) : Nat → Nat → Option (Nat × Nat)
  | 0, _ => none
  | fuel + 1, k =>
    match digitsOfLength q k with
    | some digits => some (k, digits)
    | none => shortestFrom q fuel (k + 1)

/-- No float has more significant decimal digits. -/
def digitLimit : Nat := 800

/-- Write digits with the decimal point at the place `n`, or with an exponent. -/
def layout (digits : Text) (n : ℤ) : Text :=
  if digits.length ≤ n ∧ n ≤ 21 then digits ++ List.replicate (n - digits.length).toNat '0'
  else if 0 < n ∧ n ≤ 21 then digits.take n.toNat ++ '.' :: digits.drop n.toNat
  else if -6 < n ∧ n ≤ 0 then '0' :: '.' :: List.replicate (-n).toNat '0' ++ digits
  else
    let exponent := 'e' :: (if n < 1 then '-' else '+') :: Text.decimal (n - 1).natAbs
    if digits.length = 1 then digits ++ exponent
    else digits.take 1 ++ '.' :: digits.drop 1 ++ exponent

def positiveText (q : ℚ) : Text :=
  match shortestFrom q digitLimit 1 with
  | none => []
  | some (k, digits) =>
    let text := Text.decimal digits
    layout (text.rdropWhile (· == '0')) (pointPlace q + text.length - k)

/-- The text a number is converted to. -/
def text : JsNumber → Text
  | .nan => "NaN".toList
  | .infinity negative => if negative then "-Infinity".toList else "Infinity".toList
  | .finite q =>
    if q = 0 then ['0']
    else if q < 0 then '-' :: positiveText (-q)
    else positiveText q

end JsNumber

/-- Strings are compared by their UTF-16 code units. -/
def utf16 (s : Text) : List Nat :=
  s.flatMap fun c =>
    if c.toNat < 65536 then [c.toNat]
    else [55296 + (c.toNat - 65536) / 1024, 56320 + (c.toNat - 65536) % 1024]

def compareStrings : Text → Text → Ordering := compareOn utf16

theorem utf16_eq_map {s : Text} (h : ∀ c ∈ s, c.toNat < 65536) : utf16 s = s.map Char.toNat := by
  induction s with
  | nil => rfl
  | cons c s ih =>
    have htail := ih fun d hd => h d (List.mem_cons_of_mem c hd)
    rw [utf16] at htail ⊢
    rw [List.flatMap_cons, htail, if_pos (h c (by simp))]
    rfl

/-- Strings of the basic plane are compared by code points. -/
theorem compareStrings_eq_compare {s t : Text} (hs : ∀ c ∈ s, c.toNat < 65536)
    (ht : ∀ c ∈ t, c.toNat < 65536) : compareStrings s t = compare s t := by
  rw [compareStrings, compareOn, utf16_eq_map hs, utf16_eq_map ht]
  have hmap : List.compareLex compare (s.map Char.toNat) (t.map Char.toNat) =
      List.compareLex compare (s.map id) (t.map id) :=
    Comparator.compareLex_map fun a _ b _ => Text.compare_toNat a b
  rwa [List.map_id, List.map_id] at hmap

end StartTech.Foundation

import StartTech.Foundation.OrderedSet
import StartTech.JsonPatch.Patch

/-!
# Computing the difference of two documents

The differ walks two values together and records the operations that turn the
first into the second. Members are visited in key order. Arrays of different
lengths are merged with two cursors: an element that is shared further on marks
the ones before it as added or removed, and the operations address the position
in the target, which is how far the document has been rewritten.

## Implementation notes

Sharing is a parameter. The two cursors of the array loops are the remaining
elements of each side, with the target index. The recursion is bounded by a
depth that suffices for the first value.
-/

namespace StartTech.ImblValue.Value

mutual

/-- How deep a value is nested. -/
def depth : Value → Nat
  | .array _ l => depthList l + 1
  | .object _ o => depthMembers o + 1
  | _ => 1

def depthList : List Value → Nat
  | [] => 0
  | x :: xs => max (depth x) (depthList xs)

def depthMembers : List (Foundation.Text × Value) → Nat
  | [] => 0
  | (_, v) :: rest => max (depth v) (depthMembers rest)

end

end StartTech.ImblValue.Value

namespace StartTech.JsonPatch

open Foundation ImblValue

/-- The last arm: values that cannot be taken apart are replaced if they differ. -/
def replaceUnlessEq (path : List Text) (source target : Value) : Patch :=
  if source.eq target then [] else [.replace path target]

variable (ptrEq : Value → Value → Bool) (recurse : List Text → Value → Value → Option Patch)
  (path : List Text)

/-- One key of the union of both objects. -/
def diffMember (f t : InOMap Text Value) (key : Text) : Option Patch :=
  match InOMap.get f key, InOMap.get t key with
  | some f, some t => if f.eq t then some [] else recurse (path ++ [key]) f t
  | some _, none => some [.remove (path ++ [key])]
  | none, some t => some [.add (path ++ [key]) t]
  | none, none => some []

def diffMembers (f t : InOMap Text Value) : List Text → Option Patch
  | [] => some []
  | key :: keys => do
    let ops ← diffMember recurse path f t key
    let rest ← diffMembers f t keys
    pure (ops ++ rest)

def indexPath (tIdx : Nat) : List Text := path ++ [Text.decimal tIdx]

/-- Additions for what is left of the target. -/
def addRest : Nat → List Value → Patch
  | _, [] => []
  | tIdx, t :: ts => .add (indexPath path tIdx) t :: addRest (tIdx + 1) ts

/-- Removals for what is left of the source, always at the same position. -/
def removeRest (tIdx : Nat) (fs : List Value) : Patch :=
  fs.map fun _ => .remove (indexPath path tIdx)

/-- The target array is longer. -/
def diffGrow : Nat → List Value → List Value → Option Patch
  | tIdx, fs, [] => some (removeRest path tIdx fs)
  | tIdx, [], t :: ts => do
    let rest ← diffGrow (tIdx + 1) [] ts
    pure (.add (indexPath path tIdx) t :: rest)
  | tIdx, f :: fs, t :: ts =>
    if ptrEq f t then diffGrow (tIdx + 1) fs ts
    else if ts.any (ptrEq f) then do
      let rest ← diffGrow (tIdx + 1) (f :: fs) ts
      pure (.add (indexPath path tIdx) t :: rest)
    else do
      let ops ← recurse (indexPath path tIdx) f t
      let rest ← diffGrow (tIdx + 1) fs ts
      pure (ops ++ rest)

/-- The target array is shorter. -/
def diffShrink : Nat → List Value → List Value → Option Patch
  | tIdx, [], ts => some (addRest path tIdx ts)
  | tIdx, _ :: fs, [] => do
    let rest ← diffShrink tIdx fs []
    pure (.remove (indexPath path tIdx) :: rest)
  | tIdx, f :: fs, t :: ts =>
    if ptrEq f t then diffShrink (tIdx + 1) fs ts
    else if fs.any (ptrEq t) then do
      let rest ← diffShrink tIdx fs (t :: ts)
      pure (.remove (indexPath path tIdx) :: rest)
    else do
      let ops ← recurse (indexPath path tIdx) f t
      let rest ← diffShrink (tIdx + 1) fs ts
      pure (ops ++ rest)

/-- The arrays have one length. -/
def diffPairwise : Nat → List Value → List Value → Option Patch
  | i, f :: fs, t :: ts => do
    let ops ← if ptrEq f t then some [] else recurse (indexPath path i) f t
    let rest ← diffPairwise (i + 1) fs ts
    pure (ops ++ rest)
  | _, _, _ => some []

def diffMut (ptrEq : Value → Value → Bool) :
    Nat → List Text → Value → Value → Option Patch
  | 0, _, _, _ => none
  | fuel + 1, path, source, target =>
    match source, target with
    | .object _ f, .object _ t =>
      if ptrEq source target then some (replaceUnlessEq path source target)
      else
        diffMembers (diffMut ptrEq fuel) path f t
          (OrderedSet.ofList (InOMap.keys f ++ InOMap.keys t))
    | .array _ f, .array _ t =>
      if ptrEq source target then some (replaceUnlessEq path source target)
      else if f.length < t.length then diffGrow ptrEq (diffMut ptrEq fuel) path 0 f t
      else if f.length > t.length then diffShrink ptrEq (diffMut ptrEq fuel) path 0 f t
      else diffPairwise ptrEq (diffMut ptrEq fuel) path 0 f t
    | _, _ => some (replaceUnlessEq path source target)

def diff (ptrEq : Value → Value → Bool) (source target : Value) : Option Patch :=
  diffMut ptrEq source.depth [] source target

end StartTech.JsonPatch

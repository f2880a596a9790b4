import StartTech.JsonPtr.Access

/-!
# Applying JSON patches

A patch is applied operation by operation. Each operation that succeeds leaves
an undo operation; the first that fails has all of them applied again in
reverse.

## Implementation notes

Every function returns the document it leaves, also when it fails. Undo closures
are data with the values they captured. A failed assertion or unwrap while
undoing is `none`: the program panics.
-/

namespace StartTech.JsonPatch

open Foundation ImblValue

inductive PatchError
  | invalidPointer
  | testFailed
  deriving DecidableEq, Repr

inductive PatchOperation
  | add (path : List Text) (value : Value)
  | remove (path : List Text)
  | replace (path : List Text) (value : Value)
  | move (source path : List Text)
  | copy (source path : List Text)
  | test (path : List Text) (value : Value)

abbrev Patch := List PatchOperation

def add (doc : Value) (path : List Text) (value : Value) :
    Except PatchError (Option Value) × Value :=
  match JsonPtr.insert path doc value with
  | (.ok prev, doc) => (.ok prev, doc)
  | (.error _, doc) => (.error .invalidPointer, doc)

def remove (doc : Value) (path : List Text) (allowLast : Bool) :
    Except PatchError Value × Value :=
  match JsonPtr.remove allowLast path doc with
  | (some value, doc) => (.ok value, doc)
  | (none, doc) => (.error .invalidPointer, doc)

/-- The displaced value, or null when there was none. -/
def unwrapOrDefault : Except PatchError (Option Value) × Value → Except PatchError Value × Value
  | (.ok prev, doc) => (.ok (prev.getD .null), doc)
  | (.error e, doc) => (.error e, doc)

def replace (doc : Value) (path : List Text) (value : Value) : Except PatchError Value × Value :=
  match JsonPtr.getMutReplace path doc value with
  | (some target, doc) => (.ok target, doc)
  | (none, doc) => unwrapOrDefault (add doc path value)

/-- Whether a pointer begins with the segments of another. -/
def startsWith (path other : List Text) : Bool := other.isPrefixOf path

def mov (doc : Value) (source path : List Text) (allowLast : Bool) :
    Except PatchError (Option Value) × Value :=
  if path = source then (.ok none, doc)
  -- Check we are not moving inside own child
  else if startsWith path source || source.isEmpty then (.error .invalidPointer, doc)
  else
    match remove doc source allowLast with
    | (.error e, doc) => (.error e, doc)
    | (.ok val, doc) => add doc path val

def copy (doc : Value) (source path : List Text) : Except PatchError (Option Value) × Value :=
  match JsonPtr.get source doc with
  | none => (.error .invalidPointer, doc)
  | some val => add doc path val

def test (doc : Value) (path : List Text) (expected : Value) : Except PatchError Unit :=
  match JsonPtr.get path doc with
  | none => .error .invalidPointer
  | some target => if target.eq expected then .ok () else .error .testFailed

/-- What an undo closure captured. Copying is undone as adding is. -/
inductive UndoOperation
  | add (path : List Text) (prev : Option Value)
  | remove (path : List Text) (prev : Value)
  | replace (path : List Text) (prev : Value)
  | move (source path : List Text) (prev : Option Value)
  | test

/-- Put back a value that is expected to displace nothing. -/
def addBack (doc : Value) (path : List Text) (prev : Value) : Option Value :=
  match add doc path prev with
  | (.ok none, doc) => some doc
  | _ => none

def UndoOperation.apply (doc : Value) : UndoOperation → Option Value
  | .add path none =>
    match JsonPatch.remove doc path true with
    | (.ok _, doc) => some doc
    | (.error _, _) => none
  | .add path (some v) =>
    match JsonPatch.add doc path v with
    | (.ok (some _), doc) => some doc
    | _ => none
  | .remove path prev => addBack doc path prev
  | .replace path prev =>
    match JsonPatch.replace doc path prev with
    | (.ok _, doc) => some doc
    | (.error _, _) => none
  | .move source path prev =>
    match mov doc path source true with
    | (.error _, _) => none
    | (.ok _, doc) =>
      match prev with
      | none => some doc
      | some v => addBack doc path v
  | .test => some doc

/-- The undo operations of a patch, the latest first. -/
abbrev Undo := List UndoOperation

def Undo.apply : Undo → Value → Option Value
  | [], doc => some doc
  | undo :: rest, doc => (undo.apply doc).bind (Undo.apply rest)

/-- One round of the loop over a patch. -/
def applyOperation (doc : Value) : PatchOperation → Except PatchError UndoOperation × Value
  | .add path value =>
    match add doc path value with
    | (.ok prev, doc) => (.ok (.add path prev), doc)
    | (.error e, doc) => (.error e, doc)
  | .remove path =>
    match remove doc path false with
    | (.ok prev, doc) => (.ok (.remove path prev), doc)
    | (.error e, doc) => (.error e, doc)
  | .replace path value =>
    match replace doc path value with
    | (.ok prev, doc) => (.ok (.replace path prev), doc)
    | (.error e, doc) => (.error e, doc)
  | .move source path =>
    match mov doc source path false with
    | (.ok prev, doc) => (.ok (.move source path prev), doc)
    | (.error e, doc) => (.error e, doc)
  | .copy source path =>
    match copy doc source path with
    | (.ok prev, doc) => (.ok (.add path prev), doc)
    | (.error e, doc) => (.error e, doc)
  | .test path value =>
    match test doc path value with
    | .ok () => (.ok .test, doc)
    | .error e => (.error e, doc)

/-- Apply the operations in turn, and take them all back when one fails. -/
def applyPatches : Patch → Undo → Value → Option (Except PatchError Undo × Value)
  | [], undo, doc => some (.ok undo, doc)
  | op :: rest, undo, doc =>
    match applyOperation doc op with
    | (.ok u, doc) => applyPatches rest (u :: undo) doc
    | (.error e, doc) => (Undo.apply undo doc).map fun doc => (.error e, doc)

def patch (doc : Value) (p : Patch) : Option (Except PatchError Undo × Value) :=
  applyPatches p [] doc

end StartTech.JsonPatch

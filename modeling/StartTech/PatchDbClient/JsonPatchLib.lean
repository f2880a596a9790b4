import StartTech.ImblValue.Json
import StartTech.JsonPtr.Access
import StartTech.JsonPtr.Layout

/-!
# Patches in the client

The client applies an operation by recursion on the path. It copies the objects and
arrays on the way, and a removal travels up as a marker that the node above acts on.

## Implementation notes

A document of the client is a JSON document, objects being their own members. The client
is built for a target without object spread, where copying an object assigns its members:
assigning `__proto__` sets the prototype if the value can be one, and does nothing if it
cannot. What a name finds on the prototype of an object that has no such member, and what
number a string makes that is not made of digits, is left open. Numbers of digits are
exact, and arrays have no largest length.
-/

namespace StartTech.PatchDbClient

open Foundation ImblValue

/-- What the value of an expression can be. -/
inductive JsValue
  | json (d : Json)
  | undefined
  | function
  | symbol

def JsValue.typeof : JsValue → Text
  | .json (.bool _) => "boolean".toList
  | .json (.number _) => "number".toList
  | .json (.string _) => "string".toList
  | .json _ => "object".toList
  | .undefined => "undefined".toList
  | .function => "function".toList
  | .symbol => "symbol".toList

/-- What is left open about the language. -/
structure Runtime where
  inherited : Text → JsValue
  otherNumber : Text → Option Nat

inductive PatchOp
  | add
  | remove
  | replace
  deriving DecidableEq

/-- An operation with the text of its pointer. A removal has no use for its value. -/
structure Operation where
  op : PatchOp
  path : Text
  value : Json

/-- A call throws an error with a message, or leaves an array with holes or an object with
another prototype. -/
inductive Failure
  | error (message : Text)
  | sparse
  | otherPrototype

/-- What the recursion returns: a value, or the marker of a removal. -/
inductive Updated
  | value (d : Json)
  | removeSentinel

/-- Replace every occurrence of two characters in a row by one, from the left. -/
def replacePair (a b new : Char) : Text → Text
  | x :: y :: rest =>
    if x = a ∧ y = b then new :: replacePair a b new rest
    else x :: replacePair a b new (y :: rest)
  | s => s

def replaceChar (a : Char) (new : Text) (s : Text) : Text :=
  s.flatMap fun c => if c = a then new else [c]

/-- The segments of a pointer's text. -/
def arrayFromPath (path : Text) : List Text :=
  ((Text.split '/' path).drop 1).map fun p => replacePair '~' '0' '~' (replacePair '~' '1' '/' p)

def pathFromArray (args : List Text) : Text :=
  match args with
  | [] => []
  | _ :: _ =>
    '/' :: ['/'].intercalate
      (args.map fun a => replaceChar '/' ['~', '1'] (replaceChar '~' ['~', '0'] a))

variable (js : Runtime)

/-- The number that a string makes, where it is a whole number and not negative. -/
def number (segment : Text) : Option Nat :=
  match Text.parseDecimal segment with
  | some n => some n
  | none => js.otherNumber segment

def resolveArrayIndex (segment : Text) (arrayLength : Nat) : Except Failure Nat :=
  if segment = ['-'] then .ok arrayLength
  else match number js segment with
    | some index => .ok index
    | none =>
      .error (.error
        ("Invalid array index \"".toList ++ segment ++ "\" in JSON Patch path".toList))

/-- A member of an object, or what is found in its place. -/
def member (m : Text → Option Json) (segment : Text) : JsValue :=
  match m segment with
  | some d => .json d
  | none => js.inherited segment

/-- The name that stands for the prototype of an object. -/
def protoName : Text := "__proto__".toList

/-- A value that cannot be a prototype. -/
def isPrimitive : Json → Bool
  | .bool _ | .number _ | .string _ => true
  | .null | .array _ | .object _ => false

/-- Assign a member of an object. -/
def assignMember (m : Text → Option Json) (segment : Text) (d : Json) :
    Except Failure (Text → Option Json) :=
  if segment = protoName then
    if isPrimitive d then .ok m else .error .otherPrototype
  else .ok (Function.update m segment (some d))

/-- Copy an object by assigning its members to a new one. -/
def copyMembers (m : Text → Option Json) : Except Failure (Text → Option Json) :=
  match m protoName with
  | none => .ok m
  | some d => assignMember (Function.update m protoName none) protoName d

def element (l : List Json) (index : Nat) : JsValue :=
  match l[index]? with
  | some d => .json d
  | none => .undefined

/-- Assign to an element. Behind the end this makes holes. -/
def setElement (l : List Json) (index : Nat) (d : Json) : Except Failure (List Json) :=
  if index < l.length then .ok (l.set index d)
  else if index = l.length then .ok (l ++ [d])
  else .error .sparse

def recursiveApply (op : PatchOp) (value : Json) : List Text → JsValue → Except Failure Updated
  | [], _ => .ok (if op = .remove then .removeSentinel else .value value)
  | segment :: rest, data =>
    match data with
    | .json (.object m) =>
      match recursiveApply op value rest (member js m segment) with
      | .error e => .error e
      | .ok .removeSentinel =>
        (copyMembers m).map fun result => .value (.object (Function.update result segment none))
      | .ok (.value d) =>
        (copyMembers m).bind fun result =>
          (assignMember result segment d).map fun result => .value (.object result)
    | .json (.array l) =>
      match resolveArrayIndex js segment l.length with
      | .error e => .error e
      | .ok index =>
        if rest = [] ∧ op = .add then
          .ok (.value (.array (l.insertIdx (min index l.length) value)))
        else if rest = [] ∧ op = .remove then .ok (.value (.array (l.eraseIdx index)))
        else
          match recursiveApply op value rest (element l index) with
          | .error e => .error e
          | .ok .removeSentinel => .ok (.value (.array (l.eraseIdx index)))
          | .ok (.value d) => (setElement l index d).map fun l => .value (.array l)
    | _ =>
      .error (.error
        ("Cannot apply patch at path segment \"".toList ++ segment ++
          "\": expected object or array but found ".toList ++ data.typeof))

/-- The value of the document after an operation. -/
def applyOperation (doc : JsValue) (operation : Operation) : Except Failure JsValue :=
  (recursiveApply js operation.op operation.value (arrayFromPath operation.path) doc).map fun r =>
    match r with
    | .value d => .json d
    | .removeSentinel => .symbol

def applyAll (doc : JsValue) (operations : List Operation) : Except Failure JsValue :=
  operations.foldlM (applyOperation js) doc

end StartTech.PatchDbClient

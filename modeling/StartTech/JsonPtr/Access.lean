import StartTech.ImblValue.Value

/-!
# Reading and editing a document along a path

A path is the list of segments of a pointer. The walk keeps a reference into the
document; here each step rebuilds the node it went through, so that a failed
edit shows what it left behind.

## Implementation notes

An index that does not fit a machine word is out of bounds of every array, so
indices are parsed without a limit. The editing functions never create missing
parents: this is how patches call them.
-/

namespace StartTech.JsonPtr

open Foundation ImblValue

inductive IndexError
  | couldNotIndexInto (kind : String)
  | indexOutOfBounds (index : Nat)
  | invalidArrayIndex
  | arrayIndexLeadingZero
  deriving DecidableEq, Repr

def parseIdx (idx : Text) : Except IndexError Nat :=
  if idx.byteLen > 1 && idx.head? == some '0' then .error .arrayIndexLeadingZero
  else match Text.parseDecimal idx with
    | some n => .ok n
    | none => .error .invalidArrayIndex

/-- The segment that stands for the end of an array. -/
def dash : Text := ['-']

def get : List Text → Value → Option Value
  | [], doc => some doc
  | seg :: rest, doc =>
    match doc with
    | .array _ l => (parseIdx seg).toOption.bind fun num => l[num]?.bind (get rest)
    | .object _ o => (InOMap.get o seg).bind (get rest)
    | _ => none

theorem get_cons (seg : Text) (path : List Text) (doc : Value) :
    get (seg :: path) doc = (get [seg] doc).bind (get path) := by
  cases doc with
  | array ptr l => simp [get, Option.bind_assoc]
  | object ptr o => simp [get]
  | _ => rfl

/-- Follow a mutable reference and swap in a value; `none` leaves the document. -/
def getMutReplace : List Text → Value → Value → Option Value × Value
  | [], doc, value => (some doc, value)
  | seg :: rest, doc, value =>
    match doc with
    | .array ptr l =>
      match (parseIdx seg).toOption.bind fun num => l[num]?.map fun x => (num, x) with
      | none => (none, doc)
      | some (num, x) =>
        let r := getMutReplace rest x value
        (r.1, .array ptr (l.set num r.2))
    | .object ptr o =>
      match InOMap.get o seg with
      | none => (none, doc)
      | some x =>
        let r := getMutReplace rest x value
        (r.1, .object ptr (InOMap.set o seg r.2))
    | _ => (none, doc)

/-- The array position that a value goes to. -/
def insertIdx (seg : Text) (len : Nat) : Except IndexError Nat :=
  if seg = dash then .ok len else parseIdx seg

/-- Insert a value, giving the one it displaced. -/
def insert : List Text → Value → Value → Except IndexError (Option Value) × Value
  | [], doc, value => (.ok (some doc), value)
  | seg :: rest, doc, value =>
    match doc with
    | .array ptr l =>
      match insertIdx seg l.length with
      | .error e => (.error e, doc)
      | .ok num =>
        if rest.isEmpty && num ≤ l.length then
          (.ok none, .array ptr (l.insertIdx num value))
        else
          match l[num]? with
          | none => (.error (.indexOutOfBounds num), doc)
          | some x =>
            let r := insert rest x value
            (r.1, .array ptr (l.set num r.2))
    | .object ptr o =>
      match InOMap.get o seg with
      | none =>
        if rest.isEmpty then (.ok none, .object ptr (InOMap.insert o seg value).2)
        else (.error (.couldNotIndexInto "undefined"), doc)
      | some x =>
        let r := insert rest x value
        (r.1, .object ptr (InOMap.set o seg r.2))
    | .null => (.error (.couldNotIndexInto "null"), doc)
    | .bool _ => (.error (.couldNotIndexInto "boolean"), doc)
    | .number _ => (.error (.couldNotIndexInto "number"), doc)
    | .string _ _ => (.error (.couldNotIndexInto "string"), doc)

/-- The array position that a segment names; the dash may stand for the last one. -/
def removeIdx (allowLast : Bool) (seg : Text) (len : Nat) : Option Nat :=
  if allowLast && seg == dash && len != 0 then some (len - 1) else (parseIdx seg).toOption

def remove (allowLast : Bool) : List Text → Value → Option Value × Value
  | [], doc => (none, doc)
  | seg :: rest, doc =>
    match doc with
    | .array ptr l =>
      match (removeIdx allowLast seg l.length).bind fun num => l[num]?.map fun x => (num, x) with
      | none => (none, doc)
      | some (num, x) =>
        if rest.isEmpty then (some x, .array ptr (l.eraseIdx num))
        else
          let r := remove allowLast rest x
          (r.1, .array ptr (l.set num r.2))
    | .object ptr o =>
      if rest.isEmpty then
        let r := InOMap.remove o seg
        (r.1, .object ptr r.2)
      else
        match InOMap.get o seg with
        | none => (none, doc)
        | some x =>
          let r := remove allowLast rest x
          (r.1, .object ptr (InOMap.set o seg r.2))
    | _ => (none, doc)

end StartTech.JsonPtr

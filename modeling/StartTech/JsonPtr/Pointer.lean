import StartTech.Foundation.ByteSlice

/-!
# Pointers as text with byte ranges

A pointer is its text and, for each segment, the byte range of the segment in the
text. A segment whose text is escaped also has its unescaped form. The ranges are
relative to a longer text of which the pointer's own is the part behind an offset.

## Implementation notes

An operation yields `none` when it panics: at a byte position that is not between
two characters or out of range, and on a subtraction below zero. The segments of
an owned pointer are one list. Where they are borrowed as two slices the place of
the cut, which depends on the memory of the deque, is an argument.
-/

namespace StartTech.JsonPtr

open Foundation
open Text (byteLen)

structure Range where
  start : Nat
  stop : Nat
  deriving DecidableEq

inductive PtrSegment
  | unescaped (range : Range)
  | escaped (range : Range) (s : Text)
  deriving DecidableEq

structure JsonPointer where
  src : Text
  offset : Nat
  segments : List PtrSegment
  deriving DecidableEq

inductive ParseError
  | invalidEscape (c : Char)
  | noLeadingSlash
  deriving DecidableEq

/-- Subtraction of machine words that panics below zero. -/
def checkedSub (a b : Nat) : Option Nat := if b ≤ a then some (a - b) else none

namespace PtrSegment

def range : PtrSegment → Range
  | .unescaped range => range
  | .escaped range _ => range

def mapRange (f : Range → Range) : PtrSegment → PtrSegment
  | .unescaped range => .unescaped (f range)
  | .escaped range s => .escaped (f range) s

/-- Move the range of a segment to the right. -/
def shift (n : Nat) : PtrSegment → PtrSegment :=
  mapRange fun r => ⟨r.start + n, r.stop + n⟩

/-- The text of a segment in a pointer with a text and an offset. -/
def text (src : Text) (offset : Nat) : PtrSegment → Option Text
  | .unescaped range =>
    (checkedSub range.start offset).bind fun start =>
      (checkedSub range.stop offset).bind fun stop => Text.slice src start stop
  | .escaped _ s => some s

end PtrSegment

/-- How a character stands in the text of a pointer. -/
def escapeChar : Char → Text
  | '~' => ['~', '0']
  | '/' => ['~', '1']
  | c => [c]

def isSpecial (c : Char) : Bool := c == '~' || c == '/'

def escape (segment : Text) : Text := segment.flatMap escapeChar

namespace JsonPointer

/-- The pointer to the whole document. -/
def root : JsonPointer := ⟨[], 0, []⟩

/-- What an escaped character makes of the segment that is being read. -/
def unescapeInto (src : Text) (idx : Nat) (c : Char) : PtrSegment → Option PtrSegment
  | .unescaped range =>
    (Text.slice src range.start range.stop).map fun s =>
      .escaped ⟨range.start, idx + 1⟩ (s ++ [c])
  | .escaped range s => some (.escaped ⟨range.start, idx + 1⟩ (s ++ [c]))

/-- What any other character makes of it. -/
def readInto (idx : Nat) (c : Char) : PtrSegment → PtrSegment
  | .unescaped range => .unescaped ⟨range.start, idx + 1⟩
  | .escaped range s => .escaped ⟨range.start, idx + 1⟩ (s ++ [c])

/-- Read on from a byte position of the text, with the segments behind it, the one that
is being read and whether the next character is escaped. -/
def parseLoop (src : Text) : Nat → Text → List PtrSegment → PtrSegment → Bool →
    Option (Except ParseError (List PtrSegment))
  | _, [], segments, segment, _ => some (.ok (segments ++ [segment]))
  | idx, c :: rest, segments, segment, true =>
    match c with
    | '0' =>
      (unescapeInto src idx '~' segment).bind fun segment =>
        parseLoop src (idx + c.utf8Size) rest segments segment false
    | '1' =>
      (unescapeInto src idx '/' segment).bind fun segment =>
        parseLoop src (idx + c.utf8Size) rest segments segment false
    | _ => some (.error (.invalidEscape c))
  | idx, c :: rest, segments, segment, false =>
    match c with
    | '/' =>
      parseLoop src (idx + c.utf8Size) rest (segments ++ [segment])
        (.unescaped ⟨idx + 1, idx + 1⟩) false
    | '~' => parseLoop src (idx + c.utf8Size) rest segments segment true
    | _ => parseLoop src (idx + c.utf8Size) rest segments (readInto idx c segment) false

def parse (src : Text) : Option (Except ParseError JsonPointer) :=
  match src with
  | [] => some (.ok ⟨src, 0, []⟩)
  | c :: rest =>
    if c = '/' then
      (parseLoop src c.utf8Size rest [] (.unescaped ⟨1, 1⟩) false).map fun r =>
        r.map fun segments => ⟨src, 0, segments⟩
    else some (.error .noLeadingSlash)

def len (p : JsonPointer) : Nat := p.segments.length

/-- A segment by its number, or nothing behind the last. -/
def getSegment (p : JsonPointer) (idx : Nat) : Option (Option Text) :=
  match p.segments[idx]? with
  | some seg => (seg.text p.src p.offset).map some
  | none => some none

/-- The segments as an iterator yields them. -/
def iter (p : JsonPointer) : Option (List Text) := p.segments.mapM (PtrSegment.text p.src p.offset)

/-- The segments, each as far as it can be read. -/
def readings (p : JsonPointer) : List (Option Text) :=
  p.segments.map (PtrSegment.text p.src p.offset)

def asRef (p : JsonPointer) : Text := p.src

def pushEnd (p : JsonPointer) (segment : Text) : JsonPointer :=
  let start := byteLen (p.src ++ ['/'])
  let src := p.src ++ ['/'] ++ escape segment
  { p with
    src
    segments := p.segments ++
      [if segment.any isSpecial then .escaped ⟨start, byteLen src⟩ segment
        else .unescaped ⟨start, byteLen src⟩] }

def pushEndIdx (p : JsonPointer) (segment : Nat) : JsonPointer :=
  let start := byteLen p.src + 1
  let src := p.src ++ '/' :: Text.decimal segment
  { p with src, segments := p.segments ++ [.unescaped ⟨start, byteLen src⟩] }

def pushStart (p : JsonPointer) (segment : Text) : JsonPointer :=
  let escaped := segment.countP isSpecial
  let prefixLen := byteLen segment + escaped + 1
  { p with
    src := '/' :: escape segment ++ p.src
    segments :=
      (if 0 < escaped then .escaped ⟨1, prefixLen⟩ segment else .unescaped ⟨1, prefixLen⟩) ::
        p.segments.map (PtrSegment.shift prefixLen) }

def pushStartIdx (p : JsonPointer) (segment : Nat) : JsonPointer :=
  let src := '/' :: Text.decimal segment
  let prefixLen := byteLen src
  { p with
    src := src ++ p.src
    segments := .unescaped ⟨1, prefixLen⟩ :: p.segments.map (PtrSegment.shift prefixLen) }

def popEnd (p : JsonPointer) : Option JsonPointer :=
  match p.segments.getLast? with
  | some last =>
    (checkedSub last.range.start 1).bind fun n =>
      (Text.truncate p.src n).map fun src => { p with src, segments := p.segments.dropLast }
  | none => some p

def popStart (p : JsonPointer) : Option JsonPointer :=
  match p.segments with
  | first :: rest =>
    (checkedSub first.range.start 1).bind fun n =>
      (Text.removeRange p.src n first.range.stop).map fun src => { p with src, segments := rest }
  | [] => some p

def truncate (p : JsonPointer) (newLen : Nat) : Option JsonPointer :=
  match p.segments[newLen]? with
  | some seg =>
    (checkedSub seg.range.start 1).bind fun n =>
      (Text.truncate p.src n).map fun src =>
        { p with src, segments := p.segments.take newLen }
  | none => some p

def append (p suffix : JsonPointer) : Option JsonPointer :=
  suffix.iter.map fun segments => segments.foldl pushEnd p

def prepend (p other : JsonPointer) : Option JsonPointer :=
  other.iter.map fun segments => segments.reverse.foldl pushStart p

/-- Move a segment of one pointer to behind another. -/
def rebase (rhsOffset srcLen offset : Nat) (seg : PtrSegment) : Option PtrSegment :=
  (checkedSub seg.range.start rhsOffset).bind fun start =>
    (checkedSub seg.range.stop rhsOffset).map fun stop =>
      seg.mapRange fun _ => ⟨start + srcLen + offset, stop + srcLen + offset⟩

def add (p rhs : JsonPointer) : Option JsonPointer :=
  (rhs.segments.mapM (rebase rhs.offset (byteLen p.src) p.offset)).map fun segments =>
    { p with src := p.src ++ rhs.src, segments := p.segments ++ segments }

end JsonPointer

inductive Bound
  | unbounded
  | included (n : Nat)
  | excluded (n : Nat)

def Bound.startIdx : Bound → Nat
  | .unbounded => 0
  | .included n => n
  | .excluded n => n + 1

def Bound.endIdx (len : Nat) : Bound → Nat
  | .unbounded => len
  | .included n => n + 1
  | .excluded n => n

/-- The segments in a range, of a list that is stored in two slices. -/
def sliceSegments (left right : List PtrSegment) (startIdx endIdx : Nat) :
    Option (Option (List PtrSegment)) :=
  if startIdx ≤ left.length then
    if endIdx ≤ left.length then
      if startIdx ≤ endIdx then some (some ((left.take endIdx).drop startIdx)) else none
    else if endIdx - left.length ≤ right.length then
      some (some (left.drop startIdx ++ right.take (endIdx - left.length)))
    else some none
  else if startIdx - left.length < right.length then
    (checkedSub endIdx left.length).bind fun n =>
      if n ≤ right.length then
        if startIdx - left.length ≤ n then
          some (some ((right.take n).drop (startIdx - left.length)))
        else none
      else some none
  else some none

namespace JsonPointer

def sliceSegments (p : JsonPointer) (cut : Nat) (lower upper : Bound) :
    Option (Option (List PtrSegment)) :=
  JsonPtr.sliceSegments (p.segments.take cut) (p.segments.drop cut) lower.startIdx
    (upper.endIdx p.len)

def slice (p : JsonPointer) (cut : Nat) (lower upper : Bound) : Option (Option JsonPointer) :=
  (p.sliceSegments cut lower upper).bind fun r =>
    match r with
    | none => some none
    | some [] => some (some ⟨[], 0, []⟩)
    | some (first :: rest) =>
      let last := rest.getLast?.getD first
      (checkedSub first.range.start 1).bind fun offset =>
        (checkedSub offset p.offset).bind fun start =>
          (checkedSub last.range.stop p.offset).bind fun stop =>
            (Text.slice p.src start stop).map fun src => some ⟨src, offset, first :: rest⟩

/-- How many segments two pointers have in common, from a segment of the first on. -/
def commonLoop (p other : JsonPointer) : Nat → List PtrSegment → Option Nat
  | idx, [] => some idx
  | idx, seg :: rest =>
    (seg.text p.src p.offset).bind fun s =>
      (other.getSegment idx).bind fun t =>
        if t = some s then commonLoop p other (idx + 1) rest else some idx

/-- Where the text of the first segments ends. -/
def commonIdx (p : JsonPointer) : Nat → Option Nat
  | 0 => some 0
  | last + 1 =>
    match p.segments[last]? with
    | some seg => checkedSub seg.range.stop p.offset
    | none => some 0

def commonPrefix (p : JsonPointer) (cut : Nat) (other : JsonPointer) : Option JsonPointer :=
  (commonLoop p other 0 p.segments).bind fun common =>
    (p.commonIdx common).bind fun commonIdx =>
      (Text.slice p.src 0 commonIdx).bind fun src =>
        (p.sliceSegments cut (.included 0) (.excluded common)).bind fun segments =>
          segments.map fun segments => ⟨src, p.offset, segments⟩

/-- Whether the segments of a pointer, from one on, are those of another. -/
def startsWithLoop (p other : JsonPointer) : Nat → List PtrSegment → Option Bool
  | _, [] => some true
  | idx, seg :: rest =>
    (seg.text other.src other.offset).bind fun s =>
      (p.getSegment idx).bind fun t =>
        if t = some s then startsWithLoop p other (idx + 1) rest else some false

def stripPrefix (p : JsonPointer) (cut : Nat) (other : JsonPointer) :
    Option (Option JsonPointer) :=
  (startsWithLoop p other 0 other.segments).bind fun starts =>
    if !starts then some none
    else if p.len = other.len then some (some root)
    else
      match p.segments[other.len]? with
      | none => some none
      | some seg =>
        (checkedSub seg.range.start 1).bind fun srcStart =>
          (Text.slice p.src srcStart (byteLen p.src)).bind fun src =>
            (p.sliceSegments cut (.included other.len) .unbounded).map fun segments =>
              segments.map fun segments => ⟨src, srcStart, segments⟩

end JsonPointer

end StartTech.JsonPtr

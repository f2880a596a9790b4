import StartTech.StartCore.Tables
import StartTech.Exver.VersionText

/-!
# The grammar of the TypeScript library

The rules of the parsing expression grammar and the values that are built from
what they match. A version range is a sequence of atoms; operators associate to
the left and have no precedence, and an omitted operator means conjunction.

## Implementation notes

The rules return the pieces of the text; the values of their actions are
functions of these. Rules that call each other are tied together by a depth that
bounds how far atoms are nested. A text is not nested deeper than it is long.
-/

namespace StartTech.StartCore

open Foundation Peg
open Exver (CmpOp Logic RangeExpr SpecText VersionText)

namespace Grammar

def isDigit (c : Char) : Bool := c.isDigit

/-- The class `[0-9a-zA-Z-]`. -/
def isIdentifierChar (c : Char) : Bool := c.isDigit || c.isLower || c.isUpper || c == '-'

/-- The class `[ \t\n\r]`. -/
def isSpace (c : Char) : Bool := c == ' ' || c == '\t' || c == '\n' || c == '\r'

def digit : Peg Text := span1 isDigit

def versionNumber : Peg (List Text) := sepBy1 '.' digit

/-- The pattern `^0[0-9]+$`. -/
def hasLeadingZero : Text → Bool
  | '0' :: c :: rest => (c :: rest).all isDigit
  | _ => false

def preReleaseSegment : Peg Text := do
  let segment ← span1 isIdentifierChar
  if hasLeadingZero segment then fail else pure segment

def preRelease : Peg (List Text) := do
  char '-'
  sepBy1 '.' preReleaseSegment

def version : Peg VersionText := do
  let number ← versionNumber
  let prerelease ← Peg.optional preRelease
  pure ⟨number, prerelease.getD []⟩

def flavorString : Peg Text := span Char.isLower

def flavor : Peg Text := do
  char '#'
  let f ← flavorString
  char ':'
  pure f

def extendedVersion : Peg SpecText := do
  let f ← Peg.optional flavor
  let upstream ← version
  char ':'
  let downstream ← version
  pure ⟨f, upstream, some downstream⟩

def versionSpec : Peg SpecText := do
  let f ← Peg.optional flavor
  let upstream ← version
  let downstream ← Peg.optional (do char ':'; version)
  pure ⟨f, upstream, downstream⟩

def space : Peg Unit := do
  let _ ← span isSpace
  pure ()

def cmpOp : Peg CmpOp := oneOf
  [do literal ['>', '=']; pure .ge,
   do literal ['<', '=']; pure .le,
   do literal ['>']; pure .gt,
   do literal ['<']; pure .lt,
   do literal ['=']; pure .eq,
   do literal ['!', '=']; pure .ne,
   do literal ['^']; pure .caret,
   do literal ['~']; pure .tilde]

def anchor : Peg (RangeExpr SpecText) := do
  let operator ← Peg.optional cmpOp
  space
  let v ← versionSpec
  pure (.anchor operator v)

def flavorAtom : Peg (RangeExpr SpecText) := do
  char '#'
  let f ← flavorString
  pure (.flavor f)

def logic : Peg Logic := oneOf
  [do literal ['|', '|']; pure .or, do literal ['&', '&']; pure .and]

/-- An atom with the operator before it. -/
def linked (atom : Peg (RangeExpr SpecText)) : Peg (Option Logic × RangeExpr SpecText) := do
  space
  let op ← Peg.optional (do let op ← logic; space; pure op)
  let next ← atom
  pure (op, next)

/-- The rule `VersionRange` over a rule for atoms. -/
def rangeOf (atom : Peg (RangeExpr SpecText)) : Peg (RangeExpr SpecText) := do
  let first ← atom
  let rest ← many (linked atom)
  pure (.chain first rest)

def parens (range : Peg (RangeExpr SpecText)) : Peg (RangeExpr SpecText) := do
  char '('
  space
  let e ← range
  space
  char ')'
  pure (.parens e)

def not (atom : Peg (RangeExpr SpecText)) : Peg (RangeExpr SpecText) := do
  char '!'
  space
  let e ← atom
  pure (.not e)

/-- The rule `VersionRangeAtom`, nested at most as deep as given. -/
def atom : Nat → Peg (RangeExpr SpecText)
  | 0 => fail
  | depth + 1 => oneOf
      [parens (rangeOf (atom depth)),
       anchor,
       not (atom depth),
       do char '*'; pure .any,
       do char '!'; pure .none,
       flavorAtom]

def versionRange (depth : Nat) : Peg (RangeExpr SpecText) := rangeOf (atom depth)

/-- `parseInt` and `Number` of a text of digits. -/
def numberOf (digits : Text) : JsNumber := JsNumber.round (Nat.ofDigitChars 10 digits 0 : Nat)

def isSafeInteger : JsNumber → Bool
  | .finite q => q.den == 1 && decide (|q| ≤ 9007199254740991)
  | _ => false

/-- The value of a prerelease segment. -/
def identifierOf (segment : Text) : Identifier :=
  if !segment.all isDigit then .string segment
  else if isSafeInteger (numberOf segment) then .number (numberOf segment)
  else .string segment

/-- The value of a version. -/
def versionOf (t : VersionText) : Version :=
  ⟨t.numbers.map numberOf, t.segments.map identifierOf⟩

/-- The value of `flavor || null`. -/
def orNull (flavor : Option Text) : Option Text := flavor.filter fun f => !f.isEmpty

/-- The value of a version in a range. -/
def specOf (t : SpecText) : ExtendedVersion :=
  ⟨orNull t.flavor, versionOf t.upstream, (t.downstream.map versionOf).getD Version.zero⟩

/-- The functions `parseAtom` and `parseRange`. A missing comparison is a caret. -/
def parseRange : RangeExpr SpecText → VersionRange
  | .parens e => parseRange e
  | .anchor operator v => VersionRange.ofAnchor (operator.getD .caret) (specOf v)
  | .not e => .not (parseRange e)
  | .any => .any
  | .none => .none
  | .flavor f => .flavor (some f)
  | .link left (some .or) right => .or (parseRange left) (parseRange right)
  | .link left _ right => .and (parseRange left) (parseRange right)

end Grammar

def Version.parse (s : Text) : Option Version :=
  (parseAll Grammar.version s).map Grammar.versionOf

def ExtendedVersion.parse (s : Text) : Option ExtendedVersion :=
  (parseAll Grammar.extendedVersion s).map Grammar.specOf

def VersionRange.parse (s : Text) : Option VersionRange :=
  (parseAll (Grammar.versionRange (s.length + 1)) s).map Grammar.parseRange

end StartTech.StartCore

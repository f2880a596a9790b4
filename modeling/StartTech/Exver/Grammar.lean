import StartTech.Exver.Constructors
import StartTech.Exver.RangeExpr
import StartTech.Foundation.Peg

/-!
# Parsing ranges in the crate

The rules of the crate's grammar and the functions that turn what they match
into a range. Blanks are skipped between the parts of a rule that is not atomic.
The rule for ranges need not match the whole text.

## Implementation notes

Rules that call each other are tied together by a depth, as deep as the text is
long. The text of a version holds no white space, so trimming it is left out. A
parsed version has a number, so that building a caret or tilde from it does not
panic; the branch for it gives an error.
-/

namespace StartTech.Exver

open Foundation Peg

namespace Grammar

/-- The implicit white space between parts. -/
def skip : Peg Unit := do
  let _ ← span (· == ' ')
  pure ()

def num : Peg Unit :=
  choice (char '0') do
    let _ ← satisfy fun c => c.isDigit && c != '0'
    let _ ← span Char.isDigit
    pure ()

def prereleaseSeg : Peg Text := span1 fun c => c.isDigit || c.isLower || c.isUpper || c == '-'

def prerelease : Peg (List Text) := sepBy1 '.' prereleaseSeg

def version : Peg Unit := do
  let _ ← many (do num; char '.')
  num
  let _ ← Peg.optional (do char '-'; prerelease)
  pure ()

def flavor : Peg Text := span Char.isLower

def versionSpec : Peg Text := consumed do
  let _ ← Peg.optional (do char '#'; let _ ← flavor; char ':')
  version
  let _ ← Peg.optional (do char ':'; version)
  pure ()

def cmpOp : Peg CmpOp := oneOf
  [do literal ['>', '=']; pure .ge,
   do literal ['<', '=']; pure .le,
   do literal ['!', '=']; pure .ne,
   do literal ['=']; pure .eq,
   do literal ['<']; pure .lt,
   do literal ['>']; pure .gt,
   do literal ['^']; pure .caret,
   do literal ['~']; pure .tilde]

def anchor : Peg (RangeExpr Text) := do
  let op ← Peg.optional cmpOp
  skip
  let v ← versionSpec
  pure (.anchor op v)

def flavorAtom : Peg (RangeExpr Text) := do
  char '#'
  let f ← flavor
  pure (.flavor f)

def logic : Peg Logic := oneOf
  [do literal ['|', '|']; pure .or, do literal ['&', '&']; pure .and]

/-- An atom with the operator before it. -/
def linked (atom : Peg (RangeExpr Text)) : Peg (Option Logic × RangeExpr Text) := do
  let op ← Peg.optional logic
  skip
  let next ← atom
  pure (op, next)

/-- The rule `version_range` over a rule for atoms. -/
def rangeOf (atom : Peg (RangeExpr Text)) : Peg (RangeExpr Text) := do
  let first ← atom
  skip
  let links ← Peg.optional (do
    let next ← linked atom
    let rest ← many (do skip; linked atom)
    pure (next :: rest))
  pure (.chain first (links.getD []))

def parens (range : Peg (RangeExpr Text)) : Peg (RangeExpr Text) := do
  char '('
  skip
  let e ← range
  skip
  char ')'
  pure (.parens e)

def not (atom : Peg (RangeExpr Text)) : Peg (RangeExpr Text) := do
  char '!'
  skip
  let e ← atom
  pure (.not e)

/-- The rule `version_range_atom`, nested at most as deep as given. -/
def atom : Nat → Peg (RangeExpr Text)
  | 0 => fail
  | depth + 1 => oneOf
      [parens (rangeOf (atom depth)),
       anchor,
       not (atom depth),
       do char '*'; pure .any,
       do char '!'; pure .none,
       flavorAtom]

def versionRange (depth : Nat) : Peg (RangeExpr Text) := rangeOf (atom depth)

end Grammar

/-- A version whose downstream part may be missing; an empty flavor is none. -/
def ExtendedVersion.parseSpec (s : Text) : Except ParseError ExtendedVersion := do
  let flavor := (splitFlavor s).1.filter fun f => !f.isEmpty
  checkFlavor s flavor
  let parts := (Text.splitOnce ':' (splitFlavor s).2).getD ((splitFlavor s).2, ['0'])
  .ok ⟨flavor, ← Version.fromStr parts.1, ← Version.fromStr parts.2⟩

namespace VersionRange

def ofAnchor (version : ExtendedVersion) : CmpOp → Option VersionRange
  | .eq => some (.anchor EQ version)
  | .gt => some (.anchor GT version)
  | .lt => some (.anchor LT version)
  | .ge => some (.anchor GTE version)
  | .le => some (.anchor LTE version)
  | .ne => some (.anchor NEQ version)
  | .caret => caret version
  | .tilde => tilde version

def parseAnchor (op : Option CmpOp) (spec : Text) : Except ParseError VersionRange := do
  match ofAnchor (← ExtendedVersion.parseSpec spec) (op.getD .caret) with
  | some r => .ok r
  | Option.none => .error (.invalidVersionRange spec)

/-- The loop over the atoms. The operator that was read last stays in force
until another one is read. -/
def parseVersionRange : RangeExpr Text → Except ParseError VersionRange
  | .parens e => parseVersionRange e
  | .anchor op spec => parseAnchor op spec
  | .not e => do .ok (smartNot (← parseVersionRange e))
  | .any => .ok .any
  | .none => .ok .none
  | .flavor f => .ok (.flavor ((some f).filter fun f => !f.isEmpty))
  | .link left op right => do
    let prev ← parseVersionRange left
    let atom ← parseVersionRange right
    if op.or left.lastOp = some .or then .ok (smartOr prev atom) else .ok (smartAnd prev atom)

def fromStr (s : Text) : Except ParseError VersionRange :=
  match Grammar.versionRange (s.length + 1) s with
  | some (e, _) => parseVersionRange e
  | Option.none => .error (.invalidVersionRange s)

end VersionRange

end StartTech.Exver

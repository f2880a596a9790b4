import StartTech.StartCore.Version
import StartTech.Exver.RangeExpr

/-!
# Version ranges of the TypeScript library

A range is satisfied by one version, or by a release that declares several. In
a release a negation looks at all declared versions at once: it passes only
when none of them satisfies what is negated.
-/

namespace StartTech.StartCore

open Foundation
open Exver (CmpOp)

inductive VersionRange
  | anchor (operator : CmpOp) (version : ExtendedVersion)
  | and (left right : VersionRange)
  | or (left right : VersionRange)
  | not (value : VersionRange)
  | any
  | none
  | flavor (flavor : Option Text)
  deriving DecidableEq

/-- Whether the version satisfies the range. -/
def ExtendedVersion.satisfies (v : ExtendedVersion) : VersionRange → Bool
  | .anchor .eq w => v.equals w
  | .anchor .gt w => v.greaterThan w
  | .anchor .lt w => v.lessThan w
  | .anchor .ge w => v.greaterThanOrEqual w
  | .anchor .le w => v.lessThanOrEqual w
  | .anchor .ne w => !v.equals w
  | .anchor .caret w => v.greaterThanOrEqual w && v.lessThan w.incrementMajor
  | .anchor .tilde w => v.greaterThanOrEqual w && v.lessThan w.incrementMinor
  | .flavor f => f == v.flavor
  | .and left right => v.satisfies left && v.satisfies right
  | .or left right => v.satisfies left || v.satisfies right
  | .not value => !v.satisfies value
  | .any => true
  | .none => false

namespace VersionRange

/-- One round of `andAll`: `any` is skipped, and the first operand replaces it. -/
def andNext (y x : VersionRange) : VersionRange :=
  match x, y with
  | .any, _ => y
  | _, .any => x
  | _, _ => .and y x

def andLoop : List VersionRange → VersionRange → VersionRange
  | [], y => y
  | .none :: _, _ => .none
  | x :: xs, y => andLoop xs (andNext y x)

/-- The static `and`, which leaves out `any` and returns at the first `none`. -/
def andAll (xs : List VersionRange) : VersionRange := andLoop xs .any

/-- One round of `orAll`: `none` is skipped, and the first operand replaces it. -/
def orNext (y x : VersionRange) : VersionRange :=
  match x, y with
  | .none, _ => y
  | _, .none => x
  | _, _ => .or y x

def orLoop : List VersionRange → VersionRange → VersionRange
  | [], y => y
  | .any :: _, _ => .any
  | x :: xs, y => orLoop xs (orNext y x)

/-- The static `or`, which leaves out `none` and returns at the first `any`. -/
def orAll (xs : List VersionRange) : VersionRange := orLoop xs .none

/-- The static `anchor`, which writes out carets and tildes. -/
def ofAnchor (operator : CmpOp) (version : ExtendedVersion) : VersionRange :=
  match operator with
  | .caret => andAll [.anchor .ge version, .anchor .lt version.incrementMajor]
  | .tilde => andAll [.anchor .ge version, .anchor .lt version.incrementMinor]
  | operator => .anchor operator version

/-- What a range that is neither a negation nor split up says about each
declared version. -/
def releaseWhole (r : VersionRange) (versions : List ExtendedVersion) (negated : Bool) :
    List Bool :=
  if negated then versions.map fun _ => !versions.any fun v => v.satisfies r
  else versions.map fun v => v.satisfies r

def releaseMatches (versions : List ExtendedVersion) : VersionRange → Bool → List Bool
  | .not value, negated => releaseMatches versions value !negated
  | .anchor .ne w, negated => releaseWhole (.anchor .eq w) versions !negated
  | .and left right, false =>
    List.zipWith (· && ·) (releaseMatches versions left false)
      (releaseMatches versions right false)
  | .or left right, false =>
    List.zipWith (· || ·) (releaseMatches versions left false)
      (releaseMatches versions right false)
  | r, negated => releaseWhole r versions negated

def satisfiedByRelease (r : VersionRange) (versions : List ExtendedVersion) : Bool :=
  (releaseMatches versions r false).any id

/-- Whether a negation can reach across the versions of a release. -/
def hasReleaseVeto : VersionRange → Bool
  | .anchor operator _ => operator == .ne
  | .not _ => true
  | .and left right | .or left right => left.hasReleaseVeto || right.hasReleaseVeto
  | .any | .none | .flavor _ => false

end VersionRange

end StartTech.StartCore

import StartTech.Exver.Version

/-!
# Version ranges and their meaning on one version
-/

namespace StartTech.Exver

open Foundation

/-- A result carries a value either as it stands or inverted. -/
inductive Invertable (α : Type)
  | ok (value : α)
  | err (value : α)
  deriving DecidableEq, Repr

abbrev Operator := Invertable Ordering

def GTE : Operator := .err .lt
def LT : Operator := .ok .lt
def NEQ : Operator := .err .eq
def EQ : Operator := .ok .eq
def LTE : Operator := .err .gt
def GT : Operator := .ok .gt

inductive VersionRange
  | anchor (op : Operator) (version : ExtendedVersion)
  | and (a b : VersionRange)
  | or (a b : VersionRange)
  | not (a : VersionRange)
  | any
  | none
  | flavor (flavor : Option Text)
  deriving DecidableEq, Repr

/-- Whether an operator accepts the outcome of comparing with its anchor. -/
def Operator.accepts (op : Operator) (cmp : Ordering) : Bool :=
  match op with
  | .ok c => cmp == c
  | .err c => cmp != c

/-- Whether the version is in the range. An anchor of another flavor only
accepts through inequality. -/
def ExtendedVersion.satisfies (v : ExtendedVersion) : VersionRange → Bool
  | .anchor op w =>
    match v.partialCmp w with
    | some cmp => Operator.accepts op cmp
    | Option.none => op == NEQ
  | .and a b => v.satisfies a && v.satisfies b
  | .or a b => v.satisfies a || v.satisfies b
  | .not a => !v.satisfies a
  | .any => true
  | .none => false
  | .flavor f => v.flavor == f

/-- The versions a range compares with. -/
def VersionRange.anchors : VersionRange → List ExtendedVersion
  | .anchor _ v => [v]
  | .and a b | .or a b => a.anchors ++ b.anchors
  | .not a => a.anchors
  | .any | .none | .flavor _ => []

end StartTech.Exver

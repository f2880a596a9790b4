import StartTech.Foundation.Text

/-!
# Ranges as they are written

Both grammars read a range as atoms one after the other, with operators between
them that may be left out. What a grammar reads as a version is a parameter.
-/

namespace StartTech.Exver

open Foundation

/-- The comparison operators of the grammars. -/
inductive CmpOp
  | eq
  | gt
  | lt
  | ge
  | le
  | ne
  | caret
  | tilde
  deriving DecidableEq, Repr

def CmpOp.text : CmpOp → Text
  | .eq => ['=']
  | .gt => ['>']
  | .lt => ['<']
  | .ge => ['>', '=']
  | .le => ['<', '=']
  | .ne => ['!', '=']
  | .caret => ['^']
  | .tilde => ['~']

/-- The operators between atoms. -/
inductive Logic
  | or
  | and
  deriving DecidableEq, Repr

def Logic.text : Logic → Text
  | .or => ['|', '|']
  | .and => ['&', '&']

inductive RangeExpr (V : Type)
  | parens (expr : RangeExpr V)
  | anchor (operator : Option CmpOp) (version : V)
  | not (value : RangeExpr V)
  | any
  | none
  | flavor (flavor : Text)
  | link (left : RangeExpr V) (operator : Option Logic) (right : RangeExpr V)

namespace RangeExpr

variable {V W : Type}

def map (f : V → W) : RangeExpr V → RangeExpr W
  | .parens e => .parens (e.map f)
  | .anchor op v => .anchor op (f v)
  | .not e => .not (e.map f)
  | .any => .any
  | .none => .none
  | .flavor s => .flavor s
  | .link l op r => .link (l.map f) op (r.map f)

/-- The expression of a first atom and the atoms linked to it. -/
def chain (first : RangeExpr V) (links : List (Option Logic × RangeExpr V)) : RangeExpr V :=
  links.foldl (fun e l => .link e l.1 l.2) first

/-- The last operator that is written at the top of an expression. -/
def lastOp : RangeExpr V → Option Logic
  | .link l op _ => op.or l.lastOp
  | _ => Option.none

end RangeExpr

end StartTech.Exver

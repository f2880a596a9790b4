import StartTech.Exver.Range
import Mathlib.Data.Finset.Basic

/-!
# Truth tables of version ranges

A range is decided flavor by flavor. For each atom of a partition of the
flavors, a table splits the line of versions at points and records one truth
value for every segment between them.

## Implementation notes

Reading a list out of bounds and running out of loop rounds both give `none`;
the correctness module shows that neither happens. The ordered map from atoms
to tables is an association list with distinct keys: it is only folded over,
looked up and searched for a true value, so the order of its keys decides
nothing.
-/

namespace StartTech.Exver

open Foundation Std

namespace Sat

/-- A block of a partition of the flavors: one flavor, or all but some. -/
inductive FlavorAtom
  | flavor (f : Option Text)
  | flavorNot (set : Finset (Option Text))
  deriving DecidableEq

namespace FlavorAtom

def contains : FlavorAtom → Option Text → Bool
  | .flavor f, g => g == f
  | .flavorNot set, g => decide (g ∉ set)

/-- The intersection of two atoms, `none` when it is empty. -/
def and : FlavorAtom → FlavorAtom → Option FlavorAtom
  | .flavor fa, .flavor fb => if fa = fb then some (.flavor fa) else none
  | .flavor f, .flavorNot set | .flavorNot set, .flavor f =>
    if f ∈ set then none else some (.flavor f)
  | .flavorNot sa, .flavorNot sb => some (.flavorNot (sa ∪ sb))

end FlavorAtom

/-- A point on the line of versions, just below or just above a version. -/
structure Point where
  upstream : Version
  downstream : Version
  side : Int
  deriving DecidableEq, Repr

namespace Point

def cmp (p q : Point) : Ordering :=
  (p.upstream.cmp q.upstream).then ((p.downstream.cmp q.downstream).then (compare p.side q.side))

instance : TransCmp cmp :=
  inferInstanceAs (TransCmp (compareLex (Comparator.on Version.cmp Point.upstream)
    (compareLex (Comparator.on Version.cmp Point.downstream) (compareOn Point.side))))

/-- The position of a version itself, between the points just below and above it. -/
def ofVersion (v : ExtendedVersion) : Point := ⟨v.upstream, v.downstream, 0⟩

end Point

/-- Truth values on the segments that the points cut the line of versions into. -/
structure Table where
  points : List Point
  values : List Bool
  deriving DecidableEq, Repr

namespace Table

def fromValue (v : Bool) : Table := ⟨[], [v]⟩

def fromSplit (point : Point) (left right : Bool) : Table := ⟨[point], [left, right]⟩

/-- Record the value of the next segment, or extend the last segment when the
value repeats. -/
def pushValue (c : Table) (next : Bool) : Table :=
  if c.values.getLast? = some next then { c with points := c.points.dropLast }
  else { c with values := c.values ++ [next] }

def pushPoint (c : Table) (p : Point) : Table := { c with points := c.points ++ [p] }

/-- The merge walk. The points and values not yet passed stand for the two
indices; the fuel bounds the number of rounds. -/
def zipLoop (f : Bool → Bool → Bool) : Nat → Table → Table → Table → Option Table
  | 0, _, _, _ => none
  | fuel + 1, a, b, c =>
    match a.values, b.values with
    | va :: avs, vb :: bvs =>
      let c := c.pushValue (f va vb)
      match a.points, b.points with
      | [], [] => some c
      | [], q :: qs => zipLoop f fuel a ⟨qs, bvs⟩ (c.pushPoint q)
      | p :: ps, [] => zipLoop f fuel ⟨ps, avs⟩ b (c.pushPoint p)
      | p :: ps, q :: qs =>
        match p.cmp q with
        | .lt => zipLoop f fuel ⟨ps, avs⟩ b (c.pushPoint p)
        | .gt => zipLoop f fuel a ⟨qs, bvs⟩ (c.pushPoint q)
        | .eq => zipLoop f fuel ⟨ps, avs⟩ ⟨qs, bvs⟩ (c.pushPoint p)
    | _, _ => none

/-- Combine two tables pointwise, joining neighbours of equal value. -/
def zip (a b : Table) (f : Bool → Bool → Bool) : Option Table :=
  zipLoop f (a.points.length + b.points.length + 1) a b ⟨[], []⟩

end Table

abbrev TableMap := List (FlavorAtom × Table)

namespace TableMap

def remove (m : TableMap) (k : FlavorAtom) : Option Table × TableMap :=
  ((m.find? fun e => e.1 == k).map Prod.snd, m.filter fun e => e.1 != k)

def insert (m : TableMap) (k : FlavorAtom) (t : Table) : TableMap :=
  (m.filter fun e => e.1 != k) ++ [(k, t)]

end TableMap

inductive Tables
  | true
  | false
  | map (m : TableMap)
  deriving DecidableEq

namespace Tables

def eqFlavor (flavor : Option Text) : Tables :=
  .map [(.flavor flavor, Table.fromValue Bool.true),
    (.flavorNot {flavor}, Table.fromValue Bool.false)]

def cmp (version : ExtendedVersion) (side : Int) (left right : Bool) : Tables :=
  let point : Point := ⟨version.upstream, version.downstream, side⟩
  .map [(.flavor version.flavor, Table.fromSplit point left right),
    (.flavorNot {version.flavor}, Table.fromValue Bool.false)]

def not : Tables → Tables
  | .true => .false
  | .false => .true
  | .map m => .map (m.map fun e => (e.1, { e.2 with values := e.2.values.map (! ·) }))

/-- The body of the double loop: join one pair of entries into the result. -/
def andStep (out : TableMap) (pair : (FlavorAtom × Table) × (FlavorAtom × Table)) :
    Option TableMap :=
  match FlavorAtom.and pair.1.1 pair.2.1 with
  | none => some out
  | some flavor => do
    let combined ← Table.zip pair.1.2 pair.2.2 (· && ·)
    match TableMap.remove out flavor with
    | (some prev, out) =>
      let merged ← Table.zip prev combined (· || ·)
      some (TableMap.insert out flavor merged)
    | (none, out) => some (TableMap.insert out flavor combined)

def and : Tables → Tables → Option Tables
  | .true, x | x, .true => some x
  | .false, _ | _, .false => some .false
  | .map am, .map bm => do
    let out ← (am.product bm).foldlM andStep []
    some (.map out)

/-- Disjunction goes through `and`, which puts both sides on one partition. -/
def or (a b : Tables) : Option Tables := (and a.not b.not).map not

def satisfiable : Tables → Bool
  | .true => Bool.true
  | .false => Bool.false
  | .map m => m.any fun e => e.2.values.any id

end Tables

/-- The exact table of a version and nothing else. -/
def tablesEq (v : ExtendedVersion) : Option Tables :=
  Tables.and (Tables.cmp v (-1) false true) (Tables.cmp v 1 true false)

def tablesOf : VersionRange → Option Tables
  | .any => some .true
  | .none => some .false
  | .flavor f => some (Tables.eqFlavor f)
  | .not a => (tablesOf a).map Tables.not
  | .and a b => do Tables.and (← tablesOf a) (← tablesOf b)
  | .or a b => do Tables.or (← tablesOf a) (← tablesOf b)
  | .anchor op v =>
    if op = EQ then tablesEq v
    else if op = NEQ then (tablesEq v).map Tables.not
    else if op = LT then some (Tables.cmp v (-1) true false)
    else if op = LTE then some (Tables.cmp v 1 true false)
    else if op = GT then some (Tables.cmp v 1 false true)
    else if op = GTE then some (Tables.cmp v (-1) false true)
    else Option.none

end Sat

namespace VersionRange

def satisfiable (r : VersionRange) : Option Bool :=
  (Sat.tablesOf r).map Sat.Tables.satisfiable

def intersects (a b : VersionRange) : Option Bool := do
  let t ← Sat.Tables.and (← Sat.tablesOf a) (← Sat.tablesOf b)
  some t.satisfiable

end VersionRange

end StartTech.Exver

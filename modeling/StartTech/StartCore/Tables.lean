import StartTech.StartCore.Range
import Mathlib.Data.List.ProdSigma

/-!
# Truth tables and normal forms of the TypeScript library

A range is turned into truth tables, one for every block of a partition of the
flavors, and the tables are turned back into a range: every segment on which a
table is true becomes a conjunction of bounds.

## Implementation notes

The source negates tables in place. Every table that is negated was made by the
expression that negates it and is not read again, so negation is a function
here. A set of flavors is the list of its members in insertion order. The map
from atoms to tables is keyed by deep equality and iterates in insertion order.
Reading a list out of bounds and running out of loop rounds both give `none`;
neither happens.
-/

namespace StartTech.StartCore

open Foundation

/-- A block of a partition of the flavors: one flavor, or all but some. -/
inductive FlavorAtom
  | flavor (flavor : Option Text)
  | flavorNot (flavors : List (Option Text))
  deriving DecidableEq

/-- The intersection of two atoms, `none` when it is empty. -/
def flavorAnd : FlavorAtom → FlavorAtom → Option FlavorAtom
  | .flavor a, .flavor b => if a = b then some (.flavor a) else none
  | .flavor a, .flavorNot b => if a ∈ b then none else some (.flavor a)
  | .flavorNot a, .flavor b => if b ∈ a then none else some (.flavor b)
  | .flavorNot a, .flavorNot b => some (.flavorNot (a ++ b.filter (· ∉ a)))

/-- The sides of a version on which a point can lie, `-1` and `1`. -/
inductive Side
  | before
  | after
  deriving DecidableEq, Repr

def Side.toInt : Side → Int
  | .before => -1
  | .after => 1

structure VersionRangePoint where
  upstream : Version
  downstream : Version
  side : Side
  deriving DecidableEq

def compareVersionRangePoints (a b : VersionRangePoint) : Ordering :=
  (a.upstream.compare b.upstream).then
    ((a.downstream.compare b.downstream).then (compare a.side.toInt b.side.toInt))

def adjacentVersionRangePoints (a b : VersionRangePoint) : Bool :=
  a.upstream.compare b.upstream == .eq && a.downstream.compare b.downstream == .eq &&
    a.side == .before && b.side == .after

/-- Truth values on the segments between points of the line of versions. -/
structure VersionRangeTable where
  points : List VersionRangePoint
  values : List Bool
  deriving DecidableEq

namespace VersionRangeTable

/-- Record the next value; a repeated value takes back the point before it. -/
def pushValue (c : VersionRangeTable) (next : Bool) : VersionRangeTable :=
  if c.values.getLast? = some next then { c with points := c.points.dropLast }
  else { c with values := c.values ++ [next] }

def pushPoint (c : VersionRangeTable) (p : VersionRangePoint) : VersionRangeTable :=
  { c with points := c.points ++ [p] }

/-- The merge walk. The points and values not yet passed stand for the two
indices; the fuel bounds the number of rounds. -/
def zipLoop (func : Bool → Bool → Bool) :
    Nat → VersionRangeTable → VersionRangeTable → VersionRangeTable → Option VersionRangeTable
  | 0, _, _, _ => none
  | fuel + 1, a, b, c =>
    match a.values, b.values with
    | va :: avs, vb :: bvs =>
      let c := c.pushValue (func va vb)
      match a.points, b.points with
      | [], [] => some c
      | [], q :: qs => zipLoop func fuel a ⟨qs, bvs⟩ (c.pushPoint q)
      | p :: ps, [] => zipLoop func fuel ⟨ps, avs⟩ b (c.pushPoint p)
      | p :: ps, q :: qs =>
        match compareVersionRangePoints p q with
        | .lt => zipLoop func fuel ⟨ps, avs⟩ b (c.pushPoint p)
        | .gt => zipLoop func fuel a ⟨qs, bvs⟩ (c.pushPoint q)
        | .eq => zipLoop func fuel ⟨ps, avs⟩ ⟨qs, bvs⟩ (c.pushPoint p)
    | _, _ => none

def zip (a b : VersionRangeTable) (func : Bool → Bool → Bool) : Option VersionRangeTable :=
  zipLoop func (a.points.length + b.points.length + 1) a b ⟨[], []⟩

/-- The point at which a segment begins; the first segment has none. -/
def pointBefore (t : VersionRangeTable) (i : Nat) : Option VersionRangePoint :=
  if i = 0 then none else t.points[i - 1]?

end VersionRangeTable

/-- Deep equality of atoms; the order of a set's members does not matter. -/
def FlavorAtom.deepEqual : FlavorAtom → FlavorAtom → Bool
  | .flavor a, .flavor b => a == b
  | .flavorNot a, .flavorNot b => a.all (· ∈ b) && b.all (· ∈ a)
  | _, _ => false

abbrev TableEntry := FlavorAtom × VersionRangeTable

/-! Maps of the package `deep-equality-data-structures`, as it documents them. -/

namespace DeepMap

def get (m : List TableEntry) (k : FlavorAtom) : Option VersionRangeTable :=
  (m.find? fun e => e.1.deepEqual k).map Prod.snd

/-- A key that is there keeps its place. -/
def set (m : List TableEntry) (k : FlavorAtom) (t : VersionRangeTable) : List TableEntry :=
  if m.any fun e => e.1.deepEqual k then m.map fun e => if e.1.deepEqual k then (k, t) else e
  else m ++ [(k, t)]

end DeepMap

inductive VersionRangeTables
  | true
  | false
  | map (m : List TableEntry)
  deriving DecidableEq

namespace VersionRangeTables

def eqFlavor (flavor : Option Text) : VersionRangeTables :=
  .map [(.flavor flavor, ⟨[], [Bool.true]⟩), (.flavorNot [flavor], ⟨[], [Bool.false]⟩)]

def cmpPoint (flavor : Option Text) (point : VersionRangePoint) (left right : Bool) :
    VersionRangeTables :=
  .map [(.flavor flavor, ⟨[point], [left, right]⟩), (.flavorNot [flavor], ⟨[], [Bool.false]⟩)]

def cmp (version : ExtendedVersion) (side : Side) (left right : Bool) : VersionRangeTables :=
  cmpPoint version.flavor ⟨version.upstream, version.downstream, side⟩ left right

def not : VersionRangeTables → VersionRangeTables
  | .true => .false
  | .false => .true
  | .map m => .map (m.map fun e => (e.1, ⟨e.2.points, e.2.values.map (! ·)⟩))

def entries : VersionRangeTables → List TableEntry
  | .true | .false => []
  | .map m => m

/-- The body of the double loop. Its result is `true` until the first entry. -/
def andStep (c : VersionRangeTables) (pair : TableEntry × TableEntry) :
    Option VersionRangeTables :=
  match flavorAnd pair.1.1 pair.2.1 with
  | none => some c
  | some flavor => do
    let t ← VersionRangeTable.zip pair.1.2 pair.2.2 (· && ·)
    match DeepMap.get c.entries flavor with
    | none => some (.map (DeepMap.set c.entries flavor t))
    | some prev =>
      let merged ← VersionRangeTable.zip t prev (· || ·)
      some (.map (DeepMap.set c.entries flavor merged))

def and : VersionRangeTables → VersionRangeTables → Option VersionRangeTables
  | .true, b => some b
  | a, .true => some a
  | .false, _ | _, .false => some .false
  | .map am, .map bm => (am.product bm).foldlM andStep .true

def or (tables : List VersionRangeTables) : Option VersionRangeTables :=
  (tables.foldlM (fun acc t => and acc t.not) .true).map not

/-- The loop of `collapse`, left with `none` at the first value that differs. -/
def collapseLoop : List Bool → Option Bool → Option Bool
  | [], found => found
  | x :: xs, none => collapseLoop xs (some x)
  | x :: xs, some found => if found != x then none else collapseLoop xs (some found)

/-- The one value of the tables, `none` when they have none or both. -/
def collapse : VersionRangeTables → Option Bool
  | .true => some Bool.true
  | .false => some Bool.false
  | .map m => collapseLoop (m.flatMap fun e => e.2.values) none

/-- The anchors that bound a segment between two points. -/
def bounds (flavor : Option Text) (p q : Option VersionRangePoint) : List VersionRange :=
  match p, q with
  | some p, some q =>
    if adjacentVersionRangePoints p q then
      [.anchor .eq ⟨flavor, p.upstream, p.downstream⟩]
    else [lower p, upper q]
  | some p, none => [lower p]
  | none, some q => [upper q]
  | none, none => []
where
  lower (p : VersionRangePoint) : VersionRange :=
    .anchor (if p.side = .before then .ge else .gt) ⟨flavor, p.upstream, p.downstream⟩
  upper (q : VersionRangePoint) : VersionRange :=
    .anchor (if q.side = .before then .lt else .le) ⟨flavor, q.upstream, q.downstream⟩

/-- The conjunction for one segment of a table. -/
def minterm (atom : FlavorAtom) (p q : Option VersionRangePoint) : VersionRange :=
  let cmpFlavor := match atom with
    | .flavor f => f
    | .flavorNot _ => none
  let nots := match atom with
    | .flavor _ => []
    | .flavorNot flavors => flavors.map fun f => VersionRange.not (.flavor f)
  let term := nots ++ bounds cmpFlavor p q
  VersionRange.andAll (if term.isEmpty then [.flavor cmpFlavor] else term)

/-- The conjunctions for the segments on which an entry is true. -/
def entryMinterms (e : TableEntry) : List VersionRange :=
  (List.range e.2.values.length).filterMap fun i =>
    if e.2.values[i]? = some Bool.true then
      some (minterm e.1 (e.2.pointBefore i) e.2.points[i]?)
    else none

def minterms (t : VersionRangeTables) : VersionRange :=
  if t = .true ∨ t.collapse = some Bool.true then .any
  else if t = .false ∨ t.collapse = some Bool.false then .none
  else VersionRange.orAll (t.entries.flatMap entryMinterms)

end VersionRangeTables

open VersionRangeTables (minterms)

namespace VersionRange

open VersionRangeTables in
def tables : VersionRange → Option VersionRangeTables
  | .anchor .eq v => VersionRangeTables.and (cmp v .before false true) (cmp v .after true false)
  | .anchor .gt v => some (cmp v .after false true)
  | .anchor .lt v => some (cmp v .before true false)
  | .anchor .ge v => some (cmp v .before false true)
  | .anchor .le v => some (cmp v .after true false)
  | .anchor .ne v =>
    (VersionRangeTables.and (cmp v .before false true) (cmp v .after true false)).map
      VersionRangeTables.not
  | .anchor .caret v =>
    VersionRangeTables.and (cmp v .before false true) (cmp v.incrementMajor .before true false)
  | .anchor .tilde v =>
    VersionRangeTables.and (cmp v .before false true) (cmp v.incrementMinor .before true false)
  | .flavor f => some (eqFlavor f)
  | .not value => value.tables.map VersionRangeTables.not
  | .and left right => do VersionRangeTables.and (← left.tables) (← right.tables)
  | .or left right => do VersionRangeTables.or [← left.tables, ← right.tables]
  | .any => some .true
  | .none => some .false

def satisfiable (r : VersionRange) : Option Bool :=
  r.tables.map fun t => t.collapse != some false

/-- The range with its positive parts in normal form. Negations stay as they are. -/
def normalize : VersionRange → Option VersionRange
  | .and left right =>
    if (VersionRange.and left right).hasReleaseVeto then do
      some (andAll [← left.normalize, ← right.normalize])
    else (VersionRange.and left right).tables.map minterms
  | .or left right =>
    if (VersionRange.or left right).hasReleaseVeto then do
      some (orAll [← left.normalize, ← right.normalize])
    else (VersionRange.or left right).tables.map minterms
  | r => if r.hasReleaseVeto then some r else r.tables.map minterms

end VersionRange

end StartTech.StartCore

import StartTech.Foundation.Turns
import StartTech.StartCore.Normalization

/-!
# The graph of versions and migrations

A service lists its versions. For each one there are edges from the version before it and from the
range of versions in between, in both directions, and edges for migrations of other ranges. A
migration follows a path of this graph, from a vertex that overlaps the version of the data to one
that overlaps the version that is asked for.

## Implementation notes

Versions and ranges are values, not texts. What a migration does is left open; `M` is the type of
migrations. A vertex has a number, which stands for its identity.
-/

namespace StartTech.StartSdk

open Foundation
open StartCore (ExtendedVersion VersionRange)

/-- The type `ExtendedVersion | VersionRange`. -/
inductive Spec
  | exver (v : ExtendedVersion)
  | range (r : VersionRange)
  deriving DecidableEq

def intersects (a b : VersionRange) : Bool := (VersionRange.andAll [a, b]).satisfiable == some true

def overlaps : Spec → Spec → Bool
  | .range a, .range b => intersects a b
  | .range a, .exver b => b.satisfies a
  | .exver a, .range b => a.satisfies b
  | .exver a, .exver b => a.equals b

structure Vertex where
  id : Nat
  metadata : Spec
  deriving DecidableEq

structure Edge (M : Type) where
  metadata : Option M
  source : Vertex
  target : Vertex

structure Graph (M : Type) where
  vertices : List Vertex
  edges : List (Edge M)

variable {M : Type}

namespace Graph

variable (g : Graph M)

def addVertex (metadata : Spec) : Graph M × Vertex :=
  let vertex := ⟨g.vertices.length, metadata⟩
  ({ g with vertices := g.vertices ++ [vertex] }, vertex)

def addEdge (metadata : Option M) (source target : Vertex) : Graph M :=
  { g with edges := g.edges ++ [⟨metadata, source, target⟩] }

/-- The edges at a vertex. An edge from the vertex to itself is there twice. -/
def edgesAt (v : Vertex) : List (Edge M) :=
  g.edges.flatMap fun e =>
    (if e.source = v then [e] else []) ++ if e.target = v then [e] else []

def outgoing (v : Vertex) : List (Edge M) := (g.edgesAt v).filter (·.source = v)

def incoming (v : Vertex) : List (Edge M) := (g.edgesAt v).filter (·.target = v)

/-- Enough turns for a search to come to an end. -/
def fuel : Nat := g.vertices.length + g.edges.length + 1

def breadthFirstSearch (start : Vertex → Bool) : Option (List Vertex) :=
  (Search.run ⟨id, fun v => (g.outgoing v).map Edge.target, fun _ => false⟩ g.fuel []
    (.start (g.vertices.filter start))).map Prod.fst

def reverseBreadthFirstSearch (stop : Vertex → Bool) : Option (List Vertex) :=
  (Search.run ⟨id, fun v => (g.incoming v).map Edge.source, fun _ => false⟩ g.fuel []
    (.start (g.vertices.filter stop))).map Prod.fst

/-- A search for a vertex that keeps the path on which it comes to each vertex. -/
def pathSearch (stop : Vertex → Bool) : Search (Vertex × List (Edge M)) Vertex where
  key := Prod.fst
  next x := (g.outgoing x.1).map fun e => (e.target, x.2 ++ [e])
  wanted := stop

def shortestPath (start stop : Vertex → Bool) : Option (List (Edge M)) := do
  let r ← (g.pathSearch stop).run g.fuel []
    (.start ((g.vertices.filter start).map fun v => (v, [])))
  r.2.map Prod.snd

end Graph

/-- A migration of a version: `undefined`, a function, or `IMPOSSIBLE`. -/
inductive Migration (M : Type)
  | undefined
  | fn (f : M)
  | impossible
  deriving DecidableEq

/-- What an edge is labelled with. -/
def Migration.label : Migration M → Option (Option M)
  | .undefined => some none
  | .fn f => some (some f)
  | .impossible => none

/-- A migration of a range, up to the version and down from it. -/
structure OtherMigration (M : Type) where
  range : VersionRange
  up : Option M
  down : Option M

structure VersionInfo (M : Type) where
  version : ExtendedVersion
  up : Migration M
  down : Migration M
  other : List (OtherMigration M)

namespace Graph

/-- An edge to the version when the migration is up, and from it otherwise. -/
def connect (g : Graph M) (up : Bool) (label : Option M) (vertex v : Vertex) : Graph M :=
  if up then g.addEdge label vertex v else g.addEdge label v vertex

/-- The versions from the one before up to a version. -/
def rangeBelow (prev : Option (ExtendedVersion × Vertex)) (v : ExtendedVersion) : VersionRange :=
  match prev with
  | some p => .and (.anchor .ge p.1) (.anchor .lt v)
  | none => .anchor .lt v

/-- An edge for the version before, if there is one. -/
def connectPrev (g : Graph M) (up : Bool) (label : Option M)
    (prev : Option (ExtendedVersion × Vertex)) (v : Vertex) : Graph M :=
  match prev with
  | some p => g.connect up label p.2 v
  | none => g

def addMigration (g : Graph M) (up : Bool) (migration : Migration M)
    (prev : Option (ExtendedVersion × Vertex)) (v : ExtendedVersion) (vertex : Vertex) : Graph M :=
  match migration.label with
  | none => g
  | some label =>
    let (g, vRange) := (g.connectPrev up label prev vertex).addVertex (.range (rangeBelow prev v))
    g.connect up label vRange vertex

def addEdgeFor (g : Graph M) (f : Option M) (source target : Vertex) : Graph M :=
  if f.isSome then g.addEdge f source target else g

/-- Edges for a migration of a range, for a vertex that it is about. -/
def connectOther (migration : OtherMigration M) (vertex : Vertex) (g : Graph M) (v : Vertex) :
    Graph M :=
  (g.addEdgeFor migration.up v vertex).addEdgeFor migration.down vertex v

def addOther (vertex : Vertex) (g : Graph M) (migration : OtherMigration M) : Graph M :=
  let (g, vRange) := g.addVertex (.range migration.range)
  let matching := g.vertices.filter fun v =>
    match v.metadata with
    | .exver v => v.satisfies migration.range
    | .range _ => false
  (vRange :: matching).foldl (connectOther migration vertex) g

/-- The versions of a flavor, in ascending order. -/
def addVersions (prev : Option (ExtendedVersion × Vertex)) (g : Graph M) :
    List (VersionInfo M × Vertex) → Graph M
  | [] => g
  | (info, vertex) :: rest =>
    let g := g.addMigration true info.up prev info.version vertex
    let g := g.addMigration false info.down prev info.version vertex
    let g := info.other.foldl (addOther vertex) g
    addVersions (some (info.version, vertex)) g rest

end Graph

/-- A property that the map of flavors has from the start. -/
def inherited : Text := "constructor".toList

/-- The name of a flavor; versions without one have the empty name. -/
def flavorName (v : ExtendedVersion) : Text := v.flavor.getD []

def compareForSort (a b : ExtendedVersion) : Ordering :=
  (compareStrings (flavorName a) (flavorName b)).then ((a.compare b).getD .eq)

def Spec.toRange : Spec → VersionRange
  | .exver v => .anchor .eq v
  | .range r => r

def union (reached : List Vertex) : Option VersionRange :=
  (reached.foldl (fun acc v => VersionRange.or acc v.metadata.toRange) .none).normalize

structure VersionGraph (M : Type) where
  current : VersionInfo M
  versions : List (VersionInfo M)

inductive Op (M : Type)
  | run (e : Edge M)
  | store (s : Spec)

namespace VersionGraph

variable (vg : VersionGraph M)

def listed : List (VersionInfo M × Vertex) :=
  (vg.current :: vg.versions).zipIdx.map fun e => (e.1, ⟨e.2, .exver e.1.version⟩)

def flavors : List Text := (vg.listed.map fun e => flavorName e.1.version).eraseDups

/-- The versions of a flavor, sorted. -/
def ofFlavor (flavor : Text) : List (VersionInfo M × Vertex) :=
  (vg.listed.filter (flavorName ·.1.version = flavor)).insertionSort
    (compareForSort ·.1.version ·.1.version ≠ .gt)

/-- The graph; `none` when a flavor is the name of an inherited property, which is no list. -/
def graph : Option (Graph M) :=
  if inherited ∈ vg.flavors then none
  else
    some (vg.flavors.foldl (fun g flavor => g.addVersions none (vg.ofFlavor flavor))
      ⟨vg.listed.map Prod.snd, []⟩)

/-- The path of a migration; `none` when it throws. -/
def path (source target : Spec) : Option (List (Edge M)) :=
  if overlaps source target then some []
  else
    vg.graph.bind fun g =>
      g.shortestPath (overlaps ·.metadata source) (overlaps ·.metadata target)

def canMigrateFrom : Option VersionRange := do
  let g ← vg.graph
  union (← g.reverseBreadthFirstSearch (overlaps ·.metadata (.exver vg.current.version)))

def canMigrateTo : Option VersionRange := do
  let g ← vg.graph
  union (← g.breadthFirstSearch (overlaps ·.metadata (.exver vg.current.version)))

/-- A range that was reached is stored as the version it was reached for. -/
def settle : Spec → Spec → List (Op M)
  | .range _, .exver v => [.store (.exver v)]
  | _, _ => []

/-- What is done along a path. -/
def follow (target : Spec) : Spec → List (Edge M) → List (Op M)
  | dataVersion, [] => settle dataVersion target
  | _, e :: rest => .run e :: .store e.target.metadata :: follow target e.target.metadata rest

def migrate (source target : Spec) : Option (List (Op M)) :=
  (vg.path source target).map (follow target source)

def init (dataVersion : Option Spec) : Option (List (Op M)) :=
  match dataVersion with
  | some source => vg.migrate source (.exver vg.current.version)
  | none => some [.store (.exver vg.current.version)]

end VersionGraph

/-! ## Searches -/

namespace Graph

variable {g : Graph M} {e : Edge M} {a b z : Vertex} {p : List (Edge M)}
  {start stop : Vertex → Bool}

/-- A chain of edges from a vertex to a vertex. -/
def Walk (g : Graph M) : Vertex → List (Edge M) → Vertex → Prop
  | a, [], z => a = z
  | a, e :: p, z => e ∈ g.edges ∧ e.source = a ∧ g.Walk e.target p z

theorem Walk.snoc (h : g.Walk a p b) (he : e ∈ g.edges) (hsrc : e.source = b) :
    g.Walk a (p ++ [e]) e.target := by
  induction p generalizing a with
  | nil => exact ⟨he, hsrc.trans h.symm, rfl⟩
  | cons e' p ih => exact ⟨h.1, h.2.1, ih h.2.2⟩

theorem mem_edgesAt : e ∈ g.edgesAt a ↔ e ∈ g.edges ∧ (e.source = a ∨ e.target = a) := by
  simp only [edgesAt]
  grind

theorem mem_outgoing : e ∈ g.outgoing a ↔ e ∈ g.edges ∧ e.source = a := by
  simp only [outgoing, List.mem_filter, mem_edgesAt, decide_eq_true_eq]
  tauto

theorem mem_incoming : e ∈ g.incoming a ↔ e ∈ g.edges ∧ e.target = a := by
  simp only [incoming, List.mem_filter, mem_edgesAt, decide_eq_true_eq]
  tauto

theorem exists_walk_iff : (∃ p, g.Walk a p z) ↔
      Relation.ReflTransGen (fun a c => c ∈ (g.outgoing a).map Edge.target) a z := by
  constructor
  · rintro ⟨p, hwalk⟩
    induction p generalizing a with
    | nil => exact hwalk ▸ .refl
    | cons e p ih =>
      obtain ⟨he, hsrc, hwalk⟩ := hwalk
      exact .head (List.mem_map_of_mem (mem_outgoing.mpr ⟨he, hsrc⟩)) (ih hwalk)
  · intro hreach
    induction hreach with
    | refl => exact ⟨[], rfl⟩
    | tail _ hstep ih =>
      obtain ⟨p, hwalk⟩ := ih
      obtain ⟨e, he, rfl⟩ := List.mem_map.mp hstep
      have he := mem_outgoing.mp he
      exact ⟨p ++ [e], hwalk.snoc he.1 he.2⟩

theorem exists_walk_iff_incoming : (∃ p, g.Walk a p z) ↔
      Relation.ReflTransGen (fun a c => c ∈ (g.incoming a).map Edge.source) z a := by
  rw [exists_walk_iff, ← Relation.reflTransGen_swap]
  suffices h : ∀ a c, a ∈ (g.outgoing c).map Edge.target ↔ c ∈ (g.incoming a).map Edge.source by
    simp only [h]
  intro a c
  simp only [List.mem_map, mem_outgoing, mem_incoming]
  grind

/-- The search from some vertices reports exactly those that a walk from one of them ends at. -/
theorem breadthFirstSearch_reach (g : Graph M) (start : Vertex → Bool) :
    ∃ reached, g.breadthFirstSearch start = some reached ∧
      ∀ v, v ∈ reached ↔ ∃ a ∈ g.vertices, start a = true ∧ ∃ p, g.Walk a p v := by
  have hnext : ∀ a, ∀ c ∈ (g.outgoing a).map Edge.target,
      c ∈ g.vertices ++ g.edges.map Edge.target := by grind [mem_outgoing]
  obtain ⟨reached, hrun, hreached⟩ := Search.exists_run_reach hnext
    (by grind : ∀ c ∈ g.vertices.filter start, _) (by simp [fuel] : _ < g.fuel)
  refine ⟨reached, by rw [breadthFirstSearch, hrun]; rfl, fun v => (hreached v).trans ?_⟩
  simp only [exists_walk_iff, List.mem_filter, and_assoc]

/-- The search back from some vertices reports exactly those that a walk to one starts at. -/
theorem reverseBreadthFirstSearch_reach (g : Graph M) (stop : Vertex → Bool) :
    ∃ reached, g.reverseBreadthFirstSearch stop = some reached ∧
      ∀ v, v ∈ reached ↔ ∃ z ∈ g.vertices, stop z = true ∧ ∃ p, g.Walk v p z := by
  have hnext : ∀ a, ∀ c ∈ (g.incoming a).map Edge.source,
      c ∈ g.vertices ++ g.edges.map Edge.source := by grind [mem_incoming]
  obtain ⟨reached, hrun, hreached⟩ := Search.exists_run_reach hnext
    (by grind : ∀ c ∈ g.vertices.filter stop, _) (by simp [fuel] : _ < g.fuel)
  refine ⟨reached, by rw [reverseBreadthFirstSearch, hrun]; rfl, fun v => (hreached v).trans ?_⟩
  simp only [exists_walk_iff_incoming, List.mem_filter, and_assoc]

/-- A path is a walk from a vertex to start from to one to stop at. -/
theorem walk_of_shortestPath (h : g.shortestPath start stop = some p) :
    ∃ a ∈ g.vertices, start a = true ∧ ∃ z, stop z = true ∧ g.Walk a p z := by
  obtain ⟨r, hrun, h⟩ := Option.bind_eq_some_iff.mp h
  obtain ⟨x, hx, rfl⟩ := Option.map_eq_some_iff.mp h
  have hfound := (Search.forall_of_run (P := fun x =>
    ∃ a ∈ g.vertices, start a = true ∧ g.Walk a x.2 x.1) ?_ ?_ hrun).2 x hx
  · obtain ⟨⟨a, ha, hstart, hwalk⟩, hstop⟩ := hfound
    exact ⟨a, ha, hstart, x.1, hstop, hwalk⟩
  · rintro x ⟨a, ha, hstart, hwalk⟩ c hc
    obtain ⟨e, he, rfl⟩ := List.mem_map.mp hc
    have he := mem_outgoing.mp he
    exact ⟨a, ha, hstart, hwalk.snoc he.1 he.2⟩
  · intro c hc
    rw [Branch.items_start] at hc
    obtain ⟨a, ha, rfl⟩ := List.mem_map.mp hc
    exact ⟨a, (List.mem_filter.mp ha).1, (List.mem_filter.mp ha).2, rfl⟩

/-- The search ends with a walk from a vertex to start from to one to stop at, or there is none. -/
theorem shortestPath_complete (g : Graph M) (start stop : Vertex → Bool) :
    (∃ p, g.shortestPath start stop = some p ∧
      ∃ a ∈ g.vertices, start a = true ∧ ∃ z, stop z = true ∧ g.Walk a p z) ∨
    (∃ seen, (g.pathSearch stop).run g.fuel []
      (.start ((g.vertices.filter start).map fun v => (v, []))) = some (seen, none)) ∧
      ∀ a ∈ g.vertices, start a = true → ∀ p z, g.Walk a p z → stop z = false := by
  have hnext : ∀ x, ∀ c ∈ (g.pathSearch stop).next x,
      c.1 ∈ g.vertices ++ g.edges.map Edge.target := by
    simp only [pathSearch]
    grind [mem_outgoing]
  have hstarts : ∀ c ∈ (g.vertices.filter start).map fun v => (v, ([] : List (Edge M))),
      c.1 ∈ g.vertices ++ g.edges.map Edge.target := by grind
  obtain ⟨⟨seen, found⟩, hrun, hpassed⟩ :=
    Search.exists_run hnext hstarts (by simp [fuel] : _ < g.fuel)
  cases found with
  | some x =>
    have hp : g.shortestPath start stop = some x.2 := by rw [shortestPath, hrun]; rfl
    exact .inl ⟨x.2, hp, walk_of_shortestPath hp⟩
  | none =>
    refine .inr ⟨⟨seen, hrun⟩, fun a ha hstart p z hwalk => ?_⟩
    have hz := hpassed rfl (a, []) (.inl (by simp [ha, hstart]))
    clear ha hstart
    induction p generalizing a with
    | nil => exact hwalk ▸ hz.1
    | cons e p ih =>
      obtain ⟨he, rfl, hwalk⟩ := hwalk
      obtain ⟨x, hx, hkey⟩ := List.mem_map.mp hz.2
      exact ih _ hwalk (hpassed rfl (e.target, x.2 ++ [e])
        (.inr ⟨x, hx, List.mem_map_of_mem (mem_outgoing.mpr ⟨he, hkey.symm⟩)⟩))

end Graph

/-- The ranges that a service can be migrated from and to are the unions of the vertices with a
walk to its version and from it. -/
theorem VersionGraph.canMigrate_reach {vg : VersionGraph M} {g : Graph M}
    (hg : vg.graph = some g) : ∃ before after,
    vg.canMigrateFrom = union before ∧ vg.canMigrateTo = union after ∧
    (∀ v, v ∈ before ↔ ∃ z ∈ g.vertices,
      overlaps z.metadata (.exver vg.current.version) = true ∧ ∃ p, g.Walk v p z) ∧
    ∀ v, v ∈ after ↔ ∃ a ∈ g.vertices,
      overlaps a.metadata (.exver vg.current.version) = true ∧ ∃ p, g.Walk a p v := by
  obtain ⟨before, hbefore, hfrom⟩ :=
    g.reverseBreadthFirstSearch_reach (overlaps ·.metadata (.exver vg.current.version))
  obtain ⟨after, hafter, hto⟩ :=
    g.breadthFirstSearch_reach (overlaps ·.metadata (.exver vg.current.version))
  refine ⟨before, after, ?_, ?_, hfrom, hto⟩
  · rw [canMigrateFrom, hg, Option.bind_eq_bind, Option.bind_some, hbefore]
    rfl
  · rw [canMigrateTo, hg, Option.bind_eq_bind, Option.bind_some, hafter]
    rfl

theorem equals_self (v : ExtendedVersion) : v.equals v = true := by
  simp [ExtendedVersion.equals, ExtendedVersion.compare, Std.ReflCmp.compare_self]

end StartTech.StartSdk

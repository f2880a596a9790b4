import StartTech.Foundation.Lexicographic
import StartTech.MerkleArchive.Archive
import StartTech.Squashfs.Tree

/-!
# Layers of an image

The layers of an image are applied one after another to a map from paths to nodes. Files of
special names in a layer say what it removes: `.wh.` in front of a name removes the path with that
name, `.wh..wh..opq` all that is below its directory.

## Implementation notes

A layer is the list of what the reader of the archive gives. Nodes are shared by hardlinks, so they
have an identity, which is a number here and an address in the source. The loop that removes what
is below a path takes one path at a time, as many as there are nodes at most.
-/

namespace StartTech.Squashfs

open Foundation MerkleArchive

variable {S : Type}

/-- A node and which one it is. -/
structure Shared (S : Type) where
  id : Nat
  node : Node S

/-- Nodes by their paths, and the number for the next one. -/
structure LayerFilesystem (S : Type) where
  nodes : List (Path × Shared S)
  next : Nat
  sorted : OrderedMap.Sorted nodes

namespace LayerFilesystem

def new : LayerFilesystem S where
  nodes := [([], ⟨0, Node.implicitDirectory⟩)]
  next := 1
  sorted := List.pairwise_singleton _ _

variable (fs : LayerFilesystem S)

def get (path : Path) : Option (Shared S) := OrderedMap.get fs.nodes path

def remove (path : Path) : LayerFilesystem S :=
  { fs with
    nodes := OrderedMap.erase fs.nodes path
    sorted := fs.sorted.erase path }

def share (path : Path) (a : Shared S) : LayerFilesystem S :=
  { fs with
    nodes := OrderedMap.insert path a fs.nodes
    sorted := fs.sorted.insert }

/-- Put in a new node. -/
def insert (path : Path) (node : Node S) : LayerFilesystem S :=
  { fs.share path ⟨fs.next, node⟩ with next := fs.next + 1 }

/-- The first path behind, if it is below. -/
def nextDescendant (path : Path) : Option Path :=
  ((fs.nodes.map Prod.fst).find? fun candidate => compare path candidate == .lt).filter
    path.isPrefixOf

def removeDescendantsFrom : Nat → LayerFilesystem S → Path → LayerFilesystem S
  | 0, fs, _ => fs
  | n + 1, fs, path =>
    match fs.nextDescendant path with
    | none => fs
    | some next => removeDescendantsFrom n (fs.remove next) path

def removeDescendants (fs : LayerFilesystem S) (path : Path) : LayerFilesystem S :=
  removeDescendantsFrom fs.nodes.length fs path

def removeSubtree (fs : LayerFilesystem S) (path : Path) : LayerFilesystem S :=
  (fs.remove path).removeDescendants path

def ensureAncestor (fs : LayerFilesystem S) (ancestor : Path) :
    Except Error (LayerFilesystem S) :=
  match fs.get ancestor with
  | some a =>
    if a.node.isDirectory then .ok fs
    else .error (invalid "image layer ancestor is not a directory")
  | none => .ok (fs.insert ancestor Node.implicitDirectory)

/-- From the root down, the path included. -/
def ensureDirectory (fs : LayerFilesystem S) (path : Path) : Except Error (LayerFilesystem S) :=
  path.inits.foldlM ensureAncestor fs

end LayerFilesystem

/-- `.wh.` -/
def whiteoutMark : Name := [0x2e, 0x77, 0x68, 0x2e]

/-- What follows the mark in `.wh..wh..opq`. -/
def opaqueName : Name := [0x2e, 0x77, 0x68, 0x2e, 0x2e, 0x6f, 0x70, 0x71]

/-- The name behind the mark, if the last name of the path has one. -/
def markName (path : Path) : Option Name :=
  path.getLast?.bind fun name =>
    if whiteoutMark.isPrefixOf name then some (name.drop whiteoutMark.length) else none

/-- What has been read of a layer. -/
structure Scan (S : Type) where
  entries : List (Path × Entry S) := []
  paths : List Path := []
  whiteouts : List Path := []
  opaques : List Path := []

variable [FileSource S]

def scanMark (scan : Scan S) (path : Path) (name : Name) :
    Entry S → Except Error (Scan S)
  | .node ⟨_, .file source⟩ =>
    if FileSource.size source ≠ 0 then .error (invalid "image whiteout is not empty")
    else if name = opaqueName then .ok { scan with opaques := scan.opaques ++ [path.dropLast] }
    else do
      validateName name
      .ok { scan with whiteouts := scan.whiteouts ++ [path.dropLast ++ [name]] }
  | _ => .error (invalid "image whiteout is not a regular file")

def scanEntry (scan : Scan S) (e : Path × Entry S) : Except Error (Scan S) :=
  if scan.paths.contains e.1 then .error (invalid "duplicate image layer path")
  else
    let scan := { scan with paths := e.1 :: scan.paths }
    match markName e.1 with
    | some name => scanMark scan e.1 name e.2
    | none => .ok { scan with entries := scan.entries ++ [e] }

/-- Nodes, and the hardlinks whose targets were not there. -/
structure Applying (S : Type) where
  fs : LayerFilesystem S
  pending : List (Path × Path)

def ensureParent (fs : LayerFilesystem S) (path : Path) : Except Error (LayerFilesystem S) :=
  if path = [] then .ok fs else fs.ensureDirectory path.dropLast

def applyNode (s : Applying S) (fs : LayerFilesystem S) (path : Path) (node : Node S) :
    Except Error (Applying S) :=
  if path = [] ∧ node.isDirectory = false then .error (invalid "image root is not a directory")
  else
    let fs := if node.isDirectory then fs else fs.removeDescendants path
    .ok { s with fs := fs.insert path node }

def applyHardlink (s : Applying S) (fs : LayerFilesystem S) (path target : Path) :
    Except Error (Applying S) :=
  if path = [] then .error (invalid "image root cannot be a hardlink")
  else
    let fs := fs.removeSubtree path
    match fs.get target with
    | some a => do
      a.node.validateHardlinkTarget
      .ok { s with fs := fs.share path a }
    | none => .ok ⟨fs, OrderedMap.insert path target s.pending⟩

def applyEntry (s : Applying S) (e : Path × Entry S) : Except Error (Applying S) := do
  let fs ← ensureParent s.fs e.1
  match e.2 with
  | .node node => applyNode s fs e.1 node
  | .hardlink target => applyHardlink s fs e.1 target

def lookupHardlink (fs : LayerFilesystem S) (pending : List (Path × Path)) (target : Path) :
    Option (Except Path (Shared S)) :=
  match fs.get target with
  | some a => some (.ok a)
  | none => (OrderedMap.get pending target).map .error

def resolvePending (pending : List (Path × Path)) (fs : LayerFilesystem S) (path : Path) :
    Except Error (LayerFilesystem S) := do
  let a ← resolveHardlink (lookupHardlink fs pending) (pending.length + 1) [] path
  a.node.validateHardlinkTarget
  .ok (fs.share path a)

/-- The marks of a layer are followed before its entries are put in. -/
def applyTar (fs : LayerFilesystem S) (layer : List (Path × Entry S)) :
    Except Error (LayerFilesystem S) := do
  let scan ← layer.foldlM scanEntry {}
  let fs := scan.whiteouts.foldl LayerFilesystem.removeSubtree fs
  let fs := scan.opaques.foldl LayerFilesystem.removeDescendants fs
  let s ← scan.entries.foldlM applyEntry ⟨fs, []⟩
  let fs ← (s.pending.map Prod.fst).foldlM (resolvePending s.pending) s.fs
  let fs ← scan.whiteouts.foldlM (fun fs path => fs.ensureDirectory path.dropLast) fs
  scan.opaques.foldlM LayerFilesystem.ensureDirectory fs

end StartTech.Squashfs

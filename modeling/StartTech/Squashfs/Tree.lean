import StartTech.Foundation.OrderedMap
import StartTech.Foundation.Utf8
import Mathlib.Data.List.Perm.Subperm

/-!
# Trees of images

An image is a tree of entries: nodes with their attributes, and hardlinks to other paths of the
archive.

## Implementation notes

Paths are kept as the components that normalising leaves: names, from the root on. The number of
links that are followed is given; `resolveHardlink_succ` says how many are enough.
-/

namespace StartTech.Squashfs

open Foundation

/-- An error about what was read. -/
structure Error where
  message : String
  deriving DecidableEq

def invalid (message : String) : Error := ⟨message⟩

abbrev Name := Bytes

abbrev Path := List Name

/-- A path as text, with what is not a character replaced. -/
def Path.display (path : Path) : String :=
  String.ofList (Utf8.decodeLossy (List.intercalate [0x2f] path))

/-- Unix inode attributes retained in the image. -/
structure Metadata where
  mode : UInt16
  uid : UInt32
  gid : UInt32
  modificationTime : UInt32
  xattrs : List (Name × Bytes)
  deriving DecidableEq

def Metadata.new (mode : UInt16) : Metadata := ⟨mode, 0, 0, 0, []⟩

structure Device where
  major : UInt32
  minor : UInt32
  deriving DecidableEq

mutual

/-- Hardlinks refer to another archive path and have no attributes of their own. -/
inductive Entry (S : Type)
  | node (node : Node S)
  | hardlink (target : Path)

structure Node (S : Type) where
  metadata : Metadata
  contents : NodeContents S

inductive NodeContents (S : Type)
  | file (source : S)
  | directory (entries : List (Name × Entry S))
  | symlink (target : Bytes)
  | blockDevice (device : Device)
  | characterDevice (device : Device)
  | fifo
  | socket

end

variable {S : Type}

def NodeContents.isDirectory : NodeContents S → Bool
  | directory _ => true
  | _ => false

namespace Node

/-- Mode 0755, which is 493. -/
def implicitDirectory : Node S := ⟨Metadata.new 493, .directory []⟩

def isDirectory (node : Node S) : Bool := node.contents.isDirectory

def validateHardlinkTarget (node : Node S) : Except Error Unit :=
  if node.isDirectory then .error (invalid "archive hardlinks cannot target directories")
  else .ok ()

theorem isDirectory_of_validate {node : Node S} (h : node.validateHardlinkTarget = .ok ()) :
    node.isDirectory = false := by
  unfold validateHardlinkTarget at h
  split at h
  · cases h
  · rename_i hfalse
    exact Bool.eq_false_iff.mpr hfalse

end Node

def Entry.isDirectory : Entry S → Bool
  | node n => n.isDirectory
  | hardlink _ => false

def validateName (name : Name) : Except Error Unit :=
  if name = [] ∨ name.length > 256 ∨ name = [0x2e] ∨ name = [0x2e, 0x2e] ∨ 0 ∈ name ∨ 0x2f ∈ name
  then .error (invalid "invalid SquashFS entry name")
  else .ok ()

variable {T : Type}

/-- Follow links until a node is found. -/
def resolveHardlink (lookup : Path → Option (Except Path T)) :
    Nat → List Path → Path → Except Error T
  | 0, _, _ => .error (invalid "cyclic archive hardlink")
  | fuel + 1, visited, target =>
    if target ∈ visited then .error (invalid "cyclic archive hardlink")
    else
      match lookup target with
      | some (.ok node) => .ok node
      | some (.error next) => resolveHardlink lookup fuel (target :: visited) next
      | none => .error (invalid ("archive hardlink target does not exist: " ++ target.display))

variable {lookup : Path → Option (Except Path T)} {path : Path}

/-- The node at the end of a chain of links. -/
inductive Resolves (lookup : Path → Option (Except Path T)) : Path → T → Prop
  | node {path : Path} {node : T} (h : lookup path = some (.ok node)) : Resolves lookup path node
  | link {path next : Path} {node : T} (h : lookup path = some (.error next))
      (hnext : Resolves lookup next node) : Resolves lookup path node

theorem resolves_of_resolveHardlink {fuel : Nat} {visited : List Path} {node : T}
    (h : resolveHardlink lookup fuel visited path = .ok node) : Resolves lookup path node := by
  induction fuel generalizing visited path with
  | zero => cases h
  | succ fuel ih =>
    rw [resolveHardlink] at h
    split at h
    · cases h
    · split at h
      · rename_i hlookup
        cases h
        exact .node hlookup
      · rename_i next hlookup
        exact .link hlookup (ih h)
      · cases h

/-- Links that are no longer than all there are end before the fuel does. -/
theorem resolveHardlink_succ {links visited : List Path} {fuel : Nat}
    (hlinks : ∀ p next, lookup p = some (.error next) → p ∈ links) (hnodup : visited.Nodup)
    (hvisited : visited ⊆ links) (hfuel : links.length < fuel + visited.length) :
    resolveHardlink lookup (fuel + 1) visited path = resolveHardlink lookup fuel visited path := by
  induction fuel generalizing visited path with
  | zero =>
    have hle := (hnodup.subperm hvisited).length_le
    omega
  | succ fuel ih =>
    rw [resolveHardlink, resolveHardlink]
    split
    · rfl
    · rename_i hmem
      split
      · rfl
      · rename_i next hlookup
        refine ih (List.nodup_cons.mpr ⟨hmem, hnodup⟩) ?_ (by simp only [List.length_cons]; omega)
        exact List.cons_subset.mpr ⟨hlinks _ next hlookup, hvisited⟩
      · rfl

theorem Resolves.unique {a b : T} (ha : Resolves lookup path a)
    (hb : Resolves lookup path b) : a = b := by
  induction ha with
  | node h =>
    cases hb with
    | node h' => exact Except.ok.inj (Option.some.inj (h.symm.trans h'))
    | link h' _ => cases Option.some.inj (h.symm.trans h')
  | link h _ ih =>
    cases hb with
    | node h' => cases Option.some.inj (h.symm.trans h')
    | link h' hb =>
      obtain rfl := Except.error.inj (Option.some.inj (h.symm.trans h'))
      exact ih hb

end StartTech.Squashfs

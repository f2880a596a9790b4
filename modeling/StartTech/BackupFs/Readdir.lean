import Mathlib.Data.List.Lex
import Mathlib.Order.Fin.Basic

/-!
# Reading a directory page by page

A directory handle holds the entries that the directory had when it was opened.
A call produces entries from an offset on, until its reply is full, and remembers
under the offset it reached the name it stopped at. The next call looks that name
up and takes it out.

## Implementation notes

The cursors are the lookup function of their map. A reply has room for some number
of entries; the entry that does not fit ends the call. Offsets do not overflow.
-/

namespace StartTech.BackupFs

/-- A file name as its bytes, which is how names are ordered. -/
abbrev Name := List (Fin 256)

def dot : Name := [46]

def dotdot : Name := [46, 46]

inductive FileType
  | namedPipe
  | charDevice
  | blockDevice
  | directory
  | regularFile
  | symlink
  | socket
  deriving DecidableEq, Repr

structure DirectoryEntry where
  inode : Nat
  ty : FileType
  deriving DecidableEq, Repr

/-- The entries of a directory in the order of their names. -/
structure Bucket where
  entries : List (Name × DirectoryEntry)
  sorted : entries.Pairwise fun a b => a.1 < b.1

structure DirHandle where
  inode : Nat
  cursors : Nat → Option Name
  entries : Bucket

def opendir (inode : Nat) (entries : Bucket) : DirHandle where
  inode := inode
  cursors := fun _ => none
  entries := entries

inductive Errno
  | notDir
  | noEntry
  | other (code : Nat)
  deriving DecidableEq, Repr

/-- What a call finds out about the directory itself. -/
structure Attributes where
  inode : Nat
  isDir : Bool
  minParent : Option Nat

/-- The entries behind a name, or all of them. -/
def Bucket.range (b : Bucket) : Option Name → List (Name × DirectoryEntry)
  | none => b.entries
  | some cursor => b.entries.filter fun e => cursor < e.1

def selfEntry (attrs : Attributes) : DirectoryEntry where
  inode := attrs.inode
  ty := .directory

def parentEntry (attrs : Attributes) : DirectoryEntry where
  inode := attrs.minParent.getD attrs.inode
  ty := .directory

/-- The entries that come before the names. -/
def special (attrs : Attributes) (cur : Option Name) : List (Name × DirectoryEntry) :=
  if cur = none then [(dot, selfEntry attrs), (dotdot, parentEntry attrs)]
  else if cur = some dot then [(dotdot, parentEntry attrs)]
  else []

/-- Where the loop of a call ends. -/
structure Reached (σ : Type) where
  state : σ
  offset : Nat
  cur : Option Name
  res : Except Errno Bool
  rest : List (Name × DirectoryEntry)

variable {σ : Type} (handleEntry : σ → Name → DirectoryEntry → Nat → σ × Except Errno Bool)

/-- Hand entries over until one is refused or fails. -/
def readdirLoop : σ → Nat → Option Name → List (Name × DirectoryEntry) → Reached σ
  | state, offset, cur, [] => { state, offset, cur, res := .ok false, rest := [] }
  | state, offset, cur, (name, entry) :: rest =>
    match handleEntry state name entry (offset + 1) with
    | (state, .ok false) => readdirLoop state (offset + 1) (some name) rest
    | (state, res) => { state, offset, cur, res, rest }

/-- One call. The entry that did not fit is gone from the range when the call asks
whether it is at the end. -/
def Handler.readdir (handle : DirHandle) (attrs : Attributes) (offset : Nat) (state : σ) :
    σ × DirHandle × Except Errno Bool :=
  if !attrs.isDir then (state, handle, .error .notDir)
  else
    let cur := handle.cursors offset
    let cursors := Function.update handle.cursors offset none
    let range := handle.entries.range cur
    let r := readdirLoop handleEntry state offset cur (special attrs cur ++ range)
    let cursors :=
      match r.cur with
      | some cur => Function.update cursors r.offset (some cur)
      | none => cursors
    (r.state, { handle with cursors }, r.res.map fun _ => r.rest.isEmpty || range.isEmpty)

/-- An entry as it is sent, with the offset behind it. -/
structure Sent where
  name : Name
  entry : DirectoryEntry
  offset : Nat
  deriving DecidableEq, Repr

structure Reply where
  room : Nat
  sent : List Sent

/-- Add an entry; `true` when it does not fit. -/
def Reply.add (reply : Reply) (s : Sent) : Reply × Bool :=
  if reply.room = 0 then (reply, true)
  else ({ room := reply.room - 1, sent := reply.sent ++ [s] }, false)

/-- How the inode of an entry is found when a call asks for its attributes. -/
inductive Lookup
  | found
  | failed (e : Errno)

/-- The entry of a name that was unlinked since is passed over. -/
def handlePlus (lookup : Nat → Lookup) (reply : Reply) (name : Name) (entry : DirectoryEntry)
    (offset : Nat) : Reply × Except Errno Bool :=
  match lookup entry.inode with
  | .found =>
    let r := reply.add { name, entry, offset }
    (r.1, .ok r.2)
  | .failed .noEntry => (reply, .ok false)
  | .failed e => (reply, .error e)

def handlePlain (reply : Reply) (name : Name) (entry : DirectoryEntry) (offset : Nat) :
    Reply × Except Errno Bool :=
  let r := reply.add { name, entry, offset }
  (r.1, .ok r.2)

/-- What is sent, and the handle after it. A call that fails sends its error only. -/
def reply (r : Reply × DirHandle × Except Errno Bool) : Except Errno (List Sent) × DirHandle :=
  match r with
  | (reply, handle, .ok _) => (.ok reply.sent, handle)
  | (_, handle, .error e) => (.error e, handle)

/-- `readdir` with room for some entries. -/
def readdir (handle : DirHandle) (attrs : Attributes) (offset room : Nat) :
    Except Errno (List Sent) × DirHandle :=
  reply (Handler.readdir handlePlain handle attrs offset { room, sent := [] })

def readdirplus (lookup : Nat → Lookup) (handle : DirHandle) (attrs : Attributes)
    (offset room : Nat) : Except Errno (List Sent) × DirHandle :=
  reply (Handler.readdir (handlePlus lookup) handle attrs offset { room, sent := [] })

/-- Where every inode is found, both calls are one. -/
theorem readdirplus_eq_readdir {lookup : Nat → Lookup} (h : ∀ i, lookup i = .found)
    (handle : DirHandle) (attrs : Attributes) (offset room : Nat) :
    readdirplus lookup handle attrs offset room = readdir handle attrs offset room := by
  have hsame : handlePlus lookup = handlePlain := by
    funext r name entry offset
    simp [handlePlus, handlePlain, h]
  rw [readdirplus, readdir, hsame]

end StartTech.BackupFs

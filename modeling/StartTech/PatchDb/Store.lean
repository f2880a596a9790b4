import StartTech.Foundation.FileIo
import StartTech.Foundation.Framing
import StartTech.PatchDb.DiffPatch

/-!
# The patch-db store and its files

The store keeps a document in memory and a log of it in a file: a snapshot of
the revision and the document, followed by the patches applied since. Every
4096 revisions the log is compacted by way of a backup, which takes precedence
over the log when the store is opened.

## Implementation notes

The file that the store holds open is the one at its path: only opening renames
another file there. Each call on a file ends as a given result says, and each
early return is a branch. The lock of the file, its mode and the broadcast that
ends a successful update are not part of this model of storage. Revisions are
unbounded. A rollback that panics is `none`.
-/

namespace StartTech.PatchDb

open Foundation ImblValue JsonPatch

structure Files (B : Type) where
  main : List B
  bak : Option (List B)
  bakTmp : Option (List B)

/-- How the store writes revisions, documents and patches. -/
structure Cbor (B : Type) where
  revision : Codec B Nat
  value : Codec B Value
  patch : Codec B DiffPatch

structure FileStorage where
  position : Nat
  fileCursor : Nat

structure Store where
  storage : Option FileStorage
  persistent : Value
  revision : Nat

structure CompressIo where
  createBackup : IoResult
  backupRevision : IoResult
  backupData : IoResult
  backupFlush : IoResult
  backupSync : IoResult
  rename : IoResult
  setLen : IoResult
  seek : IoResult
  writeRevision : IoResult
  writeData : IoResult
  flush : IoResult
  sync : IoResult
  streamPosition : IoResult
  removeBackup : IoResult

structure AppendIo where
  streamPosition : IoResult
  setLen : IoResult
  seek : IoResult
  write : IoResult
  flush : IoResult
  sync : IoResult

inductive StoreError
  | io
  | patch (e : PatchError)
  | decode

variable {B : Type} (cbor : Cbor B)

/-- The snapshot that starts a log. -/
def snapshot (revision : Nat) (persistent : Value) : List B :=
  cbor.revision.encode revision ++ cbor.value.encode persistent

/-- The snapshot as it is written, with the results of its two writes. -/
def snapshotChunks (store : Store) (revision data : IoResult) : List (List B × IoResult) :=
  [(cbor.revision.encode store.revision, revision), (cbor.value.encode store.persistent, data)]

/-- Write the backup beside its place and rename it; `true` commits the compaction. -/
def writeBackup (store : Store) (files : Files B) (io : CompressIo) : Bool × Files B :=
  if !io.createBackup.isOk then (false, files)
  else
    let written := FileIo.writeFlushSync
      (snapshotChunks cbor store io.backupRevision io.backupData) io.backupFlush io.backupSync
    if !(written.1 && io.rename.isOk) then (false, { files with bakTmp := some written.2 })
    else (true, { files with bak := some written.2, bakTmp := none })

/-- Write the log anew and drop the backup. A backup that cannot be removed stays. -/
def rewriteLog (store : Store) (storage : FileStorage) (files : Files B) (io : CompressIo) :
    Bool × FileStorage × Files B :=
  if !io.setLen.isOk then (false, storage, files)
  else if !io.seek.isOk then (false, storage, { files with main := [] })
  else
    let written := FileIo.writeFlushSync
      (snapshotChunks cbor store io.writeRevision io.writeData) io.flush io.sync
    let position := written.2.length
    if !(written.1 && io.streamPosition.isOk) then
      (false, { storage with position }, { files with main := written.2 })
    else
      (true, { position, fileCursor := position },
        { files with main := written.2, bak := if io.removeBackup.isOk then none else files.bak })

/-- What a compaction leaves: whether it committed and whether it succeeded. -/
structure Compression (B : Type) where
  committed : Bool
  ok : Bool
  store : Store
  files : Files B

def compress (store : Store) (files : Files B) (io : CompressIo) : Compression B :=
  match store.storage with
  | none => { committed := false, ok := true, store, files }
  | some storage =>
    match writeBackup cbor store files io with
    | (false, files) => { committed := false, ok := false, store, files }
    | (true, files) =>
      let r := rewriteLog cbor store storage files io
      { committed := true, ok := r.1, store := { store with storage := some r.2.1 },
        files := r.2.2 }

structure OpenIo where
  rename : IoResult
  logFailed : IoResult
  compress : CompressIo

/-- Read one frame at the start of a log; an empty log stands for a default. -/
def readHead {α : Type} (c : Codec B α) (default : α) (bytes : List B) : Option (α × List B) :=
  if bytes.isEmpty then some (default, []) else c.decode bytes

/-- Replay patches. One that fails is skipped if it can be written to the list of
failed ones, and counts as a revision all the same. -/
def replay (logFailed : IoResult) : List DiffPatch → Value → Nat →
    Option (Except StoreError (Value × Nat))
  | [], persistent, revision => some (.ok (persistent, revision))
  | patch :: rest, persistent, revision =>
    match JsonPatch.patch persistent patch.ops with
    | none => none
    | some (.ok _, persistent) => replay logFailed rest persistent (revision + 1)
    | some (.error _, persistent) =>
      if logFailed.isOk then replay logFailed rest persistent (revision + 1)
      else some (.error .io)

/-- Put an existing backup in the place of the log. -/
def recover (files : Files B) (io : OpenIo) : Bool × Files B :=
  match files.bak with
  | none => (true, files)
  | some image =>
    if io.rename.isOk then (true, { files with main := image, bak := none })
    else (false, files)

/-- Read the log. -/
def load (bytes : List B) (logFailed : IoResult) : Option (Except StoreError (Value × Nat)) :=
  match readHead cbor.revision 0 bytes with
  | none => some (.error .decode)
  | some (revision, rest) =>
    match readHead cbor.value .null rest with
    | none => some (.error .decode)
    | some (persistent, rest) =>
      replay logFailed (cbor.patch.decodeAll rest) persistent revision

/-- Open a store. Where reading left the file does not matter, because the store is
compacted right away and opening fails if that fails. -/
def openStore (files : Files B) (io : OpenIo) :
    Option (Except StoreError Store × Files B) :=
  match recover files io with
  | (false, files) => some (.error .io, files)
  | (true, files) =>
    match load cbor files.main io.logFailed with
    | none => none
    | some (.error e) => some (.error e, files)
    | some (.ok (persistent, revision)) =>
      let length := files.main.length
      let r := compress cbor
        { storage := some { position := length, fileCursor := length }, persistent, revision }
        files io.compress
      if r.ok then some (.ok r.store, r.files) else some (.error .io, r.files)

structure ApplyIo where
  compress : CompressIo
  append : AppendIo

/-- Whether storing a revision compacts the log. -/
def compacts (revision : Nat) : Bool := revision % 4096 == 0

/-- Take back a tentative update, keeping what happened to the storage. -/
def rollback (undo : Undo) (before updated : Store) (files : Files B) (e : StoreError) :
    Option (Except StoreError (Option Revision) × Store × Files B) :=
  (Undo.apply undo updated.persistent).map fun persistent =>
    (.error e, { updated with persistent, revision := before.revision }, files)

variable [Inhabited B]

/-- Drop what an earlier failure left behind the cursor. -/
def rewind (storage : FileStorage) (files : Files B) (io : AppendIo) :
    Bool × FileStorage × Files B :=
  if !io.streamPosition.isOk then (false, storage, files)
  else if storage.position = storage.fileCursor then (true, storage, files)
  else if !io.setLen.isOk then (false, storage, files)
  else
    let files := { files with main := FileIo.setLen files.main storage.fileCursor }
    if !io.seek.isOk then (false, storage, files)
    else (true, { storage with position := storage.fileCursor }, files)

/-- Add a patch to the log. -/
def append (patch : DiffPatch) (storage : FileStorage) (files : Files B) (io : AppendIo) :
    Bool × FileStorage × Files B :=
  match rewind storage files io with
  | (false, storage, files) => (false, storage, files)
  | (true, storage, files) =>
    let patchBin := cbor.patch.encode patch
    let written := FileIo.writeFlushSync [(patchBin, io.write)] io.flush io.sync
    let files := { files with main := FileIo.writeAt files.main storage.position written.2 }
    let position := storage.position + written.2.length
    if !written.1 then (false, { storage with position }, files)
    else (true, { position, fileCursor := storage.fileCursor + patchBin.length }, files)

/-- Store a tentative update and keep it, or take it back. -/
def storeUpdate (patch : DiffPatch) (undo : Undo) (before updated : Store) (files : Files B)
    (io : ApplyIo) : Option (Except StoreError (Option Revision) × Store × Files B) :=
  let kept (store : Store) : Except StoreError (Option Revision) :=
    .ok (some { id := store.revision, patch })
  match updated.storage with
  | none => some (kept updated, updated, files)
  | some storage =>
    if compacts updated.revision then
      let r := compress cbor updated files io.compress
      if r.ok then some (kept r.store, r.store, r.files)
      else if r.committed then some (.error .io, r.store, r.files)
      else rollback undo before r.store r.files .io
    else
      match append cbor patch storage files io.append with
      | (true, storage, files) =>
        let store := { updated with storage := some storage }
        some (kept store, store, files)
      | (false, storage, files) =>
        rollback undo before { updated with storage := some storage } files .io

def apply (patch : DiffPatch) (store : Store) (files : Files B) (io : ApplyIo) :
    Option (Except StoreError (Option Revision) × Store × Files B) :=
  if patch.isEmpty then some (.ok none, store, files)
  else
    match JsonPatch.patch store.persistent patch.ops with
    | none => none
    | some (.error e, persistent) => some (.error (.patch e), { store with persistent }, files)
    | some (.ok undo, persistent) =>
      storeUpdate cbor patch undo store
        { store with persistent, revision := store.revision + 1 } files io

end StartTech.PatchDb

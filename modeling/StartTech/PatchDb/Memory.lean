import StartTech.PatchDb.Durability

/-!
# What an update does to the document in memory

Whatever happens to its files, an update that is reported as stored advances the
document by its patch, and one that fails leaves it. The exception is an update
whose compaction fails after it has committed: it fails and stays.
-/

namespace StartTech.PatchDb

open Foundation ImblValue JsonPatch

variable {B : Type} {cbor : Cbor B} {d : Json} {n : Nat} {patch : DiffPatch}

/-- Whether the calls up to the commit of a compaction succeed. -/
def CompressIo.commits (io : CompressIo) : Bool :=
  io.createBackup.isOk &&
    (io.backupRevision.isOk && io.backupData.isOk && io.backupFlush.isOk && io.backupSync.isOk) &&
    io.rename.isOk

/-- Whether the calls that decide about a committed compaction succeed. -/
def CompressIo.rewrites (io : CompressIo) : Bool :=
  io.setLen.isOk && io.seek.isOk &&
    (io.writeRevision.isOk && io.writeData.isOk && io.flush.isOk && io.sync.isOk) &&
    io.streamPosition.isOk

theorem writeFlushSync_snapshot (cbor : Cbor B) (store : Store) (a b flush sync : IoResult) :
    (FileIo.writeFlushSync (snapshotChunks cbor store a b) flush sync).1 =
      (a.isOk && b.isOk && flush.isOk && sync.isOk) := by
  cases a <;> cases b <;> cases flush <;>
    simp [FileIo.writeFlushSync, FileIo.writeChunks, snapshotChunks, IoResult.isOk]

theorem compress_committed (cbor : Cbor B) (store : Store) {storage : FileStorage}
    (hstorage : store.storage = some storage) (files : Files B) (io : CompressIo) :
    (compress cbor store files io).committed = io.commits ∧
      (compress cbor store files io).ok = (io.commits && io.rewrites) := by
  have hbackup : (writeBackup cbor store files io).1 = io.commits := by
    rw [CompressIo.commits, ← writeFlushSync_snapshot cbor store]
    unfold writeBackup
    cases io.createBackup.isOk with
    | false => rfl
    | true => exact FileIo.fst_guard _ _ _
  have hrewrite (files : Files B) : (rewriteLog cbor store storage files io).1 = io.rewrites := by
    rw [CompressIo.rewrites, ← writeFlushSync_snapshot cbor store]
    unfold rewriteLog
    cases io.setLen.isOk with
    | false => rfl
    | true =>
      cases io.seek.isOk with
      | false => rfl
      | true => exact FileIo.fst_guard _ _ _
  rw [← hbackup]
  simp only [compress, hstorage]
  split
  · rename_i h
    rw [h]
    exact ⟨rfl, rfl⟩
  · rename_i files' h
    rw [h]
    exact ⟨rfl, by exact hrewrite files'⟩

theorem compress_memory (cbor : Cbor B) (store : Store) (files : Files B) (io : CompressIo) :
    (compress cbor store files io).store.persistent = store.persistent ∧
      (compress cbor store files io).store.revision = store.revision := by
  unfold compress
  split
  · exact ⟨rfl, rfl⟩
  · split <;> exact ⟨rfl, rfl⟩

/-- The update stays in memory although it is reported as failed. -/
def staysUnsent (store : Store) (patch : DiffPatch) (io : ApplyIo) : Bool :=
  store.storage.isSome && !patch.isEmpty && compacts (store.revision + 1) &&
    (match JsonPatch.patch store.persistent patch.ops with
      | some (.ok _, _) => true
      | _ => false) &&
    io.compress.commits && !io.compress.rewrites

/-- What an update does to the document in memory, by what it returns. -/
inductive Remembers (patch : DiffPatch) (d : Json) (n : Nat) :
    Except StoreError (Option Revision) → Store → Prop
  | advanced {store : Store} (nonempty : patch.isEmpty = false)
      (wellFormed : store.persistent.WellFormed)
      (document : runJson d patch.ops = some store.persistent.denote)
      (revision : store.revision = n + 1) :
      Remembers patch d n (.ok (some { id := n + 1, patch })) store
  | unchanged {res : Except StoreError (Option Revision)} {store : Store}
      (silent : ∀ r, res ≠ .ok (some r)) (wellFormed : store.persistent.WellFormed)
      (document : store.persistent.denote = d) (revision : store.revision = n) :
      Remembers patch d n res store

variable {store : Store} {io : ApplyIo}

theorem Remembers.wellFormed {res : Except StoreError (Option Revision)}
    (h : Remembers patch d n res store) : store.persistent.WellFormed := by
  cases h with
  | advanced _ h _ _ | unchanged _ h _ _ => exact h

variable [Inhabited B]

theorem storeUpdate_remembers {v v' : Value} {undo : Undo} (hempty : patch.isEmpty = false)
    (hrun : runJson d patch.ops = some v'.denote) (hv' : v'.WellFormed)
    (hrestore : RestoresAll undo d v'.denote) {storage : Option FileStorage}
    (hsent : storage.isSome = true → compacts (n + 1) = true → io.compress.commits = true →
      io.compress.rewrites = true) (files : Files B) :
    ∃ res store files', storeUpdate cbor patch undo ⟨storage, v, n⟩ ⟨storage, v', n + 1⟩ files io =
      some (res, store, files') ∧ Remembers patch d n res store := by
  have hback (storage' : Option FileStorage) (files' : Files B) :=
    rollback_of_restores ⟨storage', v', n + 1⟩ hrestore hv' ⟨storage, v, n⟩ files' .io
  cases storage with
  | none => exact ⟨_, _, files, rfl, .advanced hempty hv' hrun rfl⟩
  | some storage =>
    simp only [storeUpdate]
    split
    · rename_i hcompacts
      have hcases : Compresses cbor ⟨some storage, v', n + 1⟩ files _ :=
        compress_cases rfl files io.compress
      have hflags := compress_committed cbor ⟨some storage, v', n + 1⟩ rfl files io.compress
      generalize compress cbor ⟨some storage, v', n + 1⟩ files io.compress = r at hcases hflags ⊢
      cases hcases with
      | uncommitted bakTmp =>
        obtain ⟨w, hw, hwf, hd⟩ := hback (some storage) { files with bakTmp }
        exact ⟨_, _, _, hw, .unchanged (by simp) hwf hd rfl⟩
      | failed storage' main =>
        have hrewrites := hsent rfl hcompacts hflags.1.symm
        rw [← hflags.1, hrewrites] at hflags
        exact absurd hflags.2 (by simp)
      | done bak backup => exact ⟨_, _, _, rfl, .advanced hempty hv' hrun rfl⟩
    · cases happend : append cbor patch storage files io.append with
      | mk b rest =>
        obtain ⟨storage', files'⟩ := rest
        cases b with
        | true => exact ⟨_, _, files', rfl, .advanced hempty hv' hrun rfl⟩
        | false =>
          obtain ⟨w, hw, hwf, hd⟩ := hback (some storage') files'
          exact ⟨_, _, _, hw, .unchanged (by simp) hwf hd rfl⟩

/-- An update that is sent when it stays in memory either advances the document or
leaves it. -/
theorem apply_remembers (cbor : Cbor B) (hwf : store.persistent.WellFormed)
    (hsteps : stepsUndoable store.persistent patch.ops = true)
    (hsent : staysUnsent store patch io = false) (files : Files B) :
    ∃ res store' files', apply cbor patch store files io = some (res, store', files') ∧
      Remembers patch store.persistent.denote store.revision res store' := by
  unfold apply
  split
  · exact ⟨_, _, _, rfl, .unchanged (by simp) hwf rfl rfl⟩
  · rename_i hempty
    rcases applyPatches_spec hwf patch.wellFormed hsteps (.nil _) with
      ⟨undo, v', hpatch, hv', hrun, hrestore⟩ | ⟨e, v', hpatch, hv', -, hd⟩
    · rw [JsonPatch.patch, hpatch]
      refine storeUpdate_remembers (by simpa using hempty) hrun hv' hrestore ?_ files
      intro hstorage hcompacts hcommits
      simpa [staysUnsent, hstorage, hempty, hcompacts, JsonPatch.patch, hpatch, hcommits]
        using hsent
    · rw [JsonPatch.patch, hpatch]
      exact ⟨_, _, _, rfl, .unchanged (by simp) hv' hd rfl⟩

/-- An update whose compaction fails after its commit changes the document and is
reported as failed. -/
theorem apply_staysUnsent (cbor : Cbor B) (hwf : store.persistent.WellFormed)
    (hsteps : stepsUndoable store.persistent patch.ops = true)
    (hsent : staysUnsent store patch io = true) (files : Files B) :
    ∃ store' files', apply cbor patch store files io = some (.error .io, store', files') ∧
      store'.revision = store.revision + 1 ∧
      runJson store.persistent.denote patch.ops = some store'.persistent.denote ∧
      store'.persistent.WellFormed := by
  simp only [staysUnsent, Bool.and_eq_true, Bool.not_eq_true', Option.isSome_iff_exists] at hsent
  obtain ⟨⟨⟨⟨⟨⟨storage, hstorage⟩, hempty⟩, hcompacts⟩, hpatch⟩, hcommits⟩, hrewrites⟩ := hsent
  rcases applyPatches_spec hwf patch.wellFormed hsteps (RestoresAll.nil _) with
    ⟨undo, v', hrun', hv', hrun, -⟩ | ⟨e, v', hrun', -⟩
  · obtain ⟨_, v, n⟩ := store
    obtain rfl : _ = some storage := hstorage
    have happly : apply cbor patch ⟨some storage, v, n⟩ files io =
        storeUpdate cbor patch undo ⟨some storage, v, n⟩ ⟨some storage, v', n + 1⟩ files io := by
      simp [apply, hempty, JsonPatch.patch, hrun']
    have hflags := compress_committed cbor ⟨some storage, v', n + 1⟩ rfl files io.compress
    obtain ⟨hpersistent, hrev⟩ := compress_memory cbor ⟨some storage, v', n + 1⟩ files
      io.compress
    rw [hcommits, hrewrites] at hflags
    rw [happly]
    simp only [storeUpdate, hcompacts, hflags.1, hflags.2]
    refine ⟨_, _, rfl, hrev, ?_⟩
    rw [hpersistent]
    exact ⟨hrun, hv'⟩
  · rw [JsonPatch.patch, hrun'] at hpatch
    cases hpatch

end StartTech.PatchDb

import StartTech.PatchDb.Store

/-!
# Accepted patches survive a restart

The log and the backup each stand for a document and a revision. As long as no
patch is appended to the log while a backup exists, what opening the store reads
is what the store had in memory, or that and one patch more whose update was
reported as failed.
-/

namespace StartTech.PatchDb

open Foundation ImblValue JsonPatch

/-- What a codec for the store's file owes: values come back equal, and patches
come back with the same effect. -/
structure Cbor.Lawful {B : Type} (cbor : Cbor B) : Prop where
  revision : cbor.revision.Lawful Eq
  value : cbor.value.Lawful fun v v' => v.WellFormed → v'.WellFormed ∧ v'.denote = v.denote
  patch : cbor.patch.Lawful fun p p' => ∀ d, runJson d p'.ops = runJson d p.ops

/-- The effect of patches that are applied in turn. -/
noncomputable def runPatches (d : Json) (ps : List DiffPatch) : Option Json :=
  ps.foldlM (fun d p => runJson d p.ops) d

theorem runPatches_concat (d : Json) (ps : List DiffPatch) (p : DiffPatch) :
    runPatches d (ps ++ [p]) = (runPatches d ps).bind fun d => runJson d p.ops := by
  simp [runPatches]

section Reading

variable {B : Type} {cbor : Cbor B} (hcbor : cbor.Lawful) {ps : List DiffPatch} {v : Value}
  {d : Json}

theorem replay_spec {ps' : List DiffPatch}
    (hsame : List.Forall₂ (fun p p' => ∀ d, runJson d p'.ops = runJson d p.ops) ps ps')
    (hv : v.WellFormed) (hrun : runPatches v.denote ps = some d) (logFailed : IoResult)
    (revision : Nat) :
    ∃ v', replay logFailed ps' v revision = some (.ok (v', revision + ps.length)) ∧
      v'.WellFormed ∧ v'.denote = d := by
  induction hsame generalizing v revision with
  | nil => exact ⟨v, rfl, hv, Option.some.inj hrun⟩
  | @cons p p' ps ps' hp _ ih =>
    obtain ⟨d₁, hstep, hrest⟩ := Option.bind_eq_some_iff.mp hrun
    obtain ⟨us, v₁, happly, hv₁, rfl⟩ := applyPatches_ok hv p'.wellFormed ((hp _).trans hstep) []
    obtain ⟨v', hreplay, hv', hd⟩ := ih hv₁ hrest (revision + 1)
    refine ⟨v', ?_, hv', hd⟩
    rw [replay, JsonPatch.patch, happly]
    simpa [Nat.add_comm, Nat.add_left_comm] using hreplay

theorem readHead_encode {α : Type} {c : Codec B α} {Same : α → α → Prop} (hc : c.Lawful Same)
    (default x : α) (rest : List B) :
    ∃ y, readHead c default (c.encode x ++ rest) = some (y, rest) ∧ Same x y := by
  have hne : (c.encode x ++ rest).isEmpty = false := by simp [hc.nonempty x]
  rw [readHead, hne]
  exact hc.inverse x rest

include hcbor in
/-- A log reads as its snapshot with its patches applied. -/
theorem load_spec {r : Nat} (hv : v.WellFormed) {tail : List B} (htail : cbor.patch.Torn tail)
    (hrun : runPatches v.denote ps = some d) (logFailed : IoResult) :
    ∃ v', load cbor (snapshot cbor r v ++ cbor.patch.encodeAll ps ++ tail) logFailed =
        some (.ok (v', r + ps.length)) ∧ v'.WellFormed ∧ v'.denote = d := by
  obtain ⟨r', hr, rfl⟩ := readHead_encode hcbor.revision 0 r
    (cbor.value.encode v ++ (cbor.patch.encodeAll ps ++ tail))
  obtain ⟨v', hread, hsame⟩ := readHead_encode hcbor.value .null v (cbor.patch.encodeAll ps ++ tail)
  obtain ⟨hv', hd⟩ := hsame hv
  rw [← hd] at hrun
  obtain ⟨v'', hreplay, hv'', hd'⟩ :=
    replay_spec (hcbor.patch.decodeAll_encodeAll ps htail) hv' hrun logFailed r
  refine ⟨v'', ?_, hv'', hd'⟩
  simp only [load, snapshot, List.append_assoc, hr, hread]
  exact hreplay

end Reading

section Writing

variable {B : Type} {cbor : Cbor B}

/-- A storage whose position and cursor are at the end of its file. -/
def FileStorage.atEnd (content : List B) : FileStorage where
  position := content.length
  fileCursor := content.length

theorem snapshotChunks_flatMap (store : Store) (a b : IoResult) :
    (snapshotChunks cbor store a b).flatMap Prod.fst =
      snapshot cbor store.revision store.persistent := by
  simp [snapshotChunks, snapshot]

/-- What a compaction of a store with storage can do. -/
inductive Compresses (cbor : Cbor B) (store : Store) (files : Files B) : Compression B → Prop
  | uncommitted (bakTmp : Option (List B)) :
      Compresses cbor store files
        { committed := false, ok := false, store, files := { files with bakTmp } }
  | failed (storage : FileStorage) (main : List B) :
      Compresses cbor store files
        { committed := true, ok := false, store := { store with storage := some storage },
          files := { main, bak := some (snapshot cbor store.revision store.persistent),
                     bakTmp := none } }
  | done (bak : Option (List B))
      (backup : bak = none ∨ bak = some (snapshot cbor store.revision store.persistent)) :
      Compresses cbor store files
        { committed := true, ok := true,
          store := { store with
            storage := some (.atEnd (snapshot cbor store.revision store.persistent)) },
          files := { main := snapshot cbor store.revision store.persistent, bak,
                     bakTmp := none } }

/-- What the steps of a compaction up to its commit can do. -/
theorem writeBackup_cases (cbor : Cbor B) (store : Store) (files : Files B) (io : CompressIo) :
    (∃ bakTmp, writeBackup cbor store files io = (false, { files with bakTmp })) ∨
      writeBackup cbor store files io =
        (true, { files with bak := some (snapshot cbor store.revision store.persistent),
                            bakTmp := none }) := by
  unfold writeBackup
  split
  · exact .inl ⟨files.bakTmp, rfl⟩
  · dsimp only
    split
    · exact .inl ⟨_, rfl⟩
    · rename_i hok
      simp only [Bool.not_eq_true', Bool.not_eq_false, Bool.and_eq_true] at hok
      rw [(FileIo.writeFlushSync_reached _ _ _).1 hok.1, snapshotChunks_flatMap]
      exact .inr rfl

variable {storage : FileStorage} {files : Files B}

theorem compress_cases {store : Store} (hstorage : store.storage = some storage) (files : Files B)
    (io : CompressIo) : Compresses cbor store files (compress cbor store files io) := by
  simp only [compress, hstorage]
  rcases writeBackup_cases cbor store files io with ⟨bakTmp, hback⟩ | hback
  · rw [hback]
    exact .uncommitted bakTmp
  · rw [hback]
    simp only [rewriteLog]
    split
    · exact .failed storage files.main
    · split
      · exact .failed storage []
      · split
        · exact .failed _ _
        · rename_i hok
          simp only [Bool.not_eq_true', Bool.not_eq_false, Bool.and_eq_true] at hok
          rw [(FileIo.writeFlushSync_reached _ _ _).1 hok.1, snapshotChunks_flatMap]
          apply Compresses.done
          cases io.removeBackup.isOk
          · exact .inr rfl
          · exact .inl rfl

/-- The file is a log, up to the cursor, and something behind it, of which the
position tells. -/
structure LogAt (storage : FileStorage) (files : Files B) (log tail : List B) : Prop where
  content : files.main = log ++ tail
  cursor : storage.fileCursor = log.length
  clean : storage.position = storage.fileCursor → tail = []

theorem logAt_atEnd (log : List B) (files : Files B) (h : files.main = log) :
    LogAt (.atEnd log) files log [] where
  content := by rw [h, List.append_nil]
  cursor := rfl
  clean _ := rfl

variable [Inhabited B] {log tail : List B}

theorem rewind_cases (h : LogAt storage files log tail) (io : AppendIo) :
    rewind storage files io = (true, .atEnd log, { files with main := log }) ∨
      ∃ tail', rewind storage files io = (false, storage, { files with main := log ++ tail' }) ∧
        LogAt storage { files with main := log ++ tail' } log tail' ∧
        (tail' = tail ∨ tail' = []) := by
  obtain ⟨position, fileCursor⟩ := storage
  obtain ⟨hcontent, hcursor, hclean⟩ := h
  dsimp only at hcursor hclean
  have hsame : ({ files with main := log ++ tail } : Files B) = files := by rw [← hcontent]
  have hstay : LogAt ⟨position, fileCursor⟩ files log tail := ⟨hcontent, hcursor, hclean⟩
  unfold rewind
  dsimp only
  split
  · exact .inr ⟨tail, by rw [hsame], hsame ▸ hstay, .inl rfl⟩
  · split
    · rename_i heq
      have hmain : files.main = log := by rw [hcontent, hclean heq, List.append_nil]
      refine .inl ?_
      rw [heq, hcursor, ← hmain]
      rfl
    · rename_i hne
      split
      · exact .inr ⟨tail, by rw [hsame], hsame ▸ hstay, .inl rfl⟩
      · have hcut : FileIo.setLen files.main fileCursor = log := by
          simp [hcontent, hcursor, FileIo.setLen]
        rw [hcut]
        split
        · refine .inr ⟨[], by rw [List.append_nil], ⟨rfl, hcursor, ?_⟩, .inr rfl⟩
          intro heq
          exact absurd heq hne
        · exact .inl (by rw [hcursor]; rfl)

/-- Appending adds a whole frame, or leaves at most a part of one behind the log. -/
theorem append_cases (patch : DiffPatch) (h : LogAt storage files log tail) (io : AppendIo) :
    append cbor patch storage files io = (true, .atEnd (log ++ cbor.patch.encode patch),
          { files with main := log ++ cbor.patch.encode patch }) ∨
      ∃ storage' tail', append cbor patch storage files io =
          (false, storage', { files with main := log ++ tail' }) ∧
        LogAt storage' { files with main := log ++ tail' } log tail' ∧
        (tail' = tail ∨ ∃ k, tail' = (cbor.patch.encode patch).take k) := by
  unfold append
  rcases rewind_cases h io with hrewind | ⟨tail', hrewind, hlog, htail⟩
  · rw [hrewind]
    obtain ⟨hall, k, hk⟩ :=
      FileIo.writeFlushSync_reached [(cbor.patch.encode patch, io.write)] io.flush io.sync
    simp only [List.flatMap_cons, List.flatMap_nil, List.append_nil] at hall hk
    simp only [FileStorage.atEnd, FileIo.writeAt_end]
    split
    · refine .inr ⟨_, _, rfl, ⟨rfl, rfl, ?_⟩, .inr ⟨k, hk⟩⟩
      intro heq
      apply List.eq_nil_of_length_eq_zero
      dsimp only at heq
      omega
    · rename_i hok
      refine .inl ?_
      rw [hall (by simpa using hok), List.length_append]
  · rw [hrewind]
    refine .inr ⟨storage, tail', rfl, hlog, ?_⟩
    rcases htail with htail | htail
    · exact .inl htail
    · exact .inr ⟨0, by rw [htail, List.take_zero]⟩

theorem rewind_bak (storage : FileStorage) (files : Files B) (io : AppendIo) :
    (rewind storage files io).2.2.bak = files.bak := by
  unfold rewind
  split
  · rfl
  · split
    · rfl
    · split
      · rfl
      · split <;> rfl

theorem append_bak {patch : DiffPatch} {storage' : FileStorage} {files' : Files B} {io : AppendIo}
    {b : Bool} (h : append cbor patch storage files io = (b, storage', files')) :
    files'.bak = files.bak := by
  have hbak : (append cbor patch storage files io).2.2.bak = files.bak := by
    rw [← rewind_bak storage files io]
    unfold append
    split
    · rename_i hrewind
      rw [hrewind]
    · rename_i hrewind
      rw [hrewind]
      dsimp only
      split <;> rfl
  rwa [h] at hbak

/-- Whether the calls that an append makes all succeed. -/
def AppendIo.succeeds (io : AppendIo) (storage : FileStorage) : Bool :=
  io.streamPosition.isOk &&
    (storage.position == storage.fileCursor || (io.setLen.isOk && io.seek.isOk)) &&
    (io.write.isOk && io.flush.isOk && io.sync.isOk)

theorem append_ok (cbor : Cbor B) (patch : DiffPatch) (storage : FileStorage) (files : Files B)
    (io : AppendIo) :
    (append cbor patch storage files io).1 = io.succeeds storage := by
  have hrewind : (rewind storage files io).1 = (io.streamPosition.isOk &&
      (storage.position == storage.fileCursor || (io.setLen.isOk && io.seek.isOk))) := by
    unfold rewind
    cases io.streamPosition.isOk <;> cases io.setLen.isOk <;> cases io.seek.isOk <;>
      by_cases h : storage.position = storage.fileCursor <;> simp [h]
  have hwrite : (FileIo.writeFlushSync [(cbor.patch.encode patch, io.write)] io.flush io.sync).1 =
      (io.write.isOk && io.flush.isOk && io.sync.isOk) := by
    cases io.write <;> cases io.flush <;>
      simp [FileIo.writeFlushSync, FileIo.writeChunks, IoResult.isOk]
  rw [AppendIo.succeeds, ← hrewind, ← hwrite]
  unfold append
  split
  · rename_i h
    rw [h]
    rfl
  · rename_i h
    rw [h]
    dsimp only
    split
    · rename_i hfail
      simpa using hfail
    · rename_i hok
      simpa using hok

end Writing

/-- What may stand behind the log: nothing that can be read, or the patch of a later
update that was reported as failed. -/
def Leftover {B : Type} (cbor : Cbor B) (d : Json) (late : DiffPatch → Prop)
    (tail : List B) : Prop :=
  cbor.patch.Torn tail ∨
    ∃ p, tail = cbor.patch.encode p ∧ late p ∧ ∃ d', runJson d p.ops = some d'

variable {B : Type} {cbor : Cbor B} {d : Json} {late : DiffPatch → Prop}

theorem Leftover.mono {late' : DiffPatch → Prop} {tail : List B} (h : Leftover cbor d late tail)
    (himp : ∀ p, late p → late' p) : Leftover cbor d late' tail := by
  rcases h with htorn | ⟨p, htail, hp, hrun⟩
  · exact .inl htorn
  · exact .inr ⟨p, htail, himp p hp, hrun⟩

/-- The log stands for a document and its revision. -/
structure LogHolds {B : Type} (cbor : Cbor B) (d : Json) (n : Nat) (late : DiffPatch → Prop)
    (storage : FileStorage) (files : Files B) (r : Nat) (v : Value) (ps : List DiffPatch)
    (tail : List B) : Prop where
  content : LogAt storage files (snapshot cbor r v ++ cbor.patch.encodeAll ps) tail
  wellFormed : v.WellFormed
  revision : n = r + ps.length
  document : runPatches v.denote ps = some d
  leftover : Leftover cbor d late tail

/-- The files hold everything that was accepted since the document `d₀` of revision
`r₀` became the document `d` of revision `n`; a backup, if there is one, is the
latter. -/
structure Holds {B : Type} (cbor : Cbor B) (d₀ : Json) (r₀ : Nat)
    (attempted accepted kept : List DiffPatch) (d : Json) (n : Nat) (storage : FileStorage)
    (files : Files B) : Prop where
  accepted_kept : accepted.Sublist kept
  kept_attempted : kept.Sublist attempted
  document : runPatches d₀ kept = some d
  revision : n = r₀ + kept.length
  backup : ∀ image, files.bak = some image →
    ∃ v : Value, image = snapshot cbor n v ∧ v.WellFormed ∧ v.denote = d
  log : files.bak = none → ∃ r v ps tail,
    LogHolds cbor d n (fun p => (kept ++ [p]).Sublist attempted) storage files r v ps tail

section Steps

variable {B : Type} {cbor : Cbor B} {d₀ d d' : Json} {r₀ n : Nat}
  {attempted accepted kept : List DiffPatch} {storage storage' : FileStorage}
  {files files' : Files B} {patch : DiffPatch}

variable {v : Value} {io : AppendIo}

/-- A fresh snapshot holds the state it was taken of, with or without its backup. -/
theorem holds_snapshot (hcbor : cbor.Lawful) (hv : v.WellFormed) (haccepted : accepted.Sublist kept)
    (hkept : kept.Sublist attempted) (hdoc : runPatches d₀ kept = some v.denote)
    (hrev : n = r₀ + kept.length) {bak : Option (List B)}
    (hbak : bak = none ∨ bak = some (snapshot cbor n v)) :
    Holds cbor d₀ r₀ attempted accepted kept v.denote n (.atEnd (snapshot cbor n v))
      { main := snapshot cbor n v, bak, bakTmp := none } where
  accepted_kept := haccepted
  kept_attempted := hkept
  document := hdoc
  revision := hrev
  backup := by
    rintro image himage
    rcases hbak with rfl | rfl
    · cases himage
    · cases himage
      exact ⟨v, rfl, hv, rfl⟩
  log _ := by
    refine ⟨n, v, [], [], ⟨?_, hv, rfl, rfl, .inl (hcbor.patch.torn_nil default)⟩⟩
    simpa using logAt_atEnd (snapshot cbor n v) _ rfl

section

variable (h : Holds cbor d₀ r₀ attempted accepted kept d n storage files)
include h

/-- An update that leaves document, log and backup alone. -/
theorem Holds.idle (patch : DiffPatch) (bakTmp : Option (List B)) :
    Holds cbor d₀ r₀ (attempted ++ [patch]) accepted kept d n storage { files with bakTmp } where
  accepted_kept := h.accepted_kept
  kept_attempted := h.kept_attempted.trans (List.sublist_append_left _ _)
  document := h.document
  revision := h.revision
  backup := h.backup
  log hbak := by
    obtain ⟨r, v, ps, tail, hlog⟩ := h.log hbak
    refine ⟨r, v, ps, tail, ⟨?_, hlog.wellFormed, hlog.revision, hlog.document, ?_⟩⟩
    · exact ⟨hlog.content.content, hlog.content.cursor, hlog.content.clean⟩
    · exact hlog.leftover.mono fun p hp => hp.trans (List.sublist_append_left _ _)

end

/-- A tentative update that cannot be stored is taken back. -/
theorem rollback_of_restores {undo : Undo} (updated : Store)
    (hrestore : RestoresAll undo d updated.persistent.denote)
    (hwf : updated.persistent.WellFormed) (before : Store) (files : Files B) (e : StoreError) :
    ∃ w : Value, rollback undo before updated files e =
        some (.error e, { updated with persistent := w, revision := before.revision }, files) ∧
      w.WellFormed ∧ w.denote = d := by
  obtain ⟨w, hundo, hw, hd⟩ := hrestore updated.persistent hwf rfl
  exact ⟨w, by rw [rollback, hundo]; rfl, hw, hd⟩

/-- The patch of an update that returned a revision. -/
def acceptedBy (patch : DiffPatch) : Except StoreError (Option Revision) → List DiffPatch
  | .ok (some _) => [patch]
  | _ => []

/-- An update does not panic, and afterwards the files hold what was accepted. -/
def Continues (cbor : Cbor B) (d₀ : Json) (r₀ : Nat) (attempted accepted : List DiffPatch)
    (patch : DiffPatch) (out : Option (Except StoreError (Option Revision) × Store × Files B)) :
    Prop :=
  ∃ res storage v n files kept, out = some (res, ⟨some storage, v, n⟩, files) ∧ v.WellFormed ∧
    Holds cbor d₀ r₀ (attempted ++ [patch]) (accepted ++ acceptedBy patch res) kept v.denote n
      storage files

variable [Inhabited B]

/-- An append that fails leaves the log as it was. -/
theorem Holds.appendFailed (hcbor : cbor.Lawful)
    (h : Holds cbor d₀ r₀ attempted accepted kept d n storage files)
    (hrun : runJson d patch.ops = some d')
    (happend : append cbor patch storage files io = (false, storage', files')) :
    Holds cbor d₀ r₀ (attempted ++ [patch]) accepted kept d n storage' files' := by
  have hbak := append_bak happend
  refine ⟨h.accepted_kept, h.kept_attempted.trans (List.sublist_append_left _ _), h.document,
    h.revision, fun image himage => h.backup image (hbak ▸ himage), fun hnone => ?_⟩
  obtain ⟨r, v, ps, tail, hlog⟩ := h.log (hbak ▸ hnone)
  have hold : Leftover cbor d (fun p => (kept ++ [p]).Sublist (attempted ++ [patch])) tail :=
    hlog.leftover.mono fun p hp => hp.trans (List.sublist_append_left _ _)
  rcases append_cases patch hlog.content io with hok | ⟨st, tail', hfail, hcontent, htail⟩
  · rw [hok] at happend
    cases happend
  · rw [hfail] at happend
    cases happend
    refine ⟨r, v, ps, tail', ⟨hcontent, hlog.wellFormed, hlog.revision, hlog.document, ?_⟩⟩
    rcases htail with rfl | ⟨k, rfl⟩
    · exact hold
    · rcases Nat.lt_or_ge k (cbor.patch.encode patch).length with hlt | hge
      · exact .inl (hcbor.patch.torn_take hlt)
      · exact .inr ⟨patch, List.take_of_length_le hge,
          h.kept_attempted.append (.refl _), _, hrun⟩

/-- An append that succeeds while there is no backup extends the log. -/
theorem Holds.appended (hcbor : cbor.Lawful)
    (h : Holds cbor d₀ r₀ attempted accepted kept d n storage files) (hnone : files.bak = none)
    (hrun : runJson d patch.ops = some d')
    (happend : append cbor patch storage files io = (true, storage', files')) :
    Holds cbor d₀ r₀ (attempted ++ [patch]) (accepted ++ [patch]) (kept ++ [patch]) d' (n + 1)
      storage' files' := by
  have hbak := append_bak happend
  refine ⟨h.accepted_kept.append (.refl _),
    h.kept_attempted.append (.refl _), ?_, ?_, ?_, fun _ => ?_⟩
  · rw [runPatches_concat, h.document, Option.bind_some, hrun]
  · simp [h.revision, Nat.add_assoc]
  · intro image himage
    rw [hbak, hnone] at himage
    cases himage
  · obtain ⟨r, v, ps, tail, hlog⟩ := h.log hnone
    rcases append_cases patch hlog.content io with hok | ⟨st, tail', hfail, -⟩
    · rw [hok] at happend
      cases happend
      refine ⟨r, v, ps ++ [patch], [], ⟨?_, hlog.wellFormed, ?_, ?_, ?_⟩⟩
      · rw [Codec.encodeAll_concat, ← List.append_assoc]
        exact logAt_atEnd _ _ rfl
      · simp [hlog.revision, Nat.add_assoc]
      · rw [runPatches_concat, hlog.document, Option.bind_some, hrun]
      · exact .inl (hcbor.patch.torn_nil patch)
    · rw [hfail] at happend
      cases happend

/-- The update is appended to the log although a backup exists, and is reported as
stored. -/
def losesUpdate (store : Store) (files : Files B) (patch : DiffPatch) (io : ApplyIo) : Bool :=
  files.bak.isSome && !patch.isEmpty && !compacts (store.revision + 1) &&
    (match JsonPatch.patch store.persistent patch.ops with
      | some (.ok _, _) => true
      | _ => false) &&
    match store.storage with
    | some storage => io.append.succeeds storage
    | none => false

/-- A failed update can be taken back, and an update is not lost. -/
def stepSafe (store : Store) (files : Files B) (patch : DiffPatch) (io : ApplyIo) : Bool :=
  stepsUndoable store.persistent patch.ops && !losesUpdate store files patch io

section Update

variable {v v' : Value} {undo : Undo} {io : ApplyIo} (hcbor : cbor.Lawful)
  (h : Holds cbor d₀ r₀ attempted accepted kept d n storage files)
  (hrun : runJson d patch.ops = some v'.denote) (hv' : v'.WellFormed)
  (hrestore : RestoresAll undo d v'.denote)

include hcbor h hrun hv' hrestore

theorem storeUpdate_compacts (hcompacts : compacts (n + 1) = true) :
    Continues cbor d₀ r₀ attempted accepted patch
      (storeUpdate cbor patch undo ⟨some storage, v, n⟩ ⟨some storage, v', n + 1⟩ files io) := by
  simp only [storeUpdate, hcompacts]
  have hcases : Compresses cbor ⟨some storage, v', n + 1⟩ files _ :=
    compress_cases rfl files io.compress
  generalize compress cbor ⟨some storage, v', n + 1⟩ files io.compress = r at hcases ⊢
  cases hcases with
  | uncommitted bakTmp =>
    obtain ⟨w, hback, hw, hd⟩ := rollback_of_restores ⟨some storage, v', n + 1⟩
      hrestore hv' ⟨some storage, v, n⟩ { files with bakTmp } .io
    refine ⟨_, storage, w, n, { files with bakTmp }, kept, hback, hw, ?_⟩
    rw [hd]
    simpa [acceptedBy] using h.idle patch bakTmp
  | failed storage' main =>
    refine ⟨.error .io, storage', v', n + 1, _, kept ++ [patch], rfl, hv', ?_⟩
    refine ⟨?_, h.kept_attempted.append (.refl _), ?_, ?_, ?_, fun hbak => by cases hbak⟩
    -- The compaction failed after its commit, and the update is in the backup.
    · simpa [acceptedBy] using h.accepted_kept.trans (List.sublist_append_left _ _)
    · rw [runPatches_concat, h.document, Option.bind_some, hrun]
    · simp [h.revision, Nat.add_assoc]
    · rintro image himage
      cases himage
      exact ⟨v', rfl, hv', rfl⟩
  | done bak backup =>
    refine ⟨_, _, v', n + 1, _, kept ++ [patch], rfl, hv', ?_⟩
    apply holds_snapshot hcbor hv' _ _ _ _ backup
    · exact h.accepted_kept.append (.refl _)
    · exact h.kept_attempted.append (.refl _)
    · rw [runPatches_concat, h.document, Option.bind_some, hrun]
    · simp [h.revision, Nat.add_assoc]

theorem storeUpdate_appends (hcompacts : compacts (n + 1) = false)
    (hbak : io.append.succeeds storage = true → files.bak = none) :
    Continues cbor d₀ r₀ attempted accepted patch
      (storeUpdate cbor patch undo ⟨some storage, v, n⟩ ⟨some storage, v', n + 1⟩ files io) := by
  have hok := append_ok cbor patch storage files io.append
  simp only [storeUpdate, hcompacts]
  cases happend : append cbor patch storage files io.append with
  | mk b rest =>
    obtain ⟨storage', files'⟩ := rest
    rw [happend] at hok
    cases b with
    | true =>
      refine ⟨_, storage', v', n + 1, files', kept ++ [patch], rfl, hv', ?_⟩
      exact h.appended hcbor (hbak hok.symm) hrun happend
    | false =>
      obtain ⟨w, hback, hw, hd⟩ := rollback_of_restores ⟨some storage', v', n + 1⟩
        hrestore hv' ⟨some storage, v, n⟩ files' .io
      refine ⟨_, storage', w, n, files', kept, hback, hw, ?_⟩
      rw [hd]
      simpa [acceptedBy] using h.appendFailed hcbor hrun happend

end Update

/-- A safe step does not panic and keeps the files in step. -/
theorem apply_continues (hcbor : cbor.Lawful) (hv : v.WellFormed)
    (h : Holds cbor d₀ r₀ attempted accepted kept v.denote n storage files) {io : ApplyIo}
    (hsafe : stepSafe ⟨some storage, v, n⟩ files patch io = true) :
    Continues cbor d₀ r₀ attempted accepted patch
      (apply cbor patch ⟨some storage, v, n⟩ files io) := by
  simp only [stepSafe, Bool.and_eq_true] at hsafe
  obtain ⟨hundoable, hkeeps⟩ := hsafe
  unfold apply
  split
  · refine ⟨.ok none, storage, v, n, files, kept, rfl, hv, ?_⟩
    simpa [acceptedBy] using h.idle patch files.bakTmp
  · rename_i hempty
    rcases applyPatches_spec hv patch.wellFormed hundoable (.nil v.denote) with
      ⟨undo, v', hpatch, hv', hrun, hrestore⟩ | ⟨e, v', hpatch, hv', -, hd⟩
    · rw [JsonPatch.patch, hpatch]
      cases hcompacts : compacts (n + 1) with
      | true => exact storeUpdate_compacts hcbor h hrun hv' hrestore hcompacts
      | false =>
        refine storeUpdate_appends hcbor h hrun hv' hrestore hcompacts fun happend => ?_
        simpa [losesUpdate, hempty, hcompacts, JsonPatch.patch, hpatch, happend] using hkeeps
    · rw [JsonPatch.patch, hpatch]
      refine ⟨.error (.patch e), storage, v', n, files, kept, rfl, hv', ?_⟩
      rw [hd]
      simpa [acceptedBy] using h.idle patch files.bakTmp

end Steps

end StartTech.PatchDb

import StartTech.PatchDb.Durability

/-!
# Opening a store again

Opening reads the backup if there is one and the log otherwise, so it finds what
the files hold. A patch that was appended while a backup existed is not found.
-/

namespace StartTech.PatchDb

open Foundation ImblValue

section Reading

variable {B : Type} {cbor : Cbor B} {d₀ d : Json} {r₀ n : Nat}
  {attempted accepted kept : List DiffPatch} {storage : FileStorage} {files files' : Files B}
  {v : Value} {io : OpenIo} {store : Store}

/-- What the files say once a backup is back in its place. -/
def Reads (cbor : Cbor B) (files : Files B) (d : Json) (n : Nat) : Prop :=
  ∀ io files', recover files io = (true, files') → ∀ logFailed, ∃ v : Value,
    load cbor files'.main logFailed = some (.ok (v, n)) ∧ v.WellFormed ∧ v.denote = d

theorem reads_of_backup (hcbor : cbor.Lawful) (hv : v.WellFormed)
    (hbak : files.bak = some (snapshot cbor n v)) : Reads cbor files v.denote n := by
  intro io files' hrecover logFailed
  simp only [recover, hbak] at hrecover
  split at hrecover
  · cases hrecover
    have hrun : runPatches v.denote [] = some v.denote := rfl
    have htail := hcbor.patch.torn_nil default
    simpa using load_spec hcbor hv htail hrun logFailed
  · cases hrecover

theorem reads_of_log (hcbor : cbor.Lawful) {r : Nat} (hv : v.WellFormed) {ps : List DiffPatch}
    {tail : List B} (htail : cbor.patch.Torn tail) (hrun : runPatches v.denote ps = some d)
    (hbak : files.bak = none)
    (hmain : files.main = snapshot cbor r v ++ cbor.patch.encodeAll ps ++ tail) :
    Reads cbor files d (r + ps.length) := by
  intro io files' hrecover logFailed
  simp only [recover, hbak] at hrecover
  cases hrecover
  rw [hmain]
  exact load_spec hcbor hv htail hrun logFailed

/-- The files are read as what they hold, or with one late patch more. -/
theorem Holds.reads (hcbor : cbor.Lawful)
    (h : Holds cbor d₀ r₀ attempted accepted kept d n storage files) :
    ∃ kept' d', accepted.Sublist kept' ∧ kept'.Sublist attempted ∧
      runPatches d₀ kept' = some d' ∧ Reads cbor files d' (r₀ + kept'.length) := by
  cases hbak : files.bak with
  | some image =>
    obtain ⟨v, rfl, hv, rfl⟩ := h.backup image hbak
    refine ⟨kept, v.denote, h.accepted_kept, h.kept_attempted, h.document, ?_⟩
    rw [← h.revision]
    exact reads_of_backup hcbor hv hbak
  | none =>
    obtain ⟨r, v, ps, tail, hlog⟩ := h.log hbak
    rcases hlog.leftover with htorn | ⟨p, rfl, hlate, d', hrun⟩
    · refine ⟨kept, d, h.accepted_kept, h.kept_attempted, h.document, ?_⟩
      rw [← h.revision, hlog.revision]
      exact reads_of_log hcbor hlog.wellFormed htorn hlog.document hbak hlog.content.content
    · have hsub := h.accepted_kept.trans (List.sublist_append_left kept [p])
      refine ⟨kept ++ [p], d', hsub, hlate, ?_, ?_⟩
      · rw [runPatches_concat, h.document, Option.bind_some, hrun]
      · have hlen : r₀ + (kept ++ [p]).length = r + (ps ++ [p]).length := by
          have hsame := h.revision.symm.trans hlog.revision
          simp only [List.length_append]
          omega
        rw [hlen]
        apply reads_of_log hcbor hlog.wellFormed (hcbor.patch.torn_nil p) _ hbak
        · rw [hlog.content.content, Codec.encodeAll_concat]
          simp
        · rw [runPatches_concat, hlog.document, Option.bind_some, hrun]

/-- What opening a store leaves when it succeeds. -/
theorem openStore_ok (h : openStore cbor files io = some (.ok store, files')) :
    ∃ files'' v n bak, recover files io = (true, files'') ∧
      load cbor files''.main io.logFailed = some (.ok (v, n)) ∧
      store = ⟨some (.atEnd (snapshot cbor n v)), v, n⟩ ∧
      files' = { main := snapshot cbor n v, bak, bakTmp := none } ∧
      (bak = none ∨ bak = some (snapshot cbor n v)) := by
  unfold openStore at h
  split at h
  · cases h
  · rename_i files'' hrecover
    split at h
    · cases h
    · cases h
    · rename_i v n hload
      dsimp only at h
      have hcases : Compresses cbor
          ⟨some { position := files''.main.length, fileCursor := files''.main.length }, v, n⟩
          files'' _ := compress_cases rfl files'' io.compress
      generalize compress cbor _ files'' io.compress = r at hcases h
      cases hcases with
      | uncommitted bakTmp | failed storage main => cases h
      | done bak backup =>
        cases h
        exact ⟨files'', v, n, bak, hrecover, hload, rfl, rfl, backup⟩

/-- Results of calls that all succeed. -/
def CompressIo.allOk : CompressIo :=
  ⟨.ok, .ok, .ok, .ok, .ok, .ok, .ok, .ok, .ok, .ok, .ok, .ok, .ok, .ok⟩

def AppendIo.allOk : AppendIo := ⟨.ok, .ok, .ok, .ok, .ok, .ok⟩

def ApplyIo.allOk : ApplyIo := ⟨.allOk, .allOk⟩

def OpenIo.allOk : OpenIo := ⟨.ok, .ok, .allOk⟩

theorem compress_allOk (store : Store) (files : Files B) :
    (compress cbor store files .allOk).ok = true := by
  cases hstorage : store.storage <;>
    simp [compress, hstorage, writeBackup, rewriteLog, CompressIo.allOk, IoResult.isOk,
      FileIo.writeFlushSync, FileIo.writeChunks, snapshotChunks]

/-- Whenever the store can be opened it has the document and revision, and it can be
opened when no call fails. -/
structure Reopens (cbor : Cbor B) (files : Files B) (d : Json) (n : Nat) : Prop where
  state : ∀ io store files', openStore cbor files io = some (.ok store, files') →
    store.persistent.denote = d ∧ store.revision = n
  opens : ∃ store files', openStore cbor files .allOk = some (.ok store, files')

theorem Reads.reopens (h : Reads cbor files d n) : Reopens cbor files d n where
  state io store files' hopen := by
    obtain ⟨files'', v, n', bak, hrecover, hload, rfl, -, -⟩ := openStore_ok hopen
    obtain ⟨w, hw, -, hd⟩ := h io files'' hrecover io.logFailed
    rw [hw] at hload
    cases hload
    exact ⟨hd, rfl⟩
  opens := by
    have hrecover : ∃ files', recover files .allOk = (true, files') := by
      unfold recover
      split
      · exact ⟨_, rfl⟩
      · exact ⟨_, rfl⟩
    obtain ⟨files', hrecover⟩ := hrecover
    obtain ⟨v, hload, -⟩ := h _ files' hrecover OpenIo.allOk.logFailed
    let r := compress cbor ⟨some (.atEnd files'.main), v, n⟩ files' .allOk
    refine ⟨r.store, r.files, ?_⟩
    simp only [openStore, hrecover, hload]
    exact if_pos (compress_allOk _ _)

end Reading

section Runs

variable {B : Type} [Inhabited B] (cbor : Cbor B)

/-- Apply patches one after the other, collecting those that were accepted. -/
def applyAll : List (DiffPatch × ApplyIo) → Store → Files B →
    Option (List DiffPatch × Store × Files B)
  | [], store, files => some ([], store, files)
  | (patch, io) :: rest, store, files =>
    match apply cbor patch store files io with
    | none => none
    | some (res, store, files) =>
      (applyAll rest store files).map fun r => (acceptedBy patch res ++ r.1, r.2)

/-- Every step of a run is safe where it is taken. -/
def runSafe : List (DiffPatch × ApplyIo) → Store → Files B → Bool
  | [], _, _ => true
  | (patch, io) :: rest, store, files =>
    stepSafe store files patch io &&
      match apply cbor patch store files io with
      | none => true
      | some (_, store, files) => runSafe rest store files

variable {cbor} {d₀ : Json} {r₀ n : Nat} {attempted accepted kept : List DiffPatch}
  {storage : FileStorage} {files : Files B} {v : Value}

/-- A safe run does not panic, and the files hold what was accepted all along. -/
theorem applyAll_holds (hcbor : cbor.Lawful) (steps : List (DiffPatch × ApplyIo))
    (hv : v.WellFormed) (h : Holds cbor d₀ r₀ attempted accepted kept v.denote n storage files)
    (hsafe : runSafe cbor steps ⟨some storage, v, n⟩ files = true) :
    ∃ new storage' v' n' files' kept', applyAll cbor steps ⟨some storage, v, n⟩ files =
        some (new, ⟨some storage', v', n'⟩, files') ∧ v'.WellFormed ∧
      Holds cbor d₀ r₀ (attempted ++ steps.map Prod.fst) (accepted ++ new) kept' v'.denote n'
        storage' files' := by
  induction steps generalizing v n storage files attempted accepted kept with
  | nil => exact ⟨[], storage, v, n, files, kept, rfl, hv, by simpa using h⟩
  | cons step rest ih =>
    obtain ⟨patch, io⟩ := step
    simp only [runSafe, Bool.and_eq_true] at hsafe
    obtain ⟨res, storage₁, v₁, n₁, files₁, kept₁, happly, hv₁, h₁⟩ :=
      apply_continues hcbor hv h hsafe.1
    rw [happly] at hsafe
    obtain ⟨new, storage', v', n', files', kept', hrun, hv', h'⟩ := ih hv₁ h₁ hsafe.2
    refine ⟨acceptedBy patch res ++ new, storage', v', n', files', kept', ?_, hv', ?_⟩
    · simp [applyAll, happly, hrun]
    · simpa [List.append_assoc] using h'

/-- An update appended while a backup exists is reported as stored, and is gone when
the store is opened again. -/
theorem update_lost (hcbor : cbor.Lawful)
    (h : Holds cbor d₀ r₀ attempted accepted kept v.denote n storage files) {patch : DiffPatch}
    {io : ApplyIo} (hloses : losesUpdate ⟨some storage, v, n⟩ files patch io = true) :
    ∃ revision store' files', apply cbor patch ⟨some storage, v, n⟩ files io =
        some (.ok (some revision), store', files') ∧ store'.revision = n + 1 ∧
      Reopens cbor files' v.denote n := by
  simp only [losesUpdate, Bool.and_eq_true, Option.isSome_iff_exists, Bool.not_eq_true'] at hloses
  obtain ⟨⟨⟨⟨⟨image, hbak⟩, hempty⟩, hcompacts⟩, hpatch⟩, hsucceeds⟩ := hloses
  split at hpatch
  · rename_i undo v' hrun
    cases happend : append cbor patch storage files io.append with
    | mk b rest =>
      obtain ⟨storage', files'⟩ := rest
      have hok := append_ok cbor patch storage files io.append
      rw [happend, hsucceeds] at hok
      obtain rfl : b = true := hok
      refine ⟨⟨n + 1, patch⟩, ⟨some storage', v', n + 1⟩, files', ?_, rfl, ?_⟩
      · simp [apply, hempty, hrun, storeUpdate, hcompacts, happend]
      · obtain ⟨w, himage, hw, hd⟩ := h.backup image hbak
        rw [← hd]
        apply Reads.reopens
        apply reads_of_backup hcbor hw
        rw [append_bak happend, hbak, himage]
  · cases hpatch

end Runs

/-- For every store that has been opened and every run of updates that is safe at each
step: no rollback panics, and a store opened on the files afterwards has exactly
some of the attempted patches applied, in order, with every accepted one among
them. A next update that is not safe because it would be lost is lost: it is
accepted, and opening gives the state before it. -/
theorem reopened_has_accepted {B : Type} [Inhabited B] (cbor : Cbor B) (hcbor : cbor.Lawful)
    (files₀ files : Files B) (io₀ : OpenIo) (store : Store)
    (hopen : openStore cbor files₀ io₀ = some (.ok store, files))
    (hwf : store.persistent.WellFormed) (steps : List (DiffPatch × ApplyIo))
    (hsafe : runSafe cbor steps store files = true) :
    ∃ accepted store' files', applyAll cbor steps store files = some (accepted, store', files') ∧
      (∃ kept d, accepted.Sublist kept ∧ kept.Sublist (steps.map Prod.fst) ∧
        runPatches store.persistent.denote kept = some d ∧
        Reopens cbor files' d (store.revision + kept.length)) ∧
      ∀ patch io, losesUpdate store' files' patch io = true →
        ∃ revision store'' files'', apply cbor patch store' files' io =
            some (.ok (some revision), store'', files'') ∧
          store''.revision = store'.revision + 1 ∧
          Reopens cbor files'' store'.persistent.denote store'.revision := by
  obtain ⟨files'', v, n, bak, -, -, rfl, rfl, hbak⟩ := openStore_ok hopen
  have hholds : Holds cbor v.denote n [] [] [] v.denote n _ _ :=
    holds_snapshot hcbor hwf (.refl _) (.refl _) rfl rfl hbak
  obtain ⟨accepted, storage', v', n', files', kept, hrun, -, h⟩ :=
    applyAll_holds hcbor steps hwf hholds hsafe
  refine ⟨accepted, _, files', hrun, ?_, ?_⟩
  · obtain ⟨kept', d, haccepted, hkept, hdoc, hreads⟩ := h.reads hcbor
    exact ⟨kept', d, by simpa using haccepted, by simpa using hkept, hdoc, hreads.reopens⟩
  · intro patch io hloses
    exact update_lost hcbor h hloses

/-- A symbol for each revision, document and patch. -/
inductive Token
  | revision (n : Nat)
  | value (v : Value)
  | patch (p : DiffPatch)

instance : Inhabited Token where
  default := .revision 0

/-- A codec that spends one symbol on each frame. -/
def tokenCbor : Cbor Token where
  revision :=
    { encode := fun n => [.revision n]
      decode := fun
        | .revision n :: rest => some (n, rest)
        | _ => none }
  value :=
    { encode := fun v => [.value v]
      decode := fun
        | .value v :: rest => some (v, rest)
        | _ => none }
  patch :=
    { encode := fun p => [.patch p]
      decode := fun
        | .patch p :: rest => some (p, rest)
        | _ => none }

theorem tokenCbor_lawful : tokenCbor.Lawful where
  revision :=
    { inverse := fun n rest => ⟨n, rfl, rfl⟩
      truncated := fun n k hk => by
        obtain rfl : k = 0 := Nat.lt_one_iff.mp hk
        rfl
      nonempty := fun n => List.cons_ne_nil _ _ }
  value :=
    { inverse := fun v rest => ⟨v, rfl, fun hv => ⟨hv, rfl⟩⟩
      truncated := fun v k hk => by
        obtain rfl : k = 0 := Nat.lt_one_iff.mp hk
        rfl
      nonempty := fun v => List.cons_ne_nil _ _ }
  patch :=
    { inverse := fun p rest => ⟨p, rfl, fun _ => rfl⟩
      truncated := fun p k hk => by
        obtain rfl : k = 0 := Nat.lt_one_iff.mp hk
        rfl
      nonempty := fun p => List.cons_ne_nil _ _ }

/-- The patch that makes the document `true`. -/
def setTrue : DiffPatch where
  ops := [.add [] (.bool true)]
  diffs := by simp [isDiffOperation]
  wellFormed op hop := by
    rw [List.mem_singleton.mp hop]
    exact Value.WellFormed.bool true

/-- Results of a compaction that cannot remove the backup at its end. -/
def CompressIo.keepsBackup : CompressIo := { CompressIo.allOk with removeBackup := .err 0 }

/-- A store opened on no files. -/
def emptyStore : Store := ⟨some (.atEnd (snapshot tokenCbor 0 .null)), .null, 0⟩

/-- The files behind it, with or without the backup of its first compaction. -/
def emptyFiles (backup : Bool) : Files Token where
  main := snapshot tokenCbor 0 .null
  bak := if backup then some (snapshot tokenCbor 0 .null) else none
  bakTmp := none

/-- One update of a new store is there after opening it again; when the backup of the
first compaction stays behind, the update is lost. -/
theorem reopened_has_accepted_once : (∃ accepted store' files',
      applyAll tokenCbor [(setTrue, .allOk)] emptyStore (emptyFiles false) =
        some (accepted, store', files') ∧
      ∃ kept d, accepted.Sublist kept ∧ kept.Sublist [setTrue] ∧
        runPatches .null kept = some d ∧ Reopens tokenCbor files' d (0 + kept.length)) ∧
      ∃ revision store'' files'', apply tokenCbor setTrue emptyStore (emptyFiles true) .allOk =
          some (.ok (some revision), store'', files'') ∧ store''.revision = 1 ∧
        Reopens tokenCbor files'' .null 0 := by
  constructor
  · obtain ⟨accepted, store', files', hrun, hkept, -⟩ :=
      reopened_has_accepted tokenCbor tokenCbor_lawful ⟨[], none, none⟩ (emptyFiles false) .allOk
        emptyStore rfl .null [(setTrue, .allOk)] rfl
    exact ⟨accepted, store', files', hrun, hkept⟩
  · obtain ⟨accepted, store', files', hrun, -, hlost⟩ :=
      reopened_has_accepted tokenCbor tokenCbor_lawful ⟨[], none, none⟩ (emptyFiles true)
        ⟨.ok, .ok, .keepsBackup⟩ emptyStore rfl .null [] rfl
    cases hrun
    exact hlost setTrue .allOk rfl

/-- A store is opened and the backup of its compaction cannot be removed. An update is
accepted, and the store that is opened next has neither it nor its revision. -/
theorem reopened_lacks_accepted : openStore tokenCbor ⟨[], none, none⟩ ⟨.ok, .ok, .keepsBackup⟩ =
        some (.ok emptyStore, emptyFiles true) ∧
      ∃ store' files', applyAll tokenCbor [(setTrue, .allOk)] emptyStore (emptyFiles true) =
          some ([setTrue], store', files') ∧
        openStore tokenCbor files' .allOk = some (.ok emptyStore, emptyFiles false) ∧
        ¬ ∃ kept d, [setTrue].Sublist kept ∧ kept.Sublist [setTrue] ∧
          runPatches emptyStore.persistent.denote kept = some d ∧
          Reopens tokenCbor files' d (emptyStore.revision + kept.length) := by
  refine ⟨rfl, _, _, rfl, rfl, ?_⟩
  rintro ⟨kept, d, haccepted, -, -, hreopens⟩
  have hrev := (hreopens.state .allOk emptyStore (emptyFiles false) rfl).2
  have hlen := haccepted.length_le
  simp only [List.length_singleton] at hrev hlen
  omega

end StartTech.PatchDb

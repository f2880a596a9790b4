import StartTech.MerkleArchive.RoundTrip

/-!
# What the root hash binds

Two accepted archives with one root hash agree on every path that both have: on the
hash and size there, on the names in a directory and on the bytes of a file. The hash
does not say whether an entry is a file or a directory. If one archive has a file
where the other has a directory, the file holds the table of contents that the
directory is hashed as.

## Implementation notes

No function into 32 bytes is injective. The hash is taken to be injective on the byte
strings that are hashed for the two archives.
-/

namespace StartTech.MerkleArchive

open Foundation Fallible

variable {S : Type} [FileSource S] {blake3 : Bytes → Hash}

variable (blake3) in
mutual

/-- The bytes are hashed for some part of the contents. -/
def EntryContents.Hashes (x : Bytes) : EntryContents S → Prop
  | .missing => False
  | .file f => x = FileSource.bytes f
  | .directory ⟨contents, _, _⟩ =>
    (∃ sig, sigContents blake3 contents = .ok sig ∧ x = sigToc sig) ∨ HashesAny x contents
termination_by structural c => c

def HashesAny (x : Bytes) : List (Name × Entry S) → Prop
  | [] => False
  | (_, ⟨_, contents⟩) :: rest => contents.Hashes x ∨ HashesAny x rest
termination_by structural l => l

end

theorem hashesAny_of_mem {x : Bytes} {l : List (Name × Entry S)} {e : Name × Entry S} (he : e ∈ l)
    (h : e.2.contents.Hashes blake3 x) : HashesAny blake3 x l := by
  induction l with
  | nil => simp at he
  | cons e' rest ih =>
    rcases List.mem_cons.mp he with rfl | he
    · exact .inl h
    · exact .inr (ih he)

variable (blake3) in
/-- No two byte strings that are hashed for these contents have one hash. -/
def CollisionFree (c c' : EntryContents S) : Prop :=
  ∀ x y, c.Hashes blake3 x → c'.Hashes blake3 y → blake3 x = blake3 y → x = y

theorem CollisionFree.entry {d d' : DirectoryContents S}
    (h : CollisionFree blake3 (.directory d) (.directory d')) {e e' : Name × Entry S}
    (he : e ∈ d.contents) (he' : e' ∈ d'.contents) :
    CollisionFree blake3 e.2.contents e'.2.contents :=
  fun x y hx hy => h x y (.inr (hashesAny_of_mem he hx)) (.inr (hashesAny_of_mem he' hy))

variable {d d' : DirectoryContents S} {h h' k : Hash × Nat} {sig : List (Name × (Hash × Nat))}
  {name : Name} {e e' : Entry S}

def DirectoryOf.names (d : DirectoryContents S) : List Name := d.contents.map Prod.fst

theorem names_eq_of_sigContents (hsig : sigContents blake3 d.contents = .ok sig) :
    d.names = sig.map Prod.fst := by
  rw [← List.forall₂_eq_eq_eq]
  exact List.forall₂_map_left_iff.mpr (List.forall₂_map_right_iff.mpr
    ((sigContents_eq_ok.mp hsig).imp fun _ _ h => h.1))

theorem DirectoryOf.Sound.fits (hd : d.Sound blake3 h)
    (hsig : sigContents blake3 d.contents = .ok sig) : ∀ s ∈ sig, Fits s := by
  intro s hs
  obtain ⟨e, he, hname, hhash⟩ := exists_left_of_forall₂ (sigContents_eq_ok.mp hsig) hs
  obtain ⟨hlen, k, hk, hlt, -⟩ := hd.entries e he
  cases hhash.symm.trans hk
  rw [hname] at hlen
  exact ⟨hlen.trans_lt (by decide), hlt⟩

/-- Sound directories with one hash have one table of names, hashes and sizes. -/
theorem sigContents_eq_of_sound (hd : d.Sound blake3 h) (hd' : d'.Sound blake3 h')
    (hhash : h.1 = h'.1) (hfree : CollisionFree blake3 (.directory d) (.directory d')) :
    ∃ sig, sigContents blake3 d.contents = .ok sig ∧ sigContents blake3 d'.contents = .ok sig := by
  obtain ⟨sig, hsig, hblake⟩ := hd.sighash
  obtain ⟨sig', hsig', hblake'⟩ := hd'.sighash
  have htoc : sigToc sig = sigToc sig' :=
    hfree _ _ (.inl ⟨sig, hsig, rfl⟩) (.inl ⟨sig', hsig', rfl⟩) (by rw [hblake, hblake', hhash])
  rw [sigToc_eq hd.sorted hsig, sigToc_eq hd'.sorted hsig'] at htoc
  have hlen := (sigContents_eq_ok.mp hsig).length_eq
  have hlen' := (sigContents_eq_ok.mp hsig').length_eq
  rw [tocBytes, tocBytes, List.length_map, List.length_map] at htoc
  obtain ⟨hcount, htoc⟩ :=
    Varint.encode_append_inj (hlen ▸ hd.length) (hlen' ▸ hd'.length) htoc
  have hsame : sig = sig' := missing_entries_inj (hd.fits hsig) (hd'.fits hsig') hcount htoc
  exact ⟨sig, hsig, hsame ▸ hsig'⟩

omit [FileSource S] in
theorem DirectoryOf.mem_of_get (h : d.get name = some e) : (name, e) ∈ d.contents :=
  OrderedMap.mem_of_get h

omit [FileSource S] in
/-- A path of several segments goes through a directory. -/
theorem DirectoryOf.getPath_cons {segment segment' : Name} {rest : List Name}
    (h : d.getPath (segment :: segment' :: rest) = some e) :
    ∃ known d', d.get segment = some ⟨known, .directory d'⟩ ∧
      d'.getPath (segment' :: rest) = some e := by
  rw [DirectoryOf.getPath] at h
  · split at h
    · exact ⟨_, _, by assumption, h⟩
    · cases h
  · simp

variable (blake3) in
/-- Two entries that have one hash and size and agree with it. -/
structure SameHash (e e' : Entry S) (k : Hash × Nat) : Prop where
  hash : e.toHash blake3 = .ok k
  hash' : e'.toHash blake3 = .ok k
  sound : e.contents.Sound blake3 k
  sound' : e'.contents.Sound blake3 k
  free : CollisionFree blake3 e.contents e'.contents

theorem sameHash_of_get (hd : d.Sound blake3 h) (hd' : d'.Sound blake3 h') (hhash : h.1 = h'.1)
    (hfree : CollisionFree blake3 (.directory d) (.directory d')) (he : d.get name = some e)
    (he' : d'.get name = some e') : ∃ k, SameHash blake3 e e' k := by
  obtain ⟨sig, hsig, hsig'⟩ := sigContents_eq_of_sound hd hd' hhash hfree
  have hmem := DirectoryOf.mem_of_get he
  have hmem' := DirectoryOf.mem_of_get he'
  obtain ⟨⟨name₁, k⟩, hs, rfl, hk⟩ := exists_right_of_forall₂ (sigContents_eq_ok.mp hsig) hmem
  obtain ⟨⟨name₂, k'⟩, hs', rfl, hk'⟩ := exists_right_of_forall₂ (sigContents_eq_ok.mp hsig') hmem'
  have hsorted : OrderedMap.Sorted sig :=
    hd.sorted.of_forall₂ (fun _ _ h => h.1) (sigContents_eq_ok.mp hsig)
  obtain rfl : k = k' := hsorted.eq_of_mem hs hs'
  obtain ⟨-, k₁, hk₁, -, hsound⟩ := hd.entries _ hmem
  obtain ⟨-, k₂, hk₂, -, hsound'⟩ := hd'.entries _ hmem'
  cases hk.symm.trans hk₁
  cases hk'.symm.trans hk₂
  exact ⟨k, hk, hk', hsound, hsound', hfree.entry hmem hmem'⟩

/-- Along a path, entries that both trees have keep one hash. -/
theorem sameHash_of_getPath (hd : d.Sound blake3 h) (hd' : d'.Sound blake3 h') (hhash : h.1 = h'.1)
    (hfree : CollisionFree blake3 (.directory d) (.directory d')) {path : List Name}
    (he : d.getPath path = some e) (he' : d'.getPath path = some e') :
    ∃ k, SameHash blake3 e e' k := by
  induction path generalizing d d' h h' with
  | nil => cases he
  | cons segment rest ih =>
    cases rest with
    | nil => exact sameHash_of_get hd hd' hhash hfree he he'
    | cons segment' rest =>
      obtain ⟨known, d₁, hget, hrest⟩ := DirectoryOf.getPath_cons he
      obtain ⟨known', d₁', hget', hrest'⟩ := DirectoryOf.getPath_cons he'
      obtain ⟨k, hk⟩ := sameHash_of_get hd hd' hhash hfree hget hget'
      exact ih (sound_directory.mp hk.sound) (sound_directory.mp hk.sound') rfl hk.free hrest hrest'

/-- A file that can be read has the bytes that its hash is of. -/
theorem EntryOf.readFileToVec_eq_ok {b : Bytes} (hk : e.toHash blake3 = .ok k)
    (h : e.readFileToVec blake3 = .ok b) : e.contents.Hashes blake3 b ∧ blake3 b = k.1 := by
  obtain ⟨known, contents⟩ := e
  cases contents with
  | missing | directory d => cases h
  | file f =>
    cases known with
    | none =>
      cases hk
      cases h
      exact ⟨rfl, rfl⟩
    | some known =>
      cases hk
      obtain ⟨_, -, h₁⟩ := bind_eq_ok.mp h
      obtain ⟨_, hhash, h₂⟩ := bind_eq_ok.mp h₁
      obtain ⟨_, -, h₃⟩ := bind_eq_ok.mp h₂
      cases h₃
      exact ⟨rfl, ensure_eq_ok.mp hhash⟩

variable (blake3) in
/-- What entries at one path have in common: their hash and size, the names in them and their
bytes. A file that stands where the other has a directory holds the table of contents that the
directory is hashed as. -/
structure Agree (e e' : Entry S) : Prop where
  hash : ∃ k, e.toHash blake3 = .ok k ∧ e'.toHash blake3 = .ok k
  directories : ∀ d d', e.contents = .directory d → e'.contents = .directory d' → d.names = d'.names
  files : ∀ b b', e.readFileToVec blake3 = .ok b → e'.readFileToVec blake3 = .ok b' → b = b'
  file_directory : ∀ b d', e.readFileToVec blake3 = .ok b → e'.contents = .directory d' →
    ∃ sig, sigContents blake3 d'.contents = .ok sig ∧ b = sigToc sig
  directory_file : ∀ d b', e.contents = .directory d → e'.readFileToVec blake3 = .ok b' →
    ∃ sig, sigContents blake3 d.contents = .ok sig ∧ b' = sigToc sig

theorem SameHash.agree (h : SameHash blake3 e e' k) : Agree blake3 e e' := by
  refine ⟨⟨k, h.hash, h.hash'⟩, fun d d' hd hd' => ?_, fun b b' hb hb' => ?_,
    fun b d' hb hd' => ?_, fun d b' hd hb' => ?_⟩
  · have hsound := h.sound
    have hsound' := h.sound'
    have hfree := h.free
    rw [hd] at hsound hfree
    rw [hd'] at hsound' hfree
    obtain ⟨sig, hsig, hsig'⟩ := sigContents_eq_of_sound (sound_directory.mp hsound)
      (sound_directory.mp hsound') rfl hfree
    rw [names_eq_of_sigContents hsig, names_eq_of_sigContents hsig']
  · obtain ⟨hhashes, hblake⟩ := EntryOf.readFileToVec_eq_ok h.hash hb
    obtain ⟨hhashes', hblake'⟩ := EntryOf.readFileToVec_eq_ok h.hash' hb'
    exact h.free b b' hhashes hhashes' (hblake.trans hblake'.symm)
  · obtain ⟨hhashes, hblake⟩ := EntryOf.readFileToVec_eq_ok h.hash hb
    have hsound' := h.sound'
    have hfree := h.free
    rw [hd'] at hsound' hfree
    obtain ⟨sig, hsig, hblake'⟩ := (sound_directory.mp hsound').sighash
    exact ⟨sig, hsig, hfree b _ hhashes (.inl ⟨sig, hsig, rfl⟩) (hblake.trans hblake'.symm)⟩
  · obtain ⟨hhashes, hblake⟩ := EntryOf.readFileToVec_eq_ok h.hash' hb'
    have hsound := h.sound
    have hfree := h.free
    rw [hd] at hsound hfree
    obtain ⟨sig, hsig, hblake'⟩ := (sound_directory.mp hsound).sighash
    exact ⟨sig, hsig, (hfree _ b' (.inl ⟨sig, hsig, rfl⟩) hhashes (hblake'.trans hblake.symm)).symm⟩

variable {SK SK' : Type} {scheme : SignatureScheme SK} {scheme' : SignatureScheme SK'}
  {a : Archive SK Section}

/-- The root directory of an accepted archive is sound. -/
theorem Archive.deserialize_sound {source : Source} {depth : Nat} {context r rest : Bytes}
    {commitment : Option Commitment}
    (h : Archive.deserialize blake3 scheme source depth context r commitment = .ok (a, rest)) :
    ∃ k, a.contents.Sound blake3 k ∧ a.contents.sighash blake3 = .ok k.1 := by
  obtain ⟨_, _, c, _, -, -, -, -, -, hd⟩ := Archive.deserialize_eq_ok.mp h
  have hsound := DirectoryOf.deserialize_sound hd
  obtain ⟨sig, hsig, hhash⟩ := hsound.sighash
  exact ⟨_, hsound, bind_ok hsig (by rw [hhash]; rfl)⟩

/-- Accepted archives with one root hash have the same names at the root, and agree on every
path that both have. -/
theorem root_hash_binds {source source' : Source} {depth depth' : Nat}
    {context context' r r' rest rest' : Bytes} {commitment commitment' : Option Commitment}
    {a : Archive SK Section} {a' : Archive SK' Section}
    (ha : Archive.deserialize blake3 scheme source depth context r commitment = .ok (a, rest))
    (ha' : Archive.deserialize blake3 scheme' source' depth' context' r' commitment' =
      .ok (a', rest'))
    (hroot : a.contents.sighash blake3 = a'.contents.sighash blake3)
    (hfree : CollisionFree blake3 (.directory a.contents) (.directory a'.contents)) :
    a.contents.names = a'.contents.names ∧
      ∀ path e e', a.contents.getPath path = some e → a'.contents.getPath path = some e' →
        Agree blake3 e e' := by
  obtain ⟨k, hsound, hk⟩ := Archive.deserialize_sound ha
  obtain ⟨k', hsound', hk'⟩ := Archive.deserialize_sound ha'
  have hhash : k.1 = k'.1 := Except.ok.inj (hk.symm.trans (hroot.trans hk'))
  obtain ⟨sig, hsig, hsig'⟩ := sigContents_eq_of_sound hsound hsound' hhash hfree
  refine ⟨?_, fun path e e' he he' => ?_⟩
  · rw [names_eq_of_sigContents hsig, names_eq_of_sigContents hsig']
  · obtain ⟨k, hk⟩ := sameHash_of_getPath hsound hsound' hhash hfree he he'
    exact hk.agree

section Kinds

def sampleName : Name where
  bytes := [97]
  valid := rfl

/-- An archive of one entry. -/
def archiveOf (e : Entry Bytes) : Archive Unit Bytes where
  signer := .signer () []
  contents := ⟨[(sampleName, e)], 0, none⟩

/-- Its bytes once it is written. -/
def writtenOf (e : Entry Bytes) : Source where
  bytes := ((archiveOf e).serialize lengthHash sampleScheme 0 false).toOption.getD []
  size := none
  size_eq _ h := by cases h

/-- What is read back of it, with the entry as it was stored. -/
def readOf (maxSize sourceEnd : Nat) (e : Entry Section) : Archive Unit Section where
  signer := .signed (List.replicate 32 0) (List.replicate 64 0) maxSize []
  contents := ⟨[(sampleName, e)], sourceEnd, none⟩

def fileEntry (hash : Hash) (e : Entry Bytes) : Entry Section :=
  ⟨some (hash, 1), .file ⟨writtenOf e, 204, 1⟩⟩

set_option maxRecDepth 10000 in
theorem read_file (depth : Nat) : Archive.deserialize lengthHash sampleScheme
    (writtenOf ⟨none, .file [0]⟩) (depth + 1) [] (writtenOf ⟨none, .file [0]⟩).bytes none =
      .ok (readOf 52 205 (fileEntry (lengthHash [0]) ⟨none, .file [0]⟩),
        (writtenOf ⟨none, .file [0]⟩).bytes.drop 152) := by
  with_unfolding_all rfl

theorem sigToc_archiveOf (k : Hash × Nat) : (sigToc [(sampleName, k)]).length = 44 := by
  have hlen := k.1.length_eq
  simp [sigToc, tocBytes, missingEntry, TocEntry.bytes, varstring, Header.bytes, hlen,
    sampleName, Varint.encode, Varint.encodeFrom, Varint.maxSize]

theorem sigToc_nil : sigToc [] = [0] := by
  simp [sigToc, tocBytes, Varint.encode, Varint.encodeFrom, Varint.maxSize]

section

variable {c c' : EntryContents Section} {m m' n n' : Nat}
  (hc : ∀ {x}, c.Hashes lengthHash x → x = [0])
include hc

/-- What is hashed for an archive of one entry that is hashed as one zero byte. -/
theorem hashes_readOf {x : Bytes}
    (hx : (EntryContents.directory (readOf m n ⟨some k, c⟩).contents).Hashes lengthHash x) :
    x = sigToc [(sampleName, k)] ∨ x = [0] := by
  rcases hx with ⟨sig, hsig, rfl⟩ | hx | hx
  · cases hsig
    exact .inl rfl
  · exact .inr (hc hx)
  · cases hx

theorem collisionFree_readOf (hc' : ∀ {x}, c'.Hashes lengthHash x → x = [0]) :
    CollisionFree lengthHash (.directory (readOf m n ⟨some k, c⟩).contents)
      (.directory (readOf m' n' ⟨some k, c'⟩).contents) := by
  have hne : lengthHash (sigToc [(sampleName, k)]) ≠ lengthHash [0] := by
    intro heq
    have hbytes := (List.cons.inj (congrArg Hash.bytes heq)).1
    rw [sigToc_archiveOf] at hbytes
    exact absurd hbytes (by decide)
  intro x y hx hy hxy
  rcases hashes_readOf hc hx with rfl | rfl
  · rcases hashes_readOf hc' hy with rfl | rfl
    · rfl
    · exact absurd hxy hne
  · rcases hashes_readOf hc' hy with rfl | rfl
    · exact absurd hxy.symm hne
    · rfl

end

set_option maxRecDepth 10000 in
theorem hashes_file {x : Bytes}
    (hx : (fileEntry (lengthHash [0]) ⟨none, .file [0]⟩).contents.Hashes lengthHash x) :
    x = [0] := by
  rw [show x = _ from hx]
  with_unfolding_all rfl

/-- The archive of the file behind one other byte. -/
def shiftedSource : Source where
  bytes := 7 :: ((archiveOf ⟨none, .file [0]⟩).serialize lengthHash sampleScheme 1
    false).toOption.getD []
  size := none
  size_eq _ h := by cases h

set_option maxRecDepth 10000 in
theorem read_shifted : Archive.deserialize lengthHash sampleScheme shiftedSource 1 []
    (shiftedSource.bytes.drop 1) none =
      .ok (readOf 52 206 ⟨some (lengthHash [0], 1), .file ⟨shiftedSource, 205, 1⟩⟩,
        shiftedSource.bytes.drop 153) := by
  with_unfolding_all rfl

set_option maxRecDepth 10000 in
/-- Two sources with one root hash and the file at different places. -/
theorem root_hash_binds_shifted : ∃ a a' rest rest' e e',
      Archive.deserialize lengthHash sampleScheme (writtenOf ⟨none, .file [0]⟩) 1 []
        (writtenOf ⟨none, .file [0]⟩).bytes none = .ok (a, rest) ∧
      Archive.deserialize lengthHash sampleScheme shiftedSource 1 [] (shiftedSource.bytes.drop 1)
        none = .ok (a', rest') ∧
      (writtenOf ⟨none, .file [0]⟩).bytes.head? ≠ shiftedSource.bytes.head? ∧
      a.contents.sighash lengthHash = a'.contents.sighash lengthHash ∧
      a.contents.getPath [sampleName] = some e ∧ a'.contents.getPath [sampleName] = some e' ∧
      Agree lengthHash e e' ∧ e.readFileToVec lengthHash = .ok [0] ∧
      e'.readFileToVec lengthHash = .ok [0] := by
  have hfree : CollisionFree lengthHash (.directory (readOf 52 205
      (fileEntry (lengthHash [0]) ⟨none, .file [0]⟩)).contents) (.directory (readOf 52 206
        ⟨some (lengthHash [0], 1), .file ⟨shiftedSource, 205, 1⟩⟩).contents) := by
    refine collisionFree_readOf hashes_file fun {x} hx => ?_
    rw [show x = _ from hx]
    with_unfolding_all rfl
  refine ⟨_, _, _, _, _, _, read_file 0, read_shifted, ?_, rfl, rfl, rfl,
    (root_hash_binds (read_file 0) read_shifted rfl hfree).2 [sampleName] _ _ rfl rfl, ?_, ?_⟩
  · rw [show (writtenOf ⟨none, .file [0]⟩).bytes.head? = some 0 by with_unfolding_all rfl]
    decide
  · with_unfolding_all rfl
  · with_unfolding_all rfl

set_option maxRecDepth 10000 in
/-- An empty directory has the hash of a file that holds its table of contents, which is one
zero byte; so archives with one root hash can have a directory and a file at one path. -/
theorem root_hash_leaves_kind_open : ∃ source source' a a' r r' rest rest' depth e e',
      Archive.deserialize lengthHash sampleScheme source depth [] r none = .ok (a, rest) ∧
      Archive.deserialize lengthHash sampleScheme source' depth [] r' none = .ok (a', rest') ∧
      a.contents.sighash lengthHash = a'.contents.sighash lengthHash ∧
      CollisionFree lengthHash (.directory a.contents) (.directory a'.contents) ∧
      a.contents.getPath [sampleName] = some e ∧ a'.contents.getPath [sampleName] = some e' ∧
      e.contents.kind = .directory ∧ e'.contents.kind = .file := by
  have hread : Archive.deserialize lengthHash sampleScheme
      (writtenOf ⟨none, .directory ⟨[], 0, none⟩⟩) 2 []
      (writtenOf ⟨none, .directory ⟨[], 0, none⟩⟩).bytes none =
        .ok (readOf 60 213 ⟨some (lengthHash [0], 1), .directory ⟨[], 213, none⟩⟩,
          (writtenOf ⟨none, .directory ⟨[], 0, none⟩⟩).bytes.drop 152) := by
    with_unfolding_all rfl
  refine ⟨_, _, _, _, _, _, _, _, 2, _, _, hread, read_file 1, rfl,
    collisionFree_readOf ?_ hashes_file, rfl, rfl, rfl, rfl⟩
  rintro x (⟨sig, hsig, rfl⟩ | hx)
  · cases hsig
    exact sigToc_nil
  · cases hx

end Kinds

end StartTech.MerkleArchive

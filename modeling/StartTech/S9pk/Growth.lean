import StartTech.MerkleArchive.Reread
import StartTech.S9pk.Package

/-!
# Endorsements only grow

A file to which endorsements are added keeps what stands before its trailer and the records
it had. Opened again it is the same package, with the signatures it had and those of the
signers that were added.
-/

namespace StartTech.S9pk

open Foundation Fallible
open Trailer (readRegion discover addRecord)
open Tlv (Record encode)
open Bytes (ofNatBe length_ofNatBe toNatBe)
open OrderedMap (get get_foldl_orInsert get_cons)
open MerkleArchive (Archive Commitment Error FileSource Hash Name Section SameFront SignatureScheme
  Source ensure_bind ensure_eq_ok readExact readExact_append readExact_eq_ok)
open List (length_append)

instance : Std.TransOrd AnyVerifyingKey where
  eq_swap {a b} := Std.OrientedOrd.eq_swap (a := a.asBytes) (b := b.asBytes)
  isLE_trans {a b c} :=
    Std.TransOrd.isLE_trans (a := a.asBytes) (b := b.asBytes) (c := c.asBytes)

instance : Std.LawfulEqOrd AnyVerifyingKey where
  eq_of_compare {a b} h := by
    exact congrArg AnyVerifyingKey.ed25519 (Std.LawfulEqOrd.eq_of_compare h)

variable {SK M : Type} {lib : Libraries SK M} {record : Bytes}

variable (lib) in
/-- Keys and signatures are read back from their encodings, which are not empty. -/
structure Libraries.Lawful : Prop where
  key : ∀ {key bytes}, lib.keyToDer key = .ok bytes → bytes ≠ [] ∧ lib.keyFromDer bytes = .ok key
  signature : ∀ {signature bytes}, lib.signatureToDer signature = .ok bytes →
    bytes ≠ [] ∧ lib.signatureFromDer bytes = .ok signature

variable {key : AnyVerifyingKey}

theorem decodeEndorsement_encode (hlib : lib.Lawful) {signature : AnySignature}
    (h : encodeEndorsement lib key signature = .ok record) (hlen : record.length ≤ maxRegion) :
    decodeEndorsement lib record = .ok (key, signature) := by
  obtain ⟨keyBytes, hkey, h⟩ := bind_eq_ok.mp h
  obtain ⟨signatureBytes, hsig, h⟩ := bind_eq_ok.mp h
  cases h
  obtain ⟨hkeyne, hkeyback⟩ := hlib.key hkey
  obtain ⟨hsignaturene, hsignatureback⟩ := hlib.signature hsig
  have hkeypos := List.length_pos_of_ne_nil hkeyne
  have hsignaturepos := List.length_pos_of_ne_nil hsignaturene
  rw [length_append, length_append, maxRegion] at hlen
  have hcount : toNatBe ((ofNatBe 8 keyBytes.length ++ (keyBytes ++ signatureBytes)).take
      8) = keyBytes.length := by
    rw [List.take_left' (length_ofNatBe 8 _)]
    exact Bytes.toNatBe_ofNatBe (show keyBytes.length < 18446744073709551616 by omega)
  have hdrop : (ofNatBe 8 keyBytes.length ++ (keyBytes ++ signatureBytes)).drop 8 =
      keyBytes ++ signatureBytes := List.drop_left' (length_ofNatBe 8 _)
  have hwhole : (ofNatBe 8 keyBytes.length ++ (keyBytes ++ signatureBytes)).length =
      8 + (keyBytes.length + signatureBytes.length) := by
    rw [length_append, length_ofNatBe, length_append]
  have hword : Text.wordLimit = 18446744073709551616 := rfl
  refine ensure_bind (by omega) ?_
  dsimp only
  rw [hcount, ← List.drop_drop, hdrop, List.take_left, List.drop_left]
  exact ensure_bind (by omega) (ensure_bind (by omega) (bind_ok hkeyback (bind_ok hsignatureback rfl)))

section Trailers

/-- A file with a region of records and a footer behind what stands before them. -/
def closed (base raw : Bytes) : Bytes := base ++ (raw ++ (ofNatBe 8 raw.length ++ magic))

theorem length_closed (base raw : Bytes) : (closed base raw).length = base.length + raw.length + 16 := by
  simp [closed, magic]
  omega

theorem append_extendedRegion (base raw record : Bytes) : base ++ extendedRegion raw record =
      closed base (raw ++ (⟨endorsementKind, record⟩ : Record).bytes) := by
  have hlen : (raw ++ (⟨endorsementKind, record⟩ : Record).bytes).length =
      raw.length + 10 + record.length := by
    rw [length_append, Record.length_bytes, Tlv.headerSize]
    dsimp only
    omega
  rw [closed, hlen]
  simp [extendedRegion, Record.bytes]

variable (lib) in
/-- What the records of a region give. -/
def collected (commitment : Commitment) (start : Nat) (records : List (Nat × Record)) : Trailer :=
  records.foldl (addRecord lib commitment start) { present := true, editable := true }

variable (lib) in
/-- The trailer that is read from a region. -/
def regionTrailer (commitment : Commitment) (start : Nat) (raw : Bytes)
    (records : List (Nat × Record)) : Trailer :=
  { collected lib commitment start records with raw := raw, start := some start }

variable {file base raw : Bytes} {commitment : Commitment} {archiveEnd : Nat}
  {records : List (Nat × Record)}

theorem fetch_fileSource (file : Bytes) (position size : Nat) :
    (fileSource file).fetch position size = (file.drop position).take size := rfl

/-- The footer is found at the end. -/
theorem footer_closed (base raw : Bytes) :
    readExact 16 ((fileSource (closed base raw)).fetch ((closed base raw).length - 16) 16) =
      .ok (ofNatBe 8 raw.length ++ magic, []) := by
  have hlen : (ofNatBe 8 raw.length ++ magic).length = 16 := by
    rfl
  have hfront : (base ++ raw).length = (closed base raw).length - 16 := by
    rw [length_closed, length_append]
    omega
  have hfetch : (fileSource (closed base raw)).fetch ((closed base raw).length - 16) 16 =
      (ofNatBe 8 raw.length ++ magic) ++ [] := by
    rw [fetch_fileSource, ← hfront, closed, ← List.append_assoc, List.drop_left]
    exact List.take_of_length_le (Nat.le_of_eq hlen)
  rw [hfetch]
  exact readExact_append hlen []

/-- A region that can be read is read. -/
theorem read_closed (hraw : raw.length ≤ maxRegion) (hheader : headerSize ≤ base.length)
    (harchive : archiveEnd ≤ base.length)
    (hrecords : Tlv.parse raw = .ok records) :
    Trailer.read lib (fileSource (closed base raw)) commitment archiveEnd =
      regionTrailer lib commitment base.length raw records := by
  have hlen := length_closed base raw
  have hcount : toNatBe (ofNatBe 8 raw.length) = raw.length := by
    refine Bytes.toNatBe_ofNatBe (show raw.length < 18446744073709551616 from ?_)
    rw [maxRegion] at hraw
    omega
  have hstart : (closed base raw).length - 16 - raw.length = base.length := by omega
  have hfetch : readExact raw.length ((fileSource (closed base raw)).fetch base.length raw.length) =
      .ok (raw, []) := by
    rw [fetch_fileSource, closed, List.drop_left, List.take_left]
    exact (congrArg _ (List.append_nil raw).symm).trans (readExact_append rfl [])
  have hregion : readRegion lib (fileSource (closed base raw)) commitment base.length
      raw.length = .ok (regionTrailer lib commitment base.length raw records) := by
    rw [readRegion, hfetch, ok_bind]
    dsimp only
    rw [hrecords]
    rfl
  have hdiscover : discover lib (fileSource (closed base raw)) commitment archiveEnd =
      .ok (regionTrailer lib commitment base.length raw records) := by
    rw [discover, show (fileSource (closed base raw)).size = some (closed base raw).length from rfl]
    dsimp only
    rw [if_neg (by omega), footer_closed, ok_bind]
    rw [List.take_left' (length_ofNatBe 8 _), hcount,
      hstart, if_neg (by simp), if_neg (by simp), if_pos ⟨by omega, hraw, hheader, harchive⟩]
    exact hregion
  rw [Trailer.read, hdiscover]

variable (lib) in
/-- How a trailer stands in a file: there is none, or it is a region behind a base. -/
inductive Placed (commitment : Commitment) (archiveEnd : Nat) (file : Bytes) : Trailer → Prop
  | absent {t : Trailer} (start : t.start = none) (raw : t.raw = []) (signatures : t.signatures = []) :
      Placed commitment archiveEnd file t
  | region {base raw : Bytes} {records : List (Nat × Record)} (file_eq : file = closed base raw)
      (parse : Tlv.parse raw = .ok records) (length : raw.length ≤ maxRegion)
      (header : headerSize ≤ base.length) (archive : archiveEnd ≤ base.length) :
      Placed commitment archiveEnd file (regionTrailer lib commitment base.length raw records)

theorem placed_diagnose {present editable : Bool} {kind : DiagnosticKind} {offset : Option Nat} :
    Placed lib commitment archiveEnd file
      (Trailer.diagnose { present := present, editable := editable } kind offset) :=
  .absent rfl rfl rfl

theorem placed_readRegion {start length : Nat} (hsize : file.length = start + length + 16)
    (hfooter : file.drop (start + length) = ofNatBe 8 length ++ magic)
    (hlen : length ≤ maxRegion) (hheader : headerSize ≤ start) (harchive : archiveEnd ≤ start)
    {t : Trailer}
    (h : readRegion lib (fileSource file) commitment start length = .ok t) :
    Placed lib commitment archiveEnd file t := by
  obtain ⟨⟨raw, rest⟩, hraw, h⟩ := bind_eq_ok.mp h
  obtain ⟨hfetch, hrawlength⟩ := readExact_eq_ok hraw
  rw [fetch_fileSource] at hfetch
  have hrest : rest = [] := by
    have hle := congrArg List.length hfetch
    rw [List.length_take, length_append] at hle
    exact List.eq_nil_of_length_eq_zero (by omega)
  rw [hrest, List.append_nil] at hfetch
  have hbase : (file.take start).length = start := by
    rw [List.length_take]
    omega
  have hfile : file = closed (file.take start) raw := by
    rw [closed, hrawlength, ← hfooter, ← hfetch, ← List.drop_drop, List.take_append_drop,
      List.take_append_drop]
  dsimp only at h
  split at h
  · cases h
    exact placed_diagnose
  · rename_i records hrecords
    cases h
    have hplaced : Placed lib commitment archiveEnd file
        (regionTrailer lib commitment (file.take start).length raw records) :=
      .region hfile hrecords (hrawlength ▸ hlen) (hbase.symm ▸ hheader) (hbase.symm ▸ harchive)
    rw [hbase] at hplaced
    exact hplaced

/-- However a file ends, its trailer is absent or a region. -/
theorem placed_read (file : Bytes) (commitment : Commitment) (archiveEnd : Nat) :
    Placed lib commitment archiveEnd file
      (Trailer.read lib (fileSource file) commitment archiveEnd) := by
  rw [Trailer.read]
  split
  · rename_i t h
    rw [discover, show (fileSource file).size = some file.length from rfl] at h
    dsimp only at h
    split at h
    · cases h
      exact .absent rfl rfl rfl
    obtain ⟨⟨footer, rest⟩, hfooter, h⟩ := bind_eq_ok.mp h
    obtain ⟨hfetch, hfooterlength⟩ := readExact_eq_ok hfooter
    rw [fetch_fileSource] at hfetch
    split at h
    · cases h
      exact .absent rfl rfl rfl
    split at h
    · cases h
      exact placed_diagnose
    rename_i hmagic
    split at h
    · rename_i hbounds
      obtain ⟨hle, hmax, hheader, harchive⟩ := hbounds
      generalize hlen : toNatBe (footer.take 8) = length at h hle hmax hheader harchive
      refine placed_readRegion (by omega) ?_ hmax hheader harchive h
      have hend : file.length - 16 - length + length = file.length - 16 := by omega
      have hwhole : (file.drop (file.length - 16)).take 16 = file.drop (file.length - 16) :=
        List.take_of_length_le (by rw [List.length_drop]; omega)
      have hrest : rest = [] := by
        have hle := congrArg List.length hfetch
        rw [List.length_take, length_append] at hle
        exact List.eq_nil_of_length_eq_zero (by omega)
      have hcount : (footer.take 8).length = 8 := by
        rw [List.length_take]
        omega
      have hback := Bytes.ofNatBe_toNatBe (footer.take 8)
      rw [hcount, hlen] at hback
      rw [hend, ← hwhole, hfetch, hrest, List.append_nil, hback, ← not_ne_iff.mp hmagic,
        List.take_append_drop]
    · cases h
      exact placed_diagnose
  · exact placed_diagnose

end Trailers

section Opening

variable {file file' r rest : Bytes} {depth : Nat} {blake3 : Bytes → Hash} {source : Source}
  {a : Archive SK Section} {p : Package SK M}

/-- An archive that is read has a signature, and its contents are read behind a header. -/
theorem deserialize_signed {scheme : SignatureScheme SK} {context : Bytes}
    {commitment : Option Commitment}
    (h : Archive.deserialize blake3 scheme source depth context r commitment = .ok (a, rest)) :
    ∃ pubkey signature sighash maxSize r', a.signer = .signed pubkey signature maxSize context ∧
      MerkleArchive.DirectoryOf.deserialize blake3 source depth r' (sighash, maxSize) =
        .ok (a.contents, rest) ∧ r.length = 32 + 64 + 32 + 8 + r'.length := by
  obtain ⟨pubkey, signature, c, r', hsigner, haccepts, -, -, rfl, hd⟩ :=
    Archive.deserialize_eq_ok.mp h
  refine ⟨pubkey, signature, c.rootSighash, c.rootMaxsize, r', hsigner, hd, ?_⟩
  simp only [length_append, haccepts.key_length, haccepts.signature_length, c.length_message]
  omega

/-- An archive that is read from a file lies within it. -/
theorem readArchive_bounds (h : readArchive lib (fileSource file) depth none = .ok a) :
    headerSize ≤ file.length ∧ a.contents.sourceEnd ≤ file.length := by
  obtain ⟨⟨magicVersion, header⟩, hmagic, h⟩ := bind_eq_ok.mp h
  obtain ⟨_, -, h⟩ := bind_eq_ok.mp h
  obtain ⟨⟨a', rest⟩, ha, h⟩ := bind_eq_ok.mp h
  cases h
  obtain ⟨_, _, _, _, r', -, hcontents, hheader⟩ := deserialize_signed ha
  have hdir : 8 + 8 ≤ r'.length := by
    obtain ⟨position, size, rfl, -⟩ := MerkleArchive.DirectoryOf.exists_table hcontents
    simp only [length_append, length_ofNatBe]
    omega
  obtain ⟨hfetch, hlen⟩ := readExact_eq_ok hmagic
  have hle := congrArg List.length hfetch
  rw [fetch_fileSource, List.length_take, List.length_drop, length_append] at hle
  rw [headerSize]
  exact ⟨by omega, MerkleArchive.DirectoryOf.sourceEnd_le rfl hcontents⟩

/-- An archive that is read again from a source that has changed behind it. -/
structure SameArchive (blake3 : Bytes → Hash) (a a' : Archive SK Section) : Prop where
  signed : ∃ pubkey signature maxSize context, a.signer = .signed pubkey signature maxSize context
  hashed : (MerkleArchive.EntryContents.directory a.contents).Hashed
  signer : a'.signer = a.signer
  sourceEnd : a'.contents.sourceEnd = a.contents.sourceEnd
  copied : (MerkleArchive.EntryContents.directory a.contents).Copied blake3 (.directory a'.contents)

namespace SameArchive

variable {a' : Archive SK Section}

variable (h : SameArchive lib.blake3 a a')
include h

theorem commitment : a'.commitment lib.blake3 = a.commitment lib.blake3 := by
  have hsighash := MerkleArchive.sighash_eq_of_copied (MerkleArchive.copied_directory.mp h.copied)
  obtain ⟨pubkey, signature, maxSize, context, hsigned⟩ := h.signed
  rw [Archive.commitment, Archive.commitment, hsighash, h.signer, hsigned]

theorem extractManifest {manifest : M} (hmanifest : S9pk.extractManifest lib a = .ok manifest) :
    S9pk.extractManifest lib a' = .ok manifest := by
  rw [S9pk.extractManifest] at hmanifest ⊢
  split at hmanifest
  · cases hmanifest
  · rename_i e he
    obtain ⟨e', he', hcopied⟩ := MerkleArchive.Copied.getPath h.copied he
    have hsome := MerkleArchive.isSome_of_getPath h.hashed he
    rw [he']
    dsimp only
    rw [MerkleArchive.readFileToVec_eq_of_copied hcopied hsome]
    exact hmanifest

theorem signatures :
    signatureOf lib.blake3 lib.scheme a' = signatureOf lib.blake3 lib.scheme a := by
  obtain ⟨pubkey, signature, maxSize, context, hsigned⟩ := h.signed
  rw [signatureOf, signatureOf, h.signer, hsigned]

end SameArchive

/-- An archive is read again from a file with the same bytes up to its end. -/
theorem readArchive_reread {bound : Nat} (h : readArchive lib (fileSource file) depth none = .ok a)
    (hfront : SameFront (fileSource file) (fileSource file') bound) (hheader : headerSize ≤ bound)
    (hend : a.contents.sourceEnd ≤ bound) :
    ∃ a', readArchive lib (fileSource file') depth none = .ok a' ∧ SameArchive lib.blake3 a a' := by
  obtain ⟨⟨magicVersion, header⟩, hmagic, h⟩ := bind_eq_ok.mp h
  obtain ⟨_, hver, h⟩ := bind_eq_ok.mp h
  obtain ⟨⟨a₁, rest⟩, ha, h⟩ := bind_eq_ok.mp h
  cases h
  obtain ⟨a', ha', hsigner, hsourceEnd, hcopied⟩ := Archive.reread hfront ha hend
  have hfetch : (fileSource file').fetch 0 headerSize = (fileSource file).fetch 0 headerSize :=
    hfront.fetch (by omega)
  obtain ⟨pubkey, signature, sighash, maxSize, r', hsigned, hcontents, -⟩ := deserialize_signed ha
  refine ⟨a', ?_, ⟨_, _, _, _, hsigned⟩, ?_, hsigner, hsourceEnd, hcopied⟩
  · rw [readArchive, hfetch]
    exact bind_ok hmagic (bind_ok hver (bind_ok ha' rfl))
  · exact MerkleArchive.hashed_directory.mpr fun e he =>
      let hfile := MerkleArchive.DirectoryOf.deserialize_files hcontents e he
      ⟨hfile.1, hfile.2.1⟩

variable (lib) in
/-- The file opens as a package. -/
def Opens (file : Bytes) (p : Package SK M) : Prop := ∃ depth, openFile lib depth file = .ok p

theorem openFile_eq_ok (h : openFile lib depth file = .ok p) :
    ∃ commitment, readArchive lib (fileSource file) depth none = .ok p.archive ∧
      extractManifest lib p.archive = .ok p.manifest ∧
      p.archive.commitment lib.blake3 = .ok commitment ∧ p.size = some file.length ∧
      p.trailer = Trailer.read lib (fileSource file) commitment p.archive.contents.sourceEnd := by
  obtain ⟨a, ha, h⟩ := bind_eq_ok.mp h
  obtain ⟨manifest, hmanifest, h⟩ := bind_eq_ok.mp h
  obtain ⟨commitment, hcommit, h⟩ := bind_eq_ok.mp h
  cases h
  exact ⟨commitment, ha, hmanifest, hcommit, rfl, rfl⟩

theorem openFile_mono {depth' : Nat} (hle : depth ≤ depth') (h : openFile lib depth file = .ok p) :
    openFile lib depth' file = .ok p := by
  obtain ⟨a, ha, h⟩ := bind_eq_ok.mp h
  obtain ⟨header, hheader, ha⟩ := bind_eq_ok.mp ha
  obtain ⟨_, hmagic, ha⟩ := bind_eq_ok.mp ha
  obtain ⟨x, hx, ha⟩ := bind_eq_ok.mp ha
  have hread : readArchive lib (fileSource file) depth' none = .ok a :=
    bind_ok hheader (bind_ok hmagic (bind_ok (Archive.deserialize_mono hle hx) ha))
  exact bind_ok hread h

/-- A file opens as one package, to whatever depth it is read. -/
theorem Opens.unique {p' : Package SK M} (h : Opens lib file p) (h' : Opens lib file p') :
    p = p' := by
  obtain ⟨depth, h⟩ := h
  obtain ⟨depth', h'⟩ := h'
  have hp := openFile_mono (Nat.le_max_left depth depth') h
  have hp' := openFile_mono (Nat.le_max_right depth depth') h'
  exact Except.ok.inj (hp.symm.trans hp')

end Opening

variable {file file' : Bytes} {p p' : Package SK M} {signer : AnyVerifyingKey}
  {signature verified : AnySignature} {calls : List (AnyVerifyingKey × AnySignature)} {depth : Nat}

/-- The bytes of a file before the trailer that its package has. -/
def Package.base (p : Package SK M) (file : Bytes) : Bytes :=
  file.take (p.trailer.start.getD file.length)

theorem Package.take_base (p : Package SK M) (file : Bytes) :
    file.take (p.base file).length = p.base file :=
  (List.prefix_iff_eq_take.mp (List.take_prefix _ _)).symm

/-- What a package has to offer for another record: what stands before it, and its records. -/
structure Extensible (lib : Libraries SK M) (commitment : Commitment) (file : Bytes)
    (p : Package SK M) (records : List (Nat × Record)) : Prop where
  start : p.trailer.start.or p.size = some (p.base file).length
  region : ∀ start ∈ p.trailer.start, file = closed (p.base file) p.trailer.raw
  parse : Tlv.parse p.trailer.raw = .ok records
  signatures :
    p.trailer.signatures = (collected lib commitment (p.base file).length records).signatures
  limit : p.trailer.raw.length ≤ maxRegion
  header : headerSize ≤ (p.base file).length
  archive : p.archive.contents.sourceEnd ≤ (p.base file).length

theorem Opens.extensible (h : Opens lib file p) :
    ∃ commitment records, p.archive.commitment lib.blake3 = .ok commitment ∧
      Extensible lib commitment file p records := by
  obtain ⟨depth, h⟩ := h
  obtain ⟨commitment, hread, -, hcommit, hsize, htrailer⟩ := openFile_eq_ok h
  obtain ⟨hheader, harchive⟩ := readArchive_bounds hread
  have hplaced : Placed lib _ _ _ _ := placed_read file commitment p.archive.contents.sourceEnd
  obtain ⟨manifest, archive, size, trailer⟩ := p
  rw [← show trailer = _ from htrailer] at hplaced
  cases hplaced with
  | absent hstart hraw hsigs =>
    have hbase : Package.base ⟨manifest, archive, size, trailer⟩ file = file := by
      rw [Package.base, hstart, Option.getD_none, List.take_length]
    refine ⟨commitment, [], hcommit, ?_, ?_, ?_, hsigs, ?_, ?_, ?_⟩
    · rw [hstart, hbase, Option.none_or, hsize]
    · rw [hstart]
      intro start hmem
      cases hmem
    · rw [hraw]
      rfl
    · rw [hraw]
      exact Nat.zero_le _
    · rwa [hbase]
    · rwa [hbase]
  | @region base raw records hfile hparse hlen hheader harchive =>
    have hbase : Package.base ⟨manifest, archive, size,
        regionTrailer lib commitment base.length raw records⟩ file = base := by
      rw [Package.base, regionTrailer, Option.getD_some, hfile, closed, List.take_left]
    refine ⟨commitment, records, hcommit, ?_, ?_, hparse, ?_, hlen, ?_, ?_⟩
    · rw [hbase]
      rfl
    · rw [hbase]
      exact fun _ _ => hfile
    · rw [hbase]
      rfl
    · rwa [hbase]
    · rwa [hbase]

variable (lib) in
/-- A call is answered by the signature it gives, in the form in which it verifies. -/
def Verifies (commitment : Commitment) (call verified : AnyVerifyingKey × AnySignature) : Prop :=
  verified.1 = call.1 ∧ verifyCommitment lib call.1 commitment sigContext call.2 = .ok verified.2

variable (lib) in
/-- What a package keeps and gains when signatures are added to its file. -/
structure Grown (file : Bytes) (p : Package SK M) (calls : List (AnyVerifyingKey × AnySignature))
    (file' : Bytes) (p' : Package SK M) : Prop where
  signer : p'.archive.signer = p.archive.signer
  commitment : p'.archive.commitment lib.blake3 = p.archive.commitment lib.blake3
  sourceEnd : p'.archive.contents.sourceEnd = p.archive.contents.sourceEnd
  manifest : p'.manifest = p.manifest
  base : p'.base file' = p.base file
  records : ∃ added : List Record, p'.trailer.raw = p.trailer.raw ++ encode added
  signatures : ∃ commitment verified m m', p.archive.commitment lib.blake3 = .ok commitment ∧
    List.Forall₂ (Verifies lib commitment) calls verified ∧
    p.signatures lib = .ok m ∧ p'.signatures lib = .ok m' ∧
    ∀ key, get m' key = (get m key).or (get verified key)

theorem Opens.exists_signatures (h : Opens lib file p) : ∃ m, p.signatures lib = .ok m := by
  obtain ⟨depth, h⟩ := h
  obtain ⟨_, hread, -⟩ := openFile_eq_ok h
  obtain ⟨_, -, hread⟩ := bind_eq_ok.mp hread
  obtain ⟨_, -, hread⟩ := bind_eq_ok.mp hread
  obtain ⟨⟨a, rest⟩, ha, hread⟩ := bind_eq_ok.mp hread
  obtain ⟨pubkey, signature, sighash, maxSize, r', hsigned, -, -⟩ := deserialize_signed ha
  rw [show a = p.archive from Except.ok.inj hread] at hsigned
  refine ⟨_, bind_eq_ok.mpr ⟨signature, ?_, rfl⟩⟩
  rw [signatureOf, hsigned]

/-- Nothing is gained without a call. -/
theorem Opens.grown_nil (h : Opens lib file p) : Grown lib file p [] file p := by
  obtain ⟨commitment, -, hcommit, -⟩ := h.extensible
  obtain ⟨m, hm⟩ := h.exists_signatures
  exact ⟨rfl, rfl, rfl, rfl, rfl, ⟨[], (List.append_nil _).symm⟩, commitment, [], m, m, hcommit,
    .nil, hm, hm, fun key => (Option.or_none).symm⟩

theorem Grown.trans {file₁ : Bytes} {p₁ : Package SK M}
    {calls' : List (AnyVerifyingKey × AnySignature)} (h : Grown lib file p calls file₁ p₁)
    (h' : Grown lib file₁ p₁ calls' file' p') : Grown lib file p (calls ++ calls') file' p' := by
  obtain ⟨added, hadded⟩ := h.records
  obtain ⟨added', hadded'⟩ := h'.records
  obtain ⟨commitment, verified, m, m₁, hcommit, hverified, hm, hm₁, hget⟩ := h.signatures
  obtain ⟨commitment', verified', m₁', m', hcommit', hverified', hm₁', hm', hget'⟩ := h'.signatures
  rw [h.commitment, hcommit] at hcommit'
  cases hcommit'
  rw [hm₁] at hm₁'
  cases hm₁'
  refine ⟨h'.signer.trans h.signer, h'.commitment.trans h.commitment, h'.sourceEnd.trans h.sourceEnd,
    h'.manifest.trans h.manifest, h'.base.trans h.base, ⟨added ++ added', ?_⟩, commitment,
    verified ++ verified', m, m', hcommit, List.rel_append hverified hverified', hm, hm',
    fun key => ?_⟩
  · rw [hadded', hadded, List.append_assoc, encode, encode, encode, List.flatMap_append]
  · rw [hget', hget, OrderedMap.get_append, Option.or_assoc]

/-- What a call that succeeds has checked, and what it writes. -/
theorem append_eq_ok (h : append lib depth file signer signature = .ok file') :
    ∃ p commitment m verified, openFile lib depth file = .ok p ∧
      p.archive.commitment lib.blake3 = .ok commitment ∧ p.signatures lib = .ok m ∧
      verifyCommitment lib signer commitment sigContext signature = .ok verified ∧
      ((get m signer).isSome = true ∧ file' = file ∨
        get m signer = none ∧ ∃ record baseLen, encodeEndorsement lib signer signature = .ok record ∧
          p.trailer.raw.length + 10 + record.length ≤ maxRegion ∧
          p.trailer.start.or p.size = some baseLen ∧
          file' = file.take baseLen ++ extendedRegion p.trailer.raw record) := by
  obtain ⟨p, hopen, h⟩ := bind_eq_ok.mp h
  obtain ⟨needed, hneeded, h⟩ := bind_eq_ok.mp h
  obtain ⟨commitment, hcommit, h⟩ := bind_eq_ok.mp h
  obtain ⟨verified, hverified, h⟩ := bind_eq_ok.mp h
  obtain ⟨_, -, hneeded⟩ := bind_eq_ok.mp hneeded
  obtain ⟨m, hm, hneeded⟩ := bind_eq_ok.mp hneeded
  cases hneeded
  refine ⟨p, commitment, m, verified, hopen, hcommit, hm, hverified, ?_⟩
  split at h
  · rename_i hpresent
    cases h
    exact .inl ⟨by simpa using hpresent, rfl⟩
  · rename_i habsent
    obtain ⟨record, hrec, h⟩ := bind_eq_ok.mp h
    obtain ⟨_, hlimit, h⟩ := bind_eq_ok.mp h
    split at h
    · cases h
    · rename_i baseLen hstart
      obtain ⟨_, -, h⟩ := bind_eq_ok.mp h
      cases h
      exact .inr ⟨by simpa using habsent, record, baseLen, hrec, ensure_eq_ok.mp hlimit, hstart, rfl⟩

/-- One more record: the file is opened as the same package with one more signature. -/
theorem Extensible.grown {depth : Nat} (hlib : lib.Lawful) (hopen : openFile lib depth file = .ok p)
    {commitment : Commitment} (hcommit : p.archive.commitment lib.blake3 = .ok commitment)
    {records : List (Nat × Record)} (he : Extensible lib commitment file p records)
    {verified : AnySignature}
    (hverified : verifyCommitment lib signer commitment sigContext signature = .ok verified)
    (hrec : encodeEndorsement lib signer signature = .ok record)
    (hlimit : p.trailer.raw.length + 10 + record.length ≤ maxRegion) :
    ∃ p', openFile lib depth (p.base file ++ extendedRegion p.trailer.raw record) = .ok p' ∧
      Grown lib file p [(signer, signature)] (p.base file ++ extendedRegion p.trailer.raw record)
        p' := by
  rw [append_extendedRegion]
  have hword : record.length < 18446744073709551616 := by
    rw [maxRegion] at hlimit
    omega
  have hparse := Tlv.parse_append he.parse
    (show (⟨endorsementKind, record⟩ : Record).Fits from ⟨(by decide : endorsementKind < 65536), hword⟩)
  have hlen : (p.trailer.raw ++ (⟨endorsementKind, record⟩ : Record).bytes).length ≤
      maxRegion := by
    rw [length_append, Record.length_bytes, Tlv.headerSize]
    dsimp only
    omega
  generalize hraw : p.trailer.raw ++ (⟨endorsementKind, record⟩ : Record).bytes = raw at hparse hlen ⊢
  obtain ⟨_, hread, hmanifest, hcommit', hsize, -⟩ := openFile_eq_ok hopen
  have hfront : SameFront (fileSource file) (fileSource (closed (p.base file) raw))
      (p.base file).length := by
    refine ⟨?_, fun n hn => ?_⟩
    · change (closed (p.base file) raw).take _ = file.take _
      rw [closed, List.take_left, p.take_base]
    · cases hn
      rw [length_closed]
      omega
  obtain ⟨a', hread', hsame⟩ := readArchive_reread hread hfront he.header he.archive
  have hcommit' : a'.commitment lib.blake3 = .ok commitment := hsame.commitment.trans hcommit
  have htrailer : Trailer.read lib (fileSource (closed (p.base file) raw)) commitment
      a'.contents.sourceEnd = _ :=
    read_closed hlen he.header (hsame.sourceEnd ▸ he.archive) hparse
  refine ⟨⟨p.manifest, a', some (closed (p.base file) raw).length,
    regionTrailer lib commitment (p.base file).length raw
      (records ++ [(p.trailer.raw.length, ⟨endorsementKind, record⟩)])⟩, ?_, hsame.signer,
    hsame.commitment, hsame.sourceEnd, rfl, ?_, ⟨[⟨endorsementKind, record⟩], ?_⟩, ?_⟩
  · refine bind_ok hread' (bind_ok (hsame.extractManifest hmanifest) (bind_ok hcommit' ?_))
    rw [htrailer]
    rfl
  · exact List.take_left
  · rw [encode, List.flatMap_singleton]
    exact hraw.symm
  · obtain ⟨m, hm⟩ := Opens.exists_signatures ⟨depth, hopen⟩
    obtain ⟨embedded, hembedded, heq⟩ := bind_eq_ok.mp hm
    cases heq
    refine ⟨commitment, [(signer, verified)], _, _, hcommit, .cons ⟨rfl, hverified⟩ .nil, hm,
      bind_ok (hsame.signatures.trans hembedded) rfl, fun key => ?_⟩
    have hrecordle : record.length ≤ maxRegion := by omega
    have hkey : signerKey lib.scheme a' = signerKey lib.scheme p.archive := by
      rw [signerKey, signerKey, hsame.signer]
    rw [get_foldl_orInsert, get_foldl_orInsert, he.signatures, hkey, Option.or_assoc, regionTrailer,
      collected, List.foldl_append, ← collected, List.foldl_cons, List.foldl_nil, addRecord,
      if_neg (by simp), decodeEndorsement_encode hlib hrec hrecordle]
    dsimp only
    rw [hverified, OrderedMap.get_orInsert, get_cons (signer, verified)]
    rfl

/-- One call that succeeds. -/
theorem append_grown (hlib : lib.Lawful) (hopen : Opens lib file p)
    (h : append lib depth file signer signature = .ok file') :
    ∃ p', Opens lib file' p' ∧ Grown lib file p [(signer, signature)] file' p' := by
  obtain ⟨p₁, commitment, m, verified, hopen₁, hcommit, hm, hverified, hcases⟩ := append_eq_ok h
  obtain rfl : p = p₁ := hopen.unique ⟨depth, hopen₁⟩
  rcases hcases with ⟨hpresent, rfl⟩ | ⟨-, record, baseLen, hrec, hlimit, hstart, rfl⟩
  · refine ⟨p, hopen, rfl, rfl, rfl, rfl, rfl, ⟨[], (List.append_nil _).symm⟩, commitment,
      [(signer, verified)], m, m, hcommit, .cons ⟨rfl, hverified⟩ .nil, hm, hm, fun key => ?_⟩
    obtain ⟨kept, hkept⟩ := Option.isSome_iff_exists.mp hpresent
    rw [get_cons]
    split
    · rename_i hkey
      subst hkey
      rw [hkept, Option.some_or]
    · exact (Option.or_none).symm
  · obtain ⟨commitment', records, hcommit', he⟩ := hopen.extensible
    rw [hcommit] at hcommit'
    cases hcommit'
    obtain rfl : (p.base file).length = baseLen := Option.some.inj (he.start.symm.trans hstart)
    obtain ⟨p', hopen', hgrown⟩ := he.grown hlib hopen₁ hcommit hverified hrec hlimit
    rw [p.take_base]
    exact ⟨p', ⟨depth, hopen'⟩, hgrown⟩

variable (lib) in
/-- Calls that succeed, one after another. -/
inductive Appends : Bytes → List (AnyVerifyingKey × AnySignature) → Bytes → Prop
  | nil (file : Bytes) : Appends file [] file
  | cons {file file₁ file' : Bytes} {depth : Nat} {call : AnyVerifyingKey × AnySignature}
      {rest : List (AnyVerifyingKey × AnySignature)}
      (head : append lib depth file call.1 call.2 = .ok file₁) (tail : Appends file₁ rest file') :
      Appends file (call :: rest) file'

theorem Appends.grown (hlib : lib.Lawful)
    (hrun : Appends lib file calls file') (hopen : Opens lib file p) :
    ∃ p', Opens lib file' p' ∧ Grown lib file p calls file' p' := by
  induction hrun generalizing p with
  | nil file => exact ⟨p, hopen, hopen.grown_nil⟩
  | @cons file file₁ file' depth call rest head tail ih =>
    obtain ⟨p₁, hopen₁, hgrown₁⟩ := append_grown hlib hopen head
    obtain ⟨p', hopen', hgrown'⟩ := ih hopen₁
    exact ⟨p', hopen', hgrown₁.trans hgrown'⟩

/-- Calls that succeed on the file of a package leave a file that opens. What stood before the
trailer is unchanged, the records are those there were and more, and the signatures are those
there were and what the calls gave. The records keep to their limit and to the bytes behind the
archive, and a further call for a signer with a signature changes nothing. -/
theorem endorsements_only_grow (hlib : lib.Lawful) {calls : List (AnyVerifyingKey × AnySignature)}
    (hopen : Opens lib file p) (hrun : Appends lib file calls file') :
    (∃ p', Opens lib file' p') ∧ ∀ p', Opens lib file' p' →
      Grown lib file p calls file' p' ∧ p'.trailer.raw.length ≤ maxRegion ∧
      p'.archive.contents.sourceEnd ≤ (p'.base file').length ∧
      (∀ start ∈ p'.trailer.start, file' = closed (p'.base file') p'.trailer.raw) ∧
      ∀ m signer signature, p'.signatures lib = .ok m → (OrderedMap.get m signer).isSome = true →
        ∀ depth file'', append lib depth file' signer signature = .ok file'' → file'' = file' := by
  obtain ⟨p₁, hopen₁, hgrown⟩ := hrun.grown hlib hopen
  refine ⟨⟨p₁, hopen₁⟩, fun p' hopen' => ?_⟩
  obtain rfl := hopen₁.unique hopen'
  obtain ⟨commitment, records, -, he⟩ := hopen₁.extensible
  refine ⟨hgrown, he.limit, he.archive, he.region,
    fun m signer signature hm hpresent depth file'' h => ?_⟩
  obtain ⟨p₂, _, m₂, _, hopen₂, -, hm₂, -, hcases⟩ := append_eq_ok h
  obtain rfl := hopen₁.unique ⟨depth, hopen₂⟩
  obtain rfl : m = m₂ := Except.ok.inj (hm.symm.trans hm₂)
  rcases hcases with ⟨-, hsame⟩ | ⟨habsent, -⟩
  · exact hsame
  · rw [habsent] at hpresent
    cases hpresent

/-- Libraries with one hash and one key, which accept every signature. -/
def sampleLibraries : Libraries Unit Unit where
  blake3 _ := ⟨List.replicate 32 0, by decide⟩
  scheme :=
    { verifyingKey := fun _ => List.replicate 32 0
      isVerifyingKey := fun _ => true
      sign := fun _ _ _ => .ok (List.replicate 64 0)
      verify := fun _ _ _ _ => true }
  verifyStrict _ _ _ := true
  keyToDer
    | .ed25519 key => .ok (0 :: key)
  keyFromDer
    | 0 :: key => .ok (.ed25519 key)
    | _ => .error invalidRecord
  signatureToDer
    | .ed25519 signature => .ok (0 :: signature)
    | .ed25519ph signature => .ok (1 :: signature)
  signatureFromDer
    | 0 :: signature => .ok (.ed25519 signature)
    | 1 :: signature => .ok (.ed25519ph signature)
    | _ => .error invalidRecord
  parseManifest _ := .ok ()

theorem sampleLibraries_lawful : sampleLibraries.Lawful where
  key {key bytes} h := by
    cases h
    exact ⟨nofun, rfl⟩
  signature {signature bytes} h := by
    cases signature
    · cases h
      exact ⟨nofun, rfl⟩
    · cases h
      exact ⟨nofun, rfl⟩

/-- A package with an empty manifest and nothing else. -/
def samplePackage : Bytes :=
  magicAndVersion ++ (List.replicate 128 0 ++ (ofNatBe 8 64 ++ (ofNatBe 8 155 ++
    (ofNatBe 8 64 ++ ([1, 13] ++ (manifestName.bytes ++ (List.replicate 40 0 ++
      (1 :: ofNatBe 8 219))))))))

/-- Two signers, one after the other. -/
def sampleCalls : List (AnyVerifyingKey × AnySignature) :=
  [(.ed25519 [1], .ed25519ph [2]), (.ed25519 [3], .ed25519 [4])]

theorem endorsements_only_grow_two : ∃ p file' p', Opens sampleLibraries samplePackage p ∧
    Appends sampleLibraries samplePackage sampleCalls file' ∧ Opens sampleLibraries file' p' ∧
    Grown sampleLibraries samplePackage p sampleCalls file' p' := by
  obtain ⟨p, hp⟩ := exists_ok_of_toBool
    (show (openFile sampleLibraries 2 samplePackage).toBool = true by decide +kernel)
  obtain ⟨file', hcalls⟩ := exists_ok_of_toBool (show (sampleCalls.foldlM (fun file call =>
    append sampleLibraries 2 file call.1 call.2) samplePackage).toBool = true by decide +kernel)
  obtain ⟨file₁, hfirst, hrest⟩ := Fallible.bind_eq_ok.mp hcalls
  obtain ⟨file₂, hsecond, hlast⟩ := Fallible.bind_eq_ok.mp hrest
  cases hlast
  have hopen : Opens sampleLibraries samplePackage p := ⟨2, hp⟩
  have hrun : Appends sampleLibraries samplePackage sampleCalls file' :=
    .cons hfirst (.cons hsecond (.nil file'))
  obtain ⟨⟨p', hopen'⟩, hgrown⟩ := endorsements_only_grow sampleLibraries_lawful hopen hrun
  exact ⟨p, file', p', hopen, hrun, hopen', (hgrown p' hopen').1⟩

end StartTech.S9pk

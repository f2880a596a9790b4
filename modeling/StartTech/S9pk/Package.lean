import StartTech.Foundation.Tlv
import StartTech.MerkleArchive.Archive

/-!
# Packages and their endorsements

A package is an archive behind a magic number. A trailer at the end of the file may hold
records, of which those of one type are signatures of the archive by further keys. The
trailer is found from the end of the file, and a signature is added by writing the part
before it again with one more record.

## Implementation notes

What libraries do is a parameter: hashing, signatures, their encodings and the manifest.
A file is its bytes; a call that fails leaves it as it is. Messages are the keys of the
translated texts.
-/

namespace StartTech.S9pk

open Foundation
open MerkleArchive (Archive Commitment Error FileSource Hash Name Section SignatureScheme Source
  ensure readExact)

inductive AnyVerifyingKey
  | ed25519 (key : Bytes)
  deriving DecidableEq

def AnyVerifyingKey.asBytes : AnyVerifyingKey → Bytes
  | .ed25519 key => key

/-- Keys are ordered by their bytes. -/
instance : Ord AnyVerifyingKey := ⟨fun a b => compare a.asBytes b.asBytes⟩

inductive AnySignature
  | ed25519 (signature : Bytes)
  | ed25519ph (signature : Bytes)
  deriving DecidableEq

/-- A map in the order of the keys. -/
abbrev SignatureMap := List (AnyVerifyingKey × AnySignature)

structure Libraries (SK M : Type) where
  blake3 : Bytes → Hash
  scheme : SignatureScheme SK
  verifyStrict : Bytes → Bytes → Bytes → Bool
  keyToDer : AnyVerifyingKey → Except Error Bytes
  keyFromDer : Bytes → Except Error AnyVerifyingKey
  signatureToDer : AnySignature → Except Error Bytes
  signatureFromDer : Bytes → Except Error AnySignature
  parseManifest : Bytes → Except Error M

variable {SK M : Type} (lib : Libraries SK M)

/-- The text `Start-Commitment-Sig v1` and a zero. -/
def commitmentSigTag : Bytes :=
  [83, 116, 97, 114, 116, 45, 67, 111, 109, 109, 105, 116, 109, 101, 110, 116, 45, 83, 105, 103,
    32, 118, 49, 0]

/-- The number of the type of commitments to archives. -/
def typeId : UInt8 := 2

def signingMessage (tag : Bytes) (commitment : Commitment) (context : Bytes) :
    Except Error Bytes := do
  ensure (context.length < 256) ⟨.invalidRequest, "sign.context-too-long"⟩
  return tag ++ UInt8.ofNat context.length :: (context ++ typeId :: commitment.message)

def signatureError : Error := ⟨.invalidSignature, "signature error"⟩

def AnyVerifyingKey.verifyCommitment (key : AnyVerifyingKey) (commitment : Commitment)
    (context : Bytes) (signature : AnySignature) : Except Error Unit :=
  match key, signature with
  | .ed25519 k, .ed25519ph s =>
    ensure (lib.scheme.verify k commitment.message context s = true) signatureError
  | .ed25519 k, .ed25519 s => do
    let message ← signingMessage commitmentSigTag commitment context
    ensure (lib.verifyStrict k message s = true) signatureError

/-- A verified signature with its canonical algorithm. -/
def verifyCommitment (key : AnyVerifyingKey) (commitment : Commitment) (context : Bytes)
    (signature : AnySignature) : Except Error AnySignature :=
  match key.verifyCommitment lib commitment context signature with
  | .ok () => .ok signature
  | .error e =>
    match key, signature with
    | .ed25519 k, .ed25519 s =>
      if lib.scheme.verify k commitment.message context s then .ok (.ed25519ph s) else .error e
    | .ed25519 _, .ed25519ph _ => .error e

def maxRegion : Nat := 1048576

/-- The text `S9PKEXT1`. -/
def magic : Bytes := [83, 57, 80, 75, 69, 88, 84, 49]

def magicAndVersion : Bytes := [59, 59, 2]

/-- The text `s9pk`. -/
def sigContext : Bytes := [115, 57, 112, 107]

/-- The bytes in front of a package: key, signature, hash, size and root directory. -/
def headerSize : Nat := 3 + (32 + 64 + 32 + 8 + (8 + 8))

inductive DiagnosticKind
  | readFailed
  | unknownSize
  | unsupportedVersion
  | invalidFraming
  | invalidRecord
  | invalidSignature
  deriving DecidableEq, Repr

def DiagnosticKind.message : DiagnosticKind → String
  | .readFailed => "s9pk.trailer.read-failed"
  | .unknownSize => "s9pk.trailer.unknown-size"
  | .unsupportedVersion => "s9pk.trailer.unsupported-version"
  | .invalidFraming => "s9pk.trailer.invalid-framing"
  | .invalidRecord => "s9pk.trailer.invalid-record"
  | .invalidSignature => "s9pk.trailer.invalid-signature"

structure Diagnostic where
  kind : DiagnosticKind
  message : String
  offset : Option Nat
  deriving DecidableEq, Repr

structure Trailer where
  signatures : SignatureMap := []
  diagnostics : List Diagnostic := []
  start : Option Nat := none
  raw : Bytes := []
  editable : Bool := false
  present : Bool := false

def Trailer.diagnose (t : Trailer) (kind : DiagnosticKind) (offset : Option Nat) : Trailer :=
  { t with diagnostics := t.diagnostics ++ [⟨kind, kind.message, offset⟩] }

def invalidRecord : Error := ⟨.parseS9pk, "s9pk.trailer.invalid-record"⟩

def decodeEndorsement (value : Bytes) : Except Error (AnyVerifyingKey × AnySignature) := do
  ensure (8 ≤ value.length) invalidRecord
  let length := Bytes.toNatBe (value.take 8)
  ensure (8 + length < Text.wordLimit) invalidRecord
  ensure (¬ (length = 0 ∨ 8 + length ≥ value.length)) invalidRecord
  let key ← lib.keyFromDer ((value.drop 8).take length)
  let signature ← lib.signatureFromDer (value.drop (8 + length))
  return (key, signature)

def encodeEndorsement (key : AnyVerifyingKey) (signature : AnySignature) : Except Error Bytes := do
  let key ← lib.keyToDer key
  let signature ← lib.signatureToDer signature
  return Bytes.ofNatBe 8 key.length ++ (key ++ signature)

/-- The type of records that are endorsements. -/
def endorsementKind : Nat := 1

/-- What a record in a region that starts at a position adds. -/
def Trailer.addRecord (commitment : Commitment) (start : Nat) (t : Trailer)
    (x : Nat × Tlv.Record) : Trailer :=
  if x.2.kind ≠ endorsementKind then t
  else
    match decodeEndorsement lib x.2.value with
    | .error _ => { t with editable := false }.diagnose .invalidRecord (some (start + x.1))
    | .ok (key, signature) =>
      match verifyCommitment lib key commitment sigContext signature with
      | .ok signature => { t with signatures := OrderedMap.orInsert t.signatures key signature }
      | .error _ => t.diagnose .invalidSignature (some (start + x.1))

/-- Read the records between an archive and a footer at the end of the source. -/
def Trailer.readRegion (source : Source) (commitment : Commitment) (start length : Nat) :
    Except Error Trailer := do
  let (raw, _) ← readExact length (source.fetch start length)
  match Tlv.parse raw with
  | .error pos =>
    return Trailer.diagnose { present := true } .invalidFraming (some (start + pos))
  | .ok records =>
    let t := records.foldl (Trailer.addRecord lib commitment start)
      { present := true, editable := true }
    return { t with raw := raw, start := some start }

def Trailer.discover (source : Source) (commitment : Commitment) (archiveEnd : Nat) :
    Except Error Trailer :=
  match source.size with
  | none => .ok (Trailer.diagnose { editable := false } .unknownSize none)
  | some size =>
    if size < 16 then .ok { editable := true }
    else do
      let (footer, _) ← readExact 16 (source.fetch (size - 16) 16)
      if (footer.drop 8).take 7 ≠ magic.take 7 then return { editable := true }
      else if footer.drop 8 ≠ magic then
        return Trailer.diagnose { present := true } .unsupportedVersion (some (size - 8))
      else
        let length := Bytes.toNatBe (footer.take 8)
        if length ≤ size - 16 ∧ length ≤ maxRegion ∧ headerSize ≤ size - 16 - length ∧
            archiveEnd ≤ size - 16 - length then
          Trailer.readRegion lib source commitment (size - 16 - length) length
        else return Trailer.diagnose { present := true } .invalidFraming (some (size - 16))

def Trailer.read (source : Source) (commitment : Commitment) (archiveEnd : Nat) : Trailer :=
  match Trailer.discover lib source commitment archiveEnd with
  | .ok t => t
  | .error _ => Trailer.diagnose {} .readFailed none

variable {S : Type}

def signerKey (scheme : SignatureScheme SK) (a : Archive SK S) : Bytes :=
  match a.signer with
  | .signed pubkey _ _ _ => pubkey
  | .signer key _ => scheme.verifyingKey key

def signatureOf [FileSource S] (blake3 : Bytes → Hash) (scheme : SignatureScheme SK)
    (a : Archive SK S) : Except Error Bytes :=
  match a.signer with
  | .signed _ signature _ _ => .ok signature
  | .signer key context => do
    let commitment ← a.commitment blake3
    scheme.sign key commitment.message context

structure Package (SK M : Type) where
  manifest : M
  archive : Archive SK Section
  size : Option Nat
  trailer : Trailer

/-- The embedded signature, and those of the trailer by other keys. -/
def Package.signatures (p : Package SK M) : Except Error SignatureMap := do
  let signature ← signatureOf lib.blake3 lib.scheme p.archive
  return p.trailer.signatures.foldl (fun m e => OrderedMap.orInsert m e.1 e.2)
    [(.ed25519 (signerKey lib.scheme p.archive), .ed25519ph signature)]

def editRefused : String := "s9pk.trailer.edit-refused"

def Package.needsEndorsement (p : Package SK M) (signer : AnyVerifyingKey) :
    Except Error Bool := do
  ensure (p.trailer.editable = true) ⟨.parseS9pk, editRefused⟩
  let signatures ← p.signatures lib
  return !(OrderedMap.get signatures signer).isSome

/-- The name `manifest.json`. -/
def manifestName : Name where
  bytes := [109, 97, 110, 105, 102, 101, 115, 116, 46, 106, 115, 111, 110]
  valid := by decide

def extractManifest (a : Archive SK Section) : Except Error M :=
  match a.contents.getPath [manifestName] with
  | none => .error ⟨.notFound, "manifest.json"⟩
  | some e => do
    let bytes ← e.readFileToVec lib.blake3
    lib.parseManifest bytes

def readArchive (source : Source) (depth : Nat) (commitment : Option Commitment) :
    Except Error (Archive SK Section) := do
  let (magicVersion, header) ← readExact 3 (source.fetch 0 headerSize)
  ensure (magicVersion = magicAndVersion) ⟨.parseS9pk, "Invalid Magic or Unexpected Version"⟩
  let (a, _) ← Archive.deserialize lib.blake3 lib.scheme source depth sigContext header commitment
  return a

/-- Read a package with what is behind its archive. -/
def deserializeLocal (source : Source) (depth : Nat) (commitment : Option Commitment) :
    Except Error (Package SK M) := do
  let a ← readArchive lib source depth commitment
  let manifest ← extractManifest lib a
  let commitment ← a.commitment lib.blake3
  return ⟨manifest, a, source.size,
    Trailer.read lib source commitment a.contents.sourceEnd⟩

/-- The source that a file is. -/
def fileSource (file : Bytes) : Source where
  bytes := file
  size := some file.length
  size_eq _ hn := (Option.some.inj hn).symm

def openFile (depth : Nat) (file : Bytes) : Except Error (Package SK M) :=
  deserializeLocal lib (fileSource file) depth none

/-- The records of a region with one more, and the footer. -/
def extendedRegion (raw record : Bytes) : Bytes :=
  let length := raw.length + 10 + record.length
  raw ++ (Bytes.ofNatBe 2 endorsementKind ++ (Bytes.ofNatBe 8 record.length ++ (record ++
    (Bytes.ofNatBe 8 length ++ magic))))

/-- The new contents of a file to which a signature is added. -/
def append (depth : Nat) (file : Bytes) (signer : AnyVerifyingKey) (signature : AnySignature) :
    Except Error Bytes := do
  let package ← openFile lib depth file
  let needed ← package.needsEndorsement lib signer
  let commitment ← package.archive.commitment lib.blake3
  let _ ← verifyCommitment lib signer commitment sigContext signature
  if needed = false then return file
  else do
    let record ← encodeEndorsement lib signer signature
    ensure (package.trailer.raw.length + 10 + record.length ≤ maxRegion)
      ⟨.parseS9pk, "s9pk.trailer.too-large"⟩
    match package.trailer.start.or package.size with
    | none => .error ⟨.parseS9pk, "s9pk.trailer.unknown-size"⟩
    | some baseLen => do
      let copied := file.take baseLen
      ensure (copied.length = baseLen) ⟨.filesystem, editRefused⟩
      return copied ++ extendedRegion package.trailer.raw record

end StartTech.S9pk

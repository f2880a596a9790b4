import StartTech.Foundation.Bytes
import StartTech.Foundation.Text

/-!
# The superblock and its replicas

The superblock holds the master key, sealed under a key that is derived from the
password. It is kept in two replicas. Loading takes the best replica that opens and
writes it back to all of them when they do not agree.

## Implementation notes

A replica is its envelope of thirty bytes and the sealed body behind it. Sealing, key
derivation and the encoding of the body are operations of a vault; `Vault.Lawful`
says of them what their documentation says. The salt and the nonce of a write are
given with it, and so is how many replicas it gets to write.
-/

namespace StartTech.BackupFs

open Foundation

inductive ErrorKind
  | badChecksum
  | badCrypt
  | encode
  | decode
  | readOnly
  | unsupportedFormat (message : String)
  deriving DecidableEq, Repr

/-- Refuse a format where a condition holds. -/
def refuseIf (c : Prop) [Decidable c] (message : String) : Except ErrorKind Unit :=
  if c then .error (.unsupportedFormat message) else .ok ()

@[simp] theorem refuseIf_eq_ok {c : Prop} [Decidable c] {message : String} {u : Unit} :
    refuseIf c message = .ok u ↔ ¬ c := by
  unfold refuseIf
  split
  · simp [*]
  · simp [*]

structure EccParams where
  data : Nat
  parity : Nat
  deriving DecidableEq, Repr

def maxShards : Nat := 255

def EccParams.validate (p : EccParams) : Except ErrorKind Unit :=
  refuseIf (p.data = 0 ∨ p.parity = 0 ∨ maxShards < p.data + p.parity)
    ("invalid ECC params " ++ toString p.data ++ "+" ++ toString p.parity ++
      " (need data>0, parity>0, sum≤" ++ toString maxShards ++ ")")

def chunkSize : Nat := 1048576

def formatVersion : Nat := 2

def supportedFormatVersion : Nat := formatVersion

def bincodeStandardV2 : Nat := 1

def pathHashSchemeV1 : Nat := 1

def direntHashSchemeV1 : Nat := 1

def maxDirMaxBucket : Nat := 100000

structure Constants where
  chunkSize : Nat
  bincodeEncoding : Nat
  pathHashScheme : Nat
  direntHashScheme : Nat
  eccData : Nat
  eccParity : Nat
  inlineThreshold : Nat
  packMax : Nat
  segmentSize : Nat
  dirSpill : Nat
  dirMaxBucket : Nat
  deriving DecidableEq, Repr

namespace Constants

def ecc (c : Constants) : EccParams := ⟨c.eccData, c.eccParity⟩

def validate (c : Constants) : Except ErrorKind Unit := do
  refuseIf (c.chunkSize ≠ BackupFs.chunkSize)
    ("chunk_size " ++ toString c.chunkSize ++ " differs from this build's " ++
      toString BackupFs.chunkSize ++ "; the data was written with a different block size and " ++
      "needs an explicit migration, not a remount")
  refuseIf (c.bincodeEncoding ≠ bincodeStandardV2)
    ("bincode encoding " ++ toString c.bincodeEncoding ++ " unsupported (this build writes " ++
      toString bincodeStandardV2 ++ ")")
  refuseIf (c.pathHashScheme ≠ pathHashSchemeV1)
    ("path hash scheme " ++ toString c.pathHashScheme ++ " unsupported")
  refuseIf (c.direntHashScheme ≠ direntHashSchemeV1)
    ("dirent hash scheme " ++ toString c.direntHashScheme ++ " unsupported")
  c.ecc.validate
  refuseIf (c.chunkSize < c.inlineThreshold)
    ("inline_threshold " ++ toString c.inlineThreshold ++ " exceeds chunk_size " ++
      toString c.chunkSize)
  refuseIf (c.chunkSize < c.packMax ∨ c.packMax < c.inlineThreshold)
    ("pack_max " ++ toString c.packMax ++ " outside [inline_threshold " ++
      toString c.inlineThreshold ++ ", chunk_size " ++ toString c.chunkSize ++ "]")
  refuseIf (c.segmentSize < 4096)
    ("segment_size " ++ toString c.segmentSize ++ " below minimum 4096")
  refuseIf (c.dirSpill = 0 ∨ c.dirMaxBucket = 0)
    "dir_spill / dir_max_bucket must be non-zero"
  refuseIf (maxDirMaxBucket < c.dirMaxBucket)
    ("dir_max_bucket " ++ toString c.dirMaxBucket ++ " exceeds the supported maximum " ++
      toString maxDirMaxBucket)

end Constants

inductive Binding
  | superblock
  | record
  | state
  | transaction
  | catalog
  | legacy
  deriving DecidableEq, Repr

structure Superblock (K : Type) where
  key : K
  constants : Constants
  generation : Nat
  createdUnix : Nat
  formatVersion : Nat
  migrationPending : Bool

/-- The sealed body of a superblock. -/
structure Body (K : Type) where
  formatVersion : Nat
  generation : Nat
  createdUnix : Nat
  masterKey : K
  constants : Constants
  features : Nat

/-- Key derivation, sealing and the encoding of bodies; `P` are encoded bodies, `S`
sealed ones and `K` keys. -/
structure Vault (P S K : Type) where
  deriveKey : Text → Bytes → Nat → Except ErrorKind K
  encode : Body K → Except ErrorKind P
  decode : P → Except ErrorKind (Body K)
  sealBound : P → K → EccParams → Binding → Nat → S
  openLegacy : S → K → Except ErrorKind P
  openBound : S → K → Binding → Except ErrorKind P
  isLegacy : S → Bool

/-- A stored replica. A file shorter than an envelope is all envelope. -/
structure Replica (S : Type) where
  envelope : Bytes
  sealed : S

def sbMagic : Bytes := [66, 75, 83, 66]

def envelopeVer : UInt8 := 1

def kdfPbkdf2HmacSha256 : UInt8 := 1

def pbkdf2Rounds : Nat := 600000

def minKdfRounds : Nat := 100000

def maxKdfRounds : Nat := 4000000

def saltLen : Nat := 16

def envelopeLen : Nat := 14 + saltLen

variable {P S K : Type}

def envelopeFormat (raw : Replica S) : Except ErrorKind Nat := do
  refuseIf (raw.envelope.length < envelopeLen ∨ raw.envelope.take 4 ≠ sbMagic)
    "not a backup-fs superblock (an older unversioned store, or a corrupt/truncated header)"
  return Bytes.toNatLe ((raw.envelope.drop 5).take 4)

/-- The checks of the envelope, up to the salt. -/
def checkEnvelope (raw : Replica S) : Except ErrorKind (Nat × Bytes) := do
  let version ← envelopeFormat raw
  let envelope := raw.envelope.getD 4 0
  refuseIf (envelope ≠ envelopeVer)
    ("superblock envelope version " ++ toString envelope.toNat ++
      " unsupported (this build understands " ++ toString envelopeVer.toNat ++ ")")
  refuseIf (version = 0 ∨ supportedFormatVersion < version)
    ("unsupported filesystem format version " ++ toString version ++
      "; this build supports 1..=" ++ toString supportedFormatVersion ++
      " (a higher value was written by a newer backup-fs — upgrade the software)")
  let kdfAlgo := raw.envelope.getD 9 0
  refuseIf (kdfAlgo ≠ kdfPbkdf2HmacSha256) ("unknown KDF algorithm id " ++ toString kdfAlgo.toNat)
  let kdfRounds := Bytes.toNatLe ((raw.envelope.drop 10).take 4)
  refuseIf (kdfRounds < minKdfRounds ∨ maxKdfRounds < kdfRounds)
    ("superblock KDF rounds " ++ toString kdfRounds ++ " outside accepted range [" ++
      toString minKdfRounds ++ ", " ++ toString maxKdfRounds ++ "]")
  refuseIf (kdfRounds ≠ pbkdf2Rounds)
    ("superblock KDF rounds " ++ toString kdfRounds ++ " differ from this build's " ++
      toString pbkdf2Rounds)
  return (version, (raw.envelope.drop 14).take saltLen)

def migrationPendingBit : Nat := 1

/-- The checks of an opened body. -/
def checkBody (version : Nat) (body : Body K) : Except ErrorKind (Superblock K) := do
  refuseIf (body.formatVersion ≠ version)
    "superblock envelope/body version mismatch (corrupt or tampered header)"
  -- the one known feature is bit 0, and only from the second format on
  refuseIf (migrationPendingBit < body.features ∨ (version = 1 ∧ body.features ≠ 0))
    "unknown superblock features"
  body.constants.validate
  return { key := body.masterKey, constants := body.constants, generation := body.generation,
           createdUnix := body.createdUnix, formatVersion := version,
           migrationPending := body.features == migrationPendingBit }

variable (v : Vault P S K)

def openSealed (version : Nat) (sealed : S) (key : K) : Except ErrorKind P :=
  if version = 1 then v.openLegacy sealed key else v.openBound sealed key .superblock

def parseOne (raw : Replica S) (password : Text) : Except ErrorKind (Superblock K) := do
  let (version, salt) ← checkEnvelope raw
  let key ← v.deriveKey password salt pbkdf2Rounds
  let plain ← openSealed v version raw.sealed key
  let body ← v.decode plain
  checkBody version body

/-- What reading the file of a replica gives. -/
inductive Stored (S : Type)
  | missing
  | unreadable (error : ErrorKind)
  | file (raw : Replica S)

structure Replicas (S : Type) where
  primary : Stored S
  backup : Stored S

def Replicas.paths (r : Replicas S) : List (Stored S) := [r.primary, r.backup]

/-- The body of a superblock as it is persisted. -/
def Superblock.body (sb : Superblock K) : Body K where
  formatVersion := sb.formatVersion
  generation := sb.generation
  createdUnix := sb.createdUnix
  masterKey := sb.key
  constants := sb.constants
  features := if sb.migrationPending then migrationPendingBit else 0

/-- The random choices of a write and the number of replicas it gets to write. -/
structure Write where
  salt : Bytes
  salt_length : salt.length = saltLen
  nonce : Nat
  replicas : Nat

def envelopeOf (version : Nat) (salt : Bytes) : Bytes :=
  sbMagic ++ [envelopeVer] ++ Bytes.ofNatLe 4 version ++ [kdfPbkdf2HmacSha256] ++
    Bytes.ofNatLe 4 pbkdf2Rounds ++ salt

/-- The file that `persist` writes to every replica. -/
def Superblock.seal (sb : Superblock K) (password : Text) (w : Write) :
    Except ErrorKind (Replica S) := do
  let key ← v.deriveKey password w.salt pbkdf2Rounds
  let bodyBytes ← v.encode sb.body
  let binding := if sb.formatVersion = 1 then Binding.legacy else Binding.superblock
  return ⟨envelopeOf sb.formatVersion w.salt,
    v.sealBound bodyBytes key sb.constants.ecc binding w.nonce⟩

/-- The backup is written first and the primary last. -/
def Replicas.write (r : Replicas S) (file : Replica S) : Nat → Replicas S
  | 0 => r
  | 1 => { r with backup := .file file }
  | _ => ⟨.file file, .file file⟩

/-- Write all replicas anew, as far as the writes succeed. -/
def Superblock.persist (sb : Superblock K) (r : Replicas S) (password : Text) (w : Write) :
    Replicas S :=
  match sb.seal v password w with
  | .ok file => r.write file w.replicas
  | .error _ => r

/-- What the loop over the replicas has found. -/
structure Found (K : Type) where
  best : Option (Superblock K)
  generations : List (Nat × Nat)
  badChecksum : Nat
  lastErr : Option ErrorKind

/-- The better of two superblocks; the earlier one when they are equally good. -/
def Superblock.better (prev sb : Superblock K) : Superblock K :=
  if sb.formatVersion < prev.formatVersion ∨
      (sb.formatVersion = prev.formatVersion ∧ sb.generation ≤ prev.generation) then prev
  else sb

/-- Whether a replica is of the current format. -/
def isCurrent (raw : Replica S) : Bool :=
  match envelopeFormat raw with
  | .ok version => version == formatVersion && !v.isLegacy raw.sealed
  | .error _ => false

/-- Whether a replica is passed over because a newer one exists. -/
def passedOver (hasCurrent : Bool) (raw : Replica S) : Bool :=
  hasCurrent && match envelopeFormat raw with
    | .ok version => version == 1
    | .error _ => false

def Found.add (f : Found K) (parsed : Except ErrorKind (Superblock K)) : Found K :=
  match parsed with
  | .ok sb =>
    { f with
      generations := f.generations ++ [(sb.formatVersion, sb.generation)]
      best := some (match f.best with
        | some prev => prev.better sb
        | none => sb) }
  | .error e =>
    { f with
      badChecksum := if e = .badChecksum then f.badChecksum + 1 else f.badChecksum
      lastErr := some e }

def Replicas.candidates (r : Replicas S) : List (Replica S) :=
  r.paths.filterMap fun stored =>
    match stored with
    | .file raw => some raw
    | _ => none

def Replicas.readError (r : Replicas S) : Option ErrorKind :=
  r.paths.foldl (fun last stored =>
    match stored with
    | .unreadable e => some e
    | _ => last) none

/-- The replicas that are parsed. -/
def Replicas.considered (r : Replicas S) : List (Replica S) :=
  r.candidates.filter fun raw => !passedOver (r.candidates.any (isCurrent v)) raw

def Replicas.find (r : Replicas S) (password : Text) : Found K :=
  ((r.considered v).map fun raw => parseOne v raw password).foldl Found.add
    ⟨none, [], 0, r.readError⟩

def Found.needsHeal (f : Found K) (sb : Superblock K) : Bool :=
  decide (f.generations.length ≠ 2) ||
    f.generations.any fun pair => decide (pair ≠ (sb.formatVersion, sb.generation))

/-- Load the superblock, and write it back to all replicas where they differ. A write
that fails only costs redundancy. -/
def load (r : Replicas S) (password : Text) (readonly : Bool) (heal : Write) :
    Except ErrorKind (Superblock K) × Replicas S :=
  let f := r.find v password
  match f.best with
  | some sb =>
    (.ok sb, if f.needsHeal sb && !readonly && !sb.migrationPending then
      sb.persist v r password heal else r)
  | none =>
    if 0 < f.badChecksum then (.error .badChecksum, r)
    else (.error (f.lastErr.getD (.unsupportedFormat "no readable superblock replica found")), r)

/-- What a mounted store keeps of its superblock. -/
structure Controller (K : Type) where
  key : K
  constants : Constants
  sbGeneration : Nat
  createdUnix : Nat
  formatVersion : Nat
  readonly : Bool

/-- The superblock that a password change persists; the counter is a machine word. -/
def Controller.nextSuperblock (c : Controller K) : Superblock K where
  key := c.key
  constants := c.constants
  generation := (c.sbGeneration + 1) % Text.wordLimit
  createdUnix := c.createdUnix
  formatVersion := c.formatVersion
  migrationPending := false

def Controller.changePassword (c : Controller K) (r : Replicas S) (password : Text) (w : Write) :
    Except ErrorKind (Controller K) × Replicas S :=
  if c.readonly then (.error .readOnly, r)
  else
    (.ok { c with sbGeneration := (c.sbGeneration + 1) % Text.wordLimit },
      c.nextSuperblock.persist v r password w)

/-- What is documented of the vault: a password gives a key, and a sealed body opens under its
key and under no other. -/
structure Vault.Lawful : Prop where
  derives : ∀ password salt, ∃ key, v.deriveKey password salt pbkdf2Rounds = .ok key
  encodes : ∀ body, ∃ plain, v.encode body = .ok plain ∧ v.decode plain = .ok body
  open_seal : ∀ plain key ecc nonce, ecc.validate = .ok () →
    v.openBound (v.sealBound plain key ecc .superblock nonce) key .superblock = .ok plain
  open_seal_legacy : ∀ plain key ecc nonce, ecc.validate = .ok () →
    v.openLegacy (v.sealBound plain key ecc .legacy nonce) key = .ok plain
  open_unique : ∀ {sealed : S} {key key' : K} {plain plain' : P},
    v.openBound sealed key .superblock = .ok plain →
      v.openBound sealed key' .superblock = .ok plain' → key = key'
  open_unique_legacy : ∀ {sealed : S} {key key' : K} {plain plain' : P},
    v.openLegacy sealed key = .ok plain → v.openLegacy sealed key' = .ok plain' → key = key'

/-- Two passwords give different keys, whatever the salt. That is not so of all different
passwords: the derivation pads them with zeros. -/
def Vault.TellsApart (p q : Text) : Prop :=
  ∀ salt key, v.deriveKey p salt pbkdf2Rounds = .ok key →
    v.deriveKey q salt pbkdf2Rounds ≠ .ok key

end StartTech.BackupFs

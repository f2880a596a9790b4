import StartTech.MerkleArchive.Format
import Mathlib.Data.List.Sort

/-!
# Merkle archives

A directory is a map from names to entries. The hash of a directory is the hash of its
table of contents with every entry missing, so it depends on the names, hashes and
sizes below it and not on what is stored. An archive is a signed root directory.

## Implementation notes

The hash function and the signature scheme are parameters. A file source gives the
same bytes whenever it is read. Reading a directory follows the positions in its
table of contents, which can form a cycle; the depth to which it follows them is
given, and an archive is accepted when some depth is enough. The queue of a writer
is run for as many steps as there are entries to write.
-/

namespace StartTech.MerkleArchive

open Foundation

structure EntryOf (C : Type) where
  hash : Option (Hash × Nat)
  contents : C

structure DirectoryOf (C : Type) where
  contents : List (Name × EntryOf C)
  sourceEnd : Nat
  sortBy : Option (Name → Name → Ordering)

inductive EntryContents (S : Type)
  | missing
  | file (f : S)
  | directory (d : DirectoryOf (EntryContents S))

abbrev Entry (S : Type) := EntryOf (EntryContents S)

abbrev DirectoryContents (S : Type) := DirectoryOf (EntryContents S)

class FileSource (S : Type) where
  size : S → Nat
  bytes : S → Bytes

open FileSource (bytes size)

/-- Bytes in memory. -/
instance : FileSource Bytes where
  size f := f.length
  bytes f := f

inductive Kind
  | missing
  | file
  | directory
  deriving DecidableEq, Repr

variable {S : Type}

def EntryContents.kind : EntryContents S → Kind
  | .missing => .missing
  | .file _ => .file
  | .directory _ => .directory

def Kind.headerSize : Kind → Nat
  | .missing => 1
  | .file => 1 + 8
  | .directory => 1 + (8 + 8)

def EntryOf.headerSize (e : Entry S) : Nat := 32 + 8 + e.contents.kind.headerSize

def tocSizeOf (contents : List (Name × Entry S)) : Nat :=
  Varint.requiredSpace contents.length +
    total (fun e => varstringSize e.1 + e.2.headerSize) contents

def DirectoryOf.tocSize (d : DirectoryContents S) : Nat := tocSizeOf d.contents

/-- Directories come first and missing entries last, these in the order of their names;
the others are in the order that was asked for. -/
def tocCmp (sortBy : Option (Name → Name → Ordering)) (a b : Name × Kind) : Ordering :=
  if a.2 = .directory ∧ b.2 ≠ .directory then .lt
  else if a.2 ≠ .directory ∧ b.2 = .directory then .gt
  else if a.2 = .missing ∧ b.2 ≠ .missing then .gt
  else if a.2 ≠ .missing ∧ b.2 = .missing then .lt
  else if a.2 = .missing ∧ b.2 = .missing then compare a.1 b.1
  else match sortBy with
    | some cmp => cmp a.1 b.1
    | none => .eq

def DirectoryOf.tocOrder (d : DirectoryContents S) : List (Name × Entry S) :=
  d.contents.mergeSort fun a b =>
    tocCmp d.sortBy (a.1, a.2.contents.kind) (b.1, b.2.contents.kind) != .gt

variable [FileSource S] (blake3 : Bytes → Hash)

/-- The table of contents with every entry missing. -/
def sigToc (sig : List (Name × (Hash × Nat))) : Bytes :=
  tocBytes ((sig.mergeSort fun a b =>
    tocCmp none (a.1, .missing) (b.1, .missing) != .gt).map missingEntry)

mutual

def EntryContents.computeHash : EntryContents S → Except Error (Hash × Nat)
  | .missing => .error ⟨.pack, "Cannot compute hash of missing file"⟩
  | .file f => .ok (blake3 (bytes f), (bytes f).length)
  | .directory ⟨contents, _, _⟩ => do
    let sig ← sigContents contents
    return (blake3 (sigToc sig), tocSizeOf contents)
termination_by structural c => c

/-- The names with the known or computed hash of each entry. -/
def sigContents : List (Name × Entry S) → Except Error (List (Name × (Hash × Nat)))
  | [] => .ok []
  | (name, ⟨hash, contents⟩) :: rest => do
    let h ← match hash with
      | some h => .ok h
      | none => contents.computeHash
    let rest ← sigContents rest
    return (name, h) :: rest
termination_by structural l => l

end

def EntryOf.toHash (e : Entry S) : Except Error (Hash × Nat) :=
  match e.hash with
  | some h => .ok h
  | none => e.contents.computeHash blake3

def DirectoryOf.sighash (d : DirectoryContents S) : Except Error Hash := do
  let sig ← sigContents blake3 d.contents
  return blake3 (sigToc sig)

/-- The bytes of a file, checked against a hash and a size. -/
def copyVerify (f : S) (verify : Option (Hash × Nat)) : Except Error Bytes :=
  match verify with
  | none => .ok (bytes f)
  | some (expected, size) => do
    ensure ((bytes f).length ≤ size)
      ⟨.filesystem, "attempted to write more bytes than signed"⟩
    ensure (blake3 (bytes f) = expected) ⟨.invalidSignature, "hash sum mismatch"⟩
    ensure ((bytes f).length = size) ⟨.invalidSignature, "file size mismatch"⟩
    return bytes f

def EntryOf.readFileToVec (e : Entry S) : Except Error Bytes :=
  match e.contents with
  | .file f => copyVerify blake3 f e.hash
  | .directory _ => .error ⟨.parseS9pk, "expected file, found directory"⟩
  | .missing => .error ⟨.parseS9pk, "entry is missing"⟩

def DirectoryOf.get (d : DirectoryContents S) (name : Name) : Option (Entry S) :=
  OrderedMap.get d.contents name

/-- Follow the segments of a path. -/
def DirectoryOf.getPath (d : DirectoryContents S) : List Name → Option (Entry S)
  | [] => none
  | [segment] => d.get segment
  | segment :: rest =>
    match d.get segment with
    | some ⟨_, .directory d⟩ => d.getPath rest
    | _ => none

/-- A path as its bytes. -/
abbrev Path := Bytes

/-- An absolute path replaces what it is joined to. -/
def Path.join (base p : Path) : Path :=
  if p.head? = some 47 then p
  else match base.getLast? with
    | none => p
    | some c => if c = 47 then base ++ p else base ++ 47 :: p

/-- An entry is left out with its hash, which must be known. -/
def filterOut (name : Name) (hash : Option (Hash × Nat)) : Except Error (EntryContents S) := do
  ensure (hash.isSome = true) ⟨.invalidRequest, "cannot filter out unhashed file " ++ name.text ++
    ", run `update_hashes` first"⟩
  return .missing

mutual

def EntryContents.filter (keep : Path → Bool) : EntryContents S → Except Error (EntryContents S)
  | .missing => .ok .missing
  | .file f => .ok (.file f)
  | .directory ⟨contents, sourceEnd, sortBy⟩ => do
    let contents ← filterContents keep contents
    return .directory ⟨contents, sourceEnd, sortBy⟩
termination_by structural c => c

def filterContents (keep : Path → Bool) :
    List (Name × Entry S) → Except Error (List (Name × Entry S))
  | [] => .ok []
  | (name, ⟨hash, contents⟩) :: rest => do
    let contents ←
      if keep name.bytes then contents.filter fun p => keep (Path.join name.bytes p)
      else filterOut name hash
    let rest ← filterContents keep rest
    return (name, ⟨hash, contents⟩) :: rest
termination_by structural l => l

end

def DirectoryOf.filter (d : DirectoryContents S) (keep : Path → Bool) :
    Except Error (DirectoryContents S) := do
  let contents ← filterContents keep d.contents
  return { d with contents := contents }

structure WriteQueue (S : Type) where
  nextAvailablePosition : Nat
  queue : List (Entry S)

/-- The bytes that an entry takes in the archive. -/
def EntryContents.storedSize : EntryContents S → Nat
  | .missing => 0
  | .file f => size f
  | .directory d => d.tocSize

def WriteQueue.add (q : WriteQueue S) (e : Entry S) : Nat × WriteQueue S :=
  match e.contents with
  | .missing => (0, q)
  | .file _ | .directory _ =>
    (q.nextAvailablePosition,
      ⟨q.nextAvailablePosition + e.contents.storedSize, q.queue ++ [e]⟩)

def EntryContents.header (position : Nat) : EntryContents S → Header
  | .missing => .missing
  | .file _ => .file position
  | .directory d => .directory position d.tocSize

/-- The bytes of the entries of a table of contents, each put in the queue. -/
def serializeEntries : List (Name × Entry S) → WriteQueue S → Except Error (Bytes × WriteQueue S)
  | [], q => .ok ([], q)
  | (name, e) :: rest, q => do
    let (position, q) := q.add e
    let (hash, size) ← e.toHash blake3
    let (bytes, q) ← serializeEntries rest q
    return (TocEntry.bytes ⟨name, hash, size, e.contents.header position⟩ ++ bytes, q)

def DirectoryOf.serializeToc (d : DirectoryContents S) (q : WriteQueue S) :
    Except Error (Bytes × WriteQueue S) := do
  let (bytes, q) ← serializeEntries blake3 d.tocOrder q
  return (Varint.encode d.contents.length ++ bytes, q)

/-- Write what is in the queue, and what is put there meanwhile. -/
def WriteQueue.serialize (verify : Bool) : Nat → WriteQueue S → Except Error Bytes
  | _, ⟨_, []⟩ => .ok []
  | 0, ⟨_, _ :: _⟩ => .error ⟨.pack, "entries are left"⟩
  | steps + 1, ⟨next, e :: rest⟩ =>
    match e.contents with
    | .missing => WriteQueue.serialize verify steps ⟨next, rest⟩
    | .file f => do
      let body ← copyVerify blake3 f (if verify then e.hash else none)
      let bytes ← WriteQueue.serialize verify steps ⟨next, rest⟩
      return body ++ bytes
    | .directory d => do
      let (toc, q) ← d.serializeToc blake3 ⟨next, rest⟩
      let bytes ← q.serialize verify steps
      return toc ++ bytes

mutual

/-- The number of entries at and below one. -/
def EntryContents.count : EntryContents S → Nat
  | .missing => 1
  | .file _ => 1
  | .directory ⟨contents, _, _⟩ => 1 + countAll contents
termination_by structural c => c

def countAll : List (Name × Entry S) → Nat
  | [] => 0
  | (_, ⟨_, contents⟩) :: rest => contents.count + countAll rest
termination_by structural l => l

end

/-- A source of bytes that may know its size. -/
structure Source where
  bytes : Bytes
  size : Option Nat
  size_eq : ∀ n ∈ size, n = bytes.length

def Source.fetch (source : Source) (position size : Nat) : Bytes :=
  (source.bytes.drop position).take size

structure Section where
  source : Source
  position : Nat
  size : Nat

instance : FileSource Section where
  size s := s.size
  bytes s := s.source.fetch s.position s.size

def Section.stop (s : Section) : Nat := s.position + s.size

def invalidRange : Error := ⟨.parseS9pk, "s9pk.source.invalid-range"⟩

def checkedEnd (source : Source) (position size : Nat) : Except Error Nat := do
  ensure (position + size < Text.wordLimit) invalidRange
  ensure (∀ limit ∈ source.size, position + size ≤ limit) invalidRange
  return position + size

def EntryContents.stop : EntryContents Section → Nat
  | .missing => 0
  | .file f => f.stop
  | .directory d => d.sourceEnd

/-- Read an entry, given how a directory is read. -/
def EntryOf.deserialize (source : Source)
    (directory : Bytes → Hash × Nat → Except Error (DirectoryContents Section × Bytes))
    (r : Bytes) : Except Error (Entry Section × Bytes) := do
  let (hash, r) ← readHash r
  let (size, r) ← readU64 r
  let (type, r) ← readExact 1 r
  match type with
  | [0] => return (⟨some (hash, size), .missing⟩, r)
  | [1] => do
    let (position, r) ← readU64 r
    let _ ← checkedEnd source position size
    return (⟨some (hash, size), .file ⟨source, position, size⟩⟩, r)
  | [2] => do
    let (d, r) ← directory r (hash, size)
    return (⟨some (hash, size), .directory d⟩, r)
  | id => .error ⟨.parseS9pk, "Unknown type id " ++ toString (Bytes.toNatBe id) ++
      " found in MerkleArchive"⟩

/-- Read as many entries as there are, collecting them and the greatest end. -/
def readEntries (entry : Bytes → Except Error (Entry Section × Bytes)) :
    Nat → Bytes → List (Name × Entry Section) → Nat → Except Error (List (Name × Entry Section) × Nat)
  | 0, _, entries, sourceEnd => .ok (entries, sourceEnd)
  | n + 1, toc, entries, sourceEnd => do
    let (name, toc) ← readVarstring toc
    let (e, toc) ← entry toc
    readEntries entry n toc (OrderedMap.insert name e entries) (max sourceEnd e.contents.stop)

def DirectoryOf.deserialize (source : Source) :
    Nat → Bytes → Hash × Nat → Except Error (DirectoryContents Section × Bytes)
  | 0, _, _ => .error ⟨.parseS9pk, "nested too deep"⟩
  | depth + 1, r, (sighash, maxSize) => do
    let (position, r) ← readU64 r
    let (size, r) ← readU64 r
    ensure (size ≤ maxSize) ⟨.invalidSignature, "size is greater than signed"⟩
    let sourceEnd ← checkedEnd source position size
    let (len, toc) ← readVarint (source.fetch position size)
    let (entries, sourceEnd) ←
      readEntries (EntryOf.deserialize source (DirectoryOf.deserialize source depth))
        len toc [] sourceEnd
    let res : DirectoryContents Section := ⟨entries, sourceEnd, none⟩
    let actual ← res.sighash blake3
    ensure (actual = sighash) ⟨.invalidSignature, "hash sum does not match"⟩
    return (res, r)

structure Commitment where
  rootSighash : Hash
  rootMaxsize : Nat

/-- What is signed of a commitment. -/
def Commitment.message (c : Commitment) : Bytes :=
  c.rootSighash.bytes ++ Bytes.ofNatBe 8 c.rootMaxsize

/-- Keys and signatures as bytes; both are made for a context. -/
structure SignatureScheme (SK : Type) where
  verifyingKey : SK → Bytes
  isVerifyingKey : Bytes → Bool
  sign : SK → Bytes → Bytes → Except Error Bytes
  verify : Bytes → Bytes → Bytes → Bytes → Bool

/-- A signature verifies under the key that made it. -/
structure SignatureScheme.Lawful {SK : Type} (scheme : SignatureScheme SK) : Prop where
  key_length : ∀ key, (scheme.verifyingKey key).length = 32
  isVerifyingKey : ∀ key, scheme.isVerifyingKey (scheme.verifyingKey key) = true
  sign_length : ∀ {key message context signature},
    scheme.sign key message context = .ok signature → signature.length = 64
  verify_sign : ∀ {key message context signature},
    scheme.sign key message context = .ok signature →
      scheme.verify (scheme.verifyingKey key) message context signature = true

inductive Signer (SK : Type)
  | signed (pubkey signature : Bytes) (maxSize : Nat) (context : Bytes)
  | signer (key : SK) (context : Bytes)

structure Archive (SK S : Type) where
  signer : Signer SK
  contents : DirectoryContents S

variable {SK : Type} (scheme : SignatureScheme SK)

def Archive.commitment (a : Archive SK S) : Except Error Commitment := do
  let rootMaxsize := match a.signer with
    | .signed _ _ maxSize _ => maxSize
    | .signer _ _ => a.contents.tocSize
  let rootSighash ← a.contents.sighash blake3
  return ⟨rootSighash, rootMaxsize⟩

/-- The key and the signature that are written. -/
def Signer.sign (scheme : SignatureScheme SK) (commitment : Commitment) :
    Signer SK → Except Error (Bytes × Bytes)
  | .signed pubkey signature _ _ => .ok (pubkey, signature)
  | .signer key context => do
    let signature ← scheme.sign key commitment.message context
    return (scheme.verifyingKey key, signature)

/-- The bytes before the root directory: key, signature, hash and size. -/
def prefixSize : Nat := 32 + 64 + 32 + 8

def Archive.serialize (a : Archive SK S) (start : Nat) (verify : Bool) :
    Except Error Bytes := do
  let commitment ← a.commitment blake3
  let (pubkey, signature) ← a.signer.sign scheme commitment
  let position := start + prefixSize + (8 + 8)
  let (toc, q) ← a.contents.serializeToc blake3 ⟨position + a.contents.tocSize, []⟩
  let bytes ← q.serialize blake3 verify (countAll a.contents.contents)
  return pubkey ++ (signature ++ (commitment.message ++
    (Bytes.ofNatBe 8 position ++ (Bytes.ofNatBe 8 a.contents.tocSize ++ (toc ++ bytes)))))

/-- The greatest size of a root directory that is read without a commitment. -/
def maxRootSize : Nat := 1048576

def checkCommitment (sighash : Hash) (maxSize : Nat) : Option Commitment → Except Error Unit
  | some c => do
    ensure (sighash = c.rootSighash) ⟨.invalidSignature, "merkle root mismatch"⟩
    ensure (maxSize ≤ c.rootMaxsize)
      ⟨.invalidSignature, "root directory max size too large"⟩
  | none =>
    ensure (maxSize ≤ maxRootSize) ⟨.invalidSignature,
      "root directory max size over 1MiB, cancelling download in case of DOS attack"⟩

def Archive.deserialize (source : Source) (depth : Nat) (context r : Bytes)
    (commitment : Option Commitment) : Except Error (Archive SK Section × Bytes) := do
  let (pubkey, r) ← readExact 32 r
  ensure (scheme.isVerifyingKey pubkey = true) ⟨.invalidSignature, "signature error"⟩
  let (signature, r) ← readExact 64 r
  let (sighash, r) ← readHash r
  let (maxSize, r) ← readU64 r
  ensure (scheme.verify pubkey (Commitment.message ⟨sighash, maxSize⟩) context signature = true)
    ⟨.invalidSignature, "signature error"⟩
  checkCommitment sighash maxSize commitment
  let (contents, r) ← DirectoryOf.deserialize blake3 source depth r (sighash, maxSize)
  return (⟨.signed pubkey signature maxSize context, contents⟩, r)

end StartTech.MerkleArchive

import StartTech.Foundation.Fallible
import StartTech.Foundation.OrderedMap
import StartTech.Foundation.Text
import StartTech.Foundation.Varint

/-!
# The byte format of tables of contents

A table of contents is the number of its entries and then, for each, its name, hash,
size and a header that says what the entry is and where it is stored. Readers take
bytes off the front of what is left to read.

## Implementation notes

A name is its bytes in UTF-8. Numbers of a fixed width are 64 bits, most significant
byte first.
-/

namespace StartTech.MerkleArchive

open Foundation Fallible

inductive ErrorKind
  | filesystem
  | parseS9pk
  | invalidSignature
  | invalidRequest
  | notFound
  | pack
  deriving DecidableEq, Repr

structure Error where
  kind : ErrorKind
  message : String
  deriving DecidableEq, Repr

def ensure (c : Prop) [Decidable c] (e : Error) : Except Error Unit :=
  if c then .ok () else .error e

@[simp] theorem ensure_eq_ok {c : Prop} [Decidable c] {e : Error} {u : Unit} :
    ensure c e = .ok u ↔ c := by
  unfold ensure
  split
  · simp [*]
  · simp [*]

theorem ensure_bind {c : Prop} [Decidable c] {e : Error} {β : Type} {f : Unit → Except Error β}
    {r : β} (h : c) (hf : f () = .ok r) : (ensure c e >>= f) = .ok r :=
  bind_eq_ok.mpr ⟨(), ensure_eq_ok.mpr h, hf⟩

def isUtf8 (bytes : Bytes) : Bool := ByteArray.validateUTF8 ⟨bytes.toArray⟩

@[ext] structure Name where
  bytes : Bytes
  valid : isUtf8 bytes = true
  deriving DecidableEq

def Name.text (name : Name) : String :=
  String.fromUTF8 ⟨name.bytes.toArray⟩ (ByteArray.validateUTF8_eq_true_iff.mp name.valid)

/-- Names are ordered by their bytes. -/
instance : Ord Name := ⟨fun a b => compare a.bytes b.bytes⟩

instance : Std.TransOrd Name where
  eq_swap {a b} := Std.OrientedOrd.eq_swap (a := a.bytes) (b := b.bytes)
  isLE_trans {a b c} := Std.TransOrd.isLE_trans (a := a.bytes) (b := b.bytes) (c := c.bytes)

instance : Std.LawfulEqOrd Name where
  eq_of_compare h := Name.ext (Std.LawfulEqOrd.eq_of_compare h)

@[ext] structure Hash where
  bytes : Bytes
  length_eq : bytes.length = 32
  deriving DecidableEq

def eof : Error := ⟨.filesystem, "early eof"⟩

def readExact (n : Nat) (r : Bytes) : Except Error (Bytes × Bytes) :=
  if n ≤ r.length then .ok (r.take n, r.drop n) else .error eof

def readU64 (r : Bytes) : Except Error (Nat × Bytes) := do
  let (bytes, r) ← readExact 8 r
  return (Bytes.toNatBe bytes, r)

def readHash (r : Bytes) : Except Error (Hash × Bytes) :=
  if h : 32 ≤ r.length then .ok (⟨r.take 32, by simp [h]⟩, r.drop 32) else .error eof

def readVarint (r : Bytes) : Except Error (Nat × Bytes) :=
  match Varint.read r with
  | .ok x => .ok x
  | .error .eof => .error eof
  | .error .unterminated => .error ⟨.parseS9pk, "Unterminated varint"⟩

def maxStrLen : Nat := 1048576

/-- A longer name is cut off, and one that ends early is what there is of it. -/
def readVarstring (r : Bytes) : Except Error (Name × Bytes) := do
  let (len, r) ← readVarint r
  let len := min len maxStrLen
  if h : isUtf8 (r.take len) = true then return (⟨r.take len, h⟩, r.drop len)
  else .error ⟨.filesystem, "stream did not contain valid UTF-8"⟩

def varstring (name : Name) : Bytes := Varint.encode name.bytes.length ++ name.bytes

def varstringSize (name : Name) : Nat :=
  Varint.requiredSpace name.bytes.length + name.bytes.length

/-- What an entry is, and where it is stored. -/
inductive Header
  | missing
  | file (position : Nat)
  | directory (position size : Nat)

namespace Header

def bytes : Header → Bytes
  | .missing => [0]
  | .file position => 1 :: Bytes.ofNatBe 8 position
  | .directory position size => 2 :: (Bytes.ofNatBe 8 position ++ Bytes.ofNatBe 8 size)

end Header

structure TocEntry where
  name : Name
  hash : Hash
  size : Nat
  header : Header

namespace TocEntry

def bytes (e : TocEntry) : Bytes :=
  varstring e.name ++ (e.hash.bytes ++ (Bytes.ofNatBe 8 e.size ++ e.header.bytes))

end TocEntry

def tocBytes (l : List TocEntry) : Bytes := Varint.encode l.length ++ l.flatMap TocEntry.bytes

variable {n : Nat} {r rest : Bytes} {name : Name}

theorem readExact_append {bytes : Bytes} (h : bytes.length = n) (r : Bytes) :
    readExact n (bytes ++ r) = .ok (bytes, r) := by
  subst h
  simp [readExact]

theorem readExact_eq_ok {bytes : Bytes} (h : readExact n r = .ok (bytes, rest)) :
    r = bytes ++ rest ∧ bytes.length = n := by
  unfold readExact at h
  split at h
  · cases h
    exact ⟨(List.take_append_drop n r).symm, by simp [*]⟩
  · cases h

theorem readU64_append (h : n < Text.wordLimit) (r : Bytes) :
    readU64 (Bytes.ofNatBe 8 n ++ r) = .ok (n, r) := by
  rw [readU64, readExact_append (Bytes.length_ofNatBe 8 n)]
  simp only [bind, Except.bind, Bytes.toNatBe_ofNatBe (show n < 256 ^ 8 from h)]
  rfl

theorem readU64_eq_ok (h : readU64 r = .ok (n, rest)) :
    n < Text.wordLimit ∧ r = Bytes.ofNatBe 8 n ++ rest := by
  obtain ⟨⟨bytes, rest'⟩, hread, h⟩ := bind_eq_ok.mp h
  cases h
  obtain ⟨rfl, hlen⟩ := readExact_eq_ok hread
  have hlt := Bytes.toNatBe_lt bytes
  have hback := Bytes.ofNatBe_toNatBe bytes
  rw [hlen] at hlt hback
  exact ⟨hlt, by rw [hback]⟩

theorem readHash_append (h : Hash) (r : Bytes) : readHash (h.bytes ++ r) = .ok (h, r) := by
  have hle : 32 ≤ (h.bytes ++ r).length := by
    rw [List.length_append, h.length_eq]
    exact Nat.le_add_right _ _
  rw [readHash, dif_pos hle]
  have htake : (h.bytes ++ r).take 32 = h.bytes := List.take_left' h.length_eq
  have hdrop : (h.bytes ++ r).drop 32 = r := List.drop_left' h.length_eq
  simp [htake, hdrop]

theorem readHash_eq_ok {h : Hash} (hr : readHash r = .ok (h, rest)) : r = h.bytes ++ rest := by
  unfold readHash at hr
  split at hr
  · cases hr
    exact (List.take_append_drop 32 r).symm
  · cases hr

theorem readVarint_append (h : n < Text.wordLimit) (r : Bytes) :
    readVarint (Varint.encode n ++ r) = .ok (n, r) := by
  rw [readVarint, Varint.read_encode h]

/-- What is read is no shorter than what would be written for it or for a smaller number. -/
theorem readVarint_eq_ok (h : readVarint r = .ok (n, rest)) : n < Text.wordLimit ∧
      ∃ bytes, r = bytes ++ rest ∧ ∀ m ≤ n, (Varint.encode m).length ≤ bytes.length := by
  unfold readVarint Varint.read at h
  cases htake : Varint.take r with
  | error fault => cases fault <;> simp [htake] at h
  | ok x =>
    simp only [htake] at h
    cases h
    obtain ⟨hr, hwhole, -⟩ := Varint.take_eq_ok htake
    exact ⟨Nat.mod_lt _ (by decide), x.1, hr, fun m hm => Varint.length_encode_le hwhole hm⟩

theorem length_varstring (h : name.bytes.length ≤ maxStrLen) :
    (varstring name).length = varstringSize name := by
  have hlt : name.bytes.length < Text.wordLimit := Nat.lt_of_le_of_lt h (by decide)
  rw [varstring, List.length_append, Varint.length_encode hlt, varstringSize]

theorem readVarstring_append (h : name.bytes.length ≤ maxStrLen) (r : Bytes) :
    readVarstring (varstring name ++ r) = .ok (name, r) := by
  have hlt : name.bytes.length < Text.wordLimit := Nat.lt_of_le_of_lt h (by decide)
  rw [readVarstring, varstring, List.append_assoc, readVarint_append hlt]
  simp only [bind, Except.bind, Nat.min_eq_left h, List.take_left, List.drop_left]
  rw [dif_pos name.valid]
  rfl

theorem readVarstring_eq_ok (h : readVarstring r = .ok (name, rest)) (hrest : rest ≠ []) :
    name.bytes.length ≤ maxStrLen ∧
      ∃ bytes, r = bytes ++ rest ∧ (varstring name).length ≤ bytes.length := by
  obtain ⟨⟨len, r'⟩, hread, hname⟩ := bind_eq_ok.mp h
  obtain ⟨-, bytes, rfl, hle⟩ := readVarint_eq_ok hread
  dsimp only at hname
  split at hname
  · cases hname
    have hlen : min len maxStrLen ≤ r'.length := by
      by_contra hgt
      exact hrest (List.drop_eq_nil_of_le (Nat.le_of_lt (Nat.lt_of_not_le hgt)))
    have hlength : (r'.take (min len maxStrLen)).length = min len maxStrLen :=
      List.length_take_of_le hlen
    have hshort : (r'.take (min len maxStrLen)).length ≤ len := by omega
    refine ⟨?_, bytes ++ r'.take (min len maxStrLen), ?_, ?_⟩
    · change (r'.take (min len maxStrLen)).length ≤ maxStrLen
      omega
    · rw [List.append_assoc, List.take_append_drop]
    · rw [varstring, List.length_append, List.length_append]
      exact Nat.add_le_add_right (hle _ hshort) _
  · cases hname

variable {e e' : TocEntry} {r' : Bytes} {l l' : List (Name × (Hash × Nat))}

theorem ofNatBe_inj {n m : Nat} (hn : n < Text.wordLimit) (hm : m < Text.wordLimit)
    (h : Bytes.ofNatBe 8 n = Bytes.ofNatBe 8 m) : n = m := by
  rw [← Bytes.toNatBe_ofNatBe (show n < 256 ^ 8 from hn), h,
    Bytes.toNatBe_ofNatBe (show m < 256 ^ 8 from hm)]

/-- An entry of a table in which everything is missing. -/
def missingEntry (e : Name × (Hash × Nat)) : TocEntry := ⟨e.1, e.2.1, e.2.2, .missing⟩

/-- The numbers of an entry are machine words. -/
structure Fits (e : Name × (Hash × Nat)) : Prop where
  name : e.1.bytes.length < Text.wordLimit
  size : e.2.2 < Text.wordLimit

theorem missingEntry_append_inj {e e' : Name × (Hash × Nat)} (h : Fits e) (h' : Fits e')
    (heq : (missingEntry e).bytes ++ r = (missingEntry e').bytes ++ r') : e = e' ∧ r = r' := by
  obtain ⟨name, hash, size⟩ := e
  obtain ⟨name', hash', size'⟩ := e'
  simp only [missingEntry, TocEntry.bytes, varstring, List.append_assoc] at heq
  obtain ⟨hlen, hrest⟩ := Varint.encode_append_inj h.name h'.name heq
  obtain ⟨hname, hrest⟩ := List.append_inj hrest hlen
  obtain ⟨hhash, hrest⟩ := List.append_inj hrest (hash.length_eq.trans hash'.length_eq.symm)
  obtain ⟨hsize, hrest⟩ := List.append_inj hrest (by simp)
  have hsize : size = size' := ofNatBe_inj h.size h'.size hsize
  rw [Name.ext hname, Hash.ext hhash, hsize]
  exact ⟨rfl, List.append_cancel_left hrest⟩

theorem missing_entries_inj (hl : ∀ e ∈ l, Fits e)
    (hl' : ∀ e ∈ l', Fits e) (hlen : l.length = l'.length)
    (heq : (l.map missingEntry).flatMap TocEntry.bytes =
      (l'.map missingEntry).flatMap TocEntry.bytes) : l = l' := by
  induction l generalizing l' with
  | nil => exact (List.length_eq_zero_iff.mp hlen.symm).symm
  | cons e rest ih =>
    cases l' with
    | nil => simp at hlen
    | cons e' rest' =>
      obtain ⟨he, hrest⟩ := missingEntry_append_inj (hl e (by simp)) (hl' e' (by simp)) heq
      rw [he, ih (fun x hx => hl x (by simp [hx])) (fun x hx => hl' x (by simp [hx]))
        (Nat.succ.inj hlen) hrest]

end StartTech.MerkleArchive

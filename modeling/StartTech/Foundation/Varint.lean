import StartTech.Foundation.Bytes

/-!
# Numbers of variable length

Seven bits go into each byte, least significant first; the high bit says that more
follow. A reader takes bytes up to the first without the high bit, ten at most.
-/

namespace StartTech.Foundation

namespace Varint

/-- The most bytes that a number of 64 bits takes. -/
def maxSize : Nat := 10

def encodeFrom : Nat → Nat → Bytes
  | 0, _ => []
  | k + 1, n =>
    if n < 128 then [UInt8.ofNat n] else UInt8.ofNat (128 + n % 128) :: encodeFrom k (n / 128)

def encode (n : Nat) : Bytes := encodeFrom maxSize n

def requiredFrom : Nat → Nat → Nat
  | 0, _ => 0
  | k + 1, n => if n = 0 then 0 else 1 + requiredFrom k (n / 128)

/-- The number of bytes of a number; zero takes one. -/
def requiredSpace (n : Nat) : Nat := if n = 0 then 1 else requiredFrom maxSize n

inductive Fault
  | eof
  | unterminated
  deriving DecidableEq, Repr

/-- Take the bytes of one number, `k` at most. -/
def takeFrom : Nat → Bytes → Except Fault (Bytes × Bytes)
  | _, [] => .error .eof
  | 0, _ :: _ => .error .unterminated
  | k + 1, b :: rest =>
    if b < 128 then .ok ([b], rest)
    else
      match takeFrom k rest with
      | .ok (bytes, rest) => .ok (b :: bytes, rest)
      | .error fault => .error fault

def take (bytes : Bytes) : Except Fault (Bytes × Bytes) := takeFrom maxSize bytes

/-- The number that bytes stand for. -/
def value : Bytes → Nat
  | [] => 0
  | b :: rest => b.toNat % 128 + 128 * value rest

/-- Bits above the sixty-fourth are lost. -/
def decode (bytes : Bytes) : Nat := value bytes % 18446744073709551616

def read (bytes : Bytes) : Except Fault (Nat × Bytes) :=
  match take bytes with
  | .ok (number, rest) => .ok (decode number, rest)
  | .error fault => .error fault

/-- Bytes that a reader takes whole: the high bit is clear in the last one only. -/
def Whole : Bytes → Prop
  | [] => False
  | [b] => b < 128
  | b :: rest => ¬ b < 128 ∧ Whole rest

theorem whole_cons {b : UInt8} {rest : Bytes} (hb : ¬ b < 128) (h : Whole rest) :
    Whole (b :: rest) := by
  cases rest with
  | nil => exact absurd h (by simp [Whole])
  | cons c rest => exact ⟨hb, h⟩

theorem takeFrom_append {k : Nat} {bytes : Bytes} (h : Whole bytes) (hk : bytes.length ≤ k)
    (rest : Bytes) : takeFrom k (bytes ++ rest) = .ok (bytes, rest) := by
  induction bytes generalizing k with
  | nil => exact absurd h (by simp [Whole])
  | cons b bytes ih =>
    obtain _ | k := k
    · simp at hk
    cases bytes with
    | nil =>
      have hb : b < 128 := h
      simp [takeFrom, hb]
    | cons c bytes =>
      obtain ⟨hb, hrest⟩ : ¬ b < 128 ∧ Whole (c :: bytes) := h
      have htake := ih hrest (Nat.le_of_succ_le_succ hk)
      rw [List.cons_append, takeFrom, if_neg hb, htake]

theorem takeFrom_eq_ok {k : Nat} {s bytes rest : Bytes} (h : takeFrom k s = .ok (bytes, rest)) :
    s = bytes ++ rest ∧ Whole bytes ∧ bytes.length ≤ k := by
  induction k generalizing s bytes with
  | zero => cases s with
    | nil => simp [takeFrom] at h
    | cons b s => simp [takeFrom] at h
  | succ k ih =>
    cases s with
    | nil => simp [takeFrom] at h
    | cons b s =>
      rw [takeFrom] at h
      split at h
      · rename_i hb
        cases h
        exact ⟨rfl, hb, by simp⟩
      · rename_i hb
        split at h
        · rename_i bytes' rest' htake
          cases h
          obtain ⟨rfl, hwhole, hlen⟩ := ih htake
          exact ⟨rfl, whole_cons hb hwhole, Nat.succ_le_succ hlen⟩
        · cases h

variable {bytes : Bytes}

theorem take_append (h : Whole bytes) (hlen : bytes.length ≤ maxSize)
    (rest : Bytes) : take (bytes ++ rest) = .ok (bytes, rest) :=
  takeFrom_append h hlen rest

theorem take_eq_ok {s rest : Bytes} (h : take s = .ok (bytes, rest)) :
    s = bytes ++ rest ∧ Whole bytes ∧ bytes.length ≤ maxSize :=
  takeFrom_eq_ok h

section Encoding

theorem toNat_ofNat_of_lt {n : Nat} (h : n < 256) : (UInt8.ofNat n).toNat = n := by
  rw [UInt8.toNat_ofNat']
  omega

section

variable {k n : Nat} (h : n < 128 ^ (k + 1))
include h

theorem div_lt_pow : n / 128 < 128 ^ k := by
  rw [Nat.div_lt_iff_lt_mul (by decide)]
  exact h

theorem whole_encodeFrom : Whole (encodeFrom (k + 1) n) := by
  induction k generalizing n with
  | zero =>
    have hn : n < 128 := by simpa using h
    rw [encodeFrom, if_pos hn]
    change (UInt8.ofNat n).toNat < 128
    rwa [toNat_ofNat_of_lt (by omega)]
  | succ k ih =>
    rw [encodeFrom]
    split
    · change (UInt8.ofNat n).toNat < 128
      rwa [toNat_ofNat_of_lt (by omega)]
    · refine whole_cons ?_ (ih (div_lt_pow h))
      change ¬ (UInt8.ofNat (128 + n % 128)).toNat < 128
      rw [toNat_ofNat_of_lt (by omega)]
      omega

theorem value_encodeFrom : value (encodeFrom (k + 1) n) = n := by
  induction k generalizing n with
  | zero =>
    have hn : n < 128 := by simpa using h
    rw [encodeFrom, if_pos hn, value, value, toNat_ofNat_of_lt (by omega)]
    omega
  | succ k ih =>
    rw [encodeFrom]
    split
    · rw [value, value, toNat_ofNat_of_lt (by omega)]
      omega
    · rw [value, ih (div_lt_pow h), toNat_ofNat_of_lt (by omega)]
      omega

theorem length_encodeFrom :
    (encodeFrom (k + 1) n).length = if n = 0 then 1 else requiredFrom (k + 1) n := by
  induction k generalizing n with
  | zero =>
    have hn : n < 128 := by simpa using h
    rw [encodeFrom, if_pos hn, requiredFrom]
    split
    · rfl
    · rfl
  | succ k ih =>
    have hdiv := ih (div_lt_pow h)
    rw [encodeFrom]
    split
    · have hzero : n / 128 = 0 := by omega
      rw [requiredFrom, hzero]
      split
      · rfl
      · simp [requiredFrom]
    · have hrequired : requiredFrom (k + 1 + 1) n = 1 + requiredFrom (k + 1) (n / 128) := by
        rw [requiredFrom, if_neg (by omega)]
      rw [List.length_cons, hdiv, if_neg (by omega), if_neg (by omega), hrequired, Nat.add_comm]

end

theorem length_encodeFrom_le {k n m : Nat} (h : n < 128 ^ (m + 1)) :
    (encodeFrom k n).length ≤ m + 1 := by
  induction k generalizing n m with
  | zero => simp [encodeFrom]
  | succ k ih =>
    rw [encodeFrom]
    split
    · simp
    · obtain _ | m := m
      · omega
      · exact Nat.succ_le_succ (ih (div_lt_pow h))

theorem value_lt (bytes : Bytes) : value bytes < 128 ^ bytes.length := by
  induction bytes with
  | nil => simp [value]
  | cons b rest ih =>
    rw [value, List.length_cons]
    omega

variable {n : Nat}

section

variable (h : n < 18446744073709551616)
include h

theorem lt_pow_of_lt : n < 128 ^ 10 := by
  omega

theorem length_encode : (encode n).length = requiredSpace n :=
  length_encodeFrom (lt_pow_of_lt h)

theorem decode_encode : decode (encode n) = n := by
  rw [decode, encode, maxSize, value_encodeFrom (lt_pow_of_lt h), Nat.mod_eq_of_lt h]

theorem take_encode (rest : Bytes) : take (encode n ++ rest) = .ok (encode n, rest) :=
  take_append (whole_encodeFrom (lt_pow_of_lt h)) (length_encodeFrom_le (lt_pow_of_lt h)) rest

theorem read_encode (rest : Bytes) : read (encode n ++ rest) = .ok (n, rest) := by
  rw [read, take_encode h]
  simp [decode_encode h]

end

/-- Bytes of a number are no fewer than those written for it or for a smaller one. -/
theorem length_encode_le {bytes : Bytes} (h : Whole bytes) (hn : n ≤ decode bytes) :
    (encode n).length ≤ bytes.length := by
  obtain ⟨m, hm⟩ : ∃ m, bytes.length = m + 1 := by
    cases bytes with
    | nil => exact absurd h (by simp [Whole])
    | cons b rest => exact ⟨rest.length, rfl⟩
  rw [hm]
  apply length_encodeFrom_le
  calc n ≤ decode bytes := hn
    _ ≤ value bytes := Nat.mod_le _ _
    _ < 128 ^ (m + 1) := hm ▸ value_lt bytes

/-- Two numbers that start the same bytes are one number. -/
theorem encode_append_inj {m : Nat} (hn : n < 18446744073709551616)
    (hm : m < 18446744073709551616) {r r' : Bytes} (h : encode n ++ r = encode m ++ r') :
    n = m ∧ r = r' := by
  have hread := read_encode hn r
  rw [h, read_encode hm] at hread
  cases hread
  exact ⟨rfl, rfl⟩

end Encoding

end Varint

end StartTech.Foundation

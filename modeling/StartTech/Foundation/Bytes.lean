import Mathlib.Algebra.Group.Nat.Defs
import Mathlib.Data.List.Basic

/-!
# Bytes and fixed-width numbers

A number of a fixed width is written as that many bytes, the least or the most
significant one first.
-/

namespace StartTech.Foundation

abbrev Bytes := List UInt8

namespace Bytes

/-- The low `w` bytes of a number, least significant first. -/
def ofNatLe : Nat → Nat → Bytes
  | 0, _ => []
  | w + 1, n => UInt8.ofNat n :: ofNatLe w (n / 256)

def toNatLe : Bytes → Nat
  | [] => 0
  | b :: rest => b.toNat + 256 * toNatLe rest

/-- The low `w` bytes of a number, most significant first. -/
def ofNatBe (w n : Nat) : Bytes := (ofNatLe w n).reverse

def toNatBe (bytes : Bytes) : Nat := toNatLe bytes.reverse

@[simp] theorem length_ofNatLe (w n : Nat) : (ofNatLe w n).length = w := by
  induction w generalizing n with
  | zero => rfl
  | succ w ih => simp [ofNatLe, ih]

@[simp] theorem length_ofNatBe (w n : Nat) : (ofNatBe w n).length = w := by
  simp [ofNatBe]

theorem toNatLe_ofNatLe {w n : Nat} (h : n < 256 ^ w) : toNatLe (ofNatLe w n) = n := by
  induction w generalizing n with
  | zero =>
    have hn : n = 0 := by simpa using h
    rw [hn]
    rfl
  | succ w ih =>
    have hdiv : n / 256 < 256 ^ w := by
      rw [Nat.div_lt_iff_lt_mul (by decide)]
      exact h
    rw [ofNatLe, toNatLe, ih hdiv, UInt8.toNat_ofNat']
    omega

theorem toNatBe_ofNatBe {w n : Nat} (h : n < 256 ^ w) : toNatBe (ofNatBe w n) = n := by
  rw [toNatBe, ofNatBe, List.reverse_reverse, toNatLe_ofNatLe h]

theorem toNatLe_lt (bytes : Bytes) : toNatLe bytes < 256 ^ bytes.length := by
  induction bytes with
  | nil => simp [toNatLe]
  | cons b rest ih =>
    have hb := b.toNat_lt
    rw [toNatLe, List.length_cons]
    omega

theorem toNatBe_lt (bytes : Bytes) : toNatBe bytes < 256 ^ bytes.length := by
  simpa [toNatBe] using toNatLe_lt bytes.reverse

theorem ofNatLe_toNatLe (bytes : Bytes) : ofNatLe bytes.length (toNatLe bytes) = bytes := by
  induction bytes with
  | nil => rfl
  | cons b rest ih =>
    have hb := b.toNat_lt
    have hdiv : (b.toNat + 256 * toNatLe rest) / 256 = toNatLe rest := by omega
    have hmod : UInt8.ofNat (b.toNat + 256 * toNatLe rest) = b := by
      apply UInt8.toNat_inj.mp
      rw [UInt8.toNat_ofNat']
      omega
    rw [List.length_cons, toNatLe, ofNatLe, hdiv, ih, hmod]

theorem ofNatBe_toNatBe (bytes : Bytes) : ofNatBe bytes.length (toNatBe bytes) = bytes := by
  have h := ofNatLe_toNatLe bytes.reverse
  rw [List.length_reverse] at h
  rw [ofNatBe, toNatBe, h, List.reverse_reverse]

end Bytes

end StartTech.Foundation

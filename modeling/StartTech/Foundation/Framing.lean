import Mathlib.Data.List.Forall2

/-!
# Logs of self-delimiting frames

A codec writes values as frames that can be read back from the front of a longer
sequence. A log is a sequence of frames; reading it stops at the end, or at the
first place where no frame can be read, such as a torn last frame.
-/

namespace StartTech.Foundation

variable {B α : Type}

structure Codec (B α : Type) where
  encode : α → List B
  decode : List B → Option (α × List B)

namespace Codec

/-- Frames are read back up to a given relation, and a torn frame is not read. -/
structure Lawful (c : Codec B α) (Same : α → α → Prop) : Prop where
  inverse : ∀ x rest, ∃ y, c.decode (c.encode x ++ rest) = some (y, rest) ∧ Same x y
  truncated : ∀ x k, k < (c.encode x).length → c.decode ((c.encode x).take k) = none
  nonempty : ∀ x, c.encode x ≠ []

def encodeAll (c : Codec B α) (xs : List α) : List B := xs.flatMap c.encode

@[simp] theorem encodeAll_nil (c : Codec B α) : c.encodeAll [] = [] := rfl

@[simp] theorem encodeAll_cons (c : Codec B α) (x : α) (xs : List α) :
    c.encodeAll (x :: xs) = c.encode x ++ c.encodeAll xs := rfl

theorem encodeAll_concat (c : Codec B α) (xs : List α) (x : α) :
    c.encodeAll (xs ++ [x]) = c.encodeAll xs ++ c.encode x := by
  simp [encodeAll]

def decodeFrames (c : Codec B α) : Nat → List B → List α
  | 0, _ => []
  | fuel + 1, bytes =>
    match c.decode bytes with
    | none => []
    | some (x, rest) => x :: decodeFrames c fuel rest

/-- Every frame takes a symbol, so there are at most as many as symbols. -/
def decodeAll (c : Codec B α) (bytes : List B) : List α := c.decodeFrames bytes.length bytes

/-- What no frame can be read from: the end of a log or a torn frame. -/
def Torn (c : Codec B α) (bytes : List B) : Prop := c.decode bytes = none

variable {c : Codec B α} {Same : α → α → Prop}

variable (hc : c.Lawful Same)
include hc

theorem Lawful.torn_take {x : α} {k : Nat}
    (hk : k < (c.encode x).length) : c.Torn ((c.encode x).take k) :=
  hc.truncated x k hk

theorem Lawful.torn_nil (x : α) : c.Torn [] := by
  simpa using hc.torn_take (List.length_pos_of_ne_nil (hc.nonempty x))

theorem Lawful.length_le_encodeAll (xs : List α) : xs.length ≤ (c.encodeAll xs).length := by
  induction xs with
  | nil => simp
  | cons x xs ih =>
    have hpos := List.length_pos_of_ne_nil (hc.nonempty x)
    simp only [encodeAll_cons, List.length_cons, List.length_append]
    omega

theorem Lawful.decodeFrames_encodeAll (xs : List α) {tail : List B}
    (htail : c.Torn tail) {fuel : Nat} (hfuel : xs.length ≤ fuel) :
    List.Forall₂ Same xs (c.decodeFrames fuel (c.encodeAll xs ++ tail)) := by
  induction xs generalizing fuel with
  | nil =>
    cases fuel with
    | zero => exact .nil
    | succ fuel =>
      rw [encodeAll_nil, List.nil_append, decodeFrames, show c.decode tail = none from htail]
      exact .nil
  | cons x xs ih =>
    cases fuel with
    | zero => simp at hfuel
    | succ fuel =>
      obtain ⟨y, hdecode, hsame⟩ := hc.inverse x (c.encodeAll xs ++ tail)
      rw [encodeAll_cons, List.append_assoc, decodeFrames, hdecode]
      exact .cons hsame (ih (by simpa using hfuel))

/-- A log is read back frame by frame, whatever torn frame follows it. -/
theorem Lawful.decodeAll_encodeAll (xs : List α) {tail : List B}
    (htail : c.Torn tail) : List.Forall₂ Same xs (c.decodeAll (c.encodeAll xs ++ tail)) := by
  apply hc.decodeFrames_encodeAll xs htail
  have hlen := hc.length_le_encodeAll xs
  rw [List.length_append]
  omega

end Codec

end StartTech.Foundation

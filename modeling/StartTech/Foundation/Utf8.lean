import StartTech.Foundation.Bytes
import StartTech.Foundation.Text

/-!
# Text as bytes in UTF-8

A decoder that never fails puts the replacement character where no character can be read, once for
as many bytes as could still have started one.
-/

namespace StartTech.Foundation

namespace Utf8

/-- The character that starts the bytes. -/
def decodeChar? (bytes : Bytes) : Option Char := ByteArray.utf8DecodeChar? bytes.toByteArray 0

def replacement : Char := '�'

/-- The bytes that may follow the first byte of a character, and how many do. -/
def following (b : UInt8) : UInt8 × UInt8 × Nat :=
  if 0xC2 ≤ b ∧ b ≤ 0xDF then (0x80, 0xBF, 1)
  else if b = 0xE0 then (0xA0, 0xBF, 2)
  else if b = 0xED then (0x80, 0x9F, 2)
  else if 0xE1 ≤ b ∧ b ≤ 0xEF then (0x80, 0xBF, 2)
  else if b = 0xF0 then (0x90, 0xBF, 3)
  else if b = 0xF4 then (0x80, 0x8F, 3)
  else if 0xF1 ≤ b ∧ b ≤ 0xF3 then (0x80, 0xBF, 3)
  else (0x80, 0xBF, 0)

/-- Only the first of the bytes that follow has a range of its own. -/
def continued : UInt8 → UInt8 → Nat → Bytes → Nat
  | _, _, 0, _ => 0
  | _, _, _ + 1, [] => 0
  | lower, upper, n + 1, b :: rest =>
    if lower ≤ b ∧ b ≤ upper then 1 + continued 0x80 0xBF n rest else 0

/-- How many bytes one replacement character stands for. -/
def replaced : Bytes → Nat
  | [] => 0
  | b :: rest =>
    let (lower, upper, n) := following b
    1 + continued lower upper n rest

def decodeFrom : Nat → Bytes → Text
  | 0, _ => []
  | _ + 1, [] => []
  | k + 1, b :: rest =>
    match decodeChar? (b :: rest) with
    | some c => c :: decodeFrom k ((b :: rest).drop c.utf8Size)
    | none => replacement :: decodeFrom k ((b :: rest).drop (replaced (b :: rest)))

def decodeLossy (bytes : Bytes) : Text := decodeFrom bytes.length bytes

example : decodeLossy [0xE2, 0x82, 0x41] = [replacement, 'A'] := by decide

end Utf8

end StartTech.Foundation

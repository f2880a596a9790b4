import Mathlib.Data.List.Basic

/-!
# Files whose operations can fail

The content of a file is a sequence of symbols and each call on it succeeds or
fails. Data handed to a file may reach it in part when a call fails.
-/

namespace StartTech.Foundation

variable {B : Type}

/-- How a call ends. When it fails, so many symbols of the data that was handed
over have reached the file. -/
inductive IoResult
  | ok
  | err (reached : Nat)
  deriving DecidableEq, Repr

def IoResult.isOk : IoResult → Bool
  | .ok => true
  | .err _ => false

namespace FileIo

/-- Cut a file to a length, or fill it up with zeros. -/
def setLen [Inhabited B] (content : List B) (len : Nat) : List B :=
  content.take len ++ List.replicate (len - content.length) default

/-- Write at a position; a gap before it is filled with zeros. -/
def writeAt [Inhabited B] (content : List B) (pos : Nat) (bytes : List B) : List B :=
  setLen content pos ++ bytes ++ content.drop (pos + bytes.length)

theorem writeAt_end [Inhabited B] (content bytes : List B) :
    writeAt content content.length bytes = content ++ bytes := by
  simp [writeAt, setLen]

/-- The flag of an early return. -/
theorem fst_guard {α : Type} (b : Bool) (failed done : α) :
    (if !b then (false, failed) else (true, done)).1 = b := by
  cases b <;> rfl

/-- Write chunks one after the other; `false` when a write fails. -/
def writeChunks : List B → List (List B × IoResult) → Bool × List B
  | done, [] => (true, done)
  | done, (chunk, .ok) :: rest => writeChunks (done ++ chunk) rest
  | done, (chunk, .err reached) :: _ => (false, (done ++ chunk).take reached)

/-- Write chunks, flush and sync: whether all of it succeeded, and what reached the
file. -/
def writeFlushSync (chunks : List (List B × IoResult)) (flush sync : IoResult) : Bool × List B :=
  match writeChunks [] chunks with
  | (false, bytes) => (false, bytes)
  | (true, bytes) =>
    match flush with
    | .err reached => (false, bytes.take reached)
    | .ok => (sync.isOk, bytes)

theorem writeChunks_reached (done : List B) (chunks : List (List B × IoResult)) :
    ((writeChunks done chunks).1 = true →
        (writeChunks done chunks).2 = done ++ chunks.flatMap Prod.fst) ∧
      ∃ k, (writeChunks done chunks).2 = (done ++ chunks.flatMap Prod.fst).take k := by
  induction chunks generalizing done with
  | nil => exact ⟨fun _ => by simp [writeChunks], done.length, by simp [writeChunks]⟩
  | cons chunk rest ih =>
    obtain ⟨bytes, result⟩ := chunk
    cases result with
    | ok => simpa [writeChunks] using ih (done ++ bytes)
    | err reached =>
      refine ⟨by simp [writeChunks], min reached (done ++ bytes).length, ?_⟩
      rw [writeChunks, List.flatMap_cons, ← List.append_assoc,
        List.take_append_of_le_length (Nat.min_le_right _ _), ← List.take_take,
        List.take_length]

/-- What reaches the file is a first part of the data, and all of it on success. -/
theorem writeFlushSync_reached (chunks : List (List B × IoResult)) (flush sync : IoResult) :
    ((writeFlushSync chunks flush sync).1 = true →
        (writeFlushSync chunks flush sync).2 = chunks.flatMap Prod.fst) ∧
      ∃ k, (writeFlushSync chunks flush sync).2 = (chunks.flatMap Prod.fst).take k := by
  obtain ⟨hall, k, hk⟩ := writeChunks_reached [] chunks
  unfold writeFlushSync
  split
  · rename_i bytes h
    rw [h] at hk
    exact ⟨by simp, k, hk⟩
  · rename_i bytes h
    rw [h] at hall
    have hbytes : bytes = chunks.flatMap Prod.fst := hall rfl
    cases flush with
    | err reached => exact ⟨by simp, reached, by rw [hbytes]⟩
    | ok => exact ⟨fun _ => hbytes, bytes.length, by simp [← hbytes]⟩

end FileIo

end StartTech.Foundation

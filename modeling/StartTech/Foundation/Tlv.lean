import StartTech.Foundation.Bytes

/-!
# Records of a type, a length and a value

A record is a type of 16 bits, the length of its value in 64 bits and the value. Records
follow one another; a reader stops at the first that does not fit in what is left.
-/

namespace StartTech.Foundation
open Bytes (toNatBe ofNatBe length_ofNatBe toNatBe_lt)

namespace Tlv

@[ext] structure Record where
  kind : Nat
  value : Bytes
  deriving DecidableEq

def headerSize : Nat := 10

namespace Record

def bytes (r : Record) : Bytes :=
  ofNatBe 2 r.kind ++ (ofNatBe 8 r.value.length ++ r.value)

/-- The type and the length are numbers of the widths they are written in. -/
structure Fits (r : Record) : Prop where
  kind : r.kind < 65536
  length : r.value.length < 18446744073709551616

theorem length_bytes (r : Record) : r.bytes.length = headerSize + r.value.length := by
  simp [bytes, headerSize]
  omega

end Record

def encode (l : List Record) : Bytes := l.flatMap Record.bytes

/-- The records from a place on, each with its place; or the place that cannot be read. -/
def parseFrom : Nat → Nat → Bytes → Except Nat (List (Nat × Record))
  | _, _, [] => .ok []
  | 0, pos, _ :: _ => .error pos
  | k + 1, pos, b :: rest =>
    let raw := b :: rest
    if raw.length < headerSize then .error pos
    else
      let kind := toNatBe (raw.take 2)
      let len := toNatBe ((raw.drop 2).take 8)
      if len > raw.length - headerSize then .error pos
      else
        match parseFrom k (pos + headerSize + len) (raw.drop (headerSize + len)) with
        | .ok records => .ok ((pos, ⟨kind, (raw.drop headerSize).take len⟩) :: records)
        | .error pos => .error pos

def parse (raw : Bytes) : Except Nat (List (Nat × Record)) := parseFrom raw.length 0 raw

variable {k pos : Nat} {raw rest : Bytes} {r : Record} {l : List (Nat × Record)}

theorem Record.length_pos (r : Record) : 0 < r.bytes.length := by
  rw [r.length_bytes, headerSize]
  omega

/-- A record in front is read first. -/
theorem parseFrom_bytes (h : r.Fits) (k pos : Nat) (rest : Bytes) :
    parseFrom (k + 1) pos (r.bytes ++ rest) = match parseFrom k (pos + r.bytes.length) rest with
      | .ok records => .ok ((pos, r) :: records)
      | .error pos => .error pos := by
  have hlength := r.length_bytes
  have hhead : (r.bytes ++ rest).take 2 = ofNatBe 2 r.kind := by
    rw [Record.bytes, List.append_assoc, List.take_left' (length_ofNatBe 2 _)]
  have hlen : ((r.bytes ++ rest).drop 2).take 8 = ofNatBe 8 r.value.length := by
    rw [Record.bytes, List.append_assoc, List.drop_left' (length_ofNatBe 2 _),
      List.append_assoc, List.take_left' (length_ofNatBe 8 _)]
  have hval : (r.bytes ++ rest).drop headerSize = r.value ++ rest := by
    rw [Record.bytes, ← List.append_assoc, List.append_assoc _ r.value rest,
      List.drop_left' (by simp [headerSize])]
  have hnil : r.bytes ++ rest ≠ [] := by
    intro hnil
    have hzero := congrArg List.length hnil
    rw [List.length_append, hlength, headerSize] at hzero
    simp at hzero
  have hkind : toNatBe (ofNatBe 2 r.kind) = r.kind := Bytes.toNatBe_ofNatBe h.kind
  have hcount : toNatBe (ofNatBe 8 r.value.length) = r.value.length :=
    Bytes.toNatBe_ofNatBe h.length
  cases hraw : r.bytes ++ rest with
  | nil => exact absurd hraw hnil
  | cons b tail =>
    rw [parseFrom, ← hraw]
    dsimp only
    rw [hhead, hlen, hkind, hcount, hval, List.take_left, ← hlength, List.drop_left, Nat.add_assoc, ← hlength,
      if_neg (by rw [List.length_append]; omega),
      if_neg (by rw [List.length_append]; omega)]

/-- Bytes that are long enough start with a record. -/
theorem exists_record (hheader : headerSize ≤ raw.length)
    (hlen : toNatBe ((raw.drop 2).take 8) ≤ raw.length - headerSize) :
    ∃ r : Record, r.Fits ∧ r.kind = toNatBe (raw.take 2) ∧
      r.value = (raw.drop headerSize).take (toNatBe ((raw.drop 2).take 8)) ∧
      raw = r.bytes ++ raw.drop (headerSize + toNatBe ((raw.drop 2).take 8)) := by
  rw [headerSize] at hheader hlen
  have hkind : (raw.take 2).length = 2 := by
    rw [List.length_take]
    omega
  have hcount : ((raw.drop 2).take 8).length = 8 := by
    rw [List.length_take, List.length_drop]
    omega
  have hkindlt := toNatBe_lt (raw.take 2)
  have hcountlt := toNatBe_lt ((raw.drop 2).take 8)
  have hkindback := Bytes.ofNatBe_toNatBe (raw.take 2)
  have hcountback := Bytes.ofNatBe_toNatBe ((raw.drop 2).take 8)
  rw [hkind] at hkindlt hkindback
  rw [hcount] at hcountlt hcountback
  generalize toNatBe ((raw.drop 2).take 8) = len at hlen hcountlt hcountback ⊢
  have hval : ((raw.drop headerSize).take len).length = len := by
    rw [List.length_take, List.length_drop, headerSize]
    omega
  refine ⟨⟨toNatBe (raw.take 2), (raw.drop headerSize).take len⟩, ⟨hkindlt, ?_⟩, rfl, rfl, ?_⟩
  · rw [hval]
    exact hcountlt
  · rw [Record.bytes, hval, hkindback, hcountback, List.append_assoc, List.append_assoc,
      ← List.drop_drop, List.take_append_drop, headerSize, show 10 = 2 + 8 from rfl,
      ← List.drop_drop, List.take_append_drop, List.take_append_drop]

/-- What is read is what stands there. -/
theorem parseFrom_eq_ok (h : parseFrom k pos raw = .ok l) :
    raw = encode (l.map Prod.snd) ∧ ∀ x ∈ l, x.2.Fits := by
  induction k generalizing pos raw l with
  | zero =>
    cases raw with
    | nil =>
      cases h
      exact ⟨rfl, by simp⟩
    | cons b rest => cases h
  | succ k ih =>
    cases raw with
    | nil =>
      cases h
      exact ⟨rfl, by simp⟩
    | cons b tail =>
      rw [parseFrom] at h
      dsimp only at h
      generalize b :: tail = raw at h ⊢
      split at h
      · cases h
      rename_i hheader
      split at h
      · cases h
      rename_i hlen
      split at h
      · rename_i records hrecords
        cases h
        obtain ⟨hraw, hfits⟩ := ih hrecords
        obtain ⟨r, hr, hkind, hval, hfront⟩ :=
          exists_record (Nat.le_of_not_lt hheader) (Nat.le_of_not_lt hlen)
        have hrec : (⟨toNatBe (raw.take 2), (raw.drop headerSize).take
            (toNatBe ((raw.drop 2).take 8))⟩ : Record) = r := by
          ext1
          · exact hkind.symm
          · exact hval.symm
        rw [hrec]
        refine ⟨?_, List.forall_mem_cons.mpr ⟨hr, hfits⟩⟩
        rw [hraw] at hfront
        exact hfront
      · cases h

/-- Where each record of a list starts. -/
def places : Nat → List Record → List (Nat × Record)
  | _, [] => []
  | pos, r :: rest => (pos, r) :: places (pos + r.bytes.length) rest

theorem parseFrom_encode {l : List Record} (h : ∀ r ∈ l, r.Fits) {k : Nat} (hk : l.length ≤ k)
    (pos : Nat) : parseFrom k pos (encode l) = .ok (places pos l) := by
  induction l generalizing k pos with
  | nil =>
    cases k with
    | zero => rfl
    | succ k => rfl
  | cons r rest ih =>
    obtain ⟨hr, hrest⟩ := List.forall_mem_cons.mp h
    obtain _ | k := k
    · simp at hk
    rw [encode, List.flatMap_cons, parseFrom_bytes hr]
    rw [show rest.flatMap Record.bytes = encode rest from rfl, ih hrest (Nat.le_of_succ_le_succ hk)]
    rfl

theorem length_le_encode (l : List Record) : l.length ≤ (encode l).length := by
  induction l with
  | nil => simp
  | cons r rest ih =>
    have hpos := r.length_pos
    rw [encode, List.flatMap_cons, List.length_append, List.length_cons]
    rw [encode] at ih
    omega

theorem parse_encode {l : List Record} (h : ∀ r ∈ l, r.Fits) :
    parse (encode l) = .ok (places 0 l) :=
  parseFrom_encode h (length_le_encode l) 0

theorem places_append (pos : Nat) (l l' : List Record) :
    places pos (l ++ l') = places pos l ++ places (pos + (encode l).length) l' := by
  induction l generalizing pos with
  | nil => rfl
  | cons r rest ih =>
    rw [List.cons_append, places, ih, encode, encode, List.flatMap_cons,
      List.length_append, Nat.add_assoc]
    rfl

/-- Bytes can be read exactly if they are records. -/
theorem parse_eq_ok (h : parse raw = .ok l) :
    ∃ records : List Record, (∀ r ∈ records, r.Fits) ∧ raw = encode records ∧
      l = places 0 records := by
  obtain ⟨hraw, hfits⟩ := parseFrom_eq_ok h
  have hmem : ∀ r ∈ l.map Prod.snd, r.Fits := by
    intro r hr
    obtain ⟨x, hx, rfl⟩ := List.mem_map.mp hr
    exact hfits x hx
  refine ⟨l.map Prod.snd, hmem, hraw, ?_⟩
  rw [hraw, parse_encode hmem] at h
  exact (Except.ok.inj h).symm

/-- A record behind those that can be read is read last. -/
theorem parse_append (h : parse raw = .ok l) (hr : r.Fits) :
    parse (raw ++ r.bytes) = .ok (l ++ [(raw.length, r)]) := by
  obtain ⟨records, hfits, rfl, rfl⟩ := parse_eq_ok h
  have happend : encode records ++ r.bytes = encode (records ++ [r]) := by
    simp [encode]
  rw [happend, parse_encode, places_append, Nat.zero_add]
  · rfl
  · intro x hx
    rcases List.mem_append.mp hx with hx | hx
    · exact hfits x hx
    · rw [List.mem_singleton.mp hx]
      exact hr

end Tlv

end StartTech.Foundation

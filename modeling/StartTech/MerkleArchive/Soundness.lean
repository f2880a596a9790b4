import StartTech.MerkleArchive.Archive

/-!
# What an accepted archive satisfies

A directory is sound for a hash and a size if the hash is that of its table of contents
with everything missing, if its table fits in the size, and if what is in it is sound
for the hashes and sizes that the table gives. Reading accepts only sound directories.
-/

namespace StartTech.MerkleArchive

open Foundation Fallible
open Bytes (ofNatBe)

variable {S : Type} {h : Hash × Nat}

/-- Induction over what is in a directory. -/
theorem EntryContents.induction {motive : EntryContents S → Prop} (missing : motive .missing)
    (file : ∀ f, motive (.file f))
    (directory : ∀ d : DirectoryContents S, (∀ e ∈ d.contents, motive e.2.contents) →
      motive (.directory d)) (c : EntryContents S) : motive c :=
  @EntryContents.rec S motive (fun d => ∀ e ∈ d.contents, motive e.2.contents)
    (fun l => ∀ e ∈ l, motive e.2.contents) (fun e => motive e.2.contents)
    (fun e => motive e.contents) missing file directory (fun _ _ _ h => h) (by simp)
    (fun _ _ hhead htail e he => by
      rcases List.mem_cons.mp he with rfl | he
      · exact hhead
      · exact htail e he)
    (fun _ _ h => h) (fun _ _ h => h) c

section Sound

variable [FileSource S] {blake3 : Bytes → Hash} {l : List (Name × Entry S)}
  {sig : List (Name × (Hash × Nat))} {d : DirectoryContents S}

theorem sigContents_cons (e : Name × Entry S) (rest : List (Name × Entry S)) :
    sigContents blake3 (e :: rest) = (do
      let h ← e.2.toHash blake3
      let rest ← sigContents blake3 rest
      return (e.1, h) :: rest) := by
  obtain ⟨name, hash, contents⟩ := e
  cases hash with
  | none | some h => rfl

theorem sigContents_eq_ok : sigContents blake3 l = .ok sig ↔
      List.Forall₂ (fun e s => e.1 = s.1 ∧ e.2.toHash blake3 = .ok s.2) l sig := by
  induction l generalizing sig with
  | nil =>
    rw [sigContents, List.forall₂_nil_left_iff, Except.ok.injEq, eq_comm]
  | cons e rest ih =>
    rw [sigContents_cons, bind_eq_ok, List.forall₂_cons_left_iff]
    constructor
    · rintro ⟨h, hhash, hrest⟩
      obtain ⟨sig', hsig, hcons⟩ := bind_eq_ok.mp hrest
      exact ⟨(e.1, h), sig', ⟨rfl, hhash⟩, ih.mp hsig, (Except.ok.inj hcons).symm⟩
    · rintro ⟨⟨name', h⟩, sig', ⟨rfl, hhash⟩, hsig, rfl⟩
      exact ⟨h, hhash, bind_ok (ih.mpr hsig) rfl⟩

variable (blake3) in
mutual

/-- The contents of an entry agree with its hash and size. -/
def EntryContents.Sound : EntryContents S → Hash × Nat → Prop
  | .missing, _ => True
  | .file f, h => FileSource.size f = h.2
  | .directory ⟨contents, _, _⟩, h =>
    (∃ sig, sigContents blake3 contents = .ok sig ∧ blake3 (sigToc sig) = h.1) ∧
      tocSizeOf contents ≤ h.2 ∧ OrderedMap.Sorted contents ∧
      contents.length < Text.wordLimit ∧ SoundAll contents
termination_by structural c => c

def SoundAll : List (Name × Entry S) → Prop
  | [] => True
  | (name, ⟨hash, contents⟩) :: rest =>
    (name.bytes.length ≤ maxStrLen ∧ ∃ h, EntryOf.toHash blake3 ⟨hash, contents⟩ = .ok h ∧
      h.2 < Text.wordLimit ∧ contents.Sound h) ∧ SoundAll rest
termination_by structural l => l

end

variable (blake3) in
/-- An entry has a hash, and its contents agree with it. -/
def EntryOf.Sound (e : Entry S) : Prop :=
  ∃ h, e.toHash blake3 = .ok h ∧ h.2 < Text.wordLimit ∧ e.contents.Sound blake3 h

variable (blake3) in
def SoundEntry (e : Name × Entry S) : Prop :=
  e.1.bytes.length ≤ maxStrLen ∧ e.2.Sound blake3

theorem soundAll_iff : SoundAll blake3 l ↔ ∀ e ∈ l, SoundEntry blake3 e := by
  induction l with
  | nil => simp [SoundAll]
  | cons e rest ih =>
    rw [SoundAll, ih, List.forall_mem_cons]
    rfl

/-- The parts of what makes a directory sound. -/
structure DirectoryOf.Sound (blake3 : Bytes → Hash) (d : DirectoryContents S) (h : Hash × Nat) :
    Prop where
  sighash : ∃ sig, sigContents blake3 d.contents = .ok sig ∧ blake3 (sigToc sig) = h.1
  tocSize : d.tocSize ≤ h.2
  sorted : OrderedMap.Sorted d.contents
  length : d.contents.length < Text.wordLimit
  entries : ∀ e ∈ d.contents, SoundEntry blake3 e

theorem sound_directory : (EntryContents.directory d).Sound blake3 h ↔ d.Sound blake3 h := by
  rw [EntryContents.Sound, soundAll_iff]
  exact ⟨fun ⟨h₁, h₂, h₃, h₄, h₅⟩ => ⟨h₁, h₂, h₃, h₄, h₅⟩,
    fun ⟨h₁, h₂, h₃, h₄, h₅⟩ => ⟨h₁, h₂, h₃, h₄, h₅⟩⟩

/-- What is in a sound directory is sound. -/
theorem EntryOf.Sound.child {e : Entry S} (h : e.Sound blake3) (hd : e.contents = .directory d) :
    ∀ x ∈ d.contents, x.2.Sound blake3 := by
  obtain ⟨_, -, -, hsound⟩ := h
  rw [hd] at hsound
  exact fun x hx => ((sound_directory.mp hsound).entries x hx).2

/-- The sorting of a signature table changes nothing, as the names are in order. -/
theorem sigToc_eq (h : OrderedMap.Sorted l) (hsig : sigContents blake3 l = .ok sig) :
    sigToc sig = tocBytes (sig.map missingEntry) := by
  have hpairwise : OrderedMap.Sorted sig :=
    h.of_forall₂ (fun _ _ h => h.1) (sigContents_eq_ok.mp hsig)
  rw [sigToc, List.mergeSort_of_pairwise]
  refine hpairwise.imp fun {a b} hlt => ?_
  simp [tocCmp, hlt]

end Sound

variable {source : Source} {r rest : Bytes} {e : Entry Section} {blake3 : Bytes → Hash}
  {d : DirectoryContents Section} {depth : Nat}

theorem checkedEnd_eq_ok {position size stop : Nat} :
    checkedEnd source position size = .ok stop ↔ stop = position + size ∧
      position + size < Text.wordLimit ∧ ∀ limit ∈ source.size, position + size ≤ limit := by
  constructor
  · intro h
    obtain ⟨_, hword, h⟩ := bind_eq_ok.mp h
    obtain ⟨_, hlimit, h⟩ := bind_eq_ok.mp h
    exact ⟨(Except.ok.inj h).symm, ensure_eq_ok.mp hword, ensure_eq_ok.mp hlimit⟩
  · rintro ⟨rfl, hword, hlimit⟩
    exact ensure_bind hword (ensure_bind hlimit rfl)

/-- How an entry was read: its hash and size, and then one of three kinds. -/
theorem EntryOf.deserialize_eq_ok
    {directory : Bytes → Hash × Nat → Except Error (DirectoryContents Section × Bytes)}
    (h : EntryOf.deserialize source directory r = .ok (e, rest)) :
    ∃ (hash : Hash) (size : Nat) (r' : Bytes), e.hash = some (hash, size) ∧
      size < Text.wordLimit ∧ r = hash.bytes ++ (ofNatBe 8 size ++ r') ∧
      (e.contents = .missing ∧ r' = 0 :: rest ∨
        (∃ position, e.contents = .file ⟨source, position, size⟩ ∧
          checkedEnd source position size = .ok (position + size) ∧
          r' = 1 :: (ofNatBe 8 position ++ rest)) ∨
        ∃ d r'', e.contents = .directory d ∧ r' = 2 :: r'' ∧
          directory r'' (hash, size) = .ok (d, rest)) := by
  obtain ⟨⟨hash, r₁⟩, hhash, h⟩ := bind_eq_ok.mp h
  obtain ⟨⟨size, r₂⟩, hsize, h⟩ := bind_eq_ok.mp h
  obtain ⟨⟨type, r₃⟩, htype, h⟩ := bind_eq_ok.mp h
  obtain ⟨hlt, hr₁⟩ := readU64_eq_ok hsize
  obtain ⟨hr₂, -⟩ := readExact_eq_ok htype
  have hr : r = hash.bytes ++ (ofNatBe 8 size ++ (type ++ r₃)) := by
    rw [readHash_eq_ok hhash, hr₁, hr₂]
  dsimp only at h
  split at h
  · cases h
    exact ⟨hash, size, _, rfl, hlt, hr, .inl ⟨rfl, rfl⟩⟩
  · obtain ⟨⟨position, r₄⟩, hpos, h⟩ := bind_eq_ok.mp h
    obtain ⟨stop, hstop, h⟩ := bind_eq_ok.mp h
    cases h
    obtain ⟨-, hr₃⟩ := readU64_eq_ok hpos
    have hend := (checkedEnd_eq_ok.mp hstop).1
    exact ⟨hash, size, _, rfl, hlt, hr, .inr (.inl ⟨position, rfl, hend ▸ hstop, by simp [hr₃]⟩)⟩
  · obtain ⟨⟨d, r₄⟩, hd, h⟩ := bind_eq_ok.mp h
    cases h
    exact ⟨hash, size, _, rfl, hlt, hr, .inr (.inr ⟨d, r₃, rfl, rfl, hd⟩)⟩
  · cases h

/-- How a directory is read. -/
theorem DirectoryOf.deserialize_succ :
    DirectoryOf.deserialize blake3 source (depth + 1) r h = .ok (d, rest) ↔
      ∃ (position size len : Nat) (toc : Bytes),
        r = ofNatBe 8 position ++ (ofNatBe 8 size ++ rest) ∧ size ≤ h.2 ∧
        checkedEnd source position size = .ok (position + size) ∧
        readVarint (source.fetch position size) = .ok (len, toc) ∧
        readEntries (EntryOf.deserialize source (DirectoryOf.deserialize blake3 source depth))
          len toc [] (position + size) = .ok (d.contents, d.sourceEnd) ∧
        d.sortBy = none ∧ d.sighash blake3 = .ok h.1 := by
  constructor
  · intro hd
    obtain ⟨⟨position, r₁⟩, hpos, hd⟩ := bind_eq_ok.mp hd
    obtain ⟨⟨size, r₂⟩, hsize, hd⟩ := bind_eq_ok.mp hd
    obtain ⟨_, hmax, hd⟩ := bind_eq_ok.mp hd
    obtain ⟨stop, hstop, hd⟩ := bind_eq_ok.mp hd
    obtain ⟨⟨len, toc⟩, hlen, hd⟩ := bind_eq_ok.mp hd
    obtain ⟨⟨entries, sourceEnd⟩, hents, hd⟩ := bind_eq_ok.mp hd
    obtain ⟨actual, hactual, hd⟩ := bind_eq_ok.mp hd
    obtain ⟨_, hsame, hd⟩ := bind_eq_ok.mp hd
    cases hd
    have hend := (checkedEnd_eq_ok.mp hstop).1
    rw [ensure_eq_ok] at hmax hsame
    subst hend hsame
    refine ⟨position, size, len, toc, ?_, hmax, hstop, hlen, hents, rfl, hactual⟩
    rw [(readU64_eq_ok hpos).2, (readU64_eq_ok hsize).2]
  · rintro ⟨position, size, len, toc, rfl, hmax, hstop, hlen, hents, hsort, hsighash⟩
    obtain ⟨-, hword, -⟩ := checkedEnd_eq_ok.mp hstop
    obtain ⟨entries, sourceEnd, sortBy⟩ := d
    cases hsort
    refine bind_ok (readU64_append (by omega) _) ?_
    refine bind_ok (readU64_append (by omega) _) ?_
    refine ensure_bind hmax (bind_ok hstop (bind_ok hlen (bind_ok hents ?_)))
    exact bind_ok hsighash (ensure_bind rfl rfl)

/-- A directory is read from where its table is and how long it is. -/
theorem DirectoryOf.exists_table
    (hd : DirectoryOf.deserialize blake3 source depth r h = .ok (d, rest)) :
    ∃ position size, r = ofNatBe 8 position ++ (ofNatBe 8 size ++ rest) ∧
      position + size < Text.wordLimit := by
  cases depth with
  | zero => cases hd
  | succ depth =>
    obtain ⟨position, size, _, _, hr, -, hstop, -⟩ := DirectoryOf.deserialize_succ.mp hd
    exact ⟨position, size, hr, (checkedEnd_eq_ok.mp hstop).2.1⟩

/-- What reading a table gives, when each entry that is read satisfies something and takes
at least as many bytes as would be written for it. -/
theorem readEntries_sound {entry : Bytes → Except Error (Entry Section × Bytes)}
    {Q : Entry Section → Prop}
    (hentry : ∀ r e rest, entry r = .ok (e, rest) →
      Q e ∧ ∃ bytes, r = bytes ++ rest ∧ e.headerSize ≤ bytes.length)
    {n : Nat} {toc : Bytes} {acc entries : List (Name × Entry Section)} {start stop : Nat}
    (h : readEntries entry n toc acc start = .ok (entries, stop)) (hsorted : OrderedMap.Sorted acc)
    (hacc : ∀ x ∈ acc, x.1.bytes.length ≤ maxStrLen ∧ Q x.2) :
    OrderedMap.Sorted entries ∧ (∀ x ∈ entries, x.1.bytes.length ≤ maxStrLen ∧ Q x.2) ∧
      entries.length ≤ acc.length + n ∧
      total (fun e => varstringSize e.1 + e.2.headerSize) entries ≤
        total (fun e => varstringSize e.1 + e.2.headerSize) acc + toc.length := by
  induction n generalizing toc acc start with
  | zero =>
    cases h
    exact ⟨hsorted, hacc, le_rfl, Nat.le_add_right _ _⟩
  | succ n ih =>
    obtain ⟨⟨name, toc₁⟩, hname, h⟩ := bind_eq_ok.mp h
    obtain ⟨⟨e, toc₂⟩, he, h⟩ := bind_eq_ok.mp h
    obtain ⟨hq, bytes₂, htoc₁, hsize₂⟩ := hentry _ _ _ he
    have hne : toc₁ ≠ [] := by
      rintro rfl
      have hnil : bytes₂ = [] := (List.append_eq_nil_iff.mp htoc₁.symm).1
      rw [hnil, EntryOf.headerSize] at hsize₂
      simp at hsize₂
    obtain ⟨hshort, bytes₁, htoc, hsize₁⟩ := readVarstring_eq_ok hname hne
    have hmem : ∀ x ∈ OrderedMap.insert name e acc, x.1.bytes.length ≤ maxStrLen ∧ Q x.2 := by
      intro x hx
      rcases OrderedMap.mem_insert hx with rfl | hx
      · exact ⟨hshort, hq⟩
      · exact hacc x hx
    obtain ⟨h₁, h₂, h₃, h₄⟩ := ih h hsorted.insert hmem
    refine ⟨h₁, h₂, ?_, ?_⟩
    · have hle := OrderedMap.length_insert_le name e acc
      omega
    · have hle := OrderedMap.total_insert_le
        (fun x : Name × Entry Section => varstringSize x.1 + x.2.headerSize) name e acc
      dsimp only at hle
      rw [length_varstring hshort] at hsize₁
      subst htoc htoc₁
      simp only [List.length_append] at h₄ ⊢
      omega

/-- An entry takes as many bytes as its header has. -/
theorem EntryOf.deserialize_length
    (h : EntryOf.deserialize source (DirectoryOf.deserialize blake3 source depth) r =
      .ok (e, rest)) : ∃ bytes, r = bytes ++ rest ∧ e.headerSize ≤ bytes.length := by
  obtain ⟨hash, size, r', -, -, rfl, hcases⟩ := EntryOf.deserialize_eq_ok h
  rcases hcases with ⟨hc, rfl⟩ | ⟨position, hc, -, rfl⟩ | ⟨d, r'', hc, rfl, hd⟩
  · refine ⟨hash.bytes ++ (ofNatBe 8 size ++ [0]), by simp, ?_⟩
    simp [EntryOf.headerSize, hc, EntryContents.kind, Kind.headerSize, hash.length_eq]
  · refine ⟨hash.bytes ++ (ofNatBe 8 size ++ 1 :: ofNatBe 8 position), by simp, ?_⟩
    simp [EntryOf.headerSize, hc, EntryContents.kind, Kind.headerSize, hash.length_eq]
  · obtain ⟨position, tocSize, rfl, -⟩ := DirectoryOf.exists_table hd
    refine ⟨hash.bytes ++ (ofNatBe 8 size ++
      2 :: (ofNatBe 8 position ++ ofNatBe 8 tocSize)), by simp, ?_⟩
    simp [EntryOf.headerSize, hc, EntryContents.kind, Kind.headerSize, hash.length_eq]

/-- Only sound directories are accepted. -/
theorem DirectoryOf.deserialize_sound
    (hd : DirectoryOf.deserialize blake3 source depth r h = .ok (d, rest)) : d.Sound blake3 h := by
  induction depth generalizing r rest h d with
  | zero => cases hd
  | succ depth ih =>
    obtain ⟨position, size, len, toc, -, hmax, hstop, hlen, hents, -, hsig⟩ :=
      DirectoryOf.deserialize_succ.mp hd
    obtain ⟨hlenword, bytes, hfetch, hbytes⟩ := readVarint_eq_ok hlen
    have hentry : ∀ r e rest, EntryOf.deserialize source
        (DirectoryOf.deserialize blake3 source depth) r = .ok (e, rest) →
        ∃ h, e.toHash blake3 = .ok h ∧ h.2 < Text.wordLimit ∧ e.contents.Sound blake3 h := by
      intro r e rest he
      obtain ⟨hash, size, r', hhash, hword, -, hcases⟩ := EntryOf.deserialize_eq_ok he
      refine ⟨(hash, size), by simp [EntryOf.toHash, hhash], hword, ?_⟩
      rcases hcases with ⟨hc, -⟩ | ⟨position, hc, -, -⟩ | ⟨d, r'', hc, -, hd⟩
      · rw [hc]
        trivial
      · rw [hc]
        rfl
      · rw [hc]
        exact sound_directory.mpr (ih hd)
    obtain ⟨hsorted, hmem, hlength, htotal⟩ := readEntries_sound
      (fun r e rest he => ⟨hentry r e rest he, EntryOf.deserialize_length he⟩) hents
      .nil (by simp)
    have hlen' : d.contents.length ≤ len := by simpa using hlength
    have hsmall := hbytes _ hlen'
    have hword : d.contents.length < Text.wordLimit := Nat.lt_of_le_of_lt hlen' hlenword
    obtain ⟨sig, hcontents, hactual⟩ := bind_eq_ok.mp hsig
    refine ⟨⟨sig, hcontents, Except.ok.inj hactual⟩, ?_, hsorted, hword, hmem⟩
    have htoc : (source.fetch position size).length ≤ size := List.length_take_le _ _
    rw [hfetch, List.length_append] at htoc
    rw [Varint.length_encode hword] at hsmall
    rw [DirectoryOf.tocSize, tocSizeOf]
    simp only [total_nil] at htotal
    omega

theorem EntryOf.deserialize_mono
    {directory directory' : Bytes → Hash × Nat → Except Error (DirectoryContents Section × Bytes)}
    (h : ∀ r k x, directory r k = .ok x → directory' r k = .ok x)
    {x : Entry Section × Bytes} (hx : EntryOf.deserialize source directory r = .ok x) :
    EntryOf.deserialize source directory' r = .ok x := by
  obtain ⟨⟨hash, r₁⟩, hhash, hx⟩ := bind_eq_ok.mp hx
  obtain ⟨⟨size, r₂⟩, hsize, hx⟩ := bind_eq_ok.mp hx
  obtain ⟨⟨type, r₃⟩, htype, hx⟩ := bind_eq_ok.mp hx
  refine bind_ok hhash (bind_ok hsize (bind_ok htype ?_))
  dsimp only at hx ⊢
  split at hx
  · exact hx
  · exact hx
  · obtain ⟨y, hd, hx⟩ := bind_eq_ok.mp hx
    exact bind_ok (h _ _ _ hd) hx
  · cases hx

theorem readEntries_mono {entry entry' : Bytes → Except Error (Entry Section × Bytes)}
    (h : ∀ r x, entry r = .ok x → entry' r = .ok x) {n : Nat} {toc : Bytes}
    {acc : List (Name × Entry Section)} {start : Nat} {y : List (Name × Entry Section) × Nat}
    (hy : readEntries entry n toc acc start = .ok y) :
    readEntries entry' n toc acc start = .ok y := by
  induction n generalizing toc acc start with
  | zero => exact hy
  | succ n ih =>
    obtain ⟨x, hname, hy⟩ := bind_eq_ok.mp hy
    obtain ⟨e, he, hy⟩ := bind_eq_ok.mp hy
    exact bind_ok hname (bind_ok (h _ _ he) (ih hy))

/-- What is accepted to some depth is accepted to every greater one. -/
theorem DirectoryOf.deserialize_mono {depth depth' : Nat} (hle : depth ≤ depth')
    {x : DirectoryContents Section × Bytes}
    (hx : DirectoryOf.deserialize blake3 source depth r h = .ok x) :
    DirectoryOf.deserialize blake3 source depth' r h = .ok x := by
  induction depth generalizing depth' r h x with
  | zero => cases hx
  | succ depth ih =>
    obtain ⟨k, rfl⟩ : ∃ k, depth' = k + 1 := ⟨depth' - 1, by omega⟩
    obtain ⟨position, size, len, toc, hr, hmax, hstop, hlen, hents, hread⟩ :=
      DirectoryOf.deserialize_succ.mp hx
    have hents' := readEntries_mono (fun r x he => EntryOf.deserialize_mono
      (fun r k x hd => ih (Nat.le_of_succ_le_succ hle) hd) he) hents
    exact DirectoryOf.deserialize_succ.mpr
      ⟨position, size, len, toc, hr, hmax, hstop, hlen, hents', hread⟩

end StartTech.MerkleArchive

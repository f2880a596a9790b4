import StartTech.MerkleArchive.Soundness

/-!
# Where the parts of an archive are written

The queue of a writer hands out a position for each entry before the entry is written.
Each entry is then written at its position: what is read there is a copy of it, and the
tables of contents and files that were written follow one another without gaps.
-/

namespace StartTech.MerkleArchive

open Foundation Fallible
open EntryContents (directory)
open Prod (snd fst)
open List (length_append append_assoc mem_cons_of_mem flatMap_cons)
open Bytes (ofNatBe)

variable {S : Type} [FileSource S] {blake3 : Bytes → Hash} {l : List (Name × Entry S)}
  {source : Source} {e : Entry S} {depth depth' : Nat}

section Copies

variable (blake3) in
mutual

/-- What was read is a copy of what was written: the same names, kinds, hashes and sizes,
and files with the same bytes. -/
def EntryContents.Copied : EntryContents S → EntryContents Section → Prop
  | .missing, .missing => True
  | .file f, .file s => FileSource.bytes s = FileSource.bytes f
  | .directory ⟨contents, _, _⟩, .directory ⟨contents', _, _⟩ => CopiedAll contents contents'
  | _, _ => False
termination_by structural c => c

def CopiedAll : List (Name × Entry S) → List (Name × Entry Section) → Prop
  | [], [] => True
  | (name, ⟨hash, contents⟩) :: rest, (name', ⟨hash', contents'⟩) :: rest' =>
    (name = name' ∧ (∃ h, EntryOf.toHash blake3 ⟨hash, contents⟩ = .ok h ∧ hash' = some h) ∧
      contents.Copied contents') ∧ CopiedAll rest rest'
  | _, _ => False
termination_by structural l => l

end

variable (blake3) in
/-- The same hash and size, and contents that are a copy. -/
structure EntryOf.Copied (e : Entry S) (e' : Entry Section) : Prop where
  hash : ∃ h, e.toHash blake3 = .ok h ∧ e'.hash = some h
  contents : e.contents.Copied blake3 e'.contents

variable {l : List (Name × Entry S)} {l' : List (Name × Entry Section)} {d : DirectoryContents S}
  {d' : DirectoryContents Section} {c : EntryContents Section}

variable (blake3) in
/-- The same names in the same order, with entries that are copies. -/
abbrev CopiedEntries (l : List (Name × Entry S)) (l' : List (Name × Entry Section)) : Prop :=
  List.Forall₂ (fun e e' => e.1 = e'.1 ∧ e.2.Copied blake3 e'.2) l l'

theorem copiedAll_iff : CopiedAll blake3 l l' ↔ CopiedEntries blake3 l l' := by
  induction l generalizing l' with
  | nil =>
    cases l' with
    | nil => simp [CopiedAll]
    | cons e' rest' => simp [CopiedAll]
  | cons e rest ih =>
    cases l' with
    | nil => simp [CopiedAll]
    | cons e' rest' =>
      rw [CopiedAll, CopiedEntries, List.forall₂_cons, ih]
      exact and_congr_left' (and_congr_right' ⟨fun h => ⟨h.1, h.2⟩, fun h => ⟨h.1, h.2⟩⟩)

theorem copied_directory : (directory d).Copied blake3 (.directory d') ↔
      CopiedEntries blake3 d.contents d'.contents := by
  rw [← copiedAll_iff]
  rw [EntryContents.Copied]

theorem EntryContents.Copied.exists_file {f : S} (h : (EntryContents.file f).Copied blake3 c) :
    ∃ s, c = .file s ∧ FileSource.bytes s = FileSource.bytes f := by
  cases c with
  | missing => exact False.elim h
  | file s => exact ⟨s, rfl, h⟩
  | directory d => exact False.elim h

theorem EntryContents.Copied.exists_directory (h : (directory d).Copied blake3 c) :
    ∃ d', c = .directory d' ∧ CopiedEntries blake3 d.contents d'.contents := by
  cases c with
  | missing | file s => exact False.elim h
  | directory d' => exact ⟨d', rfl, copied_directory.mp h⟩

theorem EntryContents.Copied.of_file {c : EntryContents S} {s : Section}
    (h : c.Copied blake3 (.file s)) :
    ∃ f, c = .file f ∧ FileSource.bytes s = FileSource.bytes f := by
  cases c with
  | missing => exact False.elim h
  | file f => exact ⟨f, rfl, h⟩
  | directory d => exact False.elim h

theorem EntryContents.Copied.of_directory {c : EntryContents S}
    (h : c.Copied blake3 (.directory d')) : ∃ d, c = .directory d := by
  cases c with
  | missing | file f => exact False.elim h
  | directory d => exact ⟨d, rfl⟩

/-- A copy has the hashes of what it is a copy of. -/
theorem sigContents_eq_of_copied (h : CopiedEntries blake3 l l') :
    sigContents blake3 l' = sigContents blake3 l := by
  induction h with
  | nil => rfl
  | cons hhead _ ih =>
    obtain ⟨hname, ⟨h, hhash, hhash'⟩, -⟩ := hhead
    rw [sigContents_cons, sigContents_cons, ih, hhash, hname, EntryOf.toHash, hhash']

end Copies

variable (blake3) in
mutual

/-- The regions that hold what was read: the section of each file, and for each directory
the table of contents that it is read from. -/
def EntryContents.Occupies (source : Source) : EntryContents Section → List Region → Prop
  | .missing, regions => regions = []
  | .file s, regions => regions = [⟨s.position, s.size⟩]
  | .directory ⟨contents, sourceEnd, sortBy⟩, regions =>
    ∃ table rest, regions = table :: rest ∧
      (∃ depth h, DirectoryOf.deserialize blake3 source depth
        (ofNatBe 8 table.position ++ ofNatBe 8 table.size) h =
          .ok (⟨contents, sourceEnd, sortBy⟩, [])) ∧
      OccupiesAll source contents rest
termination_by structural c => c

def OccupiesAll (source : Source) : List (Name × Entry Section) → List Region → Prop
  | [], regions => regions = []
  | (_, ⟨_, contents⟩) :: rest, regions =>
    ∃ first others, regions = first ++ others ∧ contents.Occupies source first ∧
      OccupiesAll source rest others
termination_by structural l => l

end

theorem occupiesAll_of_forall₂ {l : List (Name × Entry Section)} {regions : List (List Region)}
    (h : List.Forall₂ (fun e r => e.2.contents.Occupies blake3 source r) l regions) :
    OccupiesAll blake3 source l regions.flatten := by
  induction h with
  | nil => rfl
  | cons hhead _ ih => exact ⟨_, _, rfl, hhead, ih⟩

section Files

mutual

/-- Every file in an entry satisfies something together with its known hash and size. -/
def EntryContents.EachFile (P : S → Option (Hash × Nat) → Prop) :
    EntryContents S → Option (Hash × Nat) → Prop
  | .missing, _ => True
  | .file f, hash => P f hash
  | .directory ⟨contents, _, _⟩, _ => EachFileIn P contents
termination_by structural c => c

def EachFileIn (P : S → Option (Hash × Nat) → Prop) : List (Name × Entry S) → Prop
  | [] => True
  | (_, ⟨hash, contents⟩) :: rest => contents.EachFile P hash ∧ EachFileIn P rest
termination_by structural l => l

end

variable {P : S → Option (Hash × Nat) → Prop}

omit [FileSource S] in
theorem eachFileIn_iff : EachFileIn P l ↔ ∀ e ∈ l, e.2.contents.EachFile P e.2.hash := by
  induction l with
  | nil => simp [EachFileIn]
  | cons e rest ih =>
    rw [EachFileIn, ih, List.forall_mem_cons]

omit [FileSource S] in
theorem eachFile_directory {d : DirectoryContents S} {hash : Option (Hash × Nat)} :
    (directory d).EachFile P hash ↔
      ∀ e ∈ d.contents, e.2.contents.EachFile P e.2.hash := by
  rw [← eachFileIn_iff]
  rw [EntryContents.EachFile]

/-- A source that gives as many bytes as it says. -/
def Whole (f : S) (_ : Option (Hash × Nat)) : Prop := (FileSource.bytes f).length = FileSource.size f

variable (blake3) in
/-- An entry that can be read back once it is written. -/
structure Storable (e : Entry S) : Prop where
  sound : e.Sound blake3
  whole : e.contents.EachFile Whole e.hash

theorem copyVerify_eq_ok {f : S} {verify : Option (Hash × Nat)} {body : Bytes}
    (h : copyVerify blake3 f verify = .ok body) : body = FileSource.bytes f := by
  cases verify with
  | none => exact (Except.ok.inj h).symm
  | some v =>
    obtain ⟨_, -, h⟩ := bind_eq_ok.mp h
    obtain ⟨_, -, h⟩ := bind_eq_ok.mp h
    obtain ⟨_, -, h⟩ := bind_eq_ok.mp h
    exact (Except.ok.inj h).symm

end Files

section Tables

/-- The bytes that an entry takes in the archive. -/
def EntryOf.storedSize (e : Entry S) : Nat := e.contents.storedSize

/-- Something is written for the entry. -/
def EntryOf.Present (e : Entry S) : Prop := e.contents.kind ≠ .missing

omit [FileSource S] in
instance (e : Entry S) : Decidable e.Present := inferInstanceAs (Decidable (_ ≠ _))

omit [FileSource S] in
theorem missing_of_not_present (h : ¬ e.Present) : e.contents = .missing := by
  obtain ⟨hash, contents⟩ := e
  cases contents with
  | missing => rfl
  | file f | directory d => exact absurd nofun h

theorem storedSize_of_not_present (h : ¬ e.Present) : e.storedSize = 0 := by
  rw [EntryOf.storedSize, missing_of_not_present h]
  rfl

/-- The entries of a table that are put in the queue. -/
def queued (l : List (Name × Entry S)) : List (Entry S) :=
  (l.map snd).filter fun e => decide e.Present

variable {e : Name × Entry S} {l : List (Name × Entry S)} {q q' : WriteQueue S} {bytes : Bytes}

omit [FileSource S] in
theorem queued_cons_of_pos (h : e.2.Present) (l : List (Name × Entry S)) :
    queued (e :: l) = e.2 :: queued l := by
  simp [queued, h]

omit [FileSource S] in
theorem queued_cons_of_neg (h : ¬ e.2.Present) (l : List (Name × Entry S)) :
    queued (e :: l) = queued l := by
  simp [queued, h]

omit [FileSource S] in
theorem mem_queued (he : e ∈ l) (h : e.2.Present) : e.2 ∈ queued l :=
  List.mem_filter.mpr ⟨List.mem_map_of_mem he, by simpa using h⟩

omit [FileSource S] in
/-- A weight of what is in the queue, when missing entries weigh nothing. -/
theorem total_queued {w : Entry S → Nat} (hw : ∀ e, ¬ e.Present → w e = 0)
    (l : List (Name × Entry S)) : total w (queued l) = total (fun e => w e.2) l := by
  induction l with
  | nil => rfl
  | cons e rest ih =>
    by_cases h : e.2.Present
    · rw [queued_cons_of_pos h, total_cons, total_cons, ih]
    · rw [queued_cons_of_neg h, total_cons, ih, hw e.2 h, Nat.zero_add]

omit [FileSource S] in
theorem DirectoryOf.tocOrder_perm (d : DirectoryContents S) : d.tocOrder.Perm d.contents :=
  List.mergeSort_perm _ _

/-- What putting the entries of a table in the queue does to the queue. -/
theorem serializeEntries_queue (h : serializeEntries blake3 l q = .ok (bytes, q')) :
    q' = ⟨q.nextAvailablePosition + total (fun e => e.2.storedSize) l, q.queue ++ queued l⟩ := by
  induction l generalizing q bytes with
  | nil =>
    cases h
    simp [queued]
  | cons e rest ih =>
    obtain ⟨name, hash, contents⟩ := e
    obtain ⟨⟨hash', size⟩, -, h⟩ := bind_eq_ok.mp h
    obtain ⟨⟨bytes', q''⟩, hrest, h⟩ := bind_eq_ok.mp h
    cases h
    rw [ih hrest]
    cases contents with
    | missing => simp [queued, EntryOf.storedSize, EntryContents.storedSize, EntryOf.Present,
        EntryContents.kind]
    | file f =>
      simp [queued, EntryOf.storedSize, EntryOf.Present, EntryContents.kind, Nat.add_assoc]
    | directory d =>
      simp [queued, EntryOf.storedSize, EntryOf.Present, EntryContents.kind, Nat.add_assoc]

/-- An entry is written with the position that the queue had for it. -/
theorem serializeEntries_cons {rest : List (Name × Entry S)} {bytes : Bytes}
    (h : serializeEntries blake3 (e :: rest) q = .ok (bytes, q')) :
    ∃ hash bytes', e.2.toHash blake3 = .ok hash ∧
      serializeEntries blake3 rest (q.add e.2).2 = .ok (bytes', q') ∧
      (q.add e.2).2.nextAvailablePosition = q.nextAvailablePosition + e.2.storedSize ∧
      bytes = varstring e.1 ++ (hash.1.bytes ++ (ofNatBe 8 hash.2 ++
        ((e.2.contents.header q.nextAvailablePosition).bytes ++ bytes'))) := by
  obtain ⟨name, known, contents⟩ := e
  obtain ⟨hash, hhash, h⟩ := bind_eq_ok.mp h
  obtain ⟨⟨bytes', q''⟩, hrest, h⟩ := bind_eq_ok.mp h
  cases h
  refine ⟨hash, bytes', hhash, hrest, ?_, ?_⟩
  · cases contents with
    | missing | file f | directory d => rfl
  · cases contents with
    | missing | file f | directory d => simp [TocEntry.bytes, EntryContents.header]

omit [FileSource S] in
theorem length_header (e : Entry S) (position : Nat) :
    (e.contents.header position).bytes.length = e.contents.kind.headerSize := by
  cases e.contents with
  | missing | file f | directory d => rfl

theorem length_serializeEntries (h : serializeEntries blake3 l q = .ok (bytes, q'))
    (hnames : ∀ e ∈ l, e.1.bytes.length ≤ maxStrLen) :
    bytes.length = total (fun e => varstringSize e.1 + e.2.headerSize) l := by
  induction l generalizing q bytes with
  | nil =>
    cases h
    rfl
  | cons e rest ih =>
    obtain ⟨hash, bytes', -, hrest, -, rfl⟩ := serializeEntries_cons h
    have hlen := ih hrest fun e he => hnames e (mem_cons_of_mem _ he)
    simp only [length_append, length_varstring (hnames e (by simp)), hash.1.length_eq,
      Bytes.length_ofNatBe, length_header, hlen, total_cons, EntryOf.headerSize]
    omega

variable (blake3) in
/-- What is written for an entry in a table of contents is read as the given entry. -/
def ReadsAt (source : Source) (depth : Nat) (e : Entry S) (position : Nat) (e' : Entry Section) :
    Prop :=
  ∀ h, e.toHash blake3 = .ok h → ∀ depth' ≥ depth, ∀ rest,
    EntryOf.deserialize source (DirectoryOf.deserialize blake3 source depth')
      (h.1.bytes ++ (ofNatBe 8 h.2 ++ ((e.contents.header position).bytes ++ rest))) =
        .ok (e', rest)

/-- Reading a table back collects the entries in the order of their names. -/
theorem readEntries_serializeEntries (h : serializeEntries blake3 l q = .ok (bytes, q'))
    (hnames : ∀ e ∈ l, e.1.bytes.length ≤ maxStrLen)
    (hdepth : depth ≤ depth') {es : List (Name × Entry Section)}
    (hread : List.Forall₂ (fun p e' => p.1.1 = e'.1 ∧ ReadsAt blake3 source depth p.1.2 p.2 e'.2)
      (placeFrom (fun e => e.2.storedSize) q.nextAvailablePosition l) es)
    (acc : List (Name × Entry Section)) (stop : Nat) (tail : Bytes) :
    readEntries (EntryOf.deserialize source (DirectoryOf.deserialize blake3 source depth'))
      l.length (bytes ++ tail) acc stop =
        .ok (OrderedMap.insertAll acc es, es.foldl (fun n e => max n e.2.contents.stop) stop) := by
  induction l generalizing q bytes es acc stop with
  | nil =>
    cases hread
    rfl
  | cons e rest ih =>
    obtain ⟨hash, bytes', hhash, hrest, hnext, rfl⟩ := serializeEntries_cons h
    rw [placeFrom, ← hnext] at hread
    obtain ⟨e', es', ⟨hname, hfirst⟩, hothers, rfl⟩ := List.forall₂_cons_left_iff.mp hread
    have hrest := ih hrest (fun e he => hnames e (mem_cons_of_mem _ he)) hothers
    simp only [append_assoc, List.length_cons, readEntries]
    rw [readVarstring_append (hnames e (by simp))]
    refine bind_ok rfl ?_
    refine bind_ok (hfirst hash hhash depth' hdepth (bytes' ++ tail)) ?_
    rw [hrest, hname]
    rfl

end Tables

open EntryOf (storedSize)

section Queue

variable {source : Source} {cs : List ((Name × Entry Section) × List Region)}
  {d : DirectoryContents S} {h : Hash × Nat} {queue rest : List (Entry S)}
  {toc out pre post body : Bytes} {q q' : WriteQueue S} {e : Entry S} {e' : Entry Section}
  {verify : Bool} {position next steps : Nat} {depth start stop : Nat}

variable (blake3) in
/-- A copy of an entry, with the regions that hold it. -/
structure Stored (source : Source) (e : Entry S) (e' : Entry Section) (regions : List Region) :
    Prop where
  copied : e.Copied blake3 e'
  occupies : e'.contents.Occupies blake3 source regions
  stop : e'.contents.stop = maxStop regions

/-- The greatest end that is found while a table is read. -/
theorem foldl_stop (h : ∀ c ∈ cs, c.1.2.contents.stop = maxStop c.2) (stop : Nat) :
    (cs.map fst).foldl (fun n e => max n e.2.contents.stop) stop =
      max stop (maxStop (cs.flatMap snd)) := by
  induction cs generalizing stop with
  | nil => simp
  | cons c rest ih =>
    rw [List.map_cons, List.foldl_cons, ih fun c hc => h c (mem_cons_of_mem _ hc),
      h c (by simp), flatMap_cons, maxStop_append, Nat.max_assoc]

/-- A directory is read back from its table, when its entries are read as the given ones. -/
theorem DirectoryOf.read_back (hd : d.Sound blake3 h) {depth : Nat}
    (htoc : d.serializeToc blake3 ⟨next, queue⟩ = .ok (toc, q))
    (hfetch : source.fetch position d.tocSize = toc)
    (hend : checkedEnd source position d.tocSize = .ok (position + d.tocSize))
    (hcs : List.Forall₂ (fun p c => p.1.1 = c.1.1 ∧ ReadsAt blake3 source depth p.1.2 p.2 c.1.2 ∧
        Stored blake3 source p.1.2 c.1.2 c.2)
      (placeFrom (fun e => e.2.storedSize) next d.tocOrder) cs) :
    ∃ d' regions, (∀ depth' ≥ depth, ∀ rest, DirectoryOf.deserialize blake3 source (depth' + 1)
        (ofNatBe 8 position ++ (ofNatBe 8 d.tocSize ++ rest)) h = .ok (d', rest)) ∧
      (directory d).Copied blake3 (.directory d') ∧
      (directory d').Occupies blake3 source (⟨position, d.tocSize⟩ :: regions) ∧
      d'.sourceEnd = maxStop (⟨position, d.tocSize⟩ :: regions) ∧
      regions.Perm (cs.flatMap snd) := by
  obtain ⟨⟨bytes, q'⟩, hents, htoc⟩ := bind_eq_ok.mp htoc
  cases htoc
  have hperm := d.tocOrder_perm
  have hnames : ∀ e ∈ d.tocOrder, e.1.bytes.length ≤ maxStrLen :=
    fun e he => (hd.entries e (hperm.mem_iff.mp he)).1
  -- In the order of the table, and without the positions, the children are the entries.
  have horder : List.Forall₂ (fun e c => e.1 = c.1.1 ∧ Stored blake3 source e.2 c.1.2 c.2)
      d.tocOrder cs := by
    rw [← map_fst_placeFrom (fun e : Name × Entry S => e.2.storedSize) next d.tocOrder]
    exact List.forall₂_map_left_iff.mpr (hcs.imp fun _ _ h => ⟨h.1, h.2.2⟩)
  obtain ⟨cs', hcs', hperm'⟩ := List.perm_comp_forall₂ hperm.symm horder
  have hcopied : CopiedEntries blake3 d.contents (cs'.map fst) :=
    List.forall₂_map_right_iff.mpr (hcs'.imp fun _ _ h => ⟨h.1, h.2.copied⟩)
  have hsorted : OrderedMap.Sorted (cs'.map fst) :=
    hd.sorted.of_forall₂ (fun _ _ h => h.1) hcopied
  have hmap : OrderedMap.insertAll [] (cs.map fst) = cs'.map fst :=
    hsorted.insertAll_eq (hperm'.symm.map fst)
  have hstops : ∀ c ∈ cs, c.1.2.contents.stop = maxStop c.2 := by
    intro c hc
    obtain ⟨e, -, h⟩ := exists_left_of_forall₂ horder hc
    exact h.2.stop
  have hread : ∀ depth' ≥ depth,
      readEntries (EntryOf.deserialize source (DirectoryOf.deserialize blake3 source depth'))
        d.contents.length bytes [] (position + d.tocSize) = .ok (cs'.map fst,
          max (position + d.tocSize) (maxStop (cs.flatMap snd))) := by
    intro depth' hdepth
    have h := readEntries_serializeEntries hents hnames hdepth
      (List.forall₂_map_right_iff.mpr (hcs.imp fun _ _ h => ⟨h.1, h.2.1⟩)) []
      (position + d.tocSize) []
    rwa [List.append_nil, hperm.length_eq, hmap, foldl_stop hstops] at h
  let d' : DirectoryContents Section := ⟨cs'.map fst,
    max (position + d.tocSize) (maxStop (cs.flatMap snd)), none⟩
  have hdeserialize : ∀ depth' ≥ depth, ∀ rest, DirectoryOf.deserialize blake3 source (depth' + 1)
      (ofNatBe 8 position ++ (ofNatBe 8 d.tocSize ++ rest)) h = .ok (d', rest) := by
    intro depth' hdepth rest
    have hlen := readVarint_append hd.length bytes
    rw [← hfetch] at hlen
    have hsighash : d'.sighash blake3 = .ok h.1 := by
      obtain ⟨sig, hsig, hhash⟩ := hd.sighash
      refine bind_ok ((sigContents_eq_of_copied hcopied).trans hsig) ?_
      rw [hhash]
      rfl
    exact DirectoryOf.deserialize_succ.mpr ⟨position, d.tocSize, _, _, rfl, hd.tocSize, hend, hlen,
      hread depth' hdepth, rfl, hsighash⟩
  have hregions : (cs'.flatMap snd).Perm (cs.flatMap snd) := hperm'.flatMap_right _
  refine ⟨d', cs'.flatMap snd, hdeserialize, copied_directory.mpr hcopied, ?_, ?_, hregions⟩
  · refine ⟨_, _, rfl, ⟨depth + 1, h, ?_⟩, ?_⟩
    · have hnil := hdeserialize depth le_rfl []
      rwa [List.append_nil] at hnil
    · refine occupiesAll_of_forall₂ (List.forall₂_map_left_iff.mpr
        (List.forall₂_map_right_iff.mpr (List.forall₂_same.mpr ?_)))
      intro c hc
      obtain ⟨e, -, he⟩ := exists_left_of_forall₂ hcs' hc
      exact he.2.occupies
  · rw [maxStop_cons, maxStop_perm hregions]
    rfl

section Headers

variable {directory : Bytes → Hash × Nat → Except Error (DirectoryContents Section × Bytes)}
  {h : Hash × Nat}

theorem readType (type : UInt8) (r : Bytes) : readExact 1 (type :: r) = .ok ([type], r) :=
  readExact_append (show [type].length = 1 from rfl) r

variable (hsize : h.2 < Text.wordLimit)
include hsize

theorem EntryOf.deserialize_directory (position size : Nat) (rest : Bytes) :
    EntryOf.deserialize source directory
      (h.1.bytes ++ (ofNatBe 8 h.2 ++ ((Header.directory position size).bytes ++ rest))) = (do
          let (d, r) ← directory (ofNatBe 8 position ++ (ofNatBe 8 size ++ rest)) h
          return (⟨some h, .directory d⟩, r)) := by
  simp [EntryOf.deserialize, readHash_append, ok_bind, readU64_append hsize, Header.bytes,
    List.cons_append, readType, append_assoc]

end Headers

/-- A missing entry takes no space and is read from its header alone. -/
theorem stored_missing (he : e.contents = .missing) (hhash : e.toHash blake3 = .ok h)
    (hsize : h.2 < Text.wordLimit) (depth position : Nat) :
    ReadsAt blake3 source depth e position ⟨some h, .missing⟩ ∧
      Stored blake3 source e ⟨some h, .missing⟩ [] := by
  refine ⟨fun h' hhash' depth' _ rest => ?_, ⟨⟨h, hhash, rfl⟩, ?_⟩, ?_, rfl⟩
  · cases hhash.symm.trans hhash'
    rw [he]
    exact bind_ok (readHash_append _ _)
      (bind_ok (readU64_append hsize _) (bind_ok (readType 0 rest) rfl))
  · rw [he]
    trivial
  · rw [EntryContents.Occupies]

/-- A file is read from where its bytes are. -/
theorem stored_file {f : S} (he : e.contents = .file f) (hhash : e.toHash blake3 = .ok h)
    (hsize : h.2 < Text.wordLimit)
    (hend : checkedEnd source position h.2 = .ok (position + h.2))
    (hfetch : source.fetch position h.2 = FileSource.bytes f) (depth : Nat) :
    ReadsAt blake3 source depth e position ⟨some h, .file ⟨source, position, h.2⟩⟩ ∧
      Stored blake3 source e ⟨some h, .file ⟨source, position, h.2⟩⟩ [⟨position, h.2⟩] := by
  refine ⟨fun h' hhash' depth' _ rest => ?_, ⟨⟨h, hhash, rfl⟩, ?_⟩, ?_, ?_⟩
  · cases hhash.symm.trans hhash'
    rw [he]
    have hpos : position < Text.wordLimit :=
      (Nat.le_add_right _ _).trans_lt (checkedEnd_eq_ok.mp hend).2.1
    exact bind_ok (readHash_append _ _) (bind_ok (readU64_append hsize _)
      (bind_ok (readType 1 _) (bind_ok (readU64_append hpos rest) (bind_ok hend rfl))))
  · rw [he]
    exact hfetch
  · rw [EntryContents.Occupies]
  · rw [maxStop_cons, maxStop_nil, Nat.max_zero]
    rfl

/-- What is read for the entries of a table, given what is read for those in the queue. -/
theorem exists_children {next depth : Nat}
    (hl : ∀ e ∈ l, ∃ h, e.2.toHash blake3 = .ok h ∧ h.2 < Text.wordLimit)
    {placed : List (Entry Section × List Region)}
    (hplaced : List.Forall₂ (fun p x => ReadsAt blake3 source depth p.1 p.2 x.1 ∧
        Stored blake3 source p.1 x.1 x.2)
      (placeFrom storedSize next (queued l)) placed) :
    ∃ cs : List ((Name × Entry Section) × List Region),
      List.Forall₂ (fun p c => p.1.1 = c.1.1 ∧ ReadsAt blake3 source depth p.1.2 p.2 c.1.2 ∧
          Stored blake3 source p.1.2 c.1.2 c.2)
        (placeFrom (fun e => e.2.storedSize) next l) cs ∧
      cs.flatMap snd = placed.flatMap snd := by
  induction l generalizing next placed with
  | nil =>
    cases hplaced
    exact ⟨[], .nil, rfl⟩
  | cons e rest ih =>
    have hrest : ∀ e ∈ rest, ∃ h, e.2.toHash blake3 = .ok h ∧ h.2 < Text.wordLimit :=
      fun e he => hl e (mem_cons_of_mem _ he)
    by_cases hpresent : e.2.Present
    · rw [queued_cons_of_pos hpresent] at hplaced
      obtain ⟨x, placed', hx, hothers, rfl⟩ := List.forall₂_cons_left_iff.mp hplaced
      obtain ⟨cs, hcs, hregions⟩ := ih hrest hothers
      refine ⟨((e.1, x.1), x.2) :: cs, .cons ⟨rfl, hx⟩ hcs, ?_⟩
      rw [flatMap_cons, flatMap_cons, hregions]
    · rw [queued_cons_of_neg hpresent] at hplaced
      obtain ⟨cs, hcs, hregions⟩ := ih hrest hplaced
      obtain ⟨h, hhash, hsize⟩ := hl e (by simp)
      refine ⟨((e.1, ⟨some h, .missing⟩), []) :: cs, .cons ⟨rfl,
        stored_missing (missing_of_not_present hpresent) hhash hsize _ _⟩ ?_, hregions⟩
      dsimp only
      rwa [storedSize_of_not_present hpresent]

theorem ReadsAt.mono (hle : depth ≤ depth')
    (h : ReadsAt blake3 source depth e position e') : ReadsAt blake3 source depth' e position e' :=
  fun hash hhash depth'' hdepth => h hash hhash depth'' (hle.trans hdepth)

theorem DirectoryOf.length_serializeToc (hd : d.Sound blake3 h)
    (htoc : d.serializeToc blake3 q = .ok (toc, q')) : toc.length = d.tocSize := by
  obtain ⟨⟨bytes, q''⟩, hents, htoc⟩ := bind_eq_ok.mp htoc
  cases htoc
  have hperm := d.tocOrder_perm
  rw [length_append, Varint.length_encode hd.length, length_serializeEntries hents
    fun e he => (hd.entries e (hperm.mem_iff.mp he)).1, total_perm _ hperm]
  rfl

theorem DirectoryOf.serializeToc_queue (htoc : d.serializeToc blake3 q = .ok (toc, q')) :
    q' = ⟨q.nextAvailablePosition + total (fun e => e.2.storedSize) d.tocOrder,
      q.queue ++ queued d.tocOrder⟩ := by
  obtain ⟨⟨bytes, q''⟩, hents, htoc⟩ := bind_eq_ok.mp htoc
  cases htoc
  exact serializeEntries_queue hents

/-- What is in a directory that can be read back can be read back. -/
theorem Storable.child (h : Storable blake3 e) (hd : e.contents = .directory d) :
    ∀ x ∈ d.contents, Storable blake3 x.2 := by
  intro x hx
  have hwhole := h.whole
  rw [hd] at hwhole
  exact ⟨h.sound.child hd x hx, eachFile_directory.mp hwhole x hx⟩

theorem Source.fetch_append (h : source.bytes = pre ++ (body ++ post)) :
    source.fetch pre.length body.length = body := by
  rw [Source.fetch, h, List.drop_left, List.take_left]

theorem checkedEnd_append (h : source.bytes = pre ++ (body ++ post))
    (hword : pre.length + body.length < Text.wordLimit) :
    checkedEnd source pre.length body.length = .ok (pre.length + body.length) := by
  refine checkedEnd_eq_ok.mpr ⟨rfl, hword, fun n hn => ?_⟩
  rw [source.size_eq n hn, h, length_append, length_append]
  omega

omit [FileSource S] in
/-- What holds of everything that is in the queue after a directory was written. -/
theorem forall_mem_queue {P : Entry S → Prop} (hrest : ∀ e ∈ rest, P e)
    (hd : ∀ e ∈ d.contents, P e.2) : ∀ e ∈ rest ++ queued d.tocOrder, P e := by
  intro e he
  rcases List.mem_append.mp he with he | he
  · exact hrest e he
  · obtain ⟨x, hx, rfl⟩ := List.mem_map.mp (List.mem_filter.mp he).1
    exact hd x (d.tocOrder_perm.mem_iff.mp hx)

/-- Induction over a run of the loop that writes what is in the queue. -/
theorem WriteQueue.serialize_induction {motive : Nat → Nat → List (Entry S) → Bytes → Prop}
    (nil : ∀ steps next, motive steps next [] [])
    (missing : ∀ {steps next e rest out}, Storable blake3 e → e.contents = .missing →
      motive steps next rest out → motive (steps + 1) next (e :: rest) out)
    (file : ∀ {steps next e rest f bytes}, Storable blake3 e → e.contents = .file f →
      motive steps next rest bytes →
        motive (steps + 1) next (e :: rest) (FileSource.bytes f ++ bytes))
    (directory : ∀ {steps next e rest d toc next' bytes}, Storable blake3 e →
      e.contents = .directory d →
      d.serializeToc blake3 ⟨next, rest⟩ = .ok (toc, ⟨next', rest ++ queued d.tocOrder⟩) →
      next' = next + total (fun e => e.2.storedSize) d.tocOrder → toc.length = d.tocSize →
      motive steps next' (rest ++ queued d.tocOrder) bytes →
        motive (steps + 1) next (e :: rest) (toc ++ bytes))
    (h : WriteQueue.serialize blake3 verify steps ⟨next, queue⟩ = .ok out)
    (hqueue : ∀ e ∈ queue, Storable blake3 e) : motive steps next queue out := by
  induction steps generalizing next queue out with
  | zero =>
    cases queue with
    | nil =>
      cases h
      exact nil _ _
    | cons e rest => cases h
  | succ steps ih =>
    cases queue with
    | nil =>
      cases h
      exact nil _ _
    | cons e rest =>
      have hrest : ∀ e ∈ rest, Storable blake3 e :=
        fun e he => hqueue e (mem_cons_of_mem _ he)
      have he := hqueue e (by simp)
      rw [WriteQueue.serialize] at h
      split at h
      · exact missing he ‹_› (ih h hrest)
      · obtain ⟨body, hbody, h⟩ := bind_eq_ok.mp h
        obtain ⟨bytes, hrun, h⟩ := bind_eq_ok.mp h
        cases h
        cases copyVerify_eq_ok hbody
        exact file he ‹_› (ih hrun hrest)
      · rename_i d hc
        obtain ⟨⟨toc, q⟩, htoc, h⟩ := bind_eq_ok.mp h
        obtain ⟨bytes, hrun, h⟩ := bind_eq_ok.mp h
        cases h
        obtain rfl := DirectoryOf.serializeToc_queue htoc
        obtain ⟨_, -, -, hsound⟩ := he.sound
        rw [hc] at hsound
        exact directory he hc htoc rfl
          (DirectoryOf.length_serializeToc (sound_directory.mp hsound) htoc)
          (ih hrun (forall_mem_queue hrest (he.child hc)))

variable (blake3) in
/-- The entries of a queue are read back from where they are placed, one after another, and
what is written for them and below them tiles the output. -/
def Laid (source : Source) (depth start : Nat) (queue : List (Entry S)) (stop : Nat) : Prop :=
  ∃ placed : List (Entry Section × List Region),
    List.Forall₂ (fun p x => ReadsAt blake3 source depth p.1 p.2 x.1 ∧
        Stored blake3 source p.1 x.1 x.2)
      (placeFrom storedSize start queue) placed ∧
    ∃ tiling, tiling.Perm (placed.flatMap snd) ∧ Tiles start tiling stop

theorem Laid.nil (source : Source) (depth start : Nat) : Laid (S := S) blake3 source depth start []
    start :=
  ⟨[], .nil, [], .refl _, rfl⟩

/-- An entry that is written at once. -/
theorem Laid.cons {regions : List Region}
    (he : ReadsAt blake3 source (depth + 1) e start e' ∧ Stored blake3 source e e' regions)
    (hregions : Tiles start regions (start + e.storedSize))
    (h : Laid blake3 source depth (start + e.storedSize) rest stop) :
    Laid blake3 source (depth + 1) start (e :: rest) stop := by
  obtain ⟨placed, hplaced, tiling, hperm, htiles⟩ := h
  refine ⟨(e', regions) :: placed,
    .cons he (hplaced.imp fun _ _ h => ⟨h.1.mono (Nat.le_succ _), h.2⟩), regions ++ tiling, ?_,
    hregions.append htiles⟩
  exact hperm.append_left regions

/-- A directory, whose entries are written after what is in the queue. -/
theorem Laid.directory (hd : e.contents = .directory d) (he : Storable blake3 e)
    (htoc : d.serializeToc blake3 ⟨start + d.tocSize + total storedSize rest, rest⟩ =
      .ok (toc, q))
    (hfetch : source.fetch start d.tocSize = toc)
    (hend : checkedEnd source start d.tocSize = .ok (start + d.tocSize))
    (h : Laid blake3 source depth (start + d.tocSize) (rest ++ queued d.tocOrder) stop) :
    Laid blake3 source (depth + 1) start (e :: rest) stop := by
  obtain ⟨placed, hplaced, tiling, hperm, htiles⟩ := h
  rw [placeFrom_append] at hplaced
  obtain ⟨others, children, rfl, hothers, hchildren⟩ := forall₂_append_left hplaced
  obtain ⟨hash, hhash, hsize, hsound⟩ := he.sound
  rw [hd] at hsound
  have horder := d.tocOrder_perm
  have hl : ∀ x ∈ d.tocOrder, ∃ h, x.2.toHash blake3 = .ok h ∧ h.2 < Text.wordLimit := by
    intro x hx
    obtain ⟨h, hx, hlt, -⟩ := (he.child hd x (horder.mem_iff.mp hx)).sound
    exact ⟨h, hx, hlt⟩
  obtain ⟨cs, hcs, hregions⟩ := exists_children hl hchildren
  obtain ⟨d', regions, hread, hcopied, hoccupies, hstop, hflat⟩ :=
    DirectoryOf.read_back (sound_directory.mp hsound) htoc hfetch hend hcs
  refine ⟨(⟨some hash, .directory d'⟩, ⟨start, d.tocSize⟩ :: regions) :: others, ?_,
    ⟨start, d.tocSize⟩ :: tiling, ?_, rfl, htiles⟩
  · refine .cons ⟨fun h' hhash' depth' hdepth rest => ?_, ⟨⟨hash, hhash, rfl⟩, ?_⟩, hoccupies,
      hstop⟩ ?_
    · cases hhash.symm.trans hhash'
      obtain ⟨depth'', rfl⟩ : ∃ n, depth' = n + 1 := ⟨depth' - 1, by omega⟩
      rw [hd]
      refine (EntryOf.deserialize_directory hsize _ _ rest).trans ?_
      exact bind_ok (hread depth'' (by omega) rest) rfl
    · rw [hd]
      exact hcopied
    · rw [storedSize, hd]
      exact hothers.imp fun _ _ h => ⟨h.1.mono (Nat.le_succ _), h.2⟩
  · rw [List.flatMap_append, ← hregions] at hperm
    exact (hperm.trans (List.perm_append_comm.trans (hflat.symm.append_right _))).cons _

/-- Everything in the queue, and what is put there meanwhile, is written so that it is read
back, and what is written tiles the output. -/
theorem WriteQueue.serialize_laid
    (h : WriteQueue.serialize blake3 verify steps ⟨next, queue⟩ = .ok out)
    (hqueue : ∀ e ∈ queue, Storable blake3 e)
    (hnext : next = pre.length + total storedSize queue)
    (hsrc : source.bytes = pre ++ (out ++ post))
    (hword : pre.length + out.length < Text.wordLimit) :
    Laid blake3 source steps pre.length queue (pre.length + out.length) := by
  refine WriteQueue.serialize_induction (motive := fun steps next queue out => ∀ pre : Bytes,
    next = pre.length + total storedSize queue → source.bytes = pre ++ (out ++ post) →
    pre.length + out.length < Text.wordLimit →
    Laid blake3 source steps pre.length queue (pre.length + out.length))
    ?_ ?_ ?_ ?_ h hqueue pre hnext hsrc hword
  · intro steps next pre _ _ _
    exact .nil _ _ _
  · intro steps next e rest out he hc ih pre hnext hsrc hword
    obtain ⟨hash, hhash, hsize, -⟩ := he.sound
    have hzero : e.storedSize = 0 := by rw [storedSize, hc]; rfl
    have hlaid := ih pre (by rw [hnext, total_cons, hzero, Nat.zero_add]) hsrc hword
    exact .cons (stored_missing hc hhash hsize _ _) (by rw [hzero]; rfl) (by rwa [hzero])
  · intro steps next e rest f bytes he hc ih pre hnext hsrc hword
    obtain ⟨hash, hhash, hsize, hsound⟩ := he.sound
    have hwhole := he.whole
    rw [hc] at hsound
    rw [hc] at hwhole
    have hstored : e.storedSize = hash.2 := by
      rw [storedSize, hc]
      exact hsound
    have hlen : (FileSource.bytes f).length = hash.2 := hwhole.trans hsound
    rw [length_append, hlen, ← Nat.add_assoc] at hword ⊢
    rw [append_assoc] at hsrc
    have hlaid := ih (pre ++ FileSource.bytes f)
      (by rw [hnext, total_cons, hstored, length_append, hlen, Nat.add_assoc])
      (by rw [hsrc, append_assoc]) (by rwa [length_append, hlen])
    have hfetch := Source.fetch_append hsrc
    have hend := checkedEnd_append hsrc (by omega)
    rw [hlen] at hfetch hend
    rw [length_append, hlen] at hlaid
    exact .cons (stored_file hc hhash hsize hend hfetch _) ⟨rfl, by rw [hstored]; rfl⟩
      (by rwa [hstored])
  · intro steps next e rest d toc next' bytes he hc htoc hnext' hlen ih pre hnext hsrc hword
    have hstored : e.storedSize = d.tocSize := by
      rw [storedSize, hc]
      rfl
    rw [total_cons, hstored, ← Nat.add_assoc] at hnext
    subst hnext
    rw [length_append, hlen, ← Nat.add_assoc] at hword ⊢
    rw [append_assoc] at hsrc
    have hlaid := ih (pre ++ toc) (by simp only [hnext', length_append, hlen, total_append,
        total_queued fun _ => storedSize_of_not_present]; omega)
      (by rw [hsrc, append_assoc]) (by rwa [length_append, hlen])
    have hfetch := Source.fetch_append hsrc
    have hend := checkedEnd_append hsrc (by omega)
    rw [hlen] at hfetch hend
    rw [length_append, hlen] at hlaid
    exact .directory hc he htoc hfetch hend hlaid

end Queue

end StartTech.MerkleArchive

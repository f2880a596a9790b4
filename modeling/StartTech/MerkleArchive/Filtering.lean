import StartTech.MerkleArchive.Binding

/-!
# Filtering an archive

Leaving entries out of an archive that was read keeps every hash and shrinks the tables
of contents, so the signature still holds. What is written of the filtered archive is
read back with the files that the filter keeps.
-/

namespace StartTech.MerkleArchive

open Foundation Fallible EntryContents DirectoryOf
open OrderedMap (get_of_forall₂)

section Hashed

variable {S : Type} {P Q : S → Option (Hash × Nat) → Prop} {c : EntryContents S}
  {hash : Option (Hash × Nat)}

mutual

/-- Every entry has a known hash. -/
def EntryContents.Hashed : EntryContents S → Prop
  | .missing => True
  | .file _ => True
  | .directory ⟨contents, _, _⟩ => HashedAll contents
termination_by structural c => c

def HashedAll : List (Name × Entry S) → Prop
  | [] => True
  | (_, ⟨hash, contents⟩) :: rest => (hash.isSome = true ∧ contents.Hashed) ∧ HashedAll rest
termination_by structural l => l

end

theorem hashedAll_iff {l : List (Name × Entry S)} :
    HashedAll l ↔ ∀ e ∈ l, e.2.hash.isSome = true ∧ e.2.contents.Hashed := by
  induction l with
  | nil => simp [HashedAll]
  | cons e rest ih =>
    rw [HashedAll, ih, List.forall_mem_cons]

theorem hashed_directory {d : DirectoryContents S} : (directory d).Hashed ↔
      ∀ e ∈ d.contents, e.2.hash.isSome = true ∧ e.2.contents.Hashed := by
  rw [← hashedAll_iff]
  rw [EntryContents.Hashed]

theorem EntryContents.EachFile.imp (h : ∀ f hash, P f hash → Q f hash) (hc : c.EachFile P hash) :
    c.EachFile Q hash := by
  induction c using induction generalizing hash with
  | missing => trivial
  | file f => exact h f hash hc
  | directory d ih =>
    rw [eachFile_directory] at hc ⊢
    exact fun e he => ih e he (hc e he)

theorem EntryContents.EachFile.and (hp : c.EachFile P hash) (hq : c.EachFile Q hash) :
    c.EachFile (fun f hash => P f hash ∧ Q f hash) hash := by
  induction c using induction generalizing hash with
  | missing => trivial
  | file f => exact ⟨hp, hq⟩
  | directory d ih =>
    rw [eachFile_directory] at hp hq ⊢
    exact fun e he => ih e he (hp e he) (hq e he)

end Hashed

section Accepted

variable {source : Source}

/-- A file as it is read from a table of contents. -/
def ReadFrom (source : Source) (f : Section) (hash : Option (Hash × Nat)) : Prop :=
  f.source = source ∧ (∃ h, hash = some (h, f.size)) ∧
    checkedEnd source f.position f.size = .ok (f.position + f.size)

/-- Everything in a directory that was read has a hash, and its files are in the source. -/
theorem DirectoryOf.deserialize_files {blake3 : Bytes → Hash} {depth : Nat} {r rest : Bytes}
    {h : Hash × Nat} {d : DirectoryContents Section}
    (hd : DirectoryOf.deserialize blake3 source depth r h = .ok (d, rest)) :
    ∀ e ∈ d.contents, e.2.hash.isSome = true ∧ e.2.contents.Hashed ∧
      e.2.contents.EachFile (ReadFrom source) e.2.hash := by
  induction depth generalizing r rest h d with
  | zero => cases hd
  | succ depth ih =>
    obtain ⟨position, size, len, toc, -, -, -, -, hents, -⟩ := deserialize_succ.mp hd
    have hentry : ∀ r e rest, EntryOf.deserialize source
        (DirectoryOf.deserialize blake3 source depth) r = .ok (e, rest) →
        e.hash.isSome = true ∧ e.contents.Hashed ∧
          e.contents.EachFile (ReadFrom source) e.hash := by
      intro r e rest he
      obtain ⟨hash, size, r', hhash, -, -, hcases⟩ := EntryOf.deserialize_eq_ok he
      refine ⟨by rw [hhash]; rfl, ?_⟩
      rcases hcases with ⟨hc, -⟩ | ⟨position, hc, hend, -⟩ | ⟨d, r'', hc, -, hd⟩
      · rw [hc]
        exact ⟨trivial, trivial⟩
      · rw [hc]
        exact ⟨trivial, rfl, ⟨hash, hhash⟩, hend⟩
      · rw [hc, hashed_directory, eachFile_directory]
        exact ⟨fun e he => ⟨(ih hd e he).1, (ih hd e he).2.1⟩, fun e he => (ih hd e he).2.2⟩
    obtain ⟨-, hmem, -⟩ := readEntries_sound
      (fun r e rest he => ⟨hentry r e rest he, EntryOf.deserialize_length he⟩) hents
      .nil (by simp)
    exact fun e he => (hmem e he).2

end Accepted

section Filter

variable {S : Type} {keep : Path → Bool} {l l' : List (Name × Entry S)} {d d' : DirectoryContents S}
  {c c' : EntryContents S} {e : Name × Entry S}

/-- What a filter makes of the contents of one entry. -/
def filterEntry (keep : Path → Bool) (e : Name × Entry S) : Except Error (EntryContents S) :=
  if keep e.1.bytes then e.2.contents.filter fun p => keep (Path.join e.1.bytes p)
  else filterOut e.1 e.2.hash

theorem filterContents_cons (e : Name × Entry S) (rest : List (Name × Entry S)) :
    filterContents keep (e :: rest) = (do
      let contents ← filterEntry keep e
      let rest ← filterContents keep rest
      return (e.1, ⟨e.2.hash, contents⟩) :: rest) := by
  obtain ⟨name, hash, contents⟩ := e
  rw [filterContents, filterEntry]
  by_cases h : keep name.bytes = true
  · rw [if_pos h, if_pos h]
  · rw [if_neg h, if_neg h]

theorem filterContents_eq_ok :
    filterContents keep l = .ok l' ↔ List.Forall₂ (fun e e' => e.1 = e'.1 ∧
      e.2.hash = e'.2.hash ∧ filterEntry keep e = .ok e'.2.contents) l l' := by
  induction l generalizing l' with
  | nil =>
    rw [filterContents, List.forall₂_nil_left_iff, Except.ok.injEq, eq_comm]
  | cons e rest ih =>
    rw [filterContents_cons, bind_eq_ok, List.forall₂_cons_left_iff]
    constructor
    · rintro ⟨contents, hcontents, h⟩
      obtain ⟨rest', hrest, h⟩ := bind_eq_ok.mp h
      exact ⟨(e.1, ⟨e.2.hash, contents⟩), rest', ⟨rfl, rfl, hcontents⟩, ih.mp hrest,
        (Except.ok.inj h).symm⟩
    · rintro ⟨⟨name', hash', contents'⟩, rest', ⟨rfl, rfl, hcontents⟩, hrest, rfl⟩
      exact ⟨contents', hcontents, bind_ok (ih.mpr hrest) rfl⟩

theorem filter_directory : (directory d).filter keep = .ok c ↔
      ∃ d', c = .directory d' ∧ d.filter keep = .ok d' := by
  constructor
  · intro h
    obtain ⟨contents', hcontents, h⟩ := bind_eq_ok.mp h
    exact ⟨_, (Except.ok.inj h).symm, bind_ok hcontents rfl⟩
  · rintro ⟨d', rfl, h⟩
    obtain ⟨contents', hcontents, h⟩ := bind_eq_ok.mp h
    cases h
    exact bind_ok hcontents rfl

theorem DirectoryOf.filter_eq_ok (h : d.filter keep = .ok d') :
    List.Forall₂ (fun e e' => e.1 = e'.1 ∧ e.2.hash = e'.2.hash ∧
      filterEntry keep e = .ok e'.2.contents) d.contents d'.contents := by
  obtain ⟨contents', hcontents, h⟩ := bind_eq_ok.mp h
  cases h
  exact filterContents_eq_ok.mp hcontents

theorem filterContents_succeeds (h : ∀ e ∈ l, ∃ c, filterEntry keep e = .ok c) :
    ∃ l', filterContents keep l = .ok l' := by
  induction l with
  | nil => exact ⟨[], rfl⟩
  | cons e rest ih =>
    obtain ⟨c, hc⟩ := h e (by simp)
    obtain ⟨rest', hrest⟩ := ih fun e he => h e (List.mem_cons_of_mem _ he)
    rw [filterContents_cons]
    exact ⟨_, bind_ok hc (bind_ok hrest rfl)⟩

/-- Hashed entries can be filtered. -/
theorem EntryContents.filter_succeeds (h : c.Hashed) (keep : Path → Bool) :
    ∃ c', c.filter keep = .ok c' := by
  induction c using induction generalizing keep with
  | missing | file f => exact ⟨_, rfl⟩
  | directory d ih =>
    rw [hashed_directory] at h
    have hents : ∀ e ∈ d.contents, ∃ c, filterEntry keep e = .ok c := by
      intro e he
      rw [filterEntry]
      split
      · exact ih e he (h e he).2 _
      · exact ⟨_, ensure_bind (h e he).1 rfl⟩
    obtain ⟨contents', hcontents⟩ := filterContents_succeeds hents
    exact ⟨_, filter_directory.mpr ⟨_, rfl, bind_ok hcontents rfl⟩⟩

/-- What a filter leaves of an entry: nothing, or its contents filtered further. -/
theorem filterEntry_eq_ok (h : filterEntry keep e = .ok c) : (keep e.1.bytes = true ∧
      e.2.contents.filter (fun p => keep (Path.join e.1.bytes p)) = .ok c) ∨
      (keep e.1.bytes = false ∧ c = .missing) := by
  rw [filterEntry] at h
  split at h
  · exact .inl ⟨by assumption, h⟩
  · obtain ⟨_, -, h⟩ := bind_eq_ok.mp h
    exact .inr ⟨by simpa using ‹¬ keep e.1.bytes = true›, (Except.ok.inj h).symm⟩

theorem EntryContents.filter_kind (h : c.filter keep = .ok c') : c'.kind = c.kind := by
  cases c with
  | missing | file f =>
    cases h
    rfl
  | directory d =>
    obtain ⟨d', rfl, -⟩ := filter_directory.mp h
    rfl

theorem filterEntry_headerSize (h : filterEntry keep e = .ok c) :
    c.kind.headerSize ≤ e.2.contents.kind.headerSize := by
  rcases filterEntry_eq_ok h with ⟨-, h⟩ | ⟨-, rfl⟩
  · rw [filter_kind h]
  · change Kind.missing.headerSize ≤ _
    cases e.2.contents.kind with
    | missing | file | directory => decide

/-- A filter shrinks a table of contents. -/
theorem DirectoryOf.filter_tocSize (h : d.filter keep = .ok d') : d'.tocSize ≤ d.tocSize := by
  have hents := filter_eq_ok h
  rw [DirectoryOf.tocSize, DirectoryOf.tocSize, tocSizeOf, tocSizeOf, hents.length_eq]
  refine Nat.add_le_add_left (total_le_of_forall₂ (hents.imp fun e e' he => ?_)) _
  rw [he.1]
  exact Nat.add_le_add_left (Nat.add_le_add_left (filterEntry_headerSize he.2.2) _) _

/-- A filter leaves files as they are or leaves them out. -/
theorem EntryContents.EachFile.filter {P : S → Option (Hash × Nat) → Prop}
    {hash : Option (Hash × Nat)} (hc : c.EachFile P hash) (h : c.filter keep = .ok c') :
    c'.EachFile P hash := by
  induction c using induction generalizing keep hash c' with
  | missing =>
    cases h
    trivial
  | file f =>
    cases h
    exact hc
  | directory d ih =>
    obtain ⟨d', rfl, hd⟩ := filter_directory.mp h
    rw [eachFile_directory] at hc ⊢
    intro e' he'
    obtain ⟨e, he, -, hhash, hentry⟩ := exists_left_of_forall₂ (filter_eq_ok hd) he'
    rw [← hhash]
    rcases filterEntry_eq_ok hentry with ⟨-, hfilter⟩ | ⟨-, hmissing⟩
    · exact ih e he (hc e he) hfilter
    · rw [hmissing]
      trivial

section Hashes

variable [FileSource S] {blake3 : Bytes → Hash}

theorem toHash_eq_of_hash {e e' : Entry S} (h : e.hash = e'.hash) (hsome : e.hash.isSome = true) :
    e'.toHash blake3 = e.toHash blake3 := by
  obtain ⟨k, hk⟩ := Option.isSome_iff_exists.mp hsome
  rw [EntryOf.toHash, EntryOf.toHash, ← h, hk]

theorem sigContents_eq_of_hash {l : List (Name × Entry S)}
    (h : List.Forall₂ (fun e e' => e.1 = e'.1 ∧ e.2.hash = e'.2.hash) l l')
    (hsome : ∀ e ∈ l, e.2.hash.isSome = true) :
    sigContents blake3 l' = sigContents blake3 l := by
  induction h with
  | nil => rfl
  | cons hhead _ ih =>
    rw [sigContents_cons, sigContents_cons, ih fun e he => hsome e (List.mem_cons_of_mem _ he),
      toHash_eq_of_hash hhead.2 (hsome _ (by simp)), hhead.1]

/-- A filter keeps the hash of a directory. -/
theorem DirectoryOf.filter_sigContents {d d' : DirectoryContents S} (h : d.filter keep = .ok d')
    (hsome : ∀ e ∈ d.contents, e.2.hash.isSome = true) :
    sigContents blake3 d'.contents = sigContents blake3 d.contents :=
  sigContents_eq_of_hash ((filter_eq_ok h).imp fun _ _ h => ⟨h.1, h.2.1⟩) hsome

/-- A filtered entry is sound for the hash and size that it had. -/
theorem EntryContents.Sound.filter {c c' : EntryContents S} {k : Hash × Nat}
    (hc : c.Sound blake3 k) (hh : c.Hashed) (h : c.filter keep = .ok c') : c'.Sound blake3 k := by
  induction c using induction generalizing keep k c' with
  | missing | file f =>
    cases h
    exact hc
  | directory d ih =>
    obtain ⟨d', rfl, hd⟩ := filter_directory.mp h
    have hsound := sound_directory.mp hc
    rw [hashed_directory] at hh
    have hents := filter_eq_ok hd
    refine sound_directory.mpr ⟨?_, ?_, ?_, ?_, ?_⟩
    · rw [filter_sigContents hd fun e he => (hh e he).1]
      exact hsound.sighash
    · exact (filter_tocSize hd).trans hsound.tocSize
    · exact hsound.sorted.of_forall₂ (fun _ _ h => h.1) hents
    · rw [← hents.length_eq]
      exact hsound.length
    · intro e' he'
      obtain ⟨e, he, hname, hhash, hentry⟩ := exists_left_of_forall₂ hents he'
      obtain ⟨hlen, k', hk', hlt, hs⟩ := hsound.entries e he
      refine ⟨hname ▸ hlen, k', (toHash_eq_of_hash hhash (hh e he).1).trans hk', hlt, ?_⟩
      rcases filterEntry_eq_ok hentry with ⟨-, hfilter⟩ | ⟨-, hmissing⟩
      · exact ih e he hs (hh e he).2 hfilter
      · rw [hmissing]
        trivial

end Hashes

end Filter

section Paths

variable {S : Type} {keep : Path → Bool}

/-- The path that a filter is asked about: each name is joined to what is below it. -/
def pathOf : List Name → Path
  | [] => []
  | [name] => name.bytes
  | name :: rest => Path.join name.bytes (pathOf rest)

variable {rest path : List Name} {f : S} {d' d : DirectoryContents S} {e : Entry S}

theorem pathOf_cons (h : rest ≠ []) (name : Name) :
    pathOf (name :: rest) = Path.join name.bytes (pathOf rest) := by
  cases rest with
  | nil => exact absurd rfl h
  | cons name' rest => rfl

/-- A filter holds for a path and for all its ancestors. -/
def Kept (keep : Path → Bool) (path : List Name) : Prop :=
  ∀ q, q ≠ [] → q <+: path → keep (pathOf q) = true

theorem kept_cons {name : Name} : Kept keep (name :: rest) ↔
      keep name.bytes = true ∧ Kept (fun p => keep (Path.join name.bytes p)) rest := by
  constructor
  · intro h
    refine ⟨h [name] (by simp) (by simp), fun q hq hrest => ?_⟩
    dsimp only
    rw [← pathOf_cons hq]
    exact h (name :: q) (by simp) (List.cons_prefix_cons.mpr ⟨rfl, hrest⟩)
  · rintro ⟨hname, hrest⟩ q hq hpath
    obtain ⟨name', q, rfl⟩ := List.exists_cons_of_ne_nil hq
    obtain ⟨rfl, hq'⟩ := List.cons_prefix_cons.mp hpath
    by_cases hnil : q = []
    · rw [hnil]
      exact hname
    · rw [pathOf_cons hnil]
      exact hrest q hnil hq'

theorem kept_nil : Kept keep [] := fun _ hq hnil => absurd (List.prefix_nil.mp hnil) hq

/-- A file that a filter leaves is the file that was there. -/
theorem filterEntry_file {e : Name × Entry S} (h : filterEntry keep e = .ok (.file f)) :
    e.2.contents = .file f ∧ keep e.1.bytes = true := by
  rcases filterEntry_eq_ok h with ⟨hkeep, h⟩ | ⟨-, h⟩
  · refine ⟨?_, hkeep⟩
    cases hc : e.2.contents with
    | missing =>
      rw [hc] at h
      cases h
    | file f' =>
      rw [hc] at h
      cases h
      rfl
    | directory d =>
      rw [hc] at h
      obtain ⟨d', hd', -⟩ := filter_directory.mp h
      cases hd'
  · cases h

theorem filterEntry_directory {e : Name × Entry S} (h : filterEntry keep e = .ok (.directory d')) :
    ∃ d, e.2.contents = .directory d ∧ keep e.1.bytes = true ∧
      d.filter (fun p => keep (Path.join e.1.bytes p)) = .ok d' := by
  rcases filterEntry_eq_ok h with ⟨hkeep, h⟩ | ⟨-, h⟩
  · cases hc : e.2.contents with
    | missing | file f =>
      rw [hc] at h
      cases h
    | directory d =>
      rw [hc] at h
      obtain ⟨_, hd', hfilter⟩ := filter_directory.mp h
      cases hd'
      exact ⟨d, rfl, hkeep, hfilter⟩
  · cases h

theorem DirectoryOf.getPath_of_get {segment segment' : Name} {known : Option (Hash × Nat)}
    (h : d.get segment = some ⟨known, .directory d'⟩) :
    d.getPath (segment :: segment' :: rest) = d'.getPath (segment' :: rest) := by
  rw [DirectoryOf.getPath]
  · rw [h]
  · simp

/-- What is there after filtering was there before, with the same hash; files that are there
were kept. -/
theorem DirectoryOf.filter_getPath (h : d.filter keep = .ok d') {e' : Entry S}
    (he' : d'.getPath path = some e') :
    ∃ e, d.getPath path = some e ∧ e.hash = e'.hash ∧
      ∀ f, e'.contents = .file f → e.contents = .file f ∧ Kept keep path := by
  induction path generalizing d d' keep with
  | nil => cases he'
  | cons segment rest ih =>
    have hflip := (filter_eq_ok h).flip
    cases rest with
    | nil =>
      obtain ⟨e, he, hname, hhash, hentry⟩ :=
        get_of_forall₂ (fun _ _ h => h.1.symm) hflip he'
      refine ⟨e, he, hhash, fun f hf => ?_⟩
      rw [hf] at hentry
      obtain ⟨hc, hkeep⟩ := filterEntry_file hentry
      exact ⟨hc, kept_cons.mpr ⟨hkeep, kept_nil⟩⟩
    | cons segment' rest =>
      obtain ⟨known, d₁', hget, hrest⟩ := getPath_cons he'
      obtain ⟨⟨known', c⟩, he, -, -, hentry⟩ :=
        get_of_forall₂ (fun _ _ h => h.1.symm) hflip hget
      obtain ⟨d₁, hc, hkeep, hfilter⟩ := filterEntry_directory hentry
      cases hc
      obtain ⟨e, hpath, hhash, hfile⟩ := ih hfilter hrest
      refine ⟨e, (getPath_of_get he).trans hpath, hhash, fun f hf => ?_⟩
      exact ⟨(hfile f hf).1, kept_cons.mpr ⟨hkeep, (hfile f hf).2⟩⟩

/-- A file that is kept is there after filtering. -/
theorem DirectoryOf.getPath_filter (h : d.filter keep = .ok d') (he : d.getPath path = some e)
    (hf : e.contents = .file f) (hkept : Kept keep path) :
    ∃ e', d'.getPath path = some e' ∧ e'.contents = .file f := by
  induction path generalizing d d' keep with
  | nil => cases he
  | cons segment rest ih =>
    obtain ⟨hkeep, hbelow⟩ := kept_cons.mp hkept
    have hents := filter_eq_ok h
    cases rest with
    | nil =>
      obtain ⟨e', he', -, -, hentry⟩ :=
        get_of_forall₂ (fun _ _ h => h.1) hents he
      rw [filterEntry, if_pos hkeep, hf] at hentry
      exact ⟨e', he', (Except.ok.inj hentry).symm⟩
    | cons segment' rest =>
      obtain ⟨known, d₁, hget, hrest⟩ := getPath_cons he
      obtain ⟨⟨known', c⟩, he', -, -, hentry⟩ :=
        get_of_forall₂ (fun _ _ h => h.1) hents hget
      rw [filterEntry, if_pos hkeep] at hentry
      obtain ⟨d₁', hc, hfilter⟩ := filter_directory.mp hentry
      cases hc
      obtain ⟨e', hpath, hfile⟩ := ih hfilter hrest hbelow
      exact ⟨e', (getPath_of_get he').trans hpath, hfile⟩

/-- Along a path, what is known of directories that correspond is known of the entries. -/
theorem getPath_simulation {S' : Type} {D : DirectoryContents S → DirectoryContents S' → Prop}
    {E : Entry S → Entry S' → Prop}
    (hget : ∀ {d d' name e}, D d d' → d.get name = some e → ∃ e', d'.get name = some e' ∧ E e e')
    (hdir : ∀ {e e' d}, E e e' → e.contents = .directory d →
      ∃ d', e'.contents = .directory d' ∧ D d d')
    {d' : DirectoryContents S'} (h : D d d')
    (he : d.getPath path = some e) : ∃ e', d'.getPath path = some e' ∧ E e e' := by
  induction path generalizing d d' with
  | nil => cases he
  | cons segment rest ih =>
    cases rest with
    | nil => exact hget h he
    | cons segment' rest =>
      obtain ⟨known, d₁, hd₁, hrest⟩ := getPath_cons he
      obtain ⟨⟨known', c⟩, he', hentry⟩ := hget h hd₁
      obtain ⟨d₁', hc, hd₁'⟩ := hdir hentry rfl
      cases hc
      obtain ⟨e', hpath, he''⟩ := ih hd₁' hrest
      exact ⟨e', (getPath_of_get he').trans hpath, he''⟩

variable [FileSource S] {blake3 : Bytes → Hash} {d' : DirectoryContents Section}

theorem Copied.getPath
    (h : (directory d).Copied blake3 (.directory d')) (he : d.getPath path = some e) :
    ∃ e', d'.getPath path = some e' ∧ e.Copied blake3 e' := by
  refine getPath_simulation
    (D := fun d d' => (directory d).Copied blake3 (.directory d')) ?_ ?_ h he
  · intro d d' name e hd he
    obtain ⟨e', he', -, hcopied⟩ :=
      get_of_forall₂ (fun _ _ h => h.1) (copied_directory.mp hd) he
    exact ⟨e', he', hcopied⟩
  · intro e e' d he hd
    have hcontents := he.contents
    rw [hd] at hcontents
    obtain ⟨d', hd', hcopied⟩ := hcontents.exists_directory
    exact ⟨d', hd', copied_directory.mpr hcopied⟩

theorem Copied.getPath_back (h : (directory d).Copied blake3 (.directory d')) {e' : Entry Section}
    (he' : d'.getPath path = some e') : ∃ e, d.getPath path = some e ∧ e.Copied blake3 e' := by
  refine getPath_simulation (E := fun e' e => e.Copied blake3 e')
    (D := fun d' d => (directory d).Copied blake3 (.directory d')) ?_ ?_ h he'
  · intro d' d name e' hd he'
    obtain ⟨e, he, -, hcopied⟩ := get_of_forall₂ (fun _ _ h => h.1.symm)
      (copied_directory.mp hd).flip he'
    exact ⟨e, he, hcopied⟩
  · intro e' e d' he hd'
    have hcontents := he.contents
    rw [hd'] at hcontents
    obtain ⟨d, hd⟩ := hcontents.of_directory
    rw [hd] at hcontents
    exact ⟨d, hd, hcontents⟩

end Paths

section Archives

variable {S SK : Type} [FileSource S] {blake3 : Bytes → Hash} {scheme : SignatureScheme SK}
  {source : Source} {f : Section} {hash : Option (Hash × Nat)} {context : Bytes}
  {a : Archive SK Section} {c : Commitment} {commitment : Option Commitment} {depth : Nat}

theorem whole_of_verified (hf : ReadFrom source f hash) (h : Verified blake3 true f hash) :
    Whole f hash := by
  obtain ⟨-, ⟨k, rfl⟩, -⟩ := hf
  obtain ⟨_, -, h₁⟩ := bind_eq_ok.mp h
  obtain ⟨_, -, h₂⟩ := bind_eq_ok.mp h₁
  obtain ⟨_, hlen, -⟩ := bind_eq_ok.mp h₂
  exact (ensure_eq_ok.mp hlen : (FileSource.bytes f).length = f.size)

theorem whole_of_size (hf : ReadFrom source f hash) (h : source.size ≠ none) : Whole f hash := by
  obtain ⟨rfl, -, hend⟩ := hf
  obtain ⟨limit, hlimit⟩ := Option.ne_none_iff_exists'.mp h
  have hle := (checkedEnd_eq_ok.mp hend).2.2 limit hlimit
  rw [f.source.size_eq limit hlimit] at hle
  change ((f.source.bytes.drop f.position).take f.size).length = f.size
  rw [List.length_take, List.length_drop]
  omega

variable (blake3) in
/-- What an archive has after it was filtered, written and read again. -/
structure FilteredCopy (keep : Path → Bool) (d d' : DirectoryContents Section) : Prop where
  sighash : d'.sighash blake3 = d.sighash blake3
  hash : ∀ path e', d'.getPath path = some e' → ∃ e, d.getPath path = some e ∧ e.hash = e'.hash
  present : ∀ path, (∃ e' f', d'.getPath path = some e' ∧ e'.contents = .file f') ↔
    (∃ e f, d.getPath path = some e ∧ e.contents = .file f) ∧ Kept keep path
  read : ∀ path e e', d.getPath path = some e → d'.getPath path = some e' →
    (∃ f', e'.contents = .file f') → e'.readFileToVec blake3 = e.readFileToVec blake3

omit [FileSource S] in
theorem isSome_of_getPath {d : DirectoryContents S} (hd : (directory d).Hashed)
    {path : List Name} {e : Entry S} (he : d.getPath path = some e) : e.hash.isSome = true := by
  obtain ⟨e', he', rfl, hsome, -⟩ := getPath_simulation
    (D := fun d d' => d = d' ∧ (directory d).Hashed)
    (E := fun e e' => e = e' ∧ e.hash.isSome = true ∧ e.contents.Hashed)
    (fun {d _ name e} hd he => ⟨e, hd.1 ▸ he, rfl,
      hashed_directory.mp hd.2 _ (DirectoryOf.mem_of_get he)⟩)
    (fun {e _ d} he hd => ⟨d, he.1 ▸ hd, rfl, hd ▸ he.2.2⟩) ⟨rfl, hd⟩ he
  exact hsome

theorem filteredCopy_of_copied {keep : Path → Bool} {d d₁ d' : DirectoryContents Section}
    (hd : (directory d).Hashed) (hfilter : d.filter keep = .ok d₁)
    (hcopied : (directory d₁).Copied blake3 (.directory d')) :
    FilteredCopy blake3 keep d d' := by
  have hback : ∀ path e', d'.getPath path = some e' → ∃ e, ∃ e₁ : Entry Section,
      d.getPath path = some e ∧ e.hash = e'.hash ∧ e₁.contents.Copied blake3 e'.contents ∧
      ∀ f, e₁.contents = .file f → e.contents = .file f ∧ Kept keep path := by
    intro path e' he'
    obtain ⟨e₁, he₁, ⟨k, hk, hk'⟩, hcontents⟩ := Copied.getPath_back hcopied he'
    obtain ⟨e, he, hhash, hfile⟩ := filter_getPath hfilter he₁
    obtain ⟨k₁, hk₁⟩ := Option.isSome_iff_exists.mp (isSome_of_getPath hd he)
    refine ⟨e, e₁, he, ?_, hcontents, hfile⟩
    rw [EntryOf.toHash, ← hhash, hk₁] at hk
    cases hk
    rw [hk₁, hk']
  refine ⟨?_, fun path e' he' => ?_, fun path => ⟨?_, ?_⟩, fun path e e' he he' hf' => ?_⟩
  · rw [DirectoryOf.sighash, DirectoryOf.sighash,
      sigContents_eq_of_copied (copied_directory.mp hcopied),
      filter_sigContents hfilter fun e he => (hashed_directory.mp hd e he).1]
  · obtain ⟨e, -, he, hhash, -⟩ := hback path e' he'
    exact ⟨e, he, hhash⟩
  · rintro ⟨e', f', he', hf'⟩
    obtain ⟨e, e₁, he, -, hcontents, hfile⟩ := hback path e' he'
    rw [hf'] at hcontents
    obtain ⟨f, hf, -⟩ := hcontents.of_file
    exact ⟨⟨e, f, he, (hfile f hf).1⟩, (hfile f hf).2⟩
  · rintro ⟨⟨e, f, he, hf⟩, hkept⟩
    obtain ⟨e₁, he₁, hf₁⟩ := getPath_filter hfilter he hf hkept
    obtain ⟨e', he', -, hcontents⟩ := Copied.getPath hcopied he₁
    rw [hf₁] at hcontents
    obtain ⟨f', hf', -⟩ := hcontents.exists_file
    exact ⟨e', f', he', hf'⟩
  · obtain ⟨f', hf'⟩ := hf'
    obtain ⟨e₂, e₁, he₂, hhash, hcontents, hfile⟩ := hback path e' he'
    cases he.symm.trans he₂
    rw [hf'] at hcontents
    obtain ⟨f, hf, hbytes⟩ := hcontents.of_file
    rw [EntryOf.readFileToVec, EntryOf.readFileToVec, hf', (hfile f hf).1, hhash]
    cases e'.hash <;> simp only [copyVerify, hbytes]

variable (blake3 scheme) in
/-- What is known of an archive that was filtered after it was read. -/
structure Resealed (source : Source) (context : Bytes) (expected : Option Commitment)
    (a : Archive SK Section) (c : Commitment) : Prop where
  commitment : a.commitment blake3 = .ok c
  maxsize : c.rootMaxsize < Text.wordLimit
  sound : a.contents.Sound blake3 (c.rootSighash, c.rootMaxsize)
  signed : ∃ pubkey signature, a.signer.sign scheme c = .ok (pubkey, signature) ∧
    scheme.Accepts context pubkey signature c
  check : checkCommitment c.rootSighash c.rootMaxsize expected = .ok ()
  files : ∀ e ∈ a.contents.contents, e.2.contents.EachFile (ReadFrom source) e.2.hash

/-- An accepted archive can be filtered in every way, and keeps its commitment. -/
theorem Archive.filter_resealed {r rest : Bytes}
    (ha : Archive.deserialize blake3 scheme source depth context r commitment = .ok (a, rest))
    (keep : Path → Bool) :
    (directory a.contents).Hashed ∧ ∃ d c, a.contents.filter keep = .ok d ∧
      Resealed blake3 scheme source context commitment ⟨a.signer, d⟩ c := by
  obtain ⟨pubkey, signature, c, r', hsigner, haccepts, hmax, hcheck, -, hd⟩ :=
    Archive.deserialize_eq_ok.mp ha
  have hfiles := DirectoryOf.deserialize_files hd
  have hhashed : (directory a.contents).Hashed :=
    hashed_directory.mpr fun e he => ⟨(hfiles e he).1, (hfiles e he).2.1⟩
  have hsound := sound_directory.mpr (DirectoryOf.deserialize_sound hd)
  obtain ⟨_, hcontents⟩ := filter_succeeds hhashed keep
  obtain ⟨d, rfl, hfilter⟩ := filter_directory.mp hcontents
  have hsound' := sound_directory.mp (hsound.filter hhashed hcontents)
  have hread : (directory a.contents).EachFile (ReadFrom source) none :=
    eachFile_directory.mpr fun e he => (hfiles e he).2.2
  have hcommit : Archive.commitment blake3 ⟨a.signer, d⟩ = .ok c := by
    obtain ⟨sig, hsig, hhash⟩ := hsound'.sighash
    rw [hsigner]
    exact bind_ok (bind_ok hsig rfl) (by rw [hhash]; rfl)
  have hsign : a.signer.sign scheme c = .ok (pubkey, signature) := by
    rw [hsigner]
    rfl
  exact ⟨hhashed, d, c, hfilter, hcommit, hmax, hsound', ⟨pubkey, signature, hsign, haccepts⟩,
    hcheck, eachFile_directory.mp (hread.filter hcontents)⟩

section

variable (h : Resealed blake3 scheme source context commitment a c)
include h

/-- It is written exactly if each file in it passes its check. -/
theorem Resealed.serialize_iff (start : Nat) (verify : Bool) :
    (∃ out, a.serialize blake3 scheme start verify = .ok out) ↔
      ∀ e ∈ a.contents.contents, e.2.contents.EachFile (Verified blake3 verify) e.2.hash := by
  obtain ⟨pubkey, signature, hsign, -⟩ := h.signed
  rw [← root_iff h.sound h.maxsize (start + prefixSize + (8 + 8) + a.contents.tocSize) verify]
  constructor
  · rintro ⟨out, hout⟩
    obtain ⟨toc, q, bytes, htoc, hbytes, -⟩ :=
      (Archive.serialize_eq_ok h.commitment hsign).mp hout
    exact ⟨toc, q, bytes, htoc, hbytes⟩
  · rintro ⟨toc, q, bytes, htoc, hbytes⟩
    exact ⟨_, (Archive.serialize_eq_ok h.commitment hsign).mpr ⟨toc, q, bytes, htoc, hbytes, rfl⟩⟩

/-- What is written of it is read back, if the source has all bytes of its files. A check sees
to that, and so does a source that knows its size. -/
theorem Resealed.read_back {verify : Bool} {pre out : Bytes}
    (hout : a.serialize blake3 scheme pre.length verify = .ok out)
    (hbytes : verify = true ∨ source.size ≠ none ∨
      ∀ e ∈ a.contents.contents, e.2.contents.EachFile Whole e.2.hash)
    (hword : pre.length + out.length < Text.wordLimit) {source' : Source}
    (hsrc : source'.bytes = pre ++ out) :
    ∃ a' rest minDepth, ReadBack blake3 source' a a' (pre.length + out.length) ∧
      ∀ depth ≥ minDepth, Archive.deserialize blake3 scheme source' depth context out
        commitment = .ok (a', rest) := by
  have hwhole : ∀ e ∈ a.contents.contents, e.2.contents.EachFile Whole e.2.hash := by
    rcases hbytes with rfl | hsize | hwhole
    · have hverified := (h.serialize_iff _ _).mp ⟨out, hout⟩
      exact fun e he => ((h.files e he).and (hverified e he)).imp
        fun _ _ h => whole_of_verified h.1 h.2
    · exact fun e he => (h.files e he).imp fun _ _ h => whole_of_size h hsize
    · exact hwhole
  have hwritten : Written blake3 scheme a context pre.length c out :=
    ⟨h.commitment, h.maxsize, h.sound, hwhole, h.signed, verify, hout⟩
  obtain ⟨a', rest, minDepth, hback, hdeserialize⟩ := hwritten.read_back
    (show source'.bytes = pre ++ (out ++ []) by rw [hsrc, List.append_nil]) hword h.check
  rw [List.append_nil] at hdeserialize
  exact ⟨a', rest, minDepth, hback, hdeserialize⟩

end

/-- An accepted archive can be filtered in every way. The filtered archive is written, with its
signature, exactly if the files that were kept pass the check that is asked for. If they do, and
the source has all their bytes, then what is written is accepted for the same commitment and has
the files that were kept. -/
theorem filtered_archive_is_read_back {source : Source} {depth : Nat} {context r rest : Bytes}
    {commitment : Option Commitment} {a : Archive SK Section}
    (ha : Archive.deserialize blake3 scheme source depth context r commitment = .ok (a, rest))
    (keep : Path → Bool) :
    ∃ d, a.contents.filter keep = .ok d ∧ ∀ (pre : Bytes) (verify : Bool),
      ((∃ out, Archive.serialize blake3 scheme ⟨a.signer, d⟩ pre.length verify = .ok out) ↔
        ∀ e ∈ d.contents, e.2.contents.EachFile (Verified blake3 verify) e.2.hash) ∧
      ∀ out, Archive.serialize blake3 scheme ⟨a.signer, d⟩ pre.length verify = .ok out →
        (verify = true ∨ source.size ≠ none ∨
          ∀ e ∈ d.contents, e.2.contents.EachFile Whole e.2.hash) →
        pre.length + out.length < Text.wordLimit →
        ∀ source' : Source, source'.bytes = pre ++ out →
          ∃ a' rest' minDepth, FilteredCopy blake3 keep a.contents a'.contents ∧
            ∀ depth ≥ minDepth, Archive.deserialize blake3 scheme source' depth context out
              commitment = .ok (a', rest') := by
  obtain ⟨hhashed, d, c, hfilter, hresealed⟩ := Archive.filter_resealed ha keep
  refine ⟨d, hfilter, fun pre verify => ⟨hresealed.serialize_iff _ _,
    fun out hout hbytes hword source' hsrc => ?_⟩⟩
  obtain ⟨a', rest', minDepth, hback, hdeserialize⟩ :=
    hresealed.read_back hout hbytes hword hsrc
  exact ⟨a', rest', minDepth, filteredCopy_of_copied hhashed hfilter hback.copied, hdeserialize⟩

end Archives

section Pair

def otherName : Name where
  bytes := [98]
  valid := rfl

/-- An archive of two files. -/
def pairArchive : Archive Unit Bytes where
  signer := .signer () []
  contents := ⟨[(sampleName, ⟨none, .file [0]⟩), (otherName, ⟨none, .file [0, 0]⟩)], 0, none⟩

/-- Only the first file is kept. -/
def keepFirst (path : Path) : Bool := path = sampleName.bytes

theorem read_pair : ∃ source depth c a rest f g,
      Archive.deserialize lengthHash sampleScheme source depth [] source.bytes (some c) =
        .ok (a, rest) ∧
      a.contents.contents = [(sampleName, ⟨some (lengthHash [0], 1), .file f⟩),
        (otherName, ⟨some (lengthHash [0, 0], 2), .file g⟩)] ∧ FileSource.bytes f = [0] := by
  have hvalid : (directory pairArchive.contents).Valid lengthHash none :=
    ⟨by decide, ⟨⟨by decide, rfl, nofun⟩, ⟨by decide, rfl, nofun⟩, trivial⟩, nofun⟩
  obtain ⟨c, out, hwritten, -, hlen⟩ := Archive.written_of_archivable sampleScheme_lawful
    (show pairArchive.signer = .signer () [] from rfl) (fun _ => ⟨_, rfl⟩)
    (archivable_of_valid false _ none hvalid (by decide)) 0
  have hwritten : Written lengthHash sampleScheme pairArchive [] ([] : Bytes).length c out :=
    hwritten
  have hsrc : (⟨out, none, nofun⟩ : Source).bytes = [] ++ (out ++ []) := by simp
  obtain ⟨a, rest, depth, hback, hread⟩ := hwritten.read_back hsrc (by rw [hlen]; decide)
    (show checkCommitment c.rootSighash c.rootMaxsize (some c) = .ok () from
      ensure_bind rfl (ensure_eq_ok.mpr (Nat.le_refl _)))
  rw [List.append_nil] at hread
  rcases a with ⟨signer, contents, sourceEnd, sortBy⟩
  have hcopied : CopiedEntries lengthHash pairArchive.contents.contents contents :=
    copied_directory.mp hback.copied
  obtain ⟨⟨_, _, c₁⟩, rest₁, ⟨rfl, ⟨_, hk₁, hhash₁⟩, hf⟩, hrest, rfl⟩ :=
    List.forall₂_cons_left_iff.mp hcopied
  obtain ⟨⟨_, _, c₂⟩, rest₂, ⟨rfl, ⟨_, hk₂, hhash₂⟩, hg⟩, hnil, rfl⟩ :=
    List.forall₂_cons_left_iff.mp hrest
  cases hk₁
  cases hk₂
  cases hhash₁
  cases hhash₂
  cases hnil
  obtain ⟨f, rfl, hbytes⟩ := hf.exists_file
  obtain ⟨g, rfl, -⟩ := hg.exists_file
  exact ⟨_, depth, c, _, rest, f, g, hread depth (Nat.le_refl _), rfl, hbytes⟩

/-- Of two files one is left out. The other is written with its check, and the archive is accepted
again for its commitment, with the root hash it had, the kept file readable and the other no
file. -/
theorem filtered_archive_is_read_back_pair : ∃ source depth c a rest d out,
      Archive.deserialize lengthHash sampleScheme source depth [] source.bytes (some c) =
        .ok (a, rest) ∧
      a.contents.filter keepFirst = .ok d ∧
      Archive.serialize lengthHash sampleScheme ⟨a.signer, d⟩ 0 true = .ok out ∧
      ∀ source' : Source, source'.bytes = out → ∃ depth' a' rest',
        Archive.deserialize lengthHash sampleScheme source' depth' [] out (some c) =
          .ok (a', rest') ∧
        a'.contents.sighash lengthHash = a.contents.sighash lengthHash ∧
        (∃ e', a'.contents.getPath [sampleName] = some e' ∧
          e'.readFileToVec lengthHash = .ok [0]) ∧
        ¬ ∃ e' f', a'.contents.getPath [otherName] = some e' ∧ e'.contents = .file f' := by
  obtain ⟨source, depth, c, ⟨signer, contents, sourceEnd, sortBy⟩, rest, f, g, ha, rfl, hf⟩ :=
    read_pair
  obtain ⟨d, hfilter, hwritten⟩ := filtered_archive_is_read_back ha keepFirst
  obtain ⟨-, _, _, hfilter', hresealed⟩ := Archive.filter_resealed ha keepFirst
  cases hfilter.symm.trans hfilter'
  cases hfilter
  have hread : EntryOf.readFileToVec lengthHash ⟨some (lengthHash [0], 1), .file f⟩ = .ok [0] := by
    simp only [EntryOf.readFileToVec, copyVerify, hf]
    rfl
  have hverified : Verified lengthHash true f (some (lengthHash [0], 1)) := by
    rw [Verified, hf]
    exact hread
  obtain ⟨out, hout⟩ := (hwritten [] true).1.mpr (eachFileIn_iff.mp ⟨hverified, trivial, trivial⟩)
  have hwhole : FileSource.size f = 1 := by
    have := whole_of_verified (hresealed.files _ List.mem_cons_self) hverified
    rw [Whole, hf] at this
    exact this.symm
  have hlen := (show Written lengthHash sampleScheme _ _ _ _ _ from
    ⟨hresealed.commitment, hresealed.maxsize, hresealed.sound,
      eachFileIn_iff.mp ⟨by rw [EachFile, Whole, hf, hwhole]; rfl, trivial, trivial⟩,
      hresealed.signed, true, hout⟩).length
  have hword : out.length < Text.wordLimit := by
    have htoc : tocSizeOf [(sampleName, (⟨some (lengthHash [0], 1), .file f⟩ : Entry Section)),
        (otherName, ⟨some (lengthHash [0, 0], 2), .missing⟩)] = 95 := by
      with_unfolding_all rfl
    rw [hlen, writtenSize, writtenSizeAll, writtenSize, hwhole, htoc]
    exact (by decide : prefixSize + (8 + 8) + (95 + (1 + 0)) < Text.wordLimit)
  refine ⟨source, depth, c, _, rest, _, out, ha, rfl, hout, fun source' hsrc => ?_⟩
  obtain ⟨a', rest', depth', hcopy, hread'⟩ := (hwritten [] true).2 out hout (.inl rfl)
    (by rwa [List.length_nil, Nat.zero_add]) source' hsrc
  refine ⟨depth', a', rest', hread' depth' (Nat.le_refl _), hcopy.sighash, ?_, fun hpresent => ?_⟩
  · have hkept : Kept keepFirst [sampleName] := kept_cons.mpr ⟨by decide, fun q hne hq =>
      absurd (List.prefix_nil.mp hq) hne⟩
    obtain ⟨e', f', he', hf'⟩ := (hcopy.present [sampleName]).mpr ⟨⟨_, _, rfl, rfl⟩, hkept⟩
    exact ⟨e', he', (hcopy.read _ _ e' rfl he' ⟨f', hf'⟩).trans hread⟩
  · have hkept := ((hcopy.present [otherName]).mp hpresent).2 [otherName] (by simp) (by simp)
    exact absurd hkept (by decide)

end Pair

set_option maxRecDepth 10000 in
/-- A file whose bytes do not match its hash is refused when the archive is written again with
a check, so nothing is written then. -/
theorem damaged_archive_is_not_written : ∃ source a r rest depth d,
      Archive.deserialize lengthHash sampleScheme source depth [] r none = .ok (a, rest) ∧
      a.contents.filter (fun _ => true) = .ok d ∧
      ∀ start out, Archive.serialize lengthHash sampleScheme ⟨a.signer, d⟩ start true ≠
        .ok out := by
  have hread : Archive.deserialize lengthHash sampleScheme
      (writtenOf ⟨some (lengthHash [0, 0], 1), .file [0]⟩) 1 []
      (writtenOf ⟨some (lengthHash [0, 0], 1), .file [0]⟩).bytes none =
        .ok (readOf 52 205 (fileEntry (lengthHash [0, 0]) ⟨some (lengthHash [0, 0], 1), .file [0]⟩),
          (writtenOf ⟨some (lengthHash [0, 0], 1), .file [0]⟩).bytes.drop 152) := by
    with_unfolding_all rfl
  refine ⟨_, _, _, _, 1, _, hread, rfl, fun start out hout => ?_⟩
  have hfails : Archive.serialize lengthHash sampleScheme (readOf 52 205 (fileEntry
      (lengthHash [0, 0]) ⟨some (lengthHash [0, 0], 1), .file [0]⟩)) start true =
        .error ⟨.invalidSignature, "hash sum mismatch"⟩ := by
    with_unfolding_all rfl
  cases hfails.symm.trans hout

end StartTech.MerkleArchive

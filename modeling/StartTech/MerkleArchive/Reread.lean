import StartTech.MerkleArchive.Filtering

/-!
# Reading an archive again behind which bytes have changed

All that is read of an archive lies before its end. From a source with the same bytes up
to there a copy of the archive is read, with the same end.
-/

namespace StartTech.MerkleArchive

open Foundation Fallible

/-- Two sources have the same bytes up to a bound, and the second one reaches it. -/
structure SameFront (source source' : Source) (bound : Nat) : Prop where
  bytes : source'.bytes.take bound = source.bytes.take bound
  size : ∀ n ∈ source'.size, bound ≤ n

variable {source source' : Source} {bound n limit start depth : Nat} {blake3 : Bytes → Hash}
  {toc r rest : Bytes} {acc : List (Name × Entry Section)} {x : List (Name × Entry Section) × Nat}
  {h : Hash × Nat} {d : DirectoryContents Section} {e : Entry Section}
  {entry : Bytes → Except Error (Entry Section × Bytes)}

namespace SameFront

theorem fetch (h : SameFront source source' bound) {position size : Nat}
    (hle : position + size ≤ bound) : source'.fetch position size = source.fetch position size := by
  have hcut (l : Bytes) : (l.drop position).take size = ((l.take bound).drop position).take size := by
    rw [List.drop_take, List.take_take, Nat.min_eq_left (by omega)]
  rw [Source.fetch, Source.fetch, hcut, h.bytes, ← hcut]

theorem checkedEnd (h : SameFront source source' bound) {position size stop : Nat}
    (hend : MerkleArchive.checkedEnd source position size = .ok stop) (hle : stop ≤ bound) :
    MerkleArchive.checkedEnd source' position size = .ok stop := by
  obtain ⟨hstop, hword, -⟩ := checkedEnd_eq_ok.mp hend
  exact checkedEnd_eq_ok.mpr ⟨hstop, hword, fun n hn => (hstop ▸ hle).trans (h.size n hn)⟩

end SameFront

theorem le_of_readEntries (h : readEntries entry n toc acc start = .ok x) : start ≤ x.2 := by
  induction n generalizing toc acc start with
  | zero =>
    cases h
    exact le_rfl
  | succ n ih =>
    obtain ⟨_, -, h⟩ := bind_eq_ok.mp h
    obtain ⟨_, -, h⟩ := bind_eq_ok.mp h
    exact (Nat.le_max_left _ _).trans (ih h)

/-- What is read of a table ends where its entries do. -/
theorem readEntries_le (hentry : ∀ r e rest, entry r = .ok (e, rest) → e.contents.stop ≤ limit)
    (hstart : start ≤ limit) (h : readEntries entry n toc acc start = .ok x) : x.2 ≤ limit := by
  induction n generalizing toc acc start with
  | zero =>
    cases h
    exact hstart
  | succ n ih =>
    obtain ⟨_, -, h⟩ := bind_eq_ok.mp h
    obtain ⟨_, he, h⟩ := bind_eq_ok.mp h
    exact ih (Nat.max_le.mpr ⟨hstart, hentry _ _ _ he⟩) h

/-- An archive ends within its source. -/
theorem DirectoryOf.sourceEnd_le (hlimit : source.size = some limit)
    (hd : DirectoryOf.deserialize blake3 source depth r h = .ok (d, rest)) :
    d.sourceEnd ≤ limit := by
  have hfits {position size stop : Nat} (hstop : checkedEnd source position size = .ok stop) :
      position + size ≤ limit :=
    (checkedEnd_eq_ok.mp hstop).2.2 limit hlimit
  induction depth generalizing r rest h d with
  | zero => cases hd
  | succ depth ih =>
    obtain ⟨position, size, len, toc, -, -, hstop, -, hents, -⟩ :=
      DirectoryOf.deserialize_succ.mp hd
    refine readEntries_le (fun r e rest he => ?_) (hfits hstop) hents
    obtain ⟨hash, size, r', -, -, -, hcases⟩ := EntryOf.deserialize_eq_ok he
    rcases hcases with ⟨hc, -⟩ | ⟨position, hc, hend, -⟩ | ⟨d, r'', hc, -, hd⟩
    · rw [hc]
      exact Nat.zero_le _
    · rw [hc]
      exact hfits hend
    · rw [hc]
      exact ih hd

theorem EntryOf.reread (hfront : SameFront source source' bound)
    {directory directory' : Bytes → Hash × Nat → Except Error (DirectoryContents Section × Bytes)}
    (hdir : ∀ r k d rest, directory r k = .ok (d, rest) → d.sourceEnd ≤ bound →
      ∃ d', directory' r k = .ok (d', rest) ∧
        (EntryContents.directory d).Copied blake3 (.directory d') ∧ d'.sourceEnd = d.sourceEnd)
    (he : EntryOf.deserialize source directory r = .ok (e, rest)) (hstop : e.contents.stop ≤ bound) :
    ∃ e', EntryOf.deserialize source' directory' r = .ok (e', rest) ∧ e.Copied blake3 e' ∧
      e'.contents.stop = e.contents.stop := by
  obtain ⟨⟨hash, r₁⟩, hhash, he⟩ := bind_eq_ok.mp he
  obtain ⟨⟨size, r₂⟩, hsize, he⟩ := bind_eq_ok.mp he
  obtain ⟨⟨type, r₃⟩, htype, he⟩ := bind_eq_ok.mp he
  have hcopied {contents contents' : EntryContents Section} (h : contents.Copied blake3 contents') :
      EntryOf.Copied blake3 ⟨some (hash, size), contents⟩ ⟨some (hash, size), contents'⟩ :=
    ⟨⟨(hash, size), rfl, rfl⟩, h⟩
  have hread {x : Entry Section × Bytes} := fun h =>
    (bind_ok hhash (bind_ok hsize (bind_ok htype h)) :
      EntryOf.deserialize source' directory' r = .ok x)
  dsimp only at he hread
  split at he
  · cases he
    exact ⟨_, hread rfl, hcopied trivial, rfl⟩
  · obtain ⟨⟨position, r₄⟩, hpos, he⟩ := bind_eq_ok.mp he
    obtain ⟨stop, hend, he⟩ := bind_eq_ok.mp he
    cases he
    have hle : position + size ≤ bound := hstop
    have hend' := hfront.checkedEnd hend ((checkedEnd_eq_ok.mp hend).1 ▸ hle)
    exact ⟨_, hread (bind_ok hpos (bind_ok hend' rfl)), hcopied (hfront.fetch hle), rfl⟩
  · obtain ⟨⟨d, r₄⟩, hd, he⟩ := bind_eq_ok.mp he
    cases he
    obtain ⟨d', hd', hcopy, hend⟩ := hdir _ _ d _ hd hstop
    exact ⟨_, hread (bind_ok hd' rfl), hcopied hcopy, hend⟩
  · cases he

theorem readEntries_reread {entry' : Bytes → Except Error (Entry Section × Bytes)}
    (hentry : ∀ r e rest, entry r = .ok (e, rest) → e.contents.stop ≤ bound →
      ∃ e', entry' r = .ok (e', rest) ∧ e.Copied blake3 e' ∧ e'.contents.stop = e.contents.stop)
    {acc' entries : List (Name × Entry Section)} {start stop : Nat}
    (hacc : CopiedEntries blake3 acc acc')
    (h : readEntries entry n toc acc start = .ok (entries, stop)) (hstop : stop ≤ bound) :
    ∃ entries', readEntries entry' n toc acc' start = .ok (entries', stop) ∧
      CopiedEntries blake3 entries entries' := by
  induction n generalizing toc acc acc' start with
  | zero =>
    cases h
    exact ⟨acc', rfl, hacc⟩
  | succ n ih =>
    obtain ⟨⟨name, toc₁⟩, hname, h⟩ := bind_eq_ok.mp h
    obtain ⟨⟨e, toc₂⟩, he, h⟩ := bind_eq_ok.mp h
    have hle : max start e.contents.stop ≤ stop := le_of_readEntries h
    obtain ⟨e', he', hcopied, hend⟩ := hentry _ _ _ he (by omega)
    have hinsert : CopiedEntries blake3 (OrderedMap.insert name e acc)
        (OrderedMap.insert name e' acc') :=
      OrderedMap.insert_forall₂ ⟨rfl, hcopied⟩ hacc fun x _ x' hx => by rw [hx.1]
    obtain ⟨entries', hread, hents⟩ := ih hinsert h
    rw [← hend] at hread
    exact ⟨entries', bind_ok hname (bind_ok he' hread), hents⟩

theorem sighash_eq_of_copied {d' : DirectoryContents Section}
    (h : CopiedEntries blake3 d.contents d'.contents) : d'.sighash blake3 = d.sighash blake3 := by
  rw [DirectoryOf.sighash, DirectoryOf.sighash, sigContents_eq_of_copied h]

/-- A directory is read again to the same depth. -/
theorem DirectoryOf.reread (hfront : SameFront source source' bound)
    (hd : DirectoryOf.deserialize blake3 source depth r h = .ok (d, rest))
    (hend : d.sourceEnd ≤ bound) :
    ∃ d', DirectoryOf.deserialize blake3 source' depth r h = .ok (d', rest) ∧
      (EntryContents.directory d).Copied blake3 (.directory d') ∧ d'.sourceEnd = d.sourceEnd := by
  induction depth generalizing r rest h d with
  | zero => cases hd
  | succ depth ih =>
    obtain ⟨position, size, len, toc, hr, hmax, hstop, hlen, hents, -, hsighash⟩ :=
      DirectoryOf.deserialize_succ.mp hd
    have hle : position + size ≤ bound := (le_of_readEntries hents).trans hend
    obtain ⟨entries', hents', hcopied⟩ := readEntries_reread
      (fun r e rest he hbound => EntryOf.reread hfront (fun _ _ _ _ hd hle => ih hd hle) he hbound)
      .nil hents hend
    refine ⟨⟨entries', d.sourceEnd, none⟩, DirectoryOf.deserialize_succ.mpr ⟨position, size, len, toc,
      hr, hmax, hfront.checkedEnd hstop hle, ?_, hents', rfl, ?_⟩, copied_directory.mpr hcopied, rfl⟩
    · rw [hfront.fetch hle, hlen]
    · rw [sighash_eq_of_copied hcopied, hsighash]

/-- An archive is read again with the same signature. -/
theorem Archive.reread {SK : Type} {scheme : SignatureScheme SK}
    (hfront : SameFront source source' bound) {context : Bytes}
    {commitment : Option Commitment} {a : Archive SK Section}
    (ha : Archive.deserialize blake3 scheme source depth context r commitment = .ok (a, rest))
    (hend : a.contents.sourceEnd ≤ bound) :
    ∃ a', Archive.deserialize blake3 scheme source' depth context r commitment = .ok (a', rest) ∧
      a'.signer = a.signer ∧ a'.contents.sourceEnd = a.contents.sourceEnd ∧
      (EntryContents.directory a.contents).Copied blake3 (.directory a'.contents) := by
  obtain ⟨pubkey, signature, c, r', hsigner, haccepts, hmax, hcheck, hr, hd⟩ :=
    Archive.deserialize_eq_ok.mp ha
  obtain ⟨contents', hd', hcopied, hsame⟩ := DirectoryOf.reread hfront hd hend
  exact ⟨⟨a.signer, contents'⟩, Archive.deserialize_eq_ok.mpr ⟨pubkey, signature, c, r', hsigner,
    haccepts, hmax, hcheck, hr, hd'⟩, rfl, hsame, hcopied⟩

/-- The bytes of a file are read from a copy as well. -/
theorem readFileToVec_eq_of_copied {e' : Entry Section} (h : e.Copied blake3 e')
    (hsome : e.hash.isSome = true) : e'.readFileToVec blake3 = e.readFileToVec blake3 := by
  obtain ⟨k, hk⟩ := Option.isSome_iff_exists.mp hsome
  have hhash : e'.hash = e.hash := by
    obtain ⟨k', htoHash, hk'⟩ := h.hash
    rw [EntryOf.toHash, hk] at htoHash
    rw [hk', hk, Except.ok.inj htoHash]
  have hcontents := h.contents
  rw [EntryOf.readFileToVec, EntryOf.readFileToVec, hhash]
  cases hc : e.contents with
  | missing =>
    rw [hc] at hcontents
    cases hc' : e'.contents with
    | missing => rfl
    | file s =>
      rw [hc'] at hcontents
      exact False.elim hcontents
    | directory d =>
      rw [hc'] at hcontents
      exact False.elim hcontents
  | file f =>
    rw [hc] at hcontents
    obtain ⟨s, hs, hbytes⟩ := hcontents.exists_file
    rw [hs]
    dsimp only
    unfold copyVerify
    rw [hbytes]
  | directory d =>
    rw [hc] at hcontents
    obtain ⟨d', hd', -⟩ := hcontents.exists_directory
    rw [hd']

end StartTech.MerkleArchive

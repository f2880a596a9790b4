import StartTech.MerkleArchive.Layout

/-!
# Writing an archive and reading it back

An archive whose cached hashes are right is written without an error, and what was
written is read as a copy of it.
-/

namespace StartTech.MerkleArchive

open Foundation Fallible EntryContents
open WriteQueue (serialize)
open FileSource (bytes size)
open Text (wordLimit)

variable {S : Type} [FileSource S] {blake3 : Bytes → Hash} {commitment : Option Commitment}
  {depth : Nat}

variable (blake3) in
/-- A file that is written without an error. -/
def Verified (verify : Bool) (f : S) (hash : Option (Hash × Nat)) : Prop :=
  copyVerify blake3 f (if verify then hash else none) = .ok (bytes f)

omit [FileSource S] in
theorem countAll_eq (l : List (Name × Entry S)) :
    countAll l = total (fun e => e.2.contents.count) l := by
  induction l with
  | nil => rfl
  | cons e rest ih =>
    rw [countAll, ih, total_cons]

omit [FileSource S] in
theorem count_pos (c : EntryContents S) : 0 < c.count := by
  cases c with
  | missing | file f => exact Nat.one_pos
  | directory d =>
    rw [count]
    omega

theorem serializeEntries_succeeds {l : List (Name × Entry S)}
    (h : ∀ e ∈ l, ∃ hash, e.2.toHash blake3 = .ok hash) (q : WriteQueue S) :
    ∃ bytes q', serializeEntries blake3 l q = .ok (bytes, q') := by
  induction l generalizing q with
  | nil => exact ⟨[], q, rfl⟩
  | cons e rest ih =>
    obtain ⟨hash, hhash⟩ := h e (by simp)
    obtain ⟨bytes, q', hrest⟩ := ih (fun e he => h e (List.mem_cons_of_mem _ he)) (q.add e.2).2
    exact ⟨_, q', bind_ok hhash (bind_ok hrest rfl)⟩

variable {d : DirectoryContents S} {verify : Bool} {queue : List (Entry S)} {steps next : Nat}

theorem DirectoryOf.serializeToc_succeeds {h : Hash × Nat} (hd : d.Sound blake3 h)
    (q : WriteQueue S) : ∃ toc q', d.serializeToc blake3 q = .ok (toc, q') := by
  have hperm := d.tocOrder_perm
  have hl : ∀ e ∈ d.tocOrder, ∃ hash, e.2.toHash blake3 = .ok hash := by
    intro e he
    obtain ⟨-, hash, hhash, -⟩ := hd.entries e (hperm.mem_iff.mp he)
    exact ⟨hash, hhash⟩
  obtain ⟨bytes, q', hents⟩ := serializeEntries_succeeds hl q
  exact ⟨_, q', bind_ok hents rfl⟩

/-- The queue is written within as many steps as there are entries. -/
theorem WriteQueue.serialize_succeeds (hqueue : ∀ e ∈ queue, e.Sound blake3)
    (hfiles : ∀ e ∈ queue, e.contents.EachFile (Verified blake3 verify) e.hash)
    (hsteps : total (fun e => e.contents.count) queue ≤ steps) :
    ∃ out, serialize blake3 verify steps ⟨next, queue⟩ = .ok out := by
  induction steps generalizing next queue with
  | zero =>
    cases queue with
    | nil => exact ⟨[], rfl⟩
    | cons e rest =>
      have hpos := count_pos e.contents
      rw [total_cons] at hsteps
      omega
  | succ steps ih =>
    cases queue with
    | nil => exact ⟨[], rfl⟩
    | cons e rest =>
      have hrest : ∀ e ∈ rest, e.Sound blake3 :=
        fun e he => hqueue e (List.mem_cons_of_mem _ he)
      have hrest' : ∀ e ∈ rest, e.contents.EachFile (Verified blake3 verify) e.hash :=
        fun e he => hfiles e (List.mem_cons_of_mem _ he)
      have he := hqueue e (by simp)
      have hfile := hfiles e (by simp)
      have hpos := count_pos e.contents
      rw [total_cons] at hsteps
      rw [serialize]
      cases hc : e.contents with
      | missing => exact ih hrest hrest' (by omega)
      | file f =>
        rw [hc] at hfile
        have hrun : ∃ out, serialize blake3 verify steps ⟨next, rest⟩ = .ok out :=
          ih hrest hrest' (by omega)
        obtain ⟨bytes, hbytes⟩ := hrun
        exact ⟨_, bind_ok hfile (bind_ok hbytes rfl)⟩
      | directory d =>
        obtain ⟨h, -, -, hsound⟩ := hqueue e (by simp)
        rw [hc] at hsound hfile hsteps
        rw [eachFile_directory] at hfile
        obtain ⟨toc, q, htoc⟩ :=
          DirectoryOf.serializeToc_succeeds (sound_directory.mp hsound) ⟨next, rest⟩
        have hperm := d.tocOrder_perm
        have hcount : total (fun e => e.contents.count) (rest ++ queued d.tocOrder) ≤ steps := by
          have hle := total_filter_le (fun e : Entry S => e.contents.count)
            (fun e => decide e.Present) (d.tocOrder.map Prod.snd)
          rw [total_map, total_perm _ hperm, ← countAll_eq] at hle
          rw [total_append, queued]
          rw [count] at hsteps
          omega
        have hrun : ∃ out, serialize blake3 verify steps q = .ok out := by
          rw [DirectoryOf.serializeToc_queue htoc]
          exact ih (forall_mem_queue hrest (he.child hc)) (forall_mem_queue hrest' hfile) hcount
        obtain ⟨bytes, hbytes⟩ := hrun
        exact ⟨_, bind_ok htoc (bind_ok hbytes rfl)⟩

/-- A queue is written only if each file in it passes its check. -/
theorem WriteQueue.verified_of_serialize {out : Bytes}
    (h : serialize blake3 verify steps ⟨next, queue⟩ = .ok out) :
    ∀ e ∈ queue, e.contents.EachFile (Verified blake3 verify) e.hash := by
  induction steps generalizing next queue out with
  | zero =>
    cases queue with
    | nil => simp
    | cons e rest => cases h
  | succ steps ih =>
    cases queue with
    | nil => simp
    | cons e rest =>
      rw [List.forall_mem_cons]
      rw [serialize] at h
      split at h
      · rename_i hc
        rw [hc]
        exact ⟨trivial, ih h⟩
      · rename_i f hc
        obtain ⟨body, hbody, h₁⟩ := bind_eq_ok.mp h
        obtain ⟨bytes, hbytes, -⟩ := bind_eq_ok.mp h₁
        cases copyVerify_eq_ok hbody
        rw [hc]
        exact ⟨hbody, ih hbytes⟩
      · rename_i d hc
        obtain ⟨⟨toc, q⟩, htoc, h₁⟩ := bind_eq_ok.mp h
        obtain ⟨bytes, hbytes, -⟩ := bind_eq_ok.mp h₁
        cases DirectoryOf.serializeToc_queue htoc
        have hall := ih hbytes
        rw [hc, eachFile_directory]
        refine ⟨fun x hx => ?_, fun x hx => hall x (List.mem_append_left _ hx)⟩
        by_cases hpresent : x.2.Present
        · exact hall x.2 (List.mem_append_right _
            (mem_queued (d.tocOrder_perm.mem_iff.mpr hx) hpresent))
        · rw [missing_of_not_present hpresent]
          trivial

/-- A root directory is written, with everything below it, exactly if each file in it passes
its check. -/
theorem DirectoryOf.root_iff {k : Hash × Nat} (hd : d.Sound blake3 k) (hk : k.2 < wordLimit)
    (next : Nat) (verify : Bool) :
    (∃ toc q bytes, d.serializeToc blake3 ⟨next, []⟩ = .ok (toc, q) ∧
      q.serialize blake3 verify (countAll d.contents) = .ok bytes) ↔
      ∀ e ∈ d.contents, e.2.contents.EachFile (Verified blake3 verify) e.2.hash := by
  let root : Entry S := ⟨some k, .directory d⟩
  have hroot : root.Sound blake3 := ⟨k, rfl, hk, sound_directory.mpr hd⟩
  constructor
  · rintro ⟨toc, q, bytes, htoc, hbytes⟩
    have hrun : serialize blake3 verify (countAll d.contents + 1) ⟨next, [root]⟩ =
        .ok (toc ++ bytes) :=
      bind_ok htoc (bind_ok hbytes rfl)
    exact eachFile_directory.mp (WriteQueue.verified_of_serialize hrun root (by simp))
  · intro hfiles
    have hcount : total (fun e => e.contents.count) [root] ≤ countAll d.contents + 1 := by
      rw [total_cons, total_nil, Nat.add_zero]
      exact Nat.le_of_eq (Nat.add_comm _ _)
    have hrun : ∃ out, serialize blake3 verify (countAll d.contents + 1) ⟨next, [root]⟩ = .ok out :=
      WriteQueue.serialize_succeeds (by simpa using hroot)
        (by simpa using eachFile_directory.mpr hfiles) hcount
    obtain ⟨out, hout⟩ := hrun
    obtain ⟨⟨toc, q⟩, htoc, hrest⟩ := bind_eq_ok.mp hout
    obtain ⟨bytes, hbytes, -⟩ := bind_eq_ok.mp hrest
    exact ⟨toc, q, bytes, htoc, hbytes⟩

variable {SK : Type} {scheme : SignatureScheme SK} {source : Source} {h : Hash × Nat}
  {pre post context pubkey signature out r rest : Bytes} {c : Commitment} {a : Archive SK S}

/-- A root directory is read back from its table, and the parts of it tile the output. -/
theorem DirectoryOf.root_read_back {d : DirectoryContents S} (hd : d.Sound blake3 h)
    (hsize : h.2 < wordLimit) (hwhole : ∀ e ∈ d.contents, e.2.contents.EachFile Whole e.2.hash)
    {steps : Nat} {toc bytes : Bytes} {q : WriteQueue S}
    (htoc : d.serializeToc blake3 ⟨pre.length + d.tocSize, []⟩ = .ok (toc, q))
    (hq : q.serialize blake3 verify steps = .ok bytes)
    (hsrc : source.bytes = pre ++ (toc ++ bytes ++ post))
    (hword : pre.length + (toc ++ bytes).length < wordLimit) :
    ∃ d' regions, (∀ depth ≥ steps + 1, ∀ rest, DirectoryOf.deserialize blake3 source depth
        (Bytes.ofNatBe 8 pre.length ++ (Bytes.ofNatBe 8 d.tocSize ++ rest)) h = .ok (d', rest)) ∧
      (directory d).Copied blake3 (.directory d') ∧
      (directory d').Occupies blake3 source regions ∧
      regions.Pairwise Region.Disjoint ∧
      d'.sourceEnd = pre.length + (toc ++ bytes).length := by
  -- The root is an entry of its own, alone in the queue.
  let root : Entry S := ⟨some h, .directory d⟩
  have hrun : serialize blake3 verify (steps + 1) ⟨pre.length + d.tocSize, [root]⟩ =
      .ok (toc ++ bytes) :=
    bind_ok htoc (bind_ok hq rfl)
  have hroot : Storable blake3 root :=
    ⟨⟨h, rfl, hsize, sound_directory.mpr hd⟩, eachFile_directory.mpr hwhole⟩
  obtain ⟨placed, hplaced, tiling, hperm, htiles⟩ := WriteQueue.serialize_laid hrun
    (by simpa using hroot) rfl hsrc hword
  obtain ⟨x, _, ⟨hreads, hstored⟩, hnil, rfl⟩ := List.forall₂_cons_left_iff.mp hplaced
  obtain rfl := List.forall₂_nil_left_iff.mp hnil
  rw [List.flatMap_cons, List.flatMap_nil, List.append_nil] at hperm
  obtain ⟨⟨hash, hhash, hhash'⟩, hcopied⟩ := hstored.copied
  obtain ⟨⟨known, contents⟩, regions⟩ := x
  obtain ⟨d', rfl, -⟩ := hcopied.exists_directory
  refine ⟨d', regions, fun depth hdepth rest => ?_, hcopied, hstored.occupies, ?_, ?_⟩
  · have hread := hreads h rfl depth hdepth rest
    rw [show root.contents.header _ = Header.directory pre.length d.tocSize from rfl,
      EntryOf.deserialize_directory hsize] at hread
    obtain ⟨⟨d'', r⟩, hd'', hread⟩ := bind_eq_ok.mp hread
    cases hread
    exact hd''
  · exact (hperm.pairwise_iff fun h => h.symm).mp htiles.pairwise
  · obtain ⟨table, rest, rfl, -, -⟩ := hstored.occupies
    rw [← htiles.maxStop_eq (fun hnil => by simp [hnil] at hperm), maxStop_perm hperm]
    exact hstored.stop

/-- A key and a signature that are accepted for a commitment. -/
structure SignatureScheme.Accepts (scheme : SignatureScheme SK) (context pubkey signature : Bytes)
    (c : Commitment) : Prop where
  key_length : pubkey.length = 32
  isVerifyingKey : scheme.isVerifyingKey pubkey = true
  signature_length : signature.length = 64
  verify : scheme.verify pubkey c.message context signature = true

theorem Commitment.length_message (c : Commitment) : c.message.length = 40 := by
  simp [Commitment.message, c.rootSighash.length_eq]

variable (blake3) in
/-- An archive that was read is a copy of one that was written: its parts do not overlap and
end where the written bytes do. -/
structure ReadBack (source : Source) (a : Archive SK S) (a' : Archive SK Section) (stop : Nat) :
    Prop where
  copied : (directory a.contents).Copied blake3 (.directory a'.contents)
  disjoint : ∃ regions, (directory a'.contents).Occupies blake3 source regions ∧
    regions.Pairwise Region.Disjoint
  sourceEnd : a'.contents.sourceEnd = stop

/-- What is written: a front part of fixed length, the root table and what is below it. -/
theorem Archive.serialize_eq_ok (hc : a.commitment blake3 = .ok c)
    (hsign : a.signer.sign scheme c = .ok (pubkey, signature)) {start : Nat} :
    a.serialize blake3 scheme start verify = .ok out ↔ ∃ toc q bytes, a.contents.serializeToc blake3
        ⟨start + prefixSize + (8 + 8) + a.contents.tocSize, []⟩ = .ok (toc, q) ∧
      q.serialize blake3 verify (countAll a.contents.contents) = .ok bytes ∧
      out = pubkey ++ (signature ++ (c.message ++ (Bytes.ofNatBe 8 (start + prefixSize + (8 + 8)) ++
          (Bytes.ofNatBe 8 a.contents.tocSize ++ (toc ++ bytes))))) := by
  rw [Archive.serialize, hc, ok_bind, hsign, ok_bind]
  constructor
  · intro hout
    obtain ⟨⟨toc, q⟩, htoc, h₁⟩ := bind_eq_ok.mp hout
    obtain ⟨bytes, hbytes, h₂⟩ := bind_eq_ok.mp h₁
    exact ⟨toc, q, bytes, htoc, hbytes, (Except.ok.inj h₂).symm⟩
  · rintro ⟨toc, q, bytes, htoc, hbytes, rfl⟩
    exact bind_ok htoc (bind_ok hbytes rfl)

/-- Reading the front part leads to the root directory. -/
theorem Archive.deserialize_front (hmax : c.rootMaxsize < wordLimit)
    (haccepts : scheme.Accepts context pubkey signature c)
    (hcheck : checkCommitment c.rootSighash c.rootMaxsize commitment = .ok ())
    {d : DirectoryContents Section}
    (hd : DirectoryOf.deserialize blake3 source depth r (c.rootSighash, c.rootMaxsize) =
      .ok (d, rest)) :
    Archive.deserialize blake3 scheme source depth context
      (pubkey ++ (signature ++ (c.message ++ r))) commitment =
        .ok (⟨.signed pubkey signature c.rootMaxsize context, d⟩, rest) := by
  rw [Commitment.message, List.append_assoc]
  refine bind_ok (readExact_append haccepts.key_length _) ?_
  refine ensure_bind haccepts.isVerifyingKey ?_
  refine bind_ok (readExact_append haccepts.signature_length _) ?_
  refine bind_ok (readHash_append _ _) ?_
  refine bind_ok (readU64_append hmax r) ?_
  refine ensure_bind haccepts.verify ?_
  exact bind_ok hcheck (bind_ok hd rfl)

/-- What an archive that is read is accepted for. -/
theorem Archive.deserialize_eq_ok {commitment : Option Commitment} {a : Archive SK Section} :
    Archive.deserialize blake3 scheme source depth context r commitment = .ok (a, rest) ↔
      ∃ pubkey signature c r', a.signer = .signed pubkey signature c.rootMaxsize context ∧
        scheme.Accepts context pubkey signature c ∧ c.rootMaxsize < wordLimit ∧
        checkCommitment c.rootSighash c.rootMaxsize commitment = .ok () ∧
        r = pubkey ++ (signature ++ (c.message ++ r')) ∧
        DirectoryOf.deserialize blake3 source depth r' (c.rootSighash, c.rootMaxsize) =
          .ok (a.contents, rest) := by
  constructor
  · intro h
    obtain ⟨⟨pubkey, r₁⟩, hpubkey, h₁⟩ := bind_eq_ok.mp h
    obtain ⟨_, hkey, h₂⟩ := bind_eq_ok.mp h₁
    obtain ⟨⟨signature, r₂⟩, hsig, h₃⟩ := bind_eq_ok.mp h₂
    obtain ⟨⟨sighash, r₃⟩, hsighash, h₄⟩ := bind_eq_ok.mp h₃
    obtain ⟨⟨maxSize, r₄⟩, hsize, h₅⟩ := bind_eq_ok.mp h₄
    obtain ⟨_, hverify, h₆⟩ := bind_eq_ok.mp h₅
    obtain ⟨_, hcheck, h₇⟩ := bind_eq_ok.mp h₆
    obtain ⟨⟨d, r₅⟩, hd, h₈⟩ := bind_eq_ok.mp h₇
    cases h₈
    obtain ⟨rfl, hkeylength⟩ := readExact_eq_ok hpubkey
    obtain ⟨rfl, hsignaturelength⟩ := readExact_eq_ok hsig
    obtain rfl := readHash_eq_ok hsighash
    obtain ⟨hlt, rfl⟩ := readU64_eq_ok hsize
    refine ⟨pubkey, signature, ⟨sighash, maxSize⟩, r₄, rfl, ⟨hkeylength, ensure_eq_ok.mp hkey,
      hsignaturelength, ensure_eq_ok.mp hverify⟩, hlt, hcheck, ?_, hd⟩
    rw [Commitment.message, List.append_assoc]
  · rintro ⟨pubkey, signature, c, r', hsigner, haccepts, hmax, hcheck, rfl, hd⟩
    obtain ⟨signer, contents⟩ := a
    cases hsigner
    exact Archive.deserialize_front hmax haccepts hcheck hd

theorem Archive.deserialize_mono {depth' : Nat} (hle : depth ≤ depth')
    {x : Archive SK Section × Bytes}
    (hx : Archive.deserialize blake3 scheme source depth context r commitment = .ok x) :
    Archive.deserialize blake3 scheme source depth' context r commitment = .ok x := by
  obtain ⟨pubkey, signature, c, r', hsigner, haccepts, hmax, hcheck, hr, hd⟩ :=
    Archive.deserialize_eq_ok.mp hx
  exact Archive.deserialize_eq_ok.mpr ⟨pubkey, signature, c, r', hsigner, haccepts, hmax, hcheck, hr,
    DirectoryOf.deserialize_mono hle hd⟩

/-- What was written for an archive, where everything that it holds can be read back. -/
structure Written (blake3 : Bytes → Hash) (scheme : SignatureScheme SK) (a : Archive SK S)
    (context : Bytes) (start : Nat) (c : Commitment) (out : Bytes) : Prop where
  commitment : a.commitment blake3 = .ok c
  maxsize : c.rootMaxsize < wordLimit
  sound : a.contents.Sound blake3 (c.rootSighash, c.rootMaxsize)
  whole : ∀ e ∈ a.contents.contents, e.2.contents.EachFile Whole e.2.hash
  signed : ∃ pubkey signature, a.signer.sign scheme c = .ok (pubkey, signature) ∧
    scheme.Accepts context pubkey signature c
  serialize : ∃ verify, a.serialize blake3 scheme start verify = .ok out

/-- What was written is read back. -/
theorem Written.read_back (h : Written blake3 scheme a context pre.length c out)
    (hsrc : source.bytes = pre ++ (out ++ post))
    (hword : pre.length + out.length < wordLimit)
    (hcheck : checkCommitment c.rootSighash c.rootMaxsize commitment = .ok ()) :
    ∃ a' rest minDepth, ReadBack blake3 source a a' (pre.length + out.length) ∧
      ∀ depth ≥ minDepth, Archive.deserialize blake3 scheme source depth context (out ++ post)
        commitment = .ok (a', rest) := by
  obtain ⟨verify, hout⟩ := h.serialize
  obtain ⟨pubkey, signature, hsign, haccepts⟩ := h.signed
  obtain ⟨toc, q, bytes, htoc, hbytes, rfl⟩ := (Archive.serialize_eq_ok h.commitment hsign).mp hout
  generalize hfront : pubkey ++ (signature ++ (c.message ++
    (Bytes.ofNatBe 8 (pre.length + prefixSize + (8 + 8)) ++
      Bytes.ofNatBe 8 a.contents.tocSize))) = front
  have hbody : pubkey ++ (signature ++ (c.message ++
      (Bytes.ofNatBe 8 (pre.length + prefixSize + (8 + 8)) ++
        (Bytes.ofNatBe 8 a.contents.tocSize ++ (toc ++ bytes))))) = front ++ (toc ++ bytes) := by
    simp [← hfront]
  have hlen : (pre ++ front).length = pre.length + prefixSize + (8 + 8) := by
    simp [← hfront, List.length_append, haccepts.key_length, haccepts.signature_length,
      c.length_message, Bytes.length_ofNatBe, prefixSize]
  rw [hbody] at hsrc hword
  rw [← hlen] at htoc
  obtain ⟨d', regions, hread, hcopied, hoccupies, hdisjoint, hend⟩ :=
    DirectoryOf.root_read_back h.sound h.maxsize h.whole htoc hbytes
      (show source.bytes = pre ++ front ++ (toc ++ bytes ++ post) by
        rw [hsrc]; simp only [List.append_assoc])
      (by simpa only [List.length_append, Nat.add_assoc] using hword)
  refine ⟨⟨.signed pubkey signature c.rootMaxsize context, d'⟩, toc ++ bytes ++ post,
    countAll a.contents.contents + 1, ⟨hcopied, ⟨regions, hoccupies, hdisjoint⟩, ?_⟩,
    fun depth hdepth => ?_⟩
  · rw [hbody]
    simpa only [List.length_append, Nat.add_assoc] using hend
  · have hroot := hread depth hdepth (toc ++ bytes ++ post)
    rw [hlen] at hroot
    simp only [List.append_assoc] at hroot ⊢
    exact Archive.deserialize_front h.maxsize haccepts hcheck hroot

variable (blake3) in
mutual

/-- A tree that can be archived: missing entries have hashes, files have as many bytes as
they say, names are not too long, and cached hashes are right. -/
def EntryContents.Valid : EntryContents S → Option (Hash × Nat) → Prop
  | .missing, hash => ∃ h, hash = some h ∧ h.2 < wordLimit
  | .file f, hash => (bytes f).length = size f ∧
      ∀ h ∈ hash, h = (blake3 (bytes f), (bytes f).length)
  | .directory ⟨contents, sourceEnd, sortBy⟩, hash =>
    OrderedMap.Sorted contents ∧ ValidAll contents ∧
      ∀ h ∈ hash, DirectoryOf.sighash blake3 ⟨contents, sourceEnd, sortBy⟩ = .ok h.1 ∧
        tocSizeOf contents ≤ h.2 ∧ h.2 < wordLimit
termination_by structural c => c

def ValidAll : List (Name × Entry S) → Prop
  | [] => True
  | (name, ⟨hash, contents⟩) :: rest =>
    (name.bytes.length ≤ maxStrLen ∧ contents.Valid hash) ∧ ValidAll rest
termination_by structural l => l

end

mutual

/-- The bytes that are written for an entry and for everything below it. -/
def EntryContents.writtenSize : EntryContents S → Nat
  | .missing => 0
  | .file f => size f
  | .directory ⟨contents, _, _⟩ => tocSizeOf contents + writtenSizeAll contents
termination_by structural c => c

def writtenSizeAll : List (Name × Entry S) → Nat
  | [] => 0
  | (_, ⟨_, contents⟩) :: rest => contents.writtenSize + writtenSizeAll rest
termination_by structural l => l

end

variable {l : List (Name × Entry S)} {e : Entry S} {f : S}

theorem validAll_iff : ValidAll blake3 l ↔
      ∀ e ∈ l, e.1.bytes.length ≤ maxStrLen ∧ e.2.contents.Valid blake3 e.2.hash := by
  induction l with
  | nil => simp [ValidAll]
  | cons e rest ih =>
    rw [ValidAll, ih, List.forall_mem_cons]

theorem writtenSizeAll_eq (l : List (Name × Entry S)) :
    writtenSizeAll l = total (fun e => e.2.contents.writtenSize) l := by
  induction l with
  | nil => rfl
  | cons e rest ih =>
    rw [writtenSizeAll, ih, total_cons]

omit [FileSource S] in
theorem length_le_tocSizeOf (l : List (Name × Entry S)) : l.length ≤ tocSizeOf l := by
  refine Nat.le_trans ?_ (Nat.le_add_left _ _)
  induction l with
  | nil => exact le_rfl
  | cons e rest ih =>
    rw [List.length_cons, total_cons, EntryOf.headerSize]
    omega

theorem sigContents_succeeds (h : ∀ e ∈ l, ∃ hash, e.2.toHash blake3 = .ok hash) :
    ∃ sig, sigContents blake3 l = .ok sig := by
  induction l with
  | nil => exact ⟨[], rfl⟩
  | cons e rest ih =>
    obtain ⟨hash, hhash⟩ := h e (by simp)
    obtain ⟨sig, hsig⟩ := ih fun e he => h e (List.mem_cons_of_mem _ he)
    rw [sigContents_cons]
    exact ⟨_, bind_ok hhash (bind_ok hsig rfl)⟩

theorem toHash_file (hf : e.contents = .file f) (he : e.contents.Valid blake3 e.hash) :
    e.toHash blake3 = .ok (blake3 (bytes f), (bytes f).length) := by
  obtain ⟨hash, contents⟩ := e
  cases hf
  cases hash with
  | none => rfl
  | some h =>
    obtain ⟨-, hh⟩ := he
    rw [hh h rfl]
    rfl

theorem verified_file (hf : e.contents = .file f) (he : e.contents.Valid blake3 e.hash)
    (verify : Bool) : Verified blake3 verify f e.hash := by
  obtain ⟨hash, contents⟩ := e
  cases hf
  obtain ⟨-, hh⟩ := he
  cases verify with
  | false => rfl
  | true =>
    cases hash with
    | none => rfl
    | some h =>
      cases hh h rfl
      exact ensure_bind le_rfl (bind_eq_ok.mpr
        ⟨(), ensure_eq_ok.mpr rfl, ensure_bind rfl rfl⟩)

/-- What is known of a valid entry. -/
structure Archivable (blake3 : Bytes → Hash) (verify : Bool) (e : Entry S) : Prop where
  storable : Storable blake3 e
  verified : e.contents.EachFile (Verified blake3 verify) e.hash

/-- A directory of entries that can be archived can be archived. -/
theorem Archivable.directory {d : DirectoryContents S} {hash : Option (Hash × Nat)}
    (hsorted : OrderedMap.Sorted d.contents) (hword : d.tocSize < wordLimit)
    (hnames : ∀ e ∈ d.contents, e.1.bytes.length ≤ maxStrLen)
    (hents : ∀ e ∈ d.contents, Archivable blake3 verify e.2)
    (hcached : ∀ h ∈ hash, d.sighash blake3 = .ok h.1 ∧ d.tocSize ≤ h.2 ∧ h.2 < wordLimit) :
    Archivable blake3 verify ⟨hash, .directory d⟩ := by
  have hhashes : ∀ e ∈ d.contents, ∃ hash, e.2.toHash blake3 = .ok hash := by
    intro e he
    obtain ⟨h, hh, -⟩ := (hents e he).storable.sound
    exact ⟨h, hh⟩
  obtain ⟨sig, hsig⟩ := sigContents_succeeds hhashes
  have hsighash : d.sighash blake3 = .ok (blake3 (sigToc sig)) :=
    bind_ok hsig rfl
  have hhash : ∃ h, EntryOf.toHash blake3 ⟨hash, .directory d⟩ = .ok h ∧
      blake3 (sigToc sig) = h.1 ∧ d.tocSize ≤ h.2 ∧ h.2 < wordLimit := by
    cases hash with
    | none => exact ⟨_, bind_ok hsig rfl, rfl, le_rfl, hword⟩
    | some h =>
      obtain ⟨hok, hle, hlt⟩ := hcached h rfl
      exact ⟨h, rfl, Except.ok.inj (hsighash.symm.trans hok), hle, hlt⟩
  obtain ⟨h, hhash, hroot, hle, hlt⟩ := hhash
  have hlen := (length_le_tocSizeOf d.contents).trans_lt hword
  have hsound : d.Sound blake3 h := ⟨⟨sig, hsig, hroot⟩, hle, hsorted, hlen,
    fun e he => ⟨hnames e he, (hents e he).storable.sound⟩⟩
  exact ⟨⟨⟨h, hhash, hlt, sound_directory.mpr hsound⟩,
    eachFile_directory.mpr fun e he => (hents e he).storable.whole⟩,
    eachFile_directory.mpr fun e he => (hents e he).verified⟩

theorem archivable_of_valid (verify : Bool) (contents : EntryContents S)
    (hash : Option (Hash × Nat)) (h : contents.Valid blake3 hash)
    (hword : contents.writtenSize < wordLimit) :
    Archivable blake3 verify ⟨hash, contents⟩ := by
  induction contents using induction generalizing hash with
  | missing =>
    obtain ⟨h, rfl, hlt⟩ := h
    exact ⟨⟨⟨h, rfl, hlt, trivial⟩, trivial⟩, trivial⟩
  | file f =>
    have hhash := toHash_file (e := ⟨hash, .file f⟩) rfl h
    have hverified := verified_file (e := ⟨hash, .file f⟩) rfl h verify
    obtain ⟨hlen, -⟩ := h
    rw [writtenSize, ← hlen] at hword
    exact ⟨⟨⟨_, hhash, hword, hlen.symm⟩, hlen⟩, hverified⟩
  | directory d ih =>
    obtain ⟨hsorted, hall, hcached⟩ := h
    rw [validAll_iff] at hall
    refine Archivable.directory hsorted ((Nat.le_add_right _ _).trans_lt hword)
      (fun e he => (hall e he).1) (fun e he => ?_) hcached
    refine ih e he e.2.hash (hall e he).2 (Nat.lt_of_le_of_lt ?_ hword)
    rw [writtenSize, writtenSizeAll_eq]
    exact Nat.le_add_left_of_le (le_total_of_mem (fun e => e.2.contents.writtenSize) he)

/-- As many bytes are written as the entries in the queue take with what is below them. -/
theorem WriteQueue.length_serialize {queue : List (Entry S)} {out : Bytes}
    (h : serialize blake3 verify steps ⟨next, queue⟩ = .ok out)
    (hqueue : ∀ e ∈ queue, Storable blake3 e) :
    out.length = total (fun e => e.contents.writtenSize) queue := by
  refine WriteQueue.serialize_induction
    (motive := fun _ _ queue out => out.length = total (fun e => e.contents.writtenSize) queue)
    ?_ ?_ ?_ ?_ h hqueue
  · intro steps next
    rfl
  · intro steps next e rest out he hc ih
    rw [total_cons, hc, writtenSize, Nat.zero_add, ih]
  · intro steps next e rest f bytes he hc ih
    have hwhole := he.whole
    rw [hc] at hwhole
    rw [total_cons, hc, writtenSize, List.length_append, hwhole, ih]
  · intro steps next e rest d toc next' bytes he hc htoc hnext hlen ih
    have hqueued : total (fun e => e.contents.writtenSize) (queued d.tocOrder) =
        writtenSizeAll d.contents := by
      rw [total_queued fun e he => by rw [missing_of_not_present he, writtenSize],
        total_perm _ d.tocOrder_perm, writtenSizeAll_eq]
    rw [total_cons, hc, writtenSize, ← DirectoryOf.tocSize, List.length_append, ih, total_append]
    omega

/-- As many bytes are written for a root directory as it takes with what is below it. -/
theorem DirectoryOf.length_root {k : Option (Hash × Nat)} (h : Storable blake3 ⟨k, .directory d⟩)
    {toc bytes : Bytes} {q : WriteQueue S}
    (htoc : d.serializeToc blake3 ⟨next, []⟩ = .ok (toc, q))
    (hbytes : q.serialize blake3 verify steps = .ok bytes) :
    (toc ++ bytes).length = (directory d).writtenSize := by
  have hrun : serialize blake3 verify (steps + 1) ⟨next, [⟨k, .directory d⟩]⟩ =
      .ok (toc ++ bytes) :=
    bind_ok htoc (bind_ok hbytes rfl)
  rw [WriteQueue.length_serialize hrun (by simpa using h), total_cons, total_nil, Nat.add_zero]

/-- As many bytes are written for an archive as its front part and its root directory take. -/
theorem Written.length (h : Written blake3 scheme a context start c out) :
    out.length = prefixSize + (8 + 8) + (directory a.contents).writtenSize := by
  obtain ⟨pubkey, signature, hsigned, haccepts⟩ := h.signed
  obtain ⟨verify, hout⟩ := h.serialize
  obtain ⟨toc, q, bytes, htoc, hbytes, rfl⟩ :=
    (Archive.serialize_eq_ok h.commitment hsigned).mp hout
  have hstorable : Storable blake3 ⟨some (c.rootSighash, c.rootMaxsize), .directory a.contents⟩ :=
    ⟨⟨_, rfl, h.maxsize, sound_directory.mpr h.sound⟩, eachFile_directory.mpr h.whole⟩
  rw [← DirectoryOf.length_root hstorable htoc hbytes]
  simp only [List.length_append, haccepts.key_length, haccepts.signature_length,
    Commitment.length_message, Bytes.length_ofNatBe, prefixSize]
  omega

/-- An archive is written with a signing key. -/
theorem Archive.written_of_archivable (hscheme : scheme.Lawful) {key : SK}
    (hsigner : a.signer = .signer key context)
    (hsign : ∀ message, ∃ signature, scheme.sign key message context = .ok signature)
    (harchivable : Archivable blake3 verify ⟨none, .directory a.contents⟩) (start : Nat) :
    ∃ c out, Written blake3 scheme a context start c out ∧
      a.serialize blake3 scheme start verify = .ok out ∧
      out.length = prefixSize + (8 + 8) + (directory a.contents).writtenSize := by
  obtain ⟨h, hhash, hmax, hsound⟩ := harchivable.storable.sound
  obtain ⟨sig, hsig, hsize⟩ := bind_eq_ok.mp hhash
  have hc : a.commitment blake3 = .ok ⟨h.1, h.2⟩ := by
    cases hsize
    rw [Archive.commitment, hsigner]
    exact bind_ok (bind_ok hsig rfl) rfl
  obtain ⟨signature, hsignature⟩ := hsign (Commitment.message ⟨h.1, h.2⟩)
  have hsigned : a.signer.sign scheme ⟨h.1, h.2⟩ = .ok (scheme.verifyingKey key, signature) := by
    rw [hsigner]
    exact bind_ok hsignature rfl
  have haccepts : scheme.Accepts context (scheme.verifyingKey key) signature ⟨h.1, h.2⟩ :=
    ⟨hscheme.key_length key, hscheme.isVerifyingKey key, hscheme.sign_length hsignature,
      hscheme.verify_sign hsignature⟩
  obtain ⟨toc, q, bytes, htoc, hbytes⟩ := (DirectoryOf.root_iff (sound_directory.mp hsound) hmax
    (start + prefixSize + (8 + 8) + a.contents.tocSize) verify).mpr
      (eachFile_directory.mp harchivable.verified)
  have hout := (Archive.serialize_eq_ok hc hsigned).mpr ⟨toc, q, bytes, htoc, hbytes, rfl⟩
  have hwritten : Written blake3 scheme a context start ⟨h.1, h.2⟩ _ :=
    ⟨hc, hmax, sound_directory.mp hsound, eachFile_directory.mp harchivable.storable.whole,
      ⟨_, _, hsigned, haccepts⟩, ⟨_, hout⟩⟩
  exact ⟨_, _, hwritten, hout, hwritten.length⟩

/-- A valid archive that is written with a signing key is read back, under its own commitment,
as a copy of it: every part is where its table says, none overlap, and the last one ends where
the written bytes end. -/
theorem written_archive_is_read_back (hscheme : scheme.Lawful) {a : Archive SK S} {key : SK}
    {context : Bytes} (hsigner : a.signer = .signer key context)
    (hsign : ∀ message, ∃ signature, scheme.sign key message context = .ok signature)
    (hvalid : (directory a.contents).Valid blake3 none) (pre : Bytes)
    (hword : pre.length + prefixSize + (8 + 8) +
      (directory a.contents).writtenSize < Text.wordLimit) (verify : Bool) :
    ∃ c out, a.commitment blake3 = .ok c ∧ a.serialize blake3 scheme pre.length verify = .ok out ∧
      out.length = prefixSize + (8 + 8) + (directory a.contents).writtenSize ∧
      ∀ source : Source, source.bytes = pre ++ out →
        ∃ a' rest minDepth, ReadBack blake3 source a a' (pre.length + out.length) ∧
          ∀ depth ≥ minDepth, Archive.deserialize blake3 scheme source depth context out (some c) =
            .ok (a', rest) := by
  have harchivable := archivable_of_valid verify _ none hvalid
    ((Nat.le_add_left _ _).trans_lt hword)
  obtain ⟨c, out, hwritten, hout, hlen⟩ :=
    Archive.written_of_archivable hscheme hsigner hsign harchivable pre.length
  refine ⟨c, out, hwritten.commitment, hout, hlen, fun source hsrc => ?_⟩
  have hself : checkCommitment c.rootSighash c.rootMaxsize (some c) = .ok () :=
    ensure_bind rfl (ensure_eq_ok.mpr le_rfl)
  obtain ⟨a', rest, minDepth, hread, hdeserialize⟩ := hwritten.read_back
    (show source.bytes = pre ++ (out ++ []) by rw [hsrc, List.append_nil]) (by omega) hself
  rw [List.append_nil] at hdeserialize
  exact ⟨a', rest, minDepth, hread, hdeserialize⟩

/-- A hash that tells apart byte strings of different small lengths. -/
def lengthHash (bytes : Bytes) : Hash :=
  ⟨UInt8.ofNat bytes.length :: List.replicate 31 0, by simp⟩

/-- A scheme with one key that accepts every signature. -/
def sampleScheme : SignatureScheme Unit where
  verifyingKey _ := List.replicate 32 0
  isVerifyingKey _ := true
  sign _ _ _ := .ok (List.replicate 64 0)
  verify _ _ _ _ := true

theorem sampleScheme_lawful : sampleScheme.Lawful where
  key_length _ := rfl
  isVerifyingKey _ := rfl
  sign_length h := by cases h; rfl
  verify_sign _ := rfl

/-- A directory, a file and a missing entry, to be written in the opposite order. -/
def sampleArchive : Archive Unit Bytes where
  signer := .signer () []
  contents :=
    { contents := [
        (⟨[97], by decide⟩, ⟨none, .directory ⟨[], 0, none⟩⟩),
        (⟨[98], by decide⟩, ⟨none, .file [1, 2, 3]⟩),
        (⟨[99], by decide⟩, ⟨some (lengthHash [1], 1), .missing⟩)]
      sourceEnd := 0
      sortBy := some fun a b => compare b a }

theorem sampleArchive_valid : (directory sampleArchive.contents).Valid lengthHash none := by
  refine ⟨by decide, ?_, nofun⟩
  refine ⟨⟨by decide, .nil, trivial, nofun⟩, ⟨by decide, rfl, nofun⟩,
    ⟨by decide, _, rfl, by decide⟩, trivial⟩

theorem written_archive_is_read_back_sample : ∃ c out, sampleArchive.commitment lengthHash = .ok c ∧
      sampleArchive.serialize lengthHash sampleScheme 3 true = .ok out ∧
      ∀ source : Source, source.bytes = [59, 59, 2] ++ out →
        ∃ a' rest minDepth, ReadBack lengthHash source sampleArchive a' (3 + out.length) ∧
          ∀ depth ≥ minDepth, Archive.deserialize lengthHash sampleScheme source depth [] out
            (some c) = .ok (a', rest) := by
  obtain ⟨c, out, hc, hout, -, hread⟩ := written_archive_is_read_back sampleScheme_lawful
    (show sampleArchive.signer = .signer () [] from rfl) (fun _ => ⟨_, rfl⟩) sampleArchive_valid
    [59, 59, 2] (by decide) true
  exact ⟨c, out, hc, hout, hread⟩

end StartTech.MerkleArchive

import StartTech.BackupFs.Superblock
import StartTech.Foundation.Fallible

/-!
# Changing the password

A crash can leave the backup under the new password and the primary under the old one.
Whichever loads follow, one of the two passwords opens the store. A load that may write
and is given the old password takes the primary for the only good copy, and writes the
backup anew under the old password.
-/

namespace StartTech.BackupFs

open Foundation Fallible

variable {P S K : Type} {v : Vault P S K} {old : Text} {r : Replicas S} {c : Controller K} {key : K}

/-- A superblock that is accepted again after it was written. -/
structure Superblock.Valid (sb : Superblock K) : Prop where
  version : sb.formatVersion = 1 ∨ sb.formatVersion = 2
  constants : sb.constants.validate = .ok ()

section Parsing

variable {raw : Replica S} {salt : Bytes} {sb : Superblock K} {sealed : S} {w : Write}
  {version : Nat}

theorem refuseIf_bind {c : Prop} [Decidable c] {message : String} {β : Type}
    {f : Unit → Except ErrorKind β} {r : β} (h : ¬ c) (hf : f () = .ok r) :
    (refuseIf c message >>= f) = .ok r := bind_eq_ok.mpr ⟨(), refuseIf_eq_ok.mpr h, hf⟩

theorem checkEnvelope_eq_ok (h : checkEnvelope raw = .ok (version, salt)) :
    version = 1 ∨ version = 2 := by
  obtain ⟨version', hformat, h⟩ := bind_eq_ok.mp h
  obtain ⟨_, -, h⟩ := bind_eq_ok.mp h
  obtain ⟨_, hver, h⟩ := bind_eq_ok.mp h
  obtain ⟨_, -, h⟩ := bind_eq_ok.mp h
  obtain ⟨_, -, h⟩ := bind_eq_ok.mp h
  obtain ⟨_, -, h⟩ := bind_eq_ok.mp h
  cases h
  rw [refuseIf_eq_ok, supportedFormatVersion, formatVersion] at hver
  omega

theorem parseOne_valid {password : Text} (h : parseOne v raw password = .ok sb) : sb.Valid := by
  obtain ⟨⟨version, salt⟩, henvelope, h⟩ := bind_eq_ok.mp h
  obtain ⟨key, -, h⟩ := bind_eq_ok.mp h
  obtain ⟨plain, -, h⟩ := bind_eq_ok.mp h
  obtain ⟨body, -, h⟩ := bind_eq_ok.mp h
  obtain ⟨_, -, h⟩ := bind_eq_ok.mp h
  obtain ⟨_, -, h⟩ := bind_eq_ok.mp h
  obtain ⟨_, hconstants, h⟩ := bind_eq_ok.mp h
  cases h
  exact ⟨checkEnvelope_eq_ok henvelope, hconstants⟩

/-- A replica does not open under both of two passwords that give different keys. -/
theorem parseOne_apart (hv : v.Lawful) {p q : Text} (hapart : v.TellsApart p q)
    {sb' : Superblock K} (hp : parseOne v raw p = .ok sb) : parseOne v raw q ≠ .ok sb' := by
  intro hq
  obtain ⟨⟨version, salt⟩, henvelope, hp⟩ := bind_eq_ok.mp hp
  obtain ⟨key, hkey, hp⟩ := bind_eq_ok.mp hp
  obtain ⟨plain, hplain, -⟩ := bind_eq_ok.mp hp
  obtain ⟨header, henvelope', hq⟩ := bind_eq_ok.mp hq
  obtain rfl : (version, salt) = header := Except.ok.inj (henvelope.symm.trans henvelope')
  obtain ⟨key', hkey', hq⟩ := bind_eq_ok.mp hq
  obtain ⟨plain', hplain', -⟩ := bind_eq_ok.mp hq
  have hsame : key = key' := by
    unfold openSealed at hplain hplain'
    split at hplain
    · rw [if_pos ‹_›] at hplain'
      exact hv.open_unique_legacy hplain hplain'
    · rw [if_neg ‹_›] at hplain'
      exact hv.open_unique hplain hplain'
  exact hapart salt key hkey (hsame ▸ hkey')

theorem envelopeFormat_envelopeOf (h : version = 1 ∨ version = 2) :
    envelopeFormat ⟨envelopeOf version w.salt, sealed⟩ = .ok version := by
  have hlen : envelopeLen ≤ w.salt.length + 14 := by
    rw [w.salt_length]
    decide
  have henvelope : envelopeOf version w.salt =
      [66, 75, 83, 66, 1, UInt8.ofNat version, 0, 0, 0, 1, 192, 39, 9, 0] ++ w.salt := by
    rcases h with rfl | rfl <;> rfl
  rw [henvelope]
  refine refuseIf_bind ?_ ?_
  · simpa [sbMagic] using hlen
  · rcases h with rfl | rfl
    · rfl
    · rfl

/-- The header of a written replica passes the checks. -/
theorem checkEnvelope_envelopeOf (h : version = 1 ∨ version = 2) :
    checkEnvelope ⟨envelopeOf version w.salt, sealed⟩ = .ok (version, w.salt) := by
  have htake : w.salt.take saltLen = w.salt := List.take_of_length_le (Nat.le_of_eq w.salt_length)
  refine bind_ok (envelopeFormat_envelopeOf h) ?_
  refine refuseIf_bind (fun h => h rfl) ?_
  refine refuseIf_bind ?_ ?_
  · rw [supportedFormatVersion, formatVersion]
    omega
  refine refuseIf_bind (fun h => h rfl) ?_
  refine refuseIf_bind ?_ ?_
  · change ¬ (Bytes.toNatLe [192, 39, 9, 0] < minKdfRounds ∨
      maxKdfRounds < Bytes.toNatLe [192, 39, 9, 0])
    decide
  change Except.ok (version, w.salt.take saltLen) = _
  rw [htake]

theorem validate_ecc {c : Constants} (h : c.validate = .ok ()) : c.ecc.validate = .ok () := by
  obtain ⟨_, -, h⟩ := bind_eq_ok.mp h
  obtain ⟨_, -, h⟩ := bind_eq_ok.mp h
  obtain ⟨_, -, h⟩ := bind_eq_ok.mp h
  obtain ⟨_, -, h⟩ := bind_eq_ok.mp h
  obtain ⟨_, hecc, -⟩ := bind_eq_ok.mp h
  exact hecc

/-- What is written opens under the password it was written with. -/
theorem parseOne_seal (hv : v.Lawful) (h : sb.Valid) (hpending : sb.migrationPending = false)
    (password : Text) (w : Write) :
    ∃ file, sb.seal v password w = .ok file ∧ parseOne v file password = .ok sb := by
  obtain ⟨key, hkey⟩ := hv.derives password w.salt
  obtain ⟨plain, hencode, hdecode⟩ := hv.encodes sb.body
  refine ⟨_, bind_ok hkey (bind_ok hencode rfl), ?_⟩
  refine bind_ok (checkEnvelope_envelopeOf h.version) ?_
  refine bind_ok hkey (bind_eq_ok.mpr ⟨plain, ?_, bind_ok hdecode ?_⟩)
  · have hecc := validate_ecc h.constants
    rcases h.version with hver | hver
    · simp only [hver, if_true]
      exact hv.open_seal_legacy plain key _ _ hecc
    · simp only [openSealed, hver]
      exact hv.open_seal plain key _ _ hecc
  · obtain ⟨_, constants, generation, createdUnix, version, pending⟩ := sb
    cases hpending
    refine refuseIf_bind (fun h => h rfl) ?_
    refine refuseIf_bind ?_ ?_
    · simp [Superblock.body]
    · exact bind_ok h.constants rfl

end Parsing

variable {q : Text} {readonly : Bool} {heal : Write} {l : List (Except ErrorKind (Superblock K))}
  {f : Found K} {sb : Superblock K}

theorem mem_of_best_foldl (h : (l.foldl Found.add f).best = some sb) :
    f.best = some sb ∨ .ok sb ∈ l := by
  induction l generalizing f with
  | nil => exact .inl h
  | cons parsed rest ih =>
    rcases ih h with hbest | hmem
    · cases parsed with
      | error e => exact .inl hbest
      | ok sb' =>
        rw [Found.add, Option.some.injEq] at hbest
        cases hf : f.best with
        | none =>
          rw [hf] at hbest
          exact .inr (by simp [hbest])
        | some prev =>
          rw [hf] at hbest
          change prev.better sb' = sb at hbest
          unfold Superblock.better at hbest
          split at hbest
          · exact .inl (congrArg some hbest)
          · exact .inr (by simp [hbest])
    · exact .inr (List.mem_cons_of_mem _ hmem)

theorem best_foldl_isSome (h : f.best.isSome = true ∨ ∃ sb, .ok sb ∈ l) :
    (l.foldl Found.add f).best.isSome = true := by
  induction l generalizing f with
  | nil => simpa using h
  | cons parsed rest ih =>
    apply ih
    cases parsed with
    | ok sb => exact .inl rfl
    | error e => simpa [Found.add] using h

theorem generations_foldl (l : List (Except ErrorKind (Superblock K))) (f : Found K) :
    (l.foldl Found.add f).generations.length =
      f.generations.length + l.countP fun parsed => parsed.isOk := by
  induction l generalizing f with
  | nil => rfl
  | cons parsed rest ih =>
    cases parsed with
    | ok sb => simp [ih, Found.add, Except.toBool, Nat.add_assoc, Nat.add_comm 1]
    | error e => simp [ih, Found.add, Except.toBool]

/-- Something is parsed as long as there is a replica. -/
theorem exists_considered (h : r.candidates ≠ []) : ∃ raw, raw ∈ r.considered v := by
  cases hany : r.candidates.any (isCurrent v) with
  | false =>
    obtain ⟨raw, hraw⟩ := List.exists_mem_of_ne_nil _ h
    exact ⟨raw, by simp [Replicas.considered, hany, passedOver, hraw]⟩
  | true =>
    obtain ⟨raw, hraw, hcurrent⟩ := List.any_eq_true.mp hany
    refine ⟨raw, List.mem_filter.mpr ⟨hraw, ?_⟩⟩
    unfold isCurrent at hcurrent
    unfold passedOver
    split at hcurrent
    · rw [Bool.and_eq_true, beq_iff_eq] at hcurrent
      simp [hcurrent.1, formatVersion]
    · simp at hcurrent

theorem find_best (h : (r.find v q).best = some sb) :
    ∃ raw ∈ r.considered v, parseOne v raw q = .ok sb := by
  rcases mem_of_best_foldl h with hnone | hmem
  · simp at hnone
  · simpa using hmem

/-- A load leaves the replicas alone or writes a superblock that it parsed. -/
theorem load_replicas : (load v r q readonly heal).2 = r ∨
    readonly = false ∧ ∃ raw ∈ r.considered v, ∃ sb, parseOne v raw q = .ok sb ∧
      sb.migrationPending = false ∧ (load v r q readonly heal).2 = sb.persist v r q heal := by
  cases hbest : (r.find v q).best with
  | none =>
    left
    simp only [load, hbest]
    split
    · rfl
    · rfl
  | some sb =>
    obtain ⟨raw, hraw, hparse⟩ := find_best hbest
    by_cases hcond : ((r.find v q).needsHeal sb && !readonly && !sb.migrationPending) = true
    · have hpending := (Bool.and_eq_true_iff.mp hcond).2
      have hreadonly := (Bool.and_eq_true_iff.mp (Bool.and_eq_true_iff.mp hcond).1).2
      refine .inr ⟨by simpa using hreadonly, raw, hraw, sb, hparse, by simpa using hpending, ?_⟩
      simp only [load, hbest, if_pos hcond]
    · left
      simp only [load, hbest, if_neg hcond]

theorem persist_eq_write (hv : v.Lawful) (h : sb.Valid) (hpending : sb.migrationPending = false) :
    ∃ file, parseOne v file q = .ok sb ∧ sb.persist v r q heal = r.write file heal.replicas := by
  obtain ⟨file, hfile, hparse⟩ := parseOne_seal hv h hpending q heal
  exact ⟨file, hparse, by rw [Superblock.persist, hfile]⟩

/-- A replica that opens under a password and holds the master key. -/
def Replica.Under (v : Vault P S K) (key : K) (password : Text) (raw : Replica S) : Prop :=
  ∃ sb, parseOne v raw password = .ok sb ∧ sb.key = key

/-- Each replica is under one of the two passwords, and the backup is not behind the primary. -/
def Guarded (v : Vault P S K) (key : K) (old new : Text) (r : Replicas S) : Prop :=
  ∃ p b : Replica S, r = ⟨.file p, .file b⟩ ∧
    (p.Under v key old ∧ b.Under v key old ∨ p.Under v key old ∧ b.Under v key new ∨
      p.Under v key new ∧ b.Under v key new)

/-- The backup is under the new password while the primary, which is parsed and marked
as complete, is still under the old one. -/
def Exposed (v : Vault P S K) (old new : Text) (r : Replicas S) : Prop :=
  ∃ (p b : Replica S) (sb sb' : Superblock K), r = ⟨.file p, .file b⟩ ∧
    parseOne v b new = .ok sb' ∧ parseOne v p old = .ok sb ∧ sb.migrationPending = false ∧
      p ∈ r.considered v

/-- Every file under a password is still what it was. -/
def Kept (v : Vault P S K) (password : Text) (before after : Replicas S) : Prop :=
  ∀ raw sb, parseOne v raw password = .ok sb →
    (before.primary = .file raw → after.primary = .file raw) ∧
      (before.backup = .file raw → after.backup = .file raw)

variable {new : Text} {raw p b : Replica S}

section Apart

variable (hv : v.Lawful) (hapart : v.TellsApart old new)
include hv hapart

theorem Replica.Under.eq_old (h : raw.Under v key old) (hq : q = old ∨ q = new)
    (hparse : parseOne v raw q = .ok sb) : q = old ∧ sb.key = key := by
  obtain ⟨sb', hold, hkey⟩ := h
  rcases hq with rfl | rfl
  · cases Except.ok.inj (hold.symm.trans hparse)
    exact ⟨rfl, hkey⟩
  · exact absurd hparse (parseOne_apart hv hapart hold)

theorem Replica.Under.eq_new (h : raw.Under v key new) (hq : q = old ∨ q = new)
    (hparse : parseOne v raw q = .ok sb) : q = new ∧ sb.key = key := by
  obtain ⟨sb', hnew, hkey⟩ := h
  rcases hq with rfl | rfl
  · exact absurd hnew (parseOne_apart hv hapart hparse)
  · cases Except.ok.inj (hnew.symm.trans hparse)
    exact ⟨rfl, hkey⟩

end Apart

theorem candidates_files (p b : Replica S) :
    (⟨.file p, .file b⟩ : Replicas S).candidates = [p, b] := rfl

theorem mem_of_mem_considered (h : raw ∈ (⟨.file p, .file b⟩ : Replicas S).considered v) :
    raw = p ∨ raw = b := by
  have hmem := (List.mem_filter.mp h).1
  simpa [candidates_files] using hmem

/-- A write under the old password, as long as the primary is under it, and any write
under the new password keep the replicas guarded. -/
theorem Guarded.write {file : Replica S} (hfile : file.Under v key q)
    (h : q = old ∧ p.Under v key old ∨ q = new ∧ (p.Under v key old ∨ p.Under v key new)) :
    ∀ n, n ≠ 0 → Guarded v key old new ((⟨.file p, .file b⟩ : Replicas S).write file n)
  | 0, hn => absurd rfl hn
  | 1, _ => by
    refine ⟨p, file, rfl, ?_⟩
    rcases h with ⟨rfl, hp⟩ | ⟨rfl, hp | hp⟩
    · exact .inl ⟨hp, hfile⟩
    · exact .inr (.inl ⟨hp, hfile⟩)
    · exact .inr (.inr ⟨hp, hfile⟩)
  | n + 2, _ => by
    refine ⟨file, file, rfl, ?_⟩
    rcases h with ⟨rfl, -⟩ | ⟨rfl, -⟩
    · exact .inl ⟨hfile, hfile⟩
    · exact .inr (.inr ⟨hfile, hfile⟩)

section Runs

variable (hv : v.Lawful) (hapart : v.TellsApart old new)
include hv hapart

/-- Whichever of the two passwords is loaded with, the replicas stay guarded. -/
theorem Guarded.load (hq : q = old ∨ q = new) (h : Guarded v key old new r) :
    Guarded v key old new (load v r q readonly heal).2 := by
  rcases @load_replicas _ _ _ v r q readonly heal with
    hsame | ⟨-, raw, hraw, sb, hparse, hpending, hwrite⟩
  · rwa [hsame]
  obtain ⟨file, hfile, hpersist⟩ := persist_eq_write hv (parseOne_valid hparse) hpending
  rw [hwrite, hpersist]
  rcases Nat.eq_zero_or_pos heal.replicas with hzero | hpos
  · rwa [hzero]
  obtain ⟨p, b, rfl, hcases⟩ := h
  have hraw := mem_of_mem_considered hraw
  -- the replica that was parsed decides which of the two passwords was given
  rcases hcases with ⟨hp, hb⟩ | ⟨hp, hb⟩ | ⟨hp, hb⟩
  · have hold : q = old ∧ sb.key = key := by
      rcases hraw with rfl | rfl
      · exact hp.eq_old hv hapart hq hparse
      · exact hb.eq_old hv hapart hq hparse
    exact .write ⟨sb, hfile, hold.2⟩ (.inl ⟨hold.1, hp⟩) _ (Nat.ne_of_gt hpos)
  · rcases hraw with rfl | rfl
    · obtain ⟨hold, hkey⟩ := hp.eq_old hv hapart hq hparse
      exact .write ⟨sb, hfile, hkey⟩ (.inl ⟨hold, hp⟩) _ (Nat.ne_of_gt hpos)
    · obtain ⟨hnew, hkey⟩ := hb.eq_new hv hapart hq hparse
      exact .write ⟨sb, hfile, hkey⟩ (.inr ⟨hnew, .inl hp⟩) _ (Nat.ne_of_gt hpos)
  · have hnew : q = new ∧ sb.key = key := by
      rcases hraw with rfl | rfl
      · exact hp.eq_new hv hapart hq hparse
      · exact hb.eq_new hv hapart hq hparse
    exact .write ⟨sb, hfile, hnew.2⟩ (.inr ⟨hnew.1, .inr hp⟩) _ (Nat.ne_of_gt hpos)

/-- One of the two passwords opens guarded replicas, and gives the master key. -/
theorem Guarded.opens (h : Guarded v key old new r) :
    ∃ q, (q = old ∨ q = new) ∧ ∀ readonly heal,
      ∃ sb, (BackupFs.load v r q readonly heal).1 = .ok sb ∧ sb.key = key := by
  obtain ⟨p, b, rfl, hcases⟩ := h
  have hunder : ∀ raw, raw = p ∨ raw = b → raw.Under v key old ∨ raw.Under v key new := by
    rintro raw (rfl | rfl)
    · exact hcases.elim (fun h => .inl h.1) fun h => h.elim (fun h => .inl h.1) fun h => .inr h.1
    · exact hcases.elim (fun h => .inl h.2) fun h => h.elim (fun h => .inr h.2) fun h => .inr h.2
  obtain ⟨raw, hraw⟩ := @exists_considered _ _ _ v ⟨.file p, .file b⟩ (by simp [candidates_files])
  have hopens {q : Text} (hq : q = old ∨ q = new) (h : raw.Under v key q) (readonly : Bool)
      (heal : Write) :
      ∃ sb, (BackupFs.load v ⟨.file p, .file b⟩ q readonly heal).1 = .ok sb ∧ sb.key = key := by
    obtain ⟨sb, hparse, -⟩ := h
    have hsome : (Replicas.find v ⟨.file p, .file b⟩ q).best.isSome = true :=
      best_foldl_isSome (.inr ⟨sb, List.mem_map.mpr ⟨raw, hraw, hparse⟩⟩)
    obtain ⟨sb', hbest⟩ := Option.isSome_iff_exists.mp hsome
    obtain ⟨raw', hraw', hparse'⟩ := find_best hbest
    refine ⟨sb', by simp [BackupFs.load, hbest], ?_⟩
    rcases hunder raw' (mem_of_mem_considered hraw') with h | h
    · exact (h.eq_old hv hapart hq hparse').2
    · exact (h.eq_new hv hapart hq hparse').2
  rcases hunder raw (mem_of_mem_considered hraw) with h | h
  · exact ⟨old, .inl rfl, hopens (.inl rfl) h⟩
  · exact ⟨new, .inr rfl, hopens (.inr rfl) h⟩

/-- A load of exposed replicas finds a single good copy and writes it back. -/
theorem load_of_exposed (h : Exposed v old new r) :
    ∃ (b file : Replica S) (sb sb' : Superblock K), r.backup = .file b ∧
      parseOne v b new = .ok sb' ∧ parseOne v file old = .ok sb ∧
      (load v r old false heal).2 = r.write file heal.replicas := by
  obtain ⟨p, b, sb, sb', rfl, hb, hp, hpending, hmem⟩ := h
  have hbad : (parseOne v b old).isOk = false := by
    cases hparse : parseOne v b old with
    | error e => rfl
    | ok sb'' => exact absurd hb (parseOne_apart hv hapart hparse)
  have hbest : ((⟨.file p, .file b⟩ : Replicas S).find v old).best = some sb := by
    have hsome : ((⟨.file p, .file b⟩ : Replicas S).find v old).best.isSome = true :=
      best_foldl_isSome (.inr ⟨sb, List.mem_map.mpr ⟨p, hmem, hp⟩⟩)
    obtain ⟨sb'', hbest⟩ := Option.isSome_iff_exists.mp hsome
    obtain ⟨raw, hraw, hparse⟩ := find_best hbest
    rcases mem_of_mem_considered hraw with rfl | rfl
    · rw [hbest, Except.ok.inj (hparse.symm.trans hp)]
    · simp [hparse, Except.toBool] at hbad
  have hlen : ((⟨.file p, .file b⟩ : Replicas S).find v old).generations.length ≤ 1 := by
    have hsub : List.Sublist ((⟨.file p, .file b⟩ : Replicas S).considered v) [p, b] :=
      List.filter_sublist
    have hcount := (hsub.map fun raw => parseOne v raw old).countP_le (p := Except.isOk)
    rw [Replicas.find, generations_foldl]
    refine Nat.le_trans (Nat.add_le_add_left hcount _) ?_
    simp only [List.map_cons, List.map_nil, List.countP_cons, List.countP_nil, hbad,
      List.length_nil, Bool.false_eq_true, if_false]
    split
    · decide
    · decide
  have hheal : ((⟨.file p, .file b⟩ : Replicas S).find v old).needsHeal sb = true := by
    rw [Found.needsHeal, Bool.or_eq_true, decide_eq_true_eq]
    exact .inl (by omega)
  obtain ⟨file, hfile, hpersist⟩ := @persist_eq_write _ _ _ v ⟨.file p, .file b⟩ old heal sb hv
    (parseOne_valid hp) hpending
  refine ⟨b, file, sb, sb', rfl, hb, hfile, ?_⟩
  simp [load, hbest, hheal, hpending, hpersist]

/-- A load with the old password leaves what is under the new one alone, unless it may
write and the replicas are exposed. -/
theorem kept_iff (h : Guarded v key old new r) :
    Kept v new r (load v r old readonly heal).2 ↔
      ¬ (readonly = false ∧ heal.replicas ≠ 0 ∧ Exposed v old new r) := by
  constructor
  · rintro hkept ⟨rfl, hpos, hexposed⟩
    obtain ⟨b, file, sb, sb', hbackup, hb, hfile, hwrite⟩ := load_of_exposed hv hapart hexposed
    have hafter := (hkept b sb' hb).2 hbackup
    have hfirst : ∀ n, n ≠ 0 → (r.write file n).backup = .file file
      | 0, hn => absurd rfl hn
      | 1, _ | n + 2, _ => rfl
    rw [hwrite, hfirst _ hpos] at hafter
    cases hafter
    exact parseOne_apart hv hapart hfile hb
  · intro hcond
    rcases @load_replicas _ _ _ v r old readonly heal with
      hsame | ⟨hreadonly, raw, hraw, sb, hparse, hpending, hwrite⟩
    · intro raw sb _
      rw [hsame]
      exact ⟨id, id⟩
    obtain ⟨p, b, rfl, hcases⟩ := h
    rcases hcases with ⟨hp, hb⟩ | ⟨hp, hb⟩ | ⟨hp, hb⟩
    · -- nothing is under the new password
      intro raw sb hraw
      obtain ⟨_, hp, -⟩ := hp
      obtain ⟨_, hb, -⟩ := hb
      constructor
      · rintro ⟨⟩
        exact absurd hraw (parseOne_apart hv hapart hp)
      · rintro ⟨⟩
        exact absurd hraw (parseOne_apart hv hapart hb)
    · rcases mem_of_mem_considered hraw with rfl | rfl
      · obtain ⟨sb', hb', -⟩ := hb
        have hzero : heal.replicas = 0 := by
          by_contra hpos
          exact hcond ⟨hreadonly, hpos, raw, b, sb, sb', rfl, hb', hparse, hpending, hraw⟩
        obtain ⟨file, -, hpersist⟩ := @persist_eq_write _ _ _ v ⟨.file raw, .file b⟩ old heal sb hv
          (parseOne_valid hparse) hpending
        rw [hwrite, hpersist, hzero]
        exact fun _ _ _ => ⟨id, id⟩
      · obtain ⟨_, hb, -⟩ := hb
        exact absurd hb (parseOne_apart hv hapart hparse)
    · obtain ⟨_, hp, -⟩ := hp
      obtain ⟨_, hb, -⟩ := hb
      rcases mem_of_mem_considered hraw with rfl | rfl
      · exact absurd hp (parseOne_apart hv hapart hparse)
      · exact absurd hb (parseOne_apart hv hapart hparse)

end Runs

/-- A load with what it is given: a password, whether it may write, and its write. -/
structure Load where
  password : Text
  readonly : Bool
  heal : Write

/-- The replicas after loads, one after another. -/
def afterLoads (v : Vault P S K) (r : Replicas S) (loads : List Load) : Replicas S :=
  loads.foldl (fun r l => (load v r l.password l.readonly l.heal).2) r

theorem afterLoads_concat (r : Replicas S) (loads : List Load) (l : Load) :
    afterLoads v r (loads ++ [l]) =
      (load v (afterLoads v r loads) l.password l.readonly l.heal).2 := by
  rw [afterLoads, List.foldl_append]
  rfl

theorem Guarded.afterLoads (hv : v.Lawful) (hapart : v.TellsApart old new)
    (h : Guarded v key old new r) {loads : List Load}
    (hloads : ∀ l ∈ loads, l.password = old ∨ l.password = new) :
    Guarded v key old new (afterLoads v r loads) := by
  induction loads generalizing r with
  | nil => exact h
  | cons l rest ih =>
    obtain ⟨hl, hrest⟩ := List.forall_mem_cons.mp hloads
    exact ih (h.load hv hapart hl) hrest

/-- A controller that was mounted with a superblock that opened and held the master key. -/
def Controller.Mounted (v : Vault P S K) (key : K) (c : Controller K) : Prop :=
  ∃ raw password sb, parseOne v raw password = .ok sb ∧ sb.key = key ∧ c.key = sb.key ∧
    c.constants = sb.constants ∧ c.formatVersion = sb.formatVersion

/-- Two replicas, both intact under a password, with one master key. -/
def Intact (v : Vault P S K) (key : K) (password : Text) (r : Replicas S) : Prop :=
  ∃ p b : Replica S, r = ⟨.file p, .file b⟩ ∧ p.Under v key password ∧ b.Under v key password

theorem guarded_changePassword (hv : v.Lawful) (new : Text) (h : Intact v key old r)
    (hc : c.Mounted v key) (w : Write) :
    Guarded v key old new (c.changePassword v r new w).2 := by
  obtain ⟨p, b, rfl, hp, hb⟩ := h
  have hstart : Guarded v key old new ⟨.file p, .file b⟩ := ⟨p, b, rfl, .inl ⟨hp, hb⟩⟩
  unfold Controller.changePassword
  split
  · exact hstart
  obtain ⟨raw, password, sb, hparse, rfl, hkey, hconstants, hver⟩ := hc
  have hvalid := parseOne_valid hparse
  have hnext : c.nextSuperblock.Valid :=
    ⟨by simpa [Controller.nextSuperblock, hver] using hvalid.version,
      by simpa [Controller.nextSuperblock, hconstants] using hvalid.constants⟩
  obtain ⟨file, hfile, hpersist⟩ := @persist_eq_write _ _ _ v ⟨.file p, .file b⟩ new w _ hv
    hnext rfl
  rw [hpersist]
  rcases Nat.eq_zero_or_pos w.replicas with hzero | hpos
  · rwa [hzero]
  · exact .write ⟨_, hfile, hkey⟩ (.inr ⟨rfl, .inl hp⟩) _ (Nat.ne_of_gt hpos)

/-- After a crash at any write of a password change and any loads with the two passwords, one of
them opens the store with its master key. A load with the old password leaves what is under
the new one alone exactly when it writes nothing or the replicas are not exposed. -/
theorem password_change_kept (hv : v.Lawful) {key : K} {old new : Text}
    (hapart : v.TellsApart old new) {r : Replicas S} (h : Intact v key old r) {c : Controller K}
    (hc : c.Mounted v key) (w : Write) (loads : List Load)
    (hloads : ∀ l ∈ loads, l.password = old ∨ l.password = new) :
    (∃ q, (q = old ∨ q = new) ∧ ∀ readonly heal, ∃ sb,
      (load v (afterLoads v (c.changePassword v r new w).2 loads) q readonly heal).1 = .ok sb ∧
        sb.key = key) ∧
    ∀ l : Load, l.password = old → (Kept v new (afterLoads v (c.changePassword v r new w).2 loads)
          (afterLoads v (c.changePassword v r new w).2 (loads ++ [l])) ↔
        ¬ (l.readonly = false ∧ l.heal.replicas ≠ 0 ∧
          Exposed v old new (afterLoads v (c.changePassword v r new w).2 loads))) := by
  have hguard := (guarded_changePassword hv new h hc w).afterLoads hv hapart hloads
  refine ⟨hguard.opens hv hapart, ?_⟩
  intro l hl
  rw [afterLoads_concat, hl]
  exact kept_iff hv hapart hguard

/-- A vault that seals by naming the key. -/
def plainVault : Vault (Body Text) (Text × Binding × Body Text) Text where
  deriveKey := fun password _ _ => .ok password
  encode := .ok
  decode := .ok
  sealBound := fun body key _ binding _ => (key, binding, body)
  openLegacy := fun s key => if s.1 = key then .ok s.2.2 else .error .badChecksum
  openBound := fun s key _ => if s.1 = key then .ok s.2.2 else .error .badChecksum
  isLegacy := fun s => s.2.1 == .legacy

theorem plainVault_lawful : plainVault.Lawful where
  derives := fun password _ => ⟨password, rfl⟩
  encodes := fun body => ⟨body, rfl, rfl⟩
  open_seal := fun plain key ecc nonce _ => by simp [plainVault]
  open_seal_legacy := fun plain key ecc nonce _ => by simp [plainVault]
  open_unique := fun h h' => by
    simp only [plainVault] at h h'
    grind
  open_unique_legacy := fun h h' => by
    simp only [plainVault] at h h'
    grind

theorem plainVault_tellsApart {p q : Text} (h : p ≠ q) : plainVault.TellsApart p q :=
  fun _ _ hp hq => h ((Except.ok.inj hp).trans (Except.ok.inj hq).symm)

def defaultConstants : Constants where
  chunkSize := 1048576
  bincodeEncoding := 1
  pathHashScheme := 1
  direntHashScheme := 1
  eccData := 10
  eccParity := 2
  inlineThreshold := 4096
  packMax := 1048576
  segmentSize := 67108864
  dirSpill := 1024
  dirMaxBucket := 4096

/-- The first superblock of a store with the default constants. -/
def firstSuperblock : Superblock Text where
  key := ['k']
  constants := defaultConstants
  generation := 2
  createdUnix := 0
  formatVersion := 2
  migrationPending := false

def firstController : Controller Text where
  key := ['k']
  constants := defaultConstants
  sbGeneration := 2
  createdUnix := 0
  formatVersion := 2
  readonly := false

def zeroSalt (replicas : Nat) : Write where
  salt := List.replicate 16 0
  salt_length := rfl
  nonce := 0
  replicas := replicas

/-- The file of the first superblock under a password. -/
def firstFile (password : Text) : Replica (Text × Binding × Body Text) :=
  ⟨envelopeOf 2 (zeroSalt 0).salt, (password, .superblock, firstSuperblock.body)⟩

theorem parseOne_firstFile (password : Text) :
    parseOne plainVault (firstFile password) password = .ok firstSuperblock := by
  have hvalid : firstSuperblock.Valid := ⟨.inr rfl, rfl⟩
  obtain ⟨file, hseal, hparse⟩ :=
    parseOne_seal plainVault_lawful hvalid rfl password (zeroSalt 0)
  cases Except.ok.inj hseal
  exact hparse

theorem intact_first (password : Text) : Intact plainVault ['k'] password
    ⟨.file (firstFile password), .file (firstFile password)⟩ :=
  ⟨_, _, rfl, ⟨_, parseOne_firstFile password, rfl⟩, ⟨_, parseOne_firstFile password, rfl⟩⟩

theorem mounted_first : firstController.Mounted plainVault ['k'] :=
  ⟨_, ['a'], _, parseOne_firstFile ['a'], rfl, rfl, rfl, rfl⟩

/-- The change is cut off behind its first write; a load with the old password then
writes the backup anew. -/
theorem password_change_rolled_back : ¬ Kept plainVault ['b']
      (firstController.changePassword plainVault
        ⟨.file (firstFile ['a']), .file (firstFile ['a'])⟩ ['b'] (zeroSalt 1)).2
      (afterLoads plainVault (firstController.changePassword plainVault
        ⟨.file (firstFile ['a']), .file (firstFile ['a'])⟩ ['b'] (zeroSalt 1)).2
        [⟨['a'], false, zeroSalt 2⟩]) := by
  intro hkept
  have hguard := guarded_changePassword plainVault_lawful ['b'] (intact_first ['a']) mounted_first
    (zeroSalt 1)
  refine (kept_iff plainVault_lawful (plainVault_tellsApart (by decide)) hguard).mp hkept
    ⟨rfl, by decide, ?_⟩
  have hnext : firstController.nextSuperblock.Valid := ⟨.inr rfl, rfl⟩
  obtain ⟨file, hfile, hpersist⟩ := @persist_eq_write _ _ _ plainVault
    ⟨.file (firstFile ['a']), .file (firstFile ['a'])⟩ ['b'] (zeroSalt 1) _ plainVault_lawful hnext rfl
  refine ⟨firstFile ['a'], file, firstSuperblock, _, hpersist, hfile, parseOne_firstFile _, rfl, ?_⟩
  have hformat : envelopeFormat (firstFile ['a']) = .ok 2 := envelopeFormat_envelopeOf (.inr rfl)
  exact List.mem_filter.mpr ⟨List.mem_cons_self, by simp [passedOver, hformat]⟩

/-- The change is cut off behind its first write, and a read-only load comes after it. One of the
passwords opens the store, and another read-only load with the old one leaves the backup alone. -/
theorem password_change_kept_readonly :
    let r := afterLoads plainVault (firstController.changePassword plainVault
      ⟨.file (firstFile ['a']), .file (firstFile ['a'])⟩ ['b'] (zeroSalt 1)).2
    (∃ q, (q = ['a'] ∨ q = ['b']) ∧ ∀ readonly heal, ∃ sb,
      (load plainVault (r [⟨['b'], true, zeroSalt 2⟩]) q readonly heal).1 = .ok sb ∧
        sb.key = ['k']) ∧
    Kept plainVault ['b'] (r [⟨['b'], true, zeroSalt 2⟩])
      (r [⟨['b'], true, zeroSalt 2⟩, ⟨['a'], true, zeroSalt 2⟩]) := by
  intro r
  obtain ⟨hopens, hkept⟩ := password_change_kept plainVault_lawful
    (plainVault_tellsApart (q := ['b']) (by decide)) (intact_first ['a']) mounted_first (zeroSalt 1)
    [⟨['b'], true, zeroSalt 2⟩] (by decide)
  refine ⟨hopens, (hkept ⟨['a'], true, zeroSalt 2⟩ rfl).mpr ?_⟩
  rintro ⟨hreadonly, -⟩
  cases hreadonly

end StartTech.BackupFs

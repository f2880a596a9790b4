import StartTech.Foundation.OrderedMap
import StartTech.Net.Ip

/-!
# Port forwards of the tunnel

The forwards that the tunnel persists, by their external address: a run of ports that is
forwarded to one device, or a port that is shared by host names. A test for overlap looks at
one entry only, the nearest that starts no later than the new run ends. That is enough because
entries on one address lie apart.
-/

namespace StartTech.Tunnel

open Net Foundation

/-- One host name's route on a shared port, or the route of what no name matches. -/
structure SniRoute where
  target : SocketAddrV4
  label : Option Text
  enabled : Bool
  auto : Bool
  deriving DecidableEq

inductive PortForward
  | dnat (target : SocketAddrV4) (label : Option Text) (enabled : Bool) (count : UInt16)
      (auto : Bool)
  | sni (routes : List (Text × SniRoute)) (fallback : Option SniRoute)
  deriving DecidableEq

def PortForward.portSpan : PortForward → UInt16
  | .dnat _ _ _ count _ => max count 1
  | .sni _ _ => 1

abbrev PortForwards := List (SocketAddrV4 × PortForward)

/-- One entry of the firewall for addresses of the sixth version. -/
structure Pinhole where
  label : Option Text
  enabled : Bool
  count : UInt16
  internalPort : Option UInt16
  auto : Bool
  deriving DecidableEq

/-- The port that is reached, given the one that is opened. -/
def Pinhole.internal (p : Pinhole) (external : UInt16) : UInt16 := p.internalPort.getD external

abbrev Pinholes6 := List (SocketAddrV6 × Pinhole)

/-- The last of `count` ports that count up from a port; there is none beyond 65535. -/
def spanEnd (port count : UInt16) : UInt16 :=
  UInt16.ofNat (min (port.toNat + (count.toNat - 1)) 65535)

/-- The nearest entry of the same address that starts no later than the run ends, if it
reaches into the run. -/
def overlappingIn {κ ι ε : Type} [Ord κ] [DecidableEq κ] [DecidableEq ι] (ip : κ → ι)
    (port : κ → UInt16) (addr : ι → UInt16 → κ) (span : ε → UInt16) (m : List (κ × ε)) (key : κ)
    (count : UInt16) : Option κ :=
  let newHi := spanEnd (port key) count
  let near := (m.filter fun e => (compare e.1 (addr (ip key) newHi)).isLE).reverse.takeWhile
    fun e => ip e.1 == ip key
  (near.find? fun e => e.1 != key).bind fun e =>
    if port key ≤ spanEnd (port e.1) (span e.2) then some e.1 else none

def PortForwards.overlapping (m : PortForwards) (source : SocketAddrV4) (count : UInt16) :
    Option SocketAddrV4 :=
  overlappingIn SocketAddrV4.ip SocketAddrV4.port SocketAddrV4.mk PortForward.portSpan m source count

def Pinholes6.overlapping (m : Pinholes6) (gua : SocketAddrV6) (count : UInt16) :
    Option SocketAddrV6 :=
  overlappingIn SocketAddrV6.ip SocketAddrV6.port SocketAddrV6.mk (fun p => max p.count 1) m gua
    count

theorem spanEnd_toNat (port count : UInt16) :
    (spanEnd port count).toNat = min (port.toNat + (count.toNat - 1)) 65535 := by
  have hlt : min (port.toNat + (count.toNat - 1)) 65535 < 65536 := by omega
  rw [spanEnd, UInt16.toNat_ofNat', Nat.mod_eq_of_lt hlt]

theorem toNat_max_one (count : UInt16) : (max count 1).toNat = max count.toNat 1 := by
  change (if count ≤ 1 then (1 : UInt16) else count).toNat = _
  split
  · rename_i h
    exact (max_eq_right (UInt16.le_iff_toNat_le.mp h)).symm
  · rename_i h
    exact (max_eq_left (Nat.le_of_not_le h)).symm

theorem PortForward.portSpan_pos (e : PortForward) : 0 < e.portSpan.toNat := by
  cases e with
  | dnat _ _ _ count _ =>
    rw [portSpan, toNat_max_one]
    omega
  | sni _ _ => exact Nat.one_pos

/-- A run of no ports is treated as one of a single port. -/
theorem spanEnd_max_one (port count : UInt16) : spanEnd port (max count 1) = spanEnd port count := by
  have h : max count.toNat 1 - 1 = count.toNat - 1 := by omega
  rw [spanEnd, spanEnd, toNat_max_one, h]

section Apart

/-- The entry takes the port. -/
def CoversIn {κ ε : Type} (port : κ → UInt16) (span : ε → UInt16) (e : κ × ε) (p : UInt16) : Prop :=
  (port e.1).toNat ≤ p.toNat ∧ p.toNat < (port e.1).toNat + (span e.2).toNat

instance {κ ε : Type} (port : κ → UInt16) (span : ε → UInt16) (e : κ × ε) (p : UInt16) :
    Decidable (CoversIn port span e p) :=
  inferInstanceAs (Decidable (_ ∧ _))

/-- No two entries on one address take a common port. -/
def ApartIn {κ ι ε : Type} (ip : κ → ι) (port : κ → UInt16) (span : ε → UInt16)
    (m : List (κ × ε)) : Prop :=
  ∀ a ∈ m, ∀ b ∈ m, a.1 ≠ b.1 → ip a.1 = ip b.1 → ∀ p,
    ¬ (CoversIn port span a p ∧ CoversIn port span b p)

/-- The forward takes the port. -/
def Covers (e : SocketAddrV4 × PortForward) (port : UInt16) : Prop :=
  CoversIn SocketAddrV4.port PortForward.portSpan e port

instance (e : SocketAddrV4 × PortForward) (port : UInt16) : Decidable (Covers e port) :=
  inferInstanceAs (Decidable (CoversIn _ _ _ _))

/-- No two forwards on one address take a common port. -/
def Apart (m : PortForwards) : Prop :=
  ApartIn SocketAddrV4.ip SocketAddrV4.port PortForward.portSpan m

variable {m m' : PortForwards} {source : SocketAddrV4} {e : PortForward}

variable (h : Apart m)
include h

/-- A map whose entries take no more than those of another, each under the same address. -/
theorem Apart.of_spans
    (hspan : ∀ e' ∈ m', ∃ e ∈ m, e.1 = e'.1 ∧ e'.2.portSpan.toNat ≤ e.2.portSpan.toNat) :
    Apart m' := by
  intro a ha b hb hne hip port hcover
  obtain ⟨a₀, ha₀, hakey, haspan⟩ := hspan a ha
  obtain ⟨b₀, hb₀, hbkey, hbspan⟩ := hspan b hb
  rw [← hakey, ← hbkey] at hne hip
  refine h a₀ ha₀ b₀ hb₀ hne hip port ⟨⟨?_, ?_⟩, ⟨?_, ?_⟩⟩
  all_goals
    have hca := hcover.1
    have hcb := hcover.2
    rw [CoversIn, ← hakey] at hca
    rw [CoversIn, ← hbkey] at hcb
    omega

theorem Apart.subset (hsub : ∀ e ∈ m', e ∈ m) : Apart m' :=
  fun a ha b hb => h a (hsub a ha) b (hsub b hb)

theorem Apart.erase (source : SocketAddrV4) : Apart (OrderedMap.erase m source) :=
  h.subset fun _ he => List.mem_of_mem_filter he

/-- An entry in place of another that takes as many ports. -/
theorem Apart.replace {old : PortForward} (hold : OrderedMap.get m source = some old)
    (hspan : e.portSpan.toNat ≤ old.portSpan.toNat) : Apart (OrderedMap.insert source e m) := by
  refine h.of_spans fun e' he' => ?_
  rcases OrderedMap.mem_insert he' with rfl | he'
  · exact ⟨(source, old), OrderedMap.mem_of_get hold, rfl, hspan⟩
  · exact ⟨e', he', rfl, le_rfl⟩

end Apart

section Nearest

/-- In a list that goes down, the search stops at a match that it reaches or at a higher one. -/
theorem find_takeWhile_ge {α : Type} (rank : α → Nat) {p q : α → Bool} {l : List α} {e : α}
    (hl : l.Pairwise fun a b => rank b < rank a) (he : e ∈ l)
    (hp : ∀ x ∈ l, rank e ≤ rank x → p x = true) (hq : q e = true) :
    ∃ n, (l.takeWhile p).find? q = some n ∧ (n = e ∨ rank e < rank n) := by
  induction l with
  | nil => exact absurd he List.not_mem_nil
  | cons a rest ih =>
    obtain ⟨hhead, htail⟩ := List.pairwise_cons.mp hl
    obtain rfl | he := List.mem_cons.mp he
    · rw [List.takeWhile_cons_of_pos (hp e List.mem_cons_self le_rfl)]
      exact ⟨e, List.find?_cons_of_pos hq, .inl rfl⟩
    · rw [List.takeWhile_cons_of_pos (hp a List.mem_cons_self (hhead e he).le)]
      by_cases hqa : q a = true
      · exact ⟨a, List.find?_cons_of_pos hqa, .inr (hhead e he)⟩
      · rw [List.find?_cons_of_neg hqa]
        exact ih htail he fun x hx => hp x (List.mem_cons_of_mem a hx)

variable {κ ι ε : Type} [Ord κ] (ip : κ → ι) (port : κ → UInt16) (span : ε → UInt16)
  (m : List (κ × ε)) (key : κ) (count : UInt16)

/-- The entry is another one on the same address and takes a port of the run. -/
def TakesFrom (e : κ × ε) : Prop :=
  e.1 ≠ key ∧ ip e.1 = ip key ∧
    ∃ p, port key ≤ p ∧ p ≤ spanEnd (port key) count ∧ CoversIn port span e p

/-- A test for overlap answers if an entry takes a port of the run, and with such an entry. -/
structure ExactOverlap (test : Option κ) : Prop where
  isSome_iff : test.isSome = true ↔ ∃ e ∈ m, TakesFrom ip port span key count e
  returned : ∀ k, test = some k → ∃ e ∈ m, e.1 = k ∧ TakesFrom ip port span key count e

/-- Keys are ordered by the address, then by the port, and every entry takes a port. -/
structure ByPort (code : κ → Nat) (host : ι → Nat) : Prop where
  injective : Function.Injective host
  compare_eq : ∀ a b, compare a b = compare (code a) (code b)
  code_eq : ∀ a, code a = host (ip a) * 65536 + (port a).toNat
  span_pos : ∀ v, 0 < (span v).toNat

/-- What a search goes through, from a bound down. -/
def below [DecidableEq ι] (i : ι) (bound : κ) : List (κ × ε) :=
  (m.filter fun e => (compare e.1 bound).isLE).reverse.takeWhile fun e => ip e.1 == i

variable {ip port span m} {code : κ → Nat} {host : ι → Nat} (h : ByPort ip port span code host)
  {bound : κ} {i : ι} (hb : ip bound = i)
include h

theorem ByPort.isLE_iff (a b : κ) : (compare a b).isLE = true ↔ code a ≤ code b := by
  rw [h.compare_eq]
  exact Nat.isLE_compare

variable [DecidableEq ι]
include hb

theorem ByPort.mem_below {n : κ × ε} (hn : n ∈ below ip m i bound) :
    n ∈ m ∧ ip n.1 = i ∧ (port n.1).toNat ≤ (port bound).toNat := by
  have hip : ip n.1 = i := by simpa using List.all_eq_true.mp List.all_takeWhile n hn
  obtain ⟨hmem, hle⟩ :=
    List.mem_filter.mp (List.mem_reverse.mp ((List.takeWhile_sublist _).mem hn))
  rw [h.isLE_iff, h.code_eq, h.code_eq, hip, hb] at hle
  exact ⟨hmem, hip, Nat.le_of_add_le_add_left hle⟩

/-- An entry that reaches a port is found, or one behind it, which reaches further. -/
theorem ByPort.find_below (hsorted : OrderedMap.Sorted m) (hapart : ApartIn ip port span m)
    {q : κ × ε → Bool} {e : κ × ε} (he : e ∈ m) (hq : q e = true) (hip : ip e.1 = i)
    (hle : (port e.1).toNat ≤ (port bound).toNat) {lo : UInt16}
    (hreach : lo.toNat < (port e.1).toNat + (span e.2).toNat) :
    ∃ n, (below ip m i bound).find? q = some n ∧ lo ≤ spanEnd (port n.1) (span n.2) := by
  have hmem : e ∈ (m.filter fun e => (compare e.1 bound).isLE).reverse := by
    refine List.mem_reverse.mpr (List.mem_filter.mpr ⟨he, (h.isLE_iff _ _).mpr ?_⟩)
    rw [h.code_eq, h.code_eq, hip, hb]
    exact Nat.add_le_add_left hle _
  have hdown : (m.filter fun e => (compare e.1 bound).isLE).reverse.Pairwise
      fun a b => code b.1 < code a.1 := by
    rw [List.pairwise_reverse]
    refine (hsorted.sublist List.filter_sublist).imp fun hlt => ?_
    rw [h.compare_eq] at hlt
    exact Nat.compare_eq_lt.mp hlt
  -- Keys between two of one address are of that address.
  obtain ⟨n, hfind, hrank⟩ := find_takeWhile_ge (p := fun e => ip e.1 == i) _ hdown hmem
    (fun x hx hex => by
      have hxle := (h.isLE_iff _ _).mp (List.mem_filter.mp (List.mem_reverse.mp hx)).2
      have := (port x.1).toNat_lt
      have := (port bound).toNat_lt
      rw [h.code_eq, h.code_eq] at hex hxle
      rw [hip] at hex
      rw [hb] at hxle
      exact beq_iff_eq.mpr (h.injective (by omega))) hq
  suffices hn : lo.toNat < (port n.1).toNat + (span n.2).toNat by
    refine ⟨n, hfind, ?_⟩
    have := lo.toNat_lt
    rw [UInt16.le_iff_toNat_le, spanEnd_toNat]
    omega
  obtain rfl | hlt := hrank
  · exact hreach
  · obtain ⟨hnm, hnip, -⟩ := h.mem_below hb (List.mem_of_find?_eq_some hfind)
    rw [h.code_eq, h.code_eq, hip, hnip] at hlt
    have hlt := Nat.lt_of_add_lt_add_left hlt
    have hne : e.1 ≠ n.1 := fun heq => by simp [heq] at hlt
    by_contra hshort
    have hpos := h.span_pos n.2
    exact hapart e he n hnm hne (hip.trans hnip.symm) (port n.1)
      ⟨⟨hlt.le, by omega⟩, le_rfl, by omega⟩

omit hb in
theorem ByPort.exactOverlap [DecidableEq κ] {addr : ι → UInt16 → κ} (hip : ∀ i p, ip (addr i p) = i)
    (hport : ∀ i p, port (addr i p) = p) (hsorted : OrderedMap.Sorted m)
    (hapart : ApartIn ip port span m) :
    ExactOverlap ip port span m key count (overlappingIn ip port addr span m key count) := by
  have hlow := (port key).toNat_lt
  have hend := spanEnd_toNat (port key) count
  have hreturned : ∀ k, overlappingIn ip port addr span m key count = some k →
      ∃ e ∈ m, e.1 = k ∧ TakesFrom ip port span key count e := by
    intro k hk
    obtain ⟨n, hfind, hk⟩ := Option.bind_eq_some_iff.mp hk
    obtain ⟨hle, hk⟩ := Option.ite_none_right_eq_some.mp hk
    obtain ⟨hn, hnip, hstart⟩ := h.mem_below (hip _ _) (List.mem_of_find?_eq_some hfind)
    rw [hport] at hstart
    rw [UInt16.le_iff_toNat_le, spanEnd_toNat] at hle
    have hpos := h.span_pos n.2
    refine ⟨n, hn, Option.some.inj hk, by simpa using List.find?_some hfind, hnip, ?_⟩
    rcases Nat.le_total (port key).toNat (port n.1).toNat with hkn | hnk
    · exact ⟨port n.1, hkn, hstart, le_rfl, by omega⟩
    · exact ⟨port key, Nat.le_refl _, by rw [UInt16.le_iff_toNat_le]; omega, hnk, by omega⟩
  refine ⟨⟨fun hsome => ?_, ?_⟩, hreturned⟩
  · obtain ⟨k, hk⟩ := Option.isSome_iff_exists.mp hsome
    obtain ⟨e, he, -, htakes⟩ := hreturned k hk
    exact ⟨e, he, htakes⟩
  · rintro ⟨e, he, hne, heip, p, hlo, hhi, hcover⟩
    have hle : (port e.1).toNat ≤ (port (addr (ip key) (spanEnd (port key) count))).toNat := by
      rw [hport]
      exact hcover.1.trans hhi
    obtain ⟨n, hfind, hreach⟩ := h.find_below (q := fun e => e.1 != key) (hip _ _) hsorted hapart
      he (bne_iff_ne.mpr hne) heip hle (hlo.trans_lt hcover.2)
    have hrun : overlappingIn ip port addr span m key count = some n.1 := by
      change (List.find? _ (below ip m (ip key) _)).bind _ = _
      rw [hfind, Option.bind_some, if_pos hreach]
    rw [hrun, Option.isSome_some]

end Nearest

variable {m : PortForwards} {source : SocketAddrV4} {count : UInt16}

theorem byPort_v4 : ByPort SocketAddrV4.ip SocketAddrV4.port PortForward.portSpan
    SocketAddrV4.code fun ip => ip.bits.toNat where
  injective _ _ h := Ipv4Addr.ext (BitVec.eq_of_toNat_eq h)
  compare_eq _ _ := rfl
  code_eq _ := rfl
  span_pos := PortForward.portSpan_pos

/-- The ports that a pinhole opens. -/
def Pinhole.span (p : Pinhole) : UInt16 := max p.count 1

theorem PortForwards.exactOverlap (hsorted : OrderedMap.Sorted m) (hapart : Apart m)
    (source : SocketAddrV4) (count : UInt16) :
    ExactOverlap SocketAddrV4.ip SocketAddrV4.port PortForward.portSpan m source count
      (m.overlapping source count) :=
  byPort_v4.exactOverlap source count (fun _ _ => rfl) (fun _ _ => rfl) hsorted hapart

/-- An entry whose ports the test found free. -/
theorem Apart.claim {e : PortForward} (hsorted : OrderedMap.Sorted m) (hapart : Apart m)
    (hnone : PortForwards.overlapping m source count = none)
    (hspan : spanEnd source.port e.portSpan = spanEnd source.port count) :
    Apart (OrderedMap.insert source e m) := by
  have hfree : ∀ x ∈ m, x.1 ≠ source → x.1.ip = source.ip → ∀ port,
      ¬ (Covers x port ∧ Covers (source, e) port) := by
    rintro x hx hne hip port ⟨hcover, hlo, hhi⟩
    have hexact := (PortForwards.exactOverlap hsorted hapart source count).isSome_iff
    rw [hnone] at hexact
    refine absurd (hexact.mpr ⟨x, hx, hne, hip, port, hlo, ?_, hcover⟩) Bool.false_ne_true
    have := port.toNat_lt
    dsimp only at hhi
    rw [← hspan, UInt16.le_iff_toNat_le, spanEnd_toNat]
    omega
  intro a ha b hb hne hip port hcover
  rcases OrderedMap.mem_insert ha with rfl | ha <;> rcases OrderedMap.mem_insert hb with rfl | hb
  · exact hne rfl
  · exact hfree b hb hne.symm hip.symm port hcover.symm
  · exact hfree a ha hne hip port hcover
  · exact hapart a ha b hb hne hip port hcover

end StartTech.Tunnel

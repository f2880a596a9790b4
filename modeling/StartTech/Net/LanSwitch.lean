import StartTech.Net.Refresh

/-!
# Switches of the local network and the public network

A private row is switched without a change to what is public, now and after the refresh that
follows, exactly if no name of the public network is kept under the key of a private row and every
global address that is opted into the public network and moves with a private domain is on.

## Implementation notes

Resolving the global addresses of a gateway and a port turns every one on that is opted in, also
one that had been switched off by itself.
-/

namespace StartTech.Net

open HostnameInfo

namespace HostnameInfo

/-- A row for the local network. -/
def isLan (a : HostnameInfo) : Bool :=
  match a.metadata with
  | .mdns _ | .privateDomain _ => true
  | .ipv4 _ => !a.isPublic
  | .ipv6 _ _ => !a.isPublic && a.gua.isSome
  | _ => false

end HostnameInfo

namespace DerivedAddressInfo

/-- The rows of the public network that are on. -/
def wanRows (d : DerivedAddressInfo) : List HostnameInfo := d.enabledRows.filter isWan

/-- The same rows are public, and the same global addresses are opted in. -/
def SameWan (d d' : DerivedAddressInfo) : Prop := d'.wanRows = d.wanRows ∧ d'.guaWan = d.guaWan

/-- Switches of private rows change nothing that is public, at once and after a refresh. -/
def KeepsWan (d : DerivedAddressInfo) : Prop :=
  ∀ a ∈ d.available, a.isLan = true → ∀ on, ∃ d', d.setAddressEnabledOn a on = .ok d' ∧
    SameWan d d' ∧ SameWan (d.refresh d.available) (d'.refresh d'.available)

/-- A private domain without encryption is served at the gateway and the port. -/
def HasPrivateDomain (d : DerivedAddressInfo) (gateway : GatewayId) (port : UInt16) : Prop :=
  ∃ q ∈ d.available, q.ssl = false ∧ isPrivateDomainOn gateway q.metadata = true ∧
    q.servedPort = port

/-- A global address moves with a private domain. -/
def Follows (d : DerivedAddressInfo) (gua : SocketAddrV6) : Prop :=
  ∃ gateway port, d.HasPrivateDomain gateway port ∧ d.HasGua gateway port (.v6 gua)

/-- A key that a switch of a private row may write. -/
def LanKey (d : DerivedAddressInfo) (key : OverrideKey) : Prop :=
  ∃ a ∈ d.available, (a.isLan = true ∨ a.gua.isSome = true) ∧ a.switchKey = key

/-- The public network has keys of its own, and what is opted in and moves with a private domain
is on. -/
structure LanApart (d : DerivedAddressInfo) : Prop where
  names : ∀ r ∈ d.available, r.isWanName = true → r.isInternal = false → ¬d.LanKey r.overrideKey
  opted : ∀ gua, d.Follows gua → gua ∈ d.guaWan → .v6 gua ∈ d.enabled
  others : ∀ gua, d.Follows gua → gua ∉ d.guaWan → .v6 gua ∈ d.enabled →
    ∀ r ∈ d.available, (r.isPublic && r.metadata.isIp) = true → r.toSocketAddr ≠ some (.v6 gua)

/-- What switches of private rows have done. -/
structure LanMoves (d d' : DerivedAddressInfo) : Prop where
  available : d'.available = d.available
  guaWan : d'.guaWan = d.guaWan
  disabled : ∀ key, ¬d.LanKey key → (key ∈ d'.disabled ↔ key ∈ d.disabled)
  enabled : ∀ sa, (sa ∈ d'.enabled ↔ sa ∈ d.enabled) ∨
    ∃ gua, d.Follows gua ∧ sa = .v6 gua ∧ (sa ∈ d'.enabled ↔ gua ∈ d.guaWan)

namespace LanMoves

variable {d d' : DerivedAddressInfo} {gateway : GatewayId} {port : UInt16} {key : OverrideKey}
  {keys : List OverrideKey}

theorem refl (d : DerivedAddressInfo) : LanMoves d d :=
  ⟨rfl, rfl, fun _ _ => .rfl, fun _ => .inl .rfl⟩

theorem of_disabled (h : LanMoves d d') {e : DerivedAddressInfo}
    (havailable : e.available = d'.available) (hguaWan : e.guaWan = d'.guaWan)
    (henabled : e.enabled = d'.enabled)
    (hdisabled : ∀ key, ¬d.LanKey key → (key ∈ e.disabled ↔ key ∈ d'.disabled)) :
    LanMoves d e := by
  refine ⟨havailable.trans h.available, hguaWan.trans h.guaWan, ?_, ?_⟩
  · intro key hkey
    exact (hdisabled key hkey).trans (h.disabled key hkey)
  · rw [henabled]
    exact h.enabled

theorem switchedNames (h : LanMoves d d')
    (hkeys : ∀ key ∈ keys, d.LanKey key) (on : Bool) : LanMoves d (d'.switchedNames on keys) := by
  refine h.of_disabled (by simp) (by simp) (by simp) fun key' hkey' => ?_
  have hnot : key' ∉ keys := fun hmem => hkey' (hkeys key' hmem)
  simp [hnot]

theorem switchedLanIps (h : LanMoves d d')
    (hkeys : ∀ key ∈ keys, d.LanKey key) (on : Bool) : LanMoves d (d'.switchedLanIps on keys) := by
  refine h.of_disabled (by simp) (by simp) (by simp) fun key' hkey' => ?_
  have hnot : key' ∉ keys := fun hmem => hkey' (hkeys key' hmem)
  simp [hnot]

theorem lanKey_of_guasAt {x : SocketAddrV6 × String} (hx : x ∈ d.guasAt gateway port) :
    d.LanKey (x.2, port) := by
  obtain ⟨a, ha, -, hgua, hname⟩ := (mem_guasAt d gateway port).mp hx
  obtain ⟨hmem, -, hport⟩ := (mem_plainRows d port).mp ha
  refine ⟨a, hmem, .inr (by rw [hgua]; rfl), ?_⟩
  rw [switchKey_of_port hport, hname]

variable (h : LanMoves d d')
include h

theorem resolveNonsslGua (hdomain : d.HasPrivateDomain gateway port) :
    LanMoves d (d'.resolveNonsslGua gateway port) := by
  have hguas : d'.guasAt gateway port = d.guasAt gateway port := guasAt_congr h.available _ _
  refine ⟨by simp [h.available], by simp [h.guaWan], ?_, ?_⟩
  · intro key hkey
    rw [mem_resolveNonsslGua_disabled]
    · exact h.disabled key hkey
    · rw [hguas]
      rintro x hx rfl
      exact hkey (lanKey_of_guasAt hx)
  · intro sa
    rw [mem_resolveNonsslGua_enabled, HasGua, hguas, h.guaWan]
    by_cases hgua : d.HasGua gateway port sa
    · -- A global address of the group is on if it is opted in.
      obtain ⟨x, hx, rfl⟩ := hgua
      refine .inr ⟨x.1, ⟨gateway, port, hdomain, x, hx, rfl⟩, rfl, ?_⟩
      constructor
      · rintro (⟨y, -, heq, hwan⟩ | ⟨-, hnot⟩)
        · rwa [SocketAddr.v6.inj heq]
        · exact absurd ⟨x, hx, rfl⟩ hnot
      · exact fun hwan => .inl ⟨x, hx, rfl, hwan⟩
    · have hnone : ¬∃ x ∈ d.guasAt gateway port, sa = .v6 x.1 ∧ x.1 ∈ d.guaWan := by
        rintro ⟨x, hx, heq, -⟩
        exact hgua ⟨x, hx, heq⟩
      have hnot : ¬∃ x ∈ d.guasAt gateway port, sa = .v6 x.1 := hgua
      rw [or_iff_right hnone, and_iff_left hnot]
      exact h.enabled sa

theorem setNonsslLanGroup (hdomain : d.HasPrivateDomain gateway port)
    (on : Bool) : LanMoves d (d'.setNonsslLanGroup gateway port on) := by
  have hrow {row : HostnameInfo → Bool} (hlan : ∀ a, row a = true → a.isLan = true) :
      ∀ key ∈ ((d'.plainRows port).filter row).map fun a => (a.hostname, port), d.LanKey key := by
    intro key hkey
    obtain ⟨a, ha, rfl⟩ := List.mem_map.mp hkey
    obtain ⟨ha, hmeta⟩ := List.mem_filter.mp ha
    obtain ⟨hmem, -, hport⟩ := (mem_plainRows d' port).mp ha
    exact ⟨a, h.available ▸ hmem, .inl (hlan a hmeta), switchKey_of_port hport⟩
  refine resolveNonsslGua (switchedLanIps (switchedNames h (hrow ?_) on) (hrow ?_) on) hdomain
  · intro a hmeta
    unfold isPrivateDomainOn at hmeta
    split at hmeta
    · rename_i heq
      rw [isLan, heq]
    · cases hmeta
  · intro a hmeta
    obtain ⟨hpub, hmeta⟩ := Bool.and_eq_true_iff.mp hmeta
    rw [isLan, eq_of_beq hmeta]
    exact hpub

theorem hasPrivateDomain
    (hhas : d'.hasNonsslPrivateDomain gateway port = true) : d.HasPrivateDomain gateway port := by
  obtain ⟨q, hq, hmeta⟩ := List.any_eq_true.mp hhas
  obtain ⟨hmem, hssl, hport⟩ := (mem_plainRows d' port).mp hq
  refine ⟨q, h.available ▸ hmem, hssl, hmeta, ?_⟩
  rw [servedPort, hport, Option.getD_some]

theorem setLinkedGroup (gateway : GatewayId) (port : UInt16) (on : Bool) :
    LanMoves d (if d'.hasNonsslPrivateDomain gateway port then
      d'.setNonsslLanGroup gateway port on else d') := by
  split
  · rename_i hhas
    exact h.setNonsslLanGroup (h.hasPrivateDomain hhas) on
  · exact h

theorem moveLanGroup {a : HostnameInfo} (ha : a ∈ d.available)
    (hlan : a.isLan = true) (hssl : a.ssl = false) (on : Bool) :
    LanMoves d (d'.moveLanGroup a a.servedPort on) := by
  unfold DerivedAddressInfo.moveLanGroup
  cases hmeta : a.metadata with
  | publicDomain gateway =>
    rw [isLan, hmeta] at hlan
    cases hlan
  | privateDomain gateways =>
    refine List.foldlRecOn _ _ h fun e he gateway hgw => he.setNonsslLanGroup ?_ on
    refine ⟨a, ha, hssl, ?_, rfl⟩
    rw [hmeta]
    exact List.contains_iff_mem.mpr hgw
  | ipv4 gateway => exact h.setLinkedGroup gateway a.servedPort on
  | mdns gateways =>
    dsimp only
    split
    · exact h
    · have hlinked := List.foldlRecOn gateways (fun d gw =>
          if d.hasNonsslPrivateDomain gw a.servedPort then
            d.setNonsslLanGroup gw a.servedPort false else d) h
        fun e he gateway _ => he.setLinkedGroup gateway a.servedPort false
      exact hlinked.of_disabled rfl rfl rfl fun _ _ => .rfl
  | ipv6 _ _ | plugin _ => exact h

end LanMoves

variable {d d' : DerivedAddressInfo} {a : HostnameInfo}

/-- A switch of a private row succeeds. -/
theorem lanMoves_setAddressEnabledOn (ha : a ∈ d.available) (hlan : a.isLan = true) (on : Bool) :
    ∃ d', d.setAddressEnabledOn a on = .ok d' ∧ LanMoves d d' := by
  have hprivate : (a.isPublic && a.metadata.isIp) = false := by
    unfold isLan at hlan
    split at hlan
    all_goals simp_all [HostnameMetadata.isIp]
  have hkey : d.LanKey a.switchKey := ⟨a, ha, .inl hlan, rfl⟩
  have hmoved : LanMoves d (if a.metadata.isIp = true then d.setLanIp a.switchKey on
      else d.setName a.switchKey on) := by
    split
    · exact (LanMoves.refl d).switchedLanIps (List.forall_mem_singleton.mpr hkey) on
    · exact (LanMoves.refl d).switchedNames (List.forall_mem_singleton.mpr hkey) on
  unfold setAddressEnabledOn
  rw [if_neg (by rw [hprivate]; exact Bool.false_ne_true)]
  cases hssl : a.ssl with
  | true => exact ⟨_, rfl, hmoved⟩
  | false => exact ⟨_, rfl, hmoved.moveLanGroup ha hlan hssl on⟩

theorem sameWan_of_isOn (havailable : d'.available = d.available) (hguaWan : d'.guaWan = d.guaWan)
    (hon : ∀ a ∈ d.available, a.isWan = true → d'.isOn a = d.isOn a) : SameWan d d' := by
  refine ⟨?_, hguaWan⟩
  rw [wanRows, wanRows, enabledRows, enabledRows, List.filter_filter, List.filter_filter,
    havailable]
  refine List.filter_congr fun a ha => ?_
  cases hwan : a.isWan with
  | false => rfl
  | true => rw [hon a ha hwan]

/-- Where the flags are those of a refresh, agreement decides what is public. -/
theorem WanAgree.sameWan (h : WanAgree d d') (hflags : d.Projected) : SameWan d d' := by
  refine sameWan_of_isOn h.available h.guaWan fun a ha hwan => ?_
  obtain hname | hpub := Bool.or_eq_true_iff.mp hwan
  · exact h.isOn_name ha hname
  · refine h.isOn_ip ha hpub ?_
    have hflag := (Bool.and_eq_true_iff.mp hpub).1
    cases hgua : a.gua with
    | none => rwa [Opted, hgua]
    | some gua =>
      rw [hflags a ha gua hgua] at hflag
      rw [Opted, hgua]
      exact of_decide_eq_true hflag

section Apart

variable (hapart : d.LanApart)
include hapart

theorem LanApart.enabled_iff (h : LanMoves d d') {r : HostnameInfo}
    (hr : r ∈ d.available) (hpub : (r.isPublic && r.metadata.isIp) = true) {sa : SocketAddr}
    (hsa : r.toSocketAddr = some sa) : sa ∈ d'.enabled ↔ sa ∈ d.enabled := by
  obtain hsame | ⟨gua, hfollows, rfl, hiff⟩ := h.enabled sa
  · exact hsame
  · rw [hiff]
    constructor
    · exact hapart.opted gua hfollows
    · intro hon
      by_contra hwan
      exact hapart.others gua hfollows hwan hon r hr hpub hsa

theorem LanApart.sameWan (h : LanMoves d d') : SameWan d d' := by
  refine sameWan_of_isOn h.available h.guaWan fun a ha hwan => ?_
  obtain hname | hpub := Bool.or_eq_true_iff.mp hwan
  · rw [isOn_of_isWanName hname, isOn_of_isWanName hname]
    cases hinternal : a.isInternal with
    | true => rfl
    | false => simp only [h.disabled _ (hapart.names a ha hname hinternal)]
  · rw [isOn_of_public hpub, isOn_of_public hpub, publicIpOn, publicIpOn]
    cases hsa : a.toSocketAddr with
    | none => rfl
    | some sa => simp only [hapart.enabled_iff h ha hpub hsa]

theorem LanApart.wanAgree (h : LanMoves d d') : WanAgree d d' := by
  refine ⟨h.available, h.guaWan, ?_, ?_⟩
  · intro a ha hname hinternal
    exact h.disabled _ (hapart.names a ha hname hinternal)
  · intro a ha hip hopted sa hsa
    cases hgua : a.gua with
    | none =>
      rw [Opted, hgua] at hopted
      exact hapart.enabled_iff h ha (Bool.and_eq_true_iff.mpr ⟨hopted, hip⟩) hsa
    | some gua =>
      rw [Opted, hgua] at hopted
      obtain hsame | ⟨gua', hfollows, rfl, hiff⟩ := h.enabled sa
      · exact hsame
      · have heq := hsa.symm.trans (toSocketAddr_of_gua hgua)
        obtain rfl : gua' = gua := SocketAddr.v6.inj (Option.some.inj heq)
        rw [hiff]
        exact ⟨hapart.opted gua' hfollows, fun _ => hopted⟩

theorem LanApart.guaKeysApart : d.GuaKeysApart :=
  fun r hr hname hinternal a ha hgua heq =>
    hapart.names r hr hname hinternal ⟨a, ha, .inr hgua, heq.symm⟩

theorem LanApart.keepsWan : d.KeepsWan := by
  intro a ha hlan on
  obtain ⟨d', hok, hmoves⟩ := lanMoves_setAddressEnabledOn ha hlan on
  have hrefresh := (hapart.wanAgree hmoves).refresh hapart.guaKeysApart
  exact ⟨d', hok, hapart.sameWan hmoves, hrefresh.sameWan (projected_setAvailable _ _)⟩

end Apart

/-- Rows as they are derived: those with an address can be read as one of their version, the
others cannot, and global addresses are flagged as they are opted in. -/
structure Derived (d : DerivedAddressInfo) : Prop where
  ipv4 : ∀ a ∈ d.available, ∀ gateway, a.metadata = .ipv4 gateway →
    ∃ ip, parseIp a.hostname = some (.v4 ip)
  ipv6 : ∀ a ∈ d.available, ∀ gateway scope, a.metadata = .ipv6 gateway scope →
    ∃ ip, parseIp a.hostname = some (.v6 ip)
  name : ∀ a ∈ d.available, a.metadata.isIp = false → parseIp a.hostname = none
  flags : d.Projected
  external : ∀ a ∈ d.available, a.gua.isSome = true → a.isInternal = false

variable {r : HostnameInfo} {gateway : GatewayId} {gua : SocketAddrV6} {key : OverrideKey}
  {on : Bool}

theorem Derived.parse_of_isIp (hd : d.Derived) (ha : a ∈ d.available)
    (hip : a.metadata.isIp = true) : parseIp a.hostname ≠ none := by
  intro hnone
  cases hmeta : a.metadata with
  | ipv4 gateway =>
    obtain ⟨ip, hip⟩ := hd.ipv4 a ha gateway hmeta
    rw [hnone] at hip
    cases hip
  | ipv6 gateway scope =>
    obtain ⟨ip, hip⟩ := hd.ipv6 a ha gateway scope hmeta
    rw [hnone] at hip
    cases hip
  | mdns _ | privateDomain _ | publicDomain _ | plugin _ =>
    rw [hmeta] at hip
    cases hip

/-- A name that was switched, among the rows of a state. -/
def Switched (d : DerivedAddressInfo) (key : OverrideKey) (on : Bool) (d' : DerivedAddressInfo) :
    Prop := d'.available = d.available ∧ (key ∈ d'.disabled ↔ on = false)

/-- A name keeps the value that a switch gave it while its groups move the same way. -/
theorem Derived.switched_setNonsslLanGroup (hd : d.Derived)
    (hkey : parseIp key.1 = none) (h : d.Switched key on d') (gateway : GatewayId)
    (port : UInt16) : d.Switched key on (d'.setNonsslLanGroup gateway port on) := by
  obtain ⟨havailable, hval⟩ := h
  refine ⟨by simp [havailable], ?_⟩
  have hips : key ∉ d'.lanIpv4Keys gateway port := by
    intro hmem
    obtain ⟨a, ha, rfl⟩ := List.mem_map.mp hmem
    obtain ⟨ha, hmeta⟩ := List.mem_filter.mp ha
    have hrow := havailable ▸ ((mem_plainRows d' port).mp ha).1
    refine hd.parse_of_isIp hrow ?_ hkey
    rw [eq_of_beq (Bool.and_eq_true_iff.mp hmeta).2]
    rfl
  have hguas : ∀ x ∈ d'.guasAt gateway port, key ≠ (x.2, port) := by
    rintro x hx rfl
    obtain ⟨a, ha, -, hgua, hname⟩ := (mem_guasAt d' gateway port).mp hx
    have hrow := havailable ▸ ((mem_plainRows d' port).mp ha).1
    exact hd.parse_of_isIp hrow (isIp_of_gua hgua) (hname ▸ hkey)
  have hswitched := guasAt_congr (d'.switchedLan_available gateway port on) gateway port
  rw [setNonsslLanGroup_eq, mem_resolveNonsslGua_disabled _ _ _ (by rwa [hswitched])]
  simp only [switchedLan, switchedNames_eq, switchedLanIps_eq, mem_switched, Bool.not_eq_true']
  tauto

theorem Derived.switched_moveLanGroup (hd : d.Derived)
    (hkey : parseIp key.1 = none) (h : d.Switched key on d') (hlan : a.isLan = true)
    (hname : a.metadata.isIp = false) (port : UInt16) :
    d.Switched key on (d'.moveLanGroup a port on) := by
  unfold moveLanGroup
  cases hmeta : a.metadata with
  | privateDomain gateways =>
    exact List.foldlRecOn _ _ h fun e he gateway _ =>
      hd.switched_setNonsslLanGroup hkey he gateway port
  | mdns gateways =>
    cases on with
    | true => exact h
    | false =>
      have hlinked := List.foldlRecOn gateways (fun d gw =>
          if d.hasNonsslPrivateDomain gw port then d.setNonsslLanGroup gw port false else d) h
        fun e he gateway _ => by
          split
          · exact hd.switched_setNonsslLanGroup hkey he gateway port
          · exact he
      exact hlinked
  | ipv4 _ | ipv6 _ _ =>
    rw [hmeta] at hname
    cases hname
  | publicDomain _ | plugin _ =>
    rw [isLan, hmeta] at hlan
    cases hlan

/-- A name of the local network is off if it was switched off, and on if it was switched on. -/
theorem Derived.switched_setAddressEnabledOn (hd : d.Derived) (ha : a ∈ d.available)
    (hlan : a.isLan = true) (hname : a.metadata.isIp = false) (on : Bool)
    (hok : d.setAddressEnabledOn a on = .ok d') : d.Switched a.switchKey on d' := by
  have hset : d.Switched a.switchKey on (d.setName a.switchKey on) := ⟨by simp, by simp⟩
  unfold setAddressEnabledOn at hok
  simp only [hname, Bool.and_false, Bool.false_eq_true, if_false] at hok
  split at hok
  · obtain rfl := Except.ok.inj hok
    exact hset
  · obtain rfl := Except.ok.inj hok
    have hparse : parseIp a.switchKey.1 = none := hd.name a ha hname
    exact hd.switched_moveLanGroup hparse hset hlan hname _

/-- By induction on the gateways: once the address is on, it stays on. -/
theorem opted_mem_foldl {port : UInt16} {gateways : List GatewayId}
    (hwan : gua ∈ d.guaWan) (hhas : d.HasGua gateway port (.v6 gua))
    (h : gateway ∈ gateways ∨ .v6 gua ∈ d.enabled) :
    .v6 gua ∈ (gateways.foldl (fun d gw => d.setNonsslLanGroup gw port on) d).enabled := by
  induction gateways generalizing d with
  | nil =>
    obtain hmem | hon := h
    · cases hmem
    · exact hon
  | cons head rest ih =>
    have havailable := d.setNonsslLanGroup_available head port on
    refine ih (by simpa using hwan) ?_ ?_
    · rwa [HasGua, guasAt_congr havailable]
    · have hon : gateway = head ∨ .v6 gua ∈ d.enabled →
          .v6 gua ∈ (d.setNonsslLanGroup head port on).enabled := by
        intro hon
        rw [mem_setNonsslLanGroup_enabled]
        by_cases hhead : d.HasGua head port (.v6 gua)
        · obtain ⟨x, hx, heq⟩ := hhead
          exact .inl ⟨x, hx, heq, SocketAddr.v6.inj heq ▸ hwan⟩
        · obtain rfl | hon := hon
          · exact absurd hhas hhead
          · exact .inr ⟨hon, hhead⟩
      obtain hmem | hmem := h
      · obtain rfl | hrest := List.mem_cons.mp hmem
        · exact .inr (hon (.inl rfl))
        · exact .inl hrest
      · exact .inr (hon (.inr hmem))

theorem mem_wanRows (ha : a ∈ d.available) (hwan : a.isWan = true) :
    a ∈ d.wanRows ↔ d.isOn a = true := by
  simp [wanRows, enabledRows, ha, hwan]

theorem SameWan.isOn_iff (h : SameWan d d') (ha : a ∈ d.available) (ha' : a ∈ d'.available)
    (hwan : a.isWan = true) : d'.isOn a = true ↔ d.isOn a = true := by
  rw [← mem_wanRows ha' hwan, ← mem_wanRows ha hwan, h.1]

/-- A public name under the key of a private row is switched with it. -/
theorem Derived.names_of_keepsWan (hd : d.Derived) (h : d.KeepsWan) (hr : r ∈ d.available)
    (hname : r.isWanName = true) (hinternal : r.isInternal = false) : ¬d.LanKey r.overrideKey := by
  rintro ⟨a, ha, hrow, hkey⟩
  have hparse : parseIp a.hostname = none := by
    rw [show a.hostname = r.hostname from congrArg Prod.fst hkey]
    refine hd.name r hr ?_
    unfold isWanName at hname
    cases hmeta : r.metadata with
    | publicDomain _ | plugin _ => rfl
    | ipv4 _ | ipv6 _ _ | mdns _ | privateDomain _ =>
      rw [hmeta] at hname
      cases hname
  have hip : a.metadata.isIp = false :=
    Bool.eq_false_iff.mpr fun hip => hd.parse_of_isIp ha hip hparse
  have hlan : a.isLan = true := by
    obtain hlan | hgua := hrow
    · exact hlan
    · obtain ⟨gua, hgua⟩ := Option.isSome_iff_exists.mp hgua
      rw [isIp_of_gua hgua] at hip
      cases hip
  -- The private row is switched to what the public name is not.
  obtain ⟨d', hok, hsame, -⟩ := h a ha hlan (decide (r.overrideKey ∈ d.disabled))
  obtain ⟨havailable, hval⟩ := hd.switched_setAddressEnabledOn ha hlan hip _ hok
  have hiff := hsame.isOn_iff hr (havailable ▸ hr)
    (show r.isWan = true by rw [isWan, hname, Bool.true_or])
  rw [isOn_of_isWanName hname, isOn_of_isWanName hname, hinternal] at hiff
  rw [hkey] at hval
  by_cases hdisabled : r.overrideKey ∈ d.disabled
  · simp [hval, hdisabled] at hiff
  · simp [hval, hdisabled] at hiff

/-- A private domain that is switched on turns on all that is opted in and moves with it. -/
theorem Derived.opted_of_keepsWan (hd : d.Derived) (h : d.KeepsWan)
    (hfollows : d.Follows gua) (hwan : gua ∈ d.guaWan) : .v6 gua ∈ d.enabled := by
  obtain ⟨gateway, port, ⟨q, hq, hssl, hon, rfl⟩, hhas⟩ := hfollows
  obtain ⟨gateways, hmeta, hgw⟩ :
      ∃ gateways, q.metadata = .privateDomain gateways ∧ gateway ∈ gateways := by
    unfold isPrivateDomainOn at hon
    split at hon
    · exact ⟨_, ‹_›, List.contains_iff_mem.mp hon⟩
    · cases hon
  have hlan : q.isLan = true := by rw [isLan, hmeta]
  obtain ⟨d', hok, hsame, -⟩ := h q hq hlan true
  have henabled : .v6 gua ∈ d'.enabled := by
    simp only [setAddressEnabledOn, moveLanGroup, hmeta, hssl, HostnameMetadata.isIp,
      Bool.and_false, Bool.false_eq_true, if_false] at hok
    cases hok
    refine opted_mem_foldl (by simpa using hwan) ?_ (.inl hgw)
    rwa [HasGua]
  obtain ⟨x, hx, heq⟩ := hhas
  obtain rfl := SocketAddr.v6.inj heq
  obtain ⟨a, ha, -, hgua, -⟩ := (mem_guasAt d gateway q.servedPort).mp hx
  have hrow := ((mem_plainRows d q.servedPort).mp ha).1
  have hpub : (a.isPublic && a.metadata.isIp) = true := by
    rw [hd.flags a hrow _ hgua, isIp_of_gua hgua, decide_eq_true hwan]
    rfl
  have hisWan : a.isWan = true := by rw [isWan, hpub, Bool.or_true]
  have hinternal := hd.external a hrow (by rw [hgua]; rfl)
  obtain ⟨d'', hok', hmoves⟩ := lanMoves_setAddressEnabledOn hq hlan true
  obtain rfl : d'' = d' := Except.ok.inj (hok'.symm.trans hok)
  have hiff := hsame.isOn_iff hrow (hmoves.available ▸ hrow) hisWan
  rw [isOn_of_public hpub, isOn_of_public hpub, hinternal, publicIpOn, publicIpOn,
    toSocketAddr_of_gua hgua] at hiff
  simpa [henabled] using hiff

/-- What reads as an address of the sixth version is flagged as it is opted in. -/
theorem Derived.others (hd : d.Derived) (hfollows : d.Follows gua)
    (hwan : gua ∉ d.guaWan) (hr : r ∈ d.available)
    (hpub : (r.isPublic && r.metadata.isIp) = true) : r.toSocketAddr ≠ some (.v6 gua) := by
  intro hsa
  obtain ⟨hflag, hip⟩ := Bool.and_eq_true_iff.mp hpub
  obtain ⟨hparse, hport⟩ := toSocketAddr_eq_v6.mp hsa
  obtain ⟨gateway, port, -, x, hx, heq⟩ := hfollows
  obtain ⟨a, -, -, hgua, -⟩ := (mem_guasAt d gateway port).mp hx
  rw [← SocketAddr.v6.inj heq] at hgua
  have hglobal := (gua_eq_some.mp hgua).2.2.1
  cases hmeta : r.metadata with
  | ipv4 gw =>
    obtain ⟨ip, hip⟩ := hd.ipv4 r hr gw hmeta
    rw [hparse] at hip
    cases hip
  | ipv6 gw scope =>
    have hrow := gua_eq_some.mpr ⟨⟨gw, scope, hmeta⟩, hparse, hglobal, hport⟩
    rw [hd.flags r hr gua hrow] at hflag
    exact hwan (of_decide_eq_true hflag)
  | mdns _ | privateDomain _ | publicDomain _ | plugin _ =>
    rw [hmeta] at hip
    cases hip

/-- Private rows are switched without a change to what is public if the two networks are apart;
for rows as they are derived, only then. -/
theorem lan_switches_keep_wan_iff (d : DerivedAddressInfo) :
    (d.LanApart → d.KeepsWan) ∧ (d.Derived → (d.KeepsWan ↔ d.LanApart)) := by
  refine ⟨fun hapart => hapart.keepsWan, fun hd => ⟨?_, ?_⟩⟩
  · intro h
    exact ⟨fun _ => hd.names_of_keepsWan h, fun _ => hd.opted_of_keepsWan h,
      fun _ hfollows hwan _ _ => hd.others hfollows hwan⟩
  · intro hapart
    exact hapart.keepsWan

def optedGua : HostnameInfo where
  ssl := false
  isPublic := true
  hostname := "2001:db8::5"
  port := some 8080
  metadata := .ipv6 "eth0" 0

def privateDomainRow : HostnameInfo where
  ssl := false
  isPublic := false
  hostname := "box.lan"
  port := some 8080
  metadata := .privateDomain ["eth0"]

/-- A global address is opted into the public network and switched off. -/
def switchedOff : DerivedAddressInfo where
  guaWan := {⟨.ofSegments [0x2001, 0xdb8, 0, 0, 0, 0, 0, 5], 8080⟩}
  available := [optedGua, privateDomainRow]

theorem mem_switchedOff (h : a ∈ switchedOff.available) : a = optedGua ∨ a = privateDomainRow := by
  simpa [switchedOff] using h

theorem switchedOff_derived : switchedOff.Derived where
  ipv4 a ha gateway hmeta := by
    obtain rfl | rfl := mem_switchedOff ha
    · cases hmeta
    · cases hmeta
  ipv6 a ha gateway scope hmeta := by
    obtain rfl | rfl := mem_switchedOff ha
    · exact ⟨.ofSegments [0x2001, 0xdb8, 0, 0, 0, 0, 0, 5], by decide +kernel⟩
    · cases hmeta
  name := by decide +kernel
  flags a ha gua hgua := by
    obtain rfl | rfl := mem_switchedOff ha
    · have hrow : optedGua.gua = some ⟨.ofSegments [0x2001, 0xdb8, 0, 0, 0, 0, 0, 5], 8080⟩ := by
        decide +kernel
      obtain rfl := Option.some.inj (hrow.symm.trans hgua)
      exact (decide_eq_true (Finset.mem_singleton_self _)).symm
    · cases hgua
  external := by decide +kernel

/-- The same with the address switched on. -/
def switchedOn : DerivedAddressInfo :=
  { switchedOff with enabled := {.v6 ⟨.ofSegments [0x2001, 0xdb8, 0, 0, 0, 0, 0, 5], 8080⟩} }

/-- The address stays public when the private domain is switched. -/
theorem lan_switches_keep_wan_switchedOn : switchedOn.Derived ∧ switchedOn.LanApart ∧
    switchedOn.wanRows = [optedGua] ∧ switchedOn.KeepsWan := by
  obtain ⟨h4, h6, hname, hflags, hexternal⟩ := switchedOff_derived
  have hd : switchedOn.Derived := ⟨h4, h6, hname, hflags, hexternal⟩
  have hapart : switchedOn.LanApart := by
    refine ⟨fun r hr hwan => ?_, fun gua _ hwan => ?_, fun _ hfollows hwan _ _ =>
      hd.others hfollows hwan⟩
    · obtain rfl | rfl := mem_switchedOff hr <;> cases hwan
    · exact Finset.mem_singleton.mpr (congrArg _ (Finset.mem_singleton.mp hwan))
  exact ⟨hd, hapart, by decide +kernel, (lan_switches_keep_wan_iff switchedOn).1 hapart⟩

/-- The private domain beside it is switched on, and the address becomes public. -/
theorem private_domain_publishes_gua : switchedOff.Derived ∧ ¬switchedOff.KeepsWan := by
  refine ⟨switchedOff_derived, fun h => ?_⟩
  obtain ⟨d', hok, ⟨hrows, -⟩, -⟩ := h privateDomainRow (by decide +kernel) rfl true
  have hbefore : switchedOff.wanRows = [] := by decide +kernel
  have hafter : (switchedOff.setAddressEnabledOn privateDomainRow true).map wanRows =
      .ok [optedGua] := by decide +kernel
  rw [hok, Except.map, hrows, hbefore] at hafter
  cases hafter

end DerivedAddressInfo

end StartTech.Net

import StartTech.Net.AddressGroups

/-!
# Refreshes

When the rows of a binding change, the overrides are resolved against the new rows. A refresh reads
the names of the public network and the addresses that are opted in, and nothing else decides what
is public afterwards. It makes nothing public by itself: what is public had been opted in, or is
the domain of rows that were on, or is switched with rows at a gateway where all that could be
public was.

## Implementation notes

Rows that are kept under one socket address or one key are on together, also if they belong to
different gateways.
-/

namespace StartTech.Net

theorem HostnameMetadata.exists_of_isPublicDomain {metadata : HostnameMetadata}
    (h : metadata.isPublicDomain = true) : ∃ gateway, metadata = .publicDomain gateway := by
  cases metadata with
  | publicDomain gateway => exact ⟨gateway, rfl⟩
  | ipv4 _ | ipv6 _ _ | mdns _ | privateDomain _ | plugin _ => cases h

namespace HostnameInfo

/-- A name of the public network. -/
def isWanName (a : HostnameInfo) : Bool :=
  match a.metadata with
  | .publicDomain _ => true
  | .plugin _ => a.isPublic
  | _ => false

/-- A row for the public network. -/
def isWan (a : HostnameInfo) : Bool := a.isWanName || (a.isPublic && a.metadata.isIp)

/-- What a switch of the row is kept under. -/
def switchKey (a : HostnameInfo) : OverrideKey := (a.hostname, a.servedPort)

theorem switchKey_of_port {a : HostnameInfo} {port : UInt16} (h : a.port = some port) :
    a.switchKey = (a.hostname, port) := by
  rw [switchKey, servedPort, h, Option.getD_some]

end HostnameInfo

namespace DerivedAddressInfo

open Foundation
open HostnameInfo (isWanName isIp_of_gua toSocketAddr_of_gua)

section Agreement

/-- An address that is public after a refresh. -/
def Opted (d : DerivedAddressInfo) (a : HostnameInfo) : Prop :=
  match a.gua with
  | some gua => gua ∈ d.guaWan
  | none => a.isPublic = true

/-- Two states agree on all that decides what is public. -/
structure WanAgree (d d' : DerivedAddressInfo) : Prop where
  available : d'.available = d.available
  guaWan : d'.guaWan = d.guaWan
  names : ∀ a ∈ d.available, a.isWanName = true → a.isInternal = false →
    (a.overrideKey ∈ d'.disabled ↔ a.overrideKey ∈ d.disabled)
  ips : ∀ a ∈ d.available, a.metadata.isIp = true → d.Opted a → ∀ sa, a.toSocketAddr = some sa →
    (sa ∈ d'.enabled ↔ sa ∈ d.enabled)

/-- No name of the public network has the key of a global address. -/
def GuaKeysApart (d : DerivedAddressInfo) : Prop :=
  ∀ r ∈ d.available, r.isWanName = true → r.isInternal = false →
    ∀ a ∈ d.available, a.gua.isSome = true → r.overrideKey ≠ a.switchKey

/-- The flags of global addresses are those a refresh gives them. -/
def Projected (d : DerivedAddressInfo) : Prop :=
  ∀ a ∈ d.available, ∀ gua, a.gua = some gua → a.isPublic = decide (gua ∈ d.guaWan)

variable {a : HostnameInfo} {d : DerivedAddressInfo}

theorem isOn_of_isWanName (h : a.isWanName = true) (d : DerivedAddressInfo) :
    d.isOn a = (a.isInternal || decide (a.overrideKey ∉ d.disabled)) := by
  unfold isWanName at h
  unfold isOn
  cases hmeta : a.metadata with
  | publicDomain _ | plugin _ => cases a.isInternal <;> simp
  | ipv4 _ | ipv6 _ _ | mdns _ | privateDomain _ =>
    rw [hmeta] at h
    cases h

theorem isOn_of_public (h : (a.isPublic && a.metadata.isIp) = true) (d : DerivedAddressInfo) :
    d.isOn a = (a.isInternal || d.publicIpOn a) := by
  obtain ⟨hpub, hip⟩ := Bool.and_eq_true_iff.mp h
  unfold isOn
  cases hmeta : a.metadata with
  | ipv4 _ | ipv6 _ _ => cases a.isInternal <;> simp [hpub]
  | publicDomain _ | plugin _ | mdns _ | privateDomain _ =>
    rw [hmeta] at hip
    cases hip

theorem gua_of_isWanName (h : a.isWanName = true) : a.gua = none := by
  unfold isWanName at h
  unfold HostnameInfo.gua
  split
  · rename_i hmeta _
    rw [hmeta] at h
    cases h
  · rfl

theorem opted_projectRow (d : DerivedAddressInfo) (guaWan : Finset SocketAddrV6)
    (a : HostnameInfo) : d.Opted (projectRow guaWan a) ↔ d.Opted a := by
  cases hgua : a.gua with
  | none => rw [projectRow_of_none guaWan a hgua]
  | some gua => rw [Opted, Opted, projectRow_gua, hgua]

namespace WanAgree

variable {d' e e' : DerivedAddressInfo}

section

variable (h : WanAgree d d')
include h

theorem isOn_name (ha : a ∈ d.available) (hname : a.isWanName = true) : d'.isOn a = d.isOn a := by
  rw [isOn_of_isWanName hname, isOn_of_isWanName hname]
  cases hinternal : a.isInternal with
  | true => rfl
  | false => simp only [h.names a ha hname hinternal]

theorem publicIpOn (ha : a ∈ d.available) (hip : a.metadata.isIp = true)
    (hopted : d.Opted a) : d'.publicIpOn a = d.publicIpOn a := by
  unfold DerivedAddressInfo.publicIpOn
  cases hsa : a.toSocketAddr with
  | none => rfl
  | some sa => simp only [h.ips a ha hip hopted sa hsa]

theorem isOn_ip (ha : a ∈ d.available)
    (hpub : (a.isPublic && a.metadata.isIp) = true) (hopted : d.Opted a) :
    d'.isOn a = d.isOn a := by
  rw [isOn_of_public hpub, isOn_of_public hpub,
    h.publicIpOn ha (Bool.and_eq_true_iff.mp hpub).2 hopted]

theorem mem_enabledRows (hon : d'.isOn a = d.isOn a) : a ∈ d'.enabledRows ↔ a ∈ d.enabledRows := by
  rw [enabledRows, enabledRows, List.mem_filter, List.mem_filter, h.available, hon]

end

theorem isWanName_of_publicDomain (hdomain : a.metadata.isPublicDomain = true) :
    a.isWanName = true := by
  obtain ⟨gateway, hmeta⟩ := HostnameMetadata.exists_of_isPublicDomain hdomain
  rw [isWanName, hmeta]

variable (h : WanAgree d d')
include h

theorem publicOn (ha : a ∈ d.available) (hcan : canBePublic a = true) :
    d'.publicOn a = d.publicOn a := by
  unfold DerivedAddressInfo.publicOn
  cases hgua : a.gua with
  | some gua =>
    rw [h.guaWan]
    by_cases hwan : gua ∈ d.guaWan
    · have hopted : d.Opted a := by rwa [Opted, hgua]
      rw [h.publicIpOn ha (isIp_of_gua hgua) hopted]
    · simp [hwan]
  | none =>
    have hon : d'.isOn a = d.isOn a := by
      rw [canBePublic, hgua] at hcan
      simp only [Option.isSome_none, Bool.or_false, Bool.or_eq_true] at hcan
      obtain hpub | hdomain := hcan
      · have hopted : d.Opted a := by
          rw [Opted, hgua]
          exact (Bool.and_eq_true_iff.mp hpub).1
        exact h.isOn_ip ha hpub hopted
      · exact h.isOn_name ha (isWanName_of_publicDomain hdomain)
    simp [h.mem_enabledRows hon]

theorem allPublic (gateway : GatewayId) (ssl : Bool) :
    d'.allPublic gateway ssl = d.allPublic gateway ssl := by
  unfold DerivedAddressInfo.allPublic
  rw [h.available]
  dsimp only
  congr 2
  rw [Bool.eq_iff_iff, List.all_eq_true, List.all_eq_true]
  refine forall₂_congr fun a ha => ?_
  obtain ⟨ha, hrow⟩ := List.mem_filter.mp ha
  have hcan := (Bool.and_eq_true_iff.mp (Bool.and_eq_true_iff.mp hrow).1).1
  rw [h.publicOn ha hcan]

theorem allOn (gateway : GatewayId) : d'.allOn gateway = d.allOn gateway := by
  rw [DerivedAddressInfo.allOn, DerivedAddressInfo.allOn, h.allPublic, h.allPublic]

theorem domainNames (on : Bool) : d'.domainNames on = d.domainNames on := by
  unfold DerivedAddressInfo.domainNames
  rw [h.available]
  congr 1
  refine List.filter_congr fun a ha => ?_
  cases hdomain : a.metadata.isPublicDomain with
  | false => rfl
  | true =>
    have hon := h.isOn_name ha (isWanName_of_publicDomain hdomain)
    simp [h.mem_enabledRows hon]

theorem withheld (he : e'.available = e.available) : e'.withheld d' = e.withheld d := by
  unfold DerivedAddressInfo.withheld
  rw [he, h.available, h.domainNames, h.domainNames]

theorem wanGroups (he : e'.available = e.available) : e'.wanGroups d' = e.wanGroups d := by
  unfold DerivedAddressInfo.wanGroups
  rw [he]
  simp [h.allOn]

theorem setAvailable {rows : List HostnameInfo}
    (hrows : ∀ a ∈ rows, ∃ b ∈ d.available, ∀ guaWan, projectRow guaWan a = projectRow guaWan b) :
    WanAgree (d.setAvailable rows) (d'.setAvailable rows) := by
  refine ⟨?_, h.guaWan, ?_, ?_⟩
  · simp [DerivedAddressInfo.setAvailable, h.guaWan]
  · intro a' ha' hname hinternal
    obtain ⟨a, ha, rfl⟩ := List.mem_map.mp ha'
    obtain ⟨b, hb, heq⟩ := hrows a ha
    rw [heq] at hname hinternal ⊢
    have hgua : b.gua = none := by
      rw [← projectRow_gua d.guaWan b]
      exact gua_of_isWanName hname
    rw [projectRow_of_none _ b hgua] at hname hinternal ⊢
    exact h.names b hb hname hinternal
  · intro a' ha' hip hopted sa hsa
    obtain ⟨a, ha, rfl⟩ := List.mem_map.mp ha'
    obtain ⟨b, hb, heq⟩ := hrows a ha
    rw [heq] at hip hopted hsa
    simp only [projectRow_fields] at hip
    rw [projectRow_toSocketAddr] at hsa
    exact h.ips b hb hip ((opted_projectRow _ _ _).mp hopted) sa hsa

/-- The groups are switched alike in both; what is opted in newly is turned on in both. -/
theorem setNonsslWanGroup (hkeys : d.GuaKeysApart) (gateway : GatewayId)
    (port : UInt16) (on : Bool) : WanAgree (d.setNonsslWanGroup gateway port on)
      (d'.setNonsslWanGroup gateway port on) := by
  have hguas : d'.guasAt gateway port = d.guasAt gateway port := guasAt_congr h.available _ _
  have hhas (sa : SocketAddr) : d'.HasGua gateway port sa ↔ d.HasGua gateway port sa := by
    rw [HasGua, HasGua, hguas]
  have hdomains : d'.publicDomainKeys gateway port = d.publicDomainKeys gateway port := by
    rw [publicDomainKeys, publicDomainKeys, plainRows, plainRows, h.available]
  have hips : d'.publicIpv4s gateway port = d.publicIpv4s gateway port := by
    rw [publicIpv4s, publicIpv4s, plainRows, plainRows, h.available]
  refine ⟨by simp [h.available], ?_, ?_, ?_⟩
  · ext gua
    rw [mem_setNonsslWanGroup_guaWan, mem_setNonsslWanGroup_guaWan, hhas, h.guaWan]
  · intro a ha hname hinternal
    rw [setNonsslWanGroup_available] at ha
    have hkey : ∀ x ∈ d.guasAt gateway port, a.overrideKey ≠ (x.2, port) := by
      intro x hx heq
      obtain ⟨b, hb, -, hgua, hhost⟩ := (mem_guasAt d gateway port).mp hx
      obtain ⟨hmem, -, hport⟩ := (mem_plainRows d port).mp hb
      refine hkeys a ha hname hinternal b hmem (by rw [hgua]; rfl) ?_
      rw [heq, HostnameInfo.switchKey_of_port hport, hhost]
    rw [mem_setNonsslWanGroup_disabled d _ _ _ hkey,
      mem_setNonsslWanGroup_disabled d' _ _ _ (by rwa [hguas]), hdomains,
      h.names a ha hname hinternal]
  · intro a ha hip hopted sa hsa
    rw [setNonsslWanGroup_available] at ha
    rw [mem_setNonsslWanGroup_enabled, mem_setNonsslWanGroup_enabled, hhas, hips]
    by_cases hgroup : sa ∈ d.publicIpv4s gateway port ∨ d.HasGua gateway port sa
    · obtain hv4 | hgua := hgroup
      · simp [hv4]
      · simp [hgua]
    · obtain ⟨hv4, hgua⟩ := not_or.mp hgroup
      have hopted' : d.Opted a := by
        unfold Opted at hopted ⊢
        cases hrow : a.gua with
        | none => rwa [hrow] at hopted
        | some gua =>
          rw [hrow] at hopted
          have heq := hsa.symm.trans (toSocketAddr_of_gua hrow)
          obtain rfl : sa = .v6 gua := Option.some.inj heq
          simpa [hgua] using (mem_setNonsslWanGroup_guaWan d gateway port on gua).mp hopted
      simp [hv4, h.ips a ha hip hopted' sa hsa]

/-- By induction on the groups; the rows stay the same. -/
theorem foldl_setNonsslWanGroup (hkeys : d.GuaKeysApart)
    (groups : List ((GatewayId × UInt16) × Bool)) :
    WanAgree (groups.foldl (fun d group => d.setNonsslWanGroup group.1.1 group.1.2 group.2) d)
      (groups.foldl (fun d group => d.setNonsslWanGroup group.1.1 group.1.2 group.2) d') := by
  induction groups generalizing d d' with
  | nil => exact h
  | cons group rest ih =>
    refine ih (h.setNonsslWanGroup hkeys _ _ _) ?_
    rwa [GuaKeysApart, setNonsslWanGroup_available]

theorem withhold (keys : Finset OverrideKey) : WanAgree { d with disabled := d.disabled ∪ keys }
      { d' with disabled := d'.disabled ∪ keys } := by
  refine ⟨h.available, h.guaWan, ?_, h.ips⟩
  intro a ha hname hinternal
  simp [h.names a ha hname hinternal]

theorem resolveAddressGroups (he : WanAgree e e') (hkeys : e.GuaKeysApart) :
    WanAgree (e.resolveAddressGroups d) (e'.resolveAddressGroups d') := by
  unfold DerivedAddressInfo.resolveAddressGroups
  rw [h.wanGroups he.available, h.withheld he.available]
  exact (he.withhold _).foldl_setNonsslWanGroup hkeys _

end WanAgree

theorem GuaKeysApart.setAvailable (h : d.GuaKeysApart) :
    (d.setAvailable d.available).GuaKeysApart := by
  intro r' hr' hname hinternal a' ha' hgua
  obtain ⟨r, hr, rfl⟩ := List.mem_map.mp hr'
  obtain ⟨a, ha, rfl⟩ := List.mem_map.mp ha'
  have hnone : r.gua = none := by
    rw [← projectRow_gua d.guaWan r]
    exact gua_of_isWanName hname
  rw [projectRow_of_none _ r hnone] at hname hinternal ⊢
  rw [projectRow_gua] at hgua
  have hne := h r hr hname hinternal a ha hgua
  simpa only [HostnameInfo.switchKey, HostnameInfo.servedPort, projectRow_fields]

/-- States that agree are refreshed to states that agree. -/
theorem WanAgree.refresh {d' : DerivedAddressInfo} (h : WanAgree d d') (hkeys : d.GuaKeysApart) :
    WanAgree (d.refresh d.available) (d'.refresh d'.available) := by
  have hprojected := h.setAvailable fun a ha => ⟨a, ha, fun _ => rfl⟩
  rw [h.available]
  refine (h.resolveAddressGroups hprojected hkeys.setAvailable).setAvailable fun a ha => ?_
  refine ⟨projectRow d.guaWan a, ?_, fun guaWan => (projectRow_projectRow guaWan a _).symm⟩
  rw [DerivedAddressInfo.resolveAddressGroups, foldl_keeps fun d (group : (GatewayId × UInt16) × Bool) =>
    setNonsslWanGroup_available d group.1.1 group.1.2 group.2]
  exact List.mem_map_of_mem ha

theorem projected_setAvailable (d : DerivedAddressInfo) (rows : List HostnameInfo) :
    (d.setAvailable rows).Projected := by
  intro a' ha' gua hgua
  obtain ⟨a, ha, rfl⟩ := List.mem_map.mp ha'
  rw [projectRow_gua] at hgua
  rw [projectRow, hgua]
  rfl

end Agreement

section Exposure

variable {previous d new : DerivedAddressInfo}

/-- Rows that could be public at a gateway, with or without encryption. -/
def HadPublic (previous : DerivedAddressInfo) (gateway : GatewayId) (ssl : Bool) : Prop :=
  ∃ a ∈ previous.available, canBePublic a = true ∧ a.ssl = ssl ∧ gateway ∈ a.metadata.gateways

/-- All of them were public and on. -/
def AllPublic (previous : DerivedAddressInfo) (gateway : GatewayId) (ssl : Bool) : Prop :=
  ∀ a ∈ previous.available, canBePublic a = true → a.ssl = ssl → gateway ∈ a.metadata.gateways →
    previous.publicOn a = true

/-- The rows without encryption decide, and if there were none, those with encryption. -/
def WasPublic (previous : DerivedAddressInfo) (gateway : GatewayId) : Prop :=
  (previous.HadPublic gateway false ∧ previous.AllPublic gateway false) ∨
    (¬previous.HadPublic gateway false ∧ previous.HadPublic gateway true ∧
      previous.AllPublic gateway true)

/-- A gateway and a port with a public domain and no encryption. -/
def PlainDomain (d : DerivedAddressInfo) (gateway : GatewayId) (port : UInt16) : Prop :=
  ∃ q ∈ d.available, q.ssl = false ∧ q.port = some port ∧ q.metadata = .publicDomain gateway

/-- A row that is switched with a public domain at a port without encryption. -/
structure PlainMember (new : DerivedAddressInfo) (gateway : GatewayId) (port : UInt16)
    (a : HostnameInfo) : Prop where
  mem : a ∈ new.available
  plain : a.ssl = false
  port_eq : a.port = some port
  mem_gateways : gateway ∈ a.metadata.gateways
  canBePublic : canBePublic a = true
  domain : new.PlainDomain gateway port

/-- The overrides of two rows are kept in the same place. -/
def SameSwitch (a b : HostnameInfo) : Prop :=
  (a.metadata.isIp = true ∧ b.metadata.isIp = true ∧ a.toSocketAddr = b.toSocketAddr) ∨
    (a.metadata.isPublicDomain = true ∧ b.metadata.isPublicDomain = true ∧
      a.overrideKey = b.overrideKey)

/-- A domain with encryption that was on, or of which all rows were on. -/
def DomainWasOn (previous : DerivedAddressInfo) (a : HostnameInfo) : Prop :=
  a.metadata.isPublicDomain = true ∧ a.ssl = true ∧ (a ∈ previous.enabledRows ∨
    (a.hostname ∈ previous.domainNames true ∧ a.hostname ∉ previous.domainNames false))

def OptedIn (previous : DerivedAddressInfo) (a : HostnameInfo) : Prop :=
  a.metadata.isIp = true ∧ ∃ sa ∈ previous.enabled, a.toSocketAddr = some sa

/-- An internal address, or a row without the port, the address or the name that its kind has. -/
def Irregular (a : HostnameInfo) : Prop :=
  a.isInternal = true ∨ (a.metadata.isIp = true ∧ a.toSocketAddr = none) ∨
    (a.metadata.isIp = false ∧ (a.port = none ∨ parseIp a.hostname ≠ none))

/-- Why a row is public after a refresh. -/
inductive Exposed (previous new : DerivedAddressInfo) (a : HostnameInfo) : Prop
  | irregular (h : Irregular a)
  | optedIn (h : previous.OptedIn a)
  | domain (h : previous.DomainWasOn a)
  | group (gateway : GatewayId) (port : UInt16) (b : HostnameInfo)
      (hmember : new.PlainMember gateway port b) (hwas : previous.WasPublic gateway)
      (hsame : SameSwitch a b)

/-- Every public row that is on and no plugin's has a reason. -/
def PublicOnlyFor (new : DerivedAddressInfo) (reason : HostnameInfo → Prop) : Prop :=
  ∀ a ∈ new.enabledRows, a.metadata.isPublicDomain = true ∨
    (a.isPublic && a.metadata.isIp) = true → reason a

variable {gateway : GatewayId} {ssl : Bool} {a b : HostnameInfo}
  {groups : List ((GatewayId × UInt16) × Bool)} {port : UInt16}

theorem allPublic_eq_none :
    previous.allPublic gateway ssl = none ↔ ¬previous.HadPublic gateway ssl := by
  simp [allPublic, HadPublic]

theorem allPublic_eq_true : previous.allPublic gateway ssl = some true ↔
      previous.HadPublic gateway ssl ∧ previous.AllPublic gateway ssl := by
  have hall : (previous.available.filter fun a =>
      canBePublic a && a.ssl == ssl && a.metadata.gateways.contains gateway).all
        previous.publicOn = true ↔ previous.AllPublic gateway ssl := by
    rw [List.all_eq_true]
    constructor
    · intro h a ha hcan hssl hgw
      exact h a (List.mem_filter.mpr ⟨ha, by simp [hcan, hssl, hgw]⟩)
    · intro h a ha
      obtain ⟨ha, hrow⟩ := List.mem_filter.mp ha
      simp only [Bool.and_eq_true, beq_iff_eq, List.contains_iff_mem] at hrow
      exact h a ha hrow.1.1 hrow.1.2 hrow.2
  by_cases hhad : previous.HadPublic gateway ssl
  · have hsome := mt allPublic_eq_none.mp (not_not.mpr hhad)
    unfold allPublic at hsome ⊢
    dsimp only at hsome ⊢
    split at hsome
    · exact absurd rfl hsome
    · rename_i hempty
      rw [if_neg hempty, Option.some_inj, hall]
      exact (and_iff_right hhad).symm
  · simp [allPublic_eq_none.mpr hhad, hhad]

theorem allOn_iff (previous : DerivedAddressInfo) (gateway : GatewayId) :
    previous.allOn gateway = true ↔ previous.WasPublic gateway := by
  rw [WasPublic, ← allPublic_eq_true, ← allPublic_eq_true, ← allPublic_eq_none, allOn]
  cases previous.allPublic gateway false with
  | some all => simp
  | none =>
    cases previous.allPublic gateway true with
    | none => simp
    | some all => simp

/-- The group of a public domain without encryption. -/
def plainKey (a : HostnameInfo) : Option (GatewayId × UInt16) :=
  match a.metadata, a.port, a.ssl with
  | .publicDomain gateway, some port, false => some (gateway, port)
  | _, _, _ => none

theorem plainKey_eq_some {key : GatewayId × UInt16} : plainKey a = some key ↔
      a.ssl = false ∧ a.port = some key.2 ∧ a.metadata = .publicDomain key.1 := by
  unfold plainKey
  constructor
  · intro h
    split at h
    · rename_i hmeta hport hssl
      cases h
      exact ⟨hssl, hport, hmeta⟩
    · cases h
  · rintro ⟨hssl, hport, hmeta⟩
    rw [hssl, hport, hmeta]

theorem wanGroups_eq (d previous : DerivedAddressInfo) : d.wanGroups previous =
    (d.available.filterMap plainKey).foldl (fun groups key =>
      OrderedMap.insert key (previous.allOn key.1) groups) [] := by
  rw [List.foldl_filterMap, wanGroups]
  congr 1
  funext groups a
  obtain ⟨ssl, isPublic, hostname, port, metadata⟩ := a
  cases metadata with
  | publicDomain gateway => cases port <;> cases ssl <;> rfl
  | ipv4 _ | ipv6 _ _ | mdns _ | privateDomain _ | plugin _ => rfl

theorem mem_wanGroups {group : (GatewayId × UInt16) × Bool} : group ∈ d.wanGroups previous ↔
      d.PlainDomain group.1.1 group.1.2 ∧ group.2 = previous.allOn group.1.1 := by
  rw [wanGroups_eq, OrderedMap.mem_foldl_insert (fun key : GatewayId × UInt16 => previous.allOn key.1),
    List.mem_filterMap]
  simp [plainKey_eq_some, PlainDomain]

/-- Switch groups one after another. -/
def setWanGroups (d : DerivedAddressInfo) (groups : List ((GatewayId × UInt16) × Bool)) :
    DerivedAddressInfo :=
  groups.foldl (fun d group => d.setNonsslWanGroup group.1.1 group.1.2 group.2) d

/-- An address that is on was on, or a group with it was switched on. -/
theorem mem_enabled_of_setWanGroups {sa : SocketAddr} (h : sa ∈ (d.setWanGroups groups).enabled) :
    sa ∈ d.enabled ∨ ∃ gateway port, ((gateway, port), true) ∈ groups ∧
      (sa ∈ d.publicIpv4s gateway port ∨ d.HasGua gateway port sa) := by
  induction groups generalizing d with
  | nil => exact .inl h
  | cons group rest ih =>
    obtain ⟨⟨gateway, port⟩, on⟩ := group
    have havailable := d.setNonsslWanGroup_available gateway port on
    obtain hon | ⟨gateway', port', hmem, hgroup⟩ := ih h
    · obtain ⟨hgroup, rfl⟩ | ⟨-, -, hbefore⟩ :=
        (mem_setNonsslWanGroup_enabled d gateway port on sa).mp hon
      · exact .inr ⟨gateway, port, List.mem_cons_self, hgroup⟩
      · exact .inl hbefore
    · refine .inr ⟨gateway', port', List.mem_cons_of_mem _ hmem, ?_⟩
      rwa [publicIpv4s, HasGua, guasAt_congr havailable, plainRows, havailable] at hgroup

/-- A name that is on was on and belongs to no group, or a group with it was switched on. -/
theorem notMem_disabled_of_setWanGroups {key : OverrideKey} (hkey : parseIp key.1 = none)
    (h : key ∉ (d.setWanGroups groups).disabled) :
    (key ∉ d.disabled ∧ ∀ group ∈ groups, key ∉ d.publicDomainKeys group.1.1 group.1.2) ∨
      ∃ gateway port, ((gateway, port), true) ∈ groups ∧ key ∈ d.publicDomainKeys gateway port := by
  induction groups generalizing d with
  | nil => exact .inl ⟨h, fun _ hmem => absurd hmem List.not_mem_nil⟩
  | cons group rest ih =>
    obtain ⟨⟨gateway, port⟩, on⟩ := group
    have havailable := d.setNonsslWanGroup_available gateway port on
    have hguas : ∀ x ∈ d.guasAt gateway port, key ≠ (x.2, port) := by
      rintro x hx rfl
      obtain ⟨a, -, -, hgua, hname⟩ := (mem_guasAt d gateway port).mp hx
      have hparse := (HostnameInfo.gua_eq_some.mp hgua).2.1
      rw [hname, hkey] at hparse
      cases hparse
    have hiff := mem_setNonsslWanGroup_disabled d gateway port on hguas
    obtain ⟨hon, hrest⟩ | ⟨gateway', port', hmem, hgroup⟩ := ih h
    · rw [hiff] at hon
      simp only [publicDomainKeys, plainRows, havailable] at hrest
      by_cases hgroup : key ∈ d.publicDomainKeys gateway port
      · cases on with
        | true => exact .inr ⟨gateway, port, List.mem_cons_self, hgroup⟩
        | false => exact absurd (.inl ⟨hgroup, rfl⟩) hon
      · refine .inl ⟨fun hbefore => hon (.inr ⟨hgroup, hbefore⟩), ?_⟩
        exact List.forall_mem_cons.mpr ⟨hgroup, hrest⟩
    · refine .inr ⟨gateway', port', List.mem_cons_of_mem _ hmem, ?_⟩
      rwa [publicDomainKeys, plainRows, havailable] at hgroup

variable (previous) (rows : List HostnameInfo)

/-- The overrides with which the groups of new rows are switched. -/
def withholding : DerivedAddressInfo :=
  let d := previous.setAvailable rows
  { d with disabled := d.disabled ∪ (d.withheld previous).toFinset }

/-- The new rows while the groups are switched, and afterwards. -/
theorem exists_refreshed (hb : b ∈ (previous.setAvailable rows).available) :
    ∃ m ∈ (previous.refresh rows).available, m.ssl = b.ssl ∧ m.port = b.port ∧
      m.metadata = b.metadata ∧ m.hostname = b.hostname ∧
        (canBePublic b = true → canBePublic m = true) := by
  obtain ⟨a, ha, rfl⟩ := List.mem_map.mp hb
  refine ⟨_, List.mem_map_of_mem ha, by simp, by simp, by simp, by simp, fun hcan => ?_⟩
  cases hgua : a.gua with
  | none =>
    rw [projectRow_of_none _ a hgua] at hcan
    rwa [projectRow_of_none _ a hgua]
  | some gua => simp [canBePublic, hgua]

theorem plainDomain_refresh (h : (previous.setAvailable rows).PlainDomain gateway port) :
    (previous.refresh rows).PlainDomain gateway port := by
  obtain ⟨q, hq, hssl, hport, hmeta⟩ := h
  obtain ⟨m, hm, hmssl, hmport, hmmeta, -, -⟩ := previous.exists_refreshed rows hq
  exact ⟨m, hm, hmssl.trans hssl, hmport.trans hport, hmmeta.trans hmeta⟩

/-- A row of a group that was switched on is a member of it afterwards. -/
theorem exposed_of_group
    (hgroup : ((gateway, port), true) ∈ (previous.setAvailable rows).wanGroups previous)
    (hb : b ∈ (previous.setAvailable rows).plainRows port)
    (hgw : gateway ∈ b.metadata.gateways) (hcan : canBePublic b = true)
    (hsame : SameSwitch a b) : Exposed previous (previous.refresh rows) a := by
  obtain ⟨hdomain, hon⟩ := mem_wanGroups.mp hgroup
  obtain ⟨hmem, hssl, hport⟩ := (mem_plainRows _ port).mp hb
  obtain ⟨m, hm, hmssl, hmport, hmmeta, hmhost, hmcan⟩ := previous.exists_refreshed rows hmem
  refine .group gateway port m ⟨hm, hmssl.trans hssl, hmport.trans hport, hmmeta ▸ hgw,
    hmcan hcan, previous.plainDomain_refresh rows hdomain⟩ ((allOn_iff _ _).mp hon.symm) ?_
  rw [SameSwitch, HostnameInfo.toSocketAddr.eq_1 m, HostnameInfo.overrideKey.eq_1 m, hmmeta, hmhost,
    hmport]
  exact hsame

theorem exposed_of_publicIp (ha : a ∈ (previous.refresh rows).enabledRows)
    (hpub : (a.isPublic && a.metadata.isIp) = true) :
    Exposed previous (previous.refresh rows) a := by
  have hip := (Bool.and_eq_true_iff.mp hpub).2
  have hon := (List.mem_filter.mp ha).2
  rw [isOn_of_public hpub, Bool.or_eq_true] at hon
  obtain hinternal | hon := hon
  · exact .irregular (.inl hinternal)
  cases hsa : a.toSocketAddr with
  | none => exact .irregular (.inr (.inl ⟨hip, hsa⟩))
  | some sa =>
    rw [publicIpOn, hsa] at hon
    obtain hbefore | ⟨gateway, port, hgroup, hmember⟩ :=
      mem_enabled_of_setWanGroups (of_decide_eq_true hon)
    · exact .optedIn ⟨hip, sa, hbefore, hsa⟩
    · obtain hv4 | ⟨x, hx, rfl⟩ := hmember
      · obtain ⟨b, hb, hbsa⟩ := List.mem_filterMap.mp hv4
        obtain ⟨hb, hrow⟩ := List.mem_filter.mp hb
        obtain ⟨hbpublic, hbmeta⟩ := Bool.and_eq_true_iff.mp hrow
        have hbmeta := eq_of_beq hbmeta
        have hbip : b.metadata.isIp = true := by rw [hbmeta]; rfl
        refine previous.exposed_of_group rows hgroup hb ?_ ?_ (.inl ⟨hip, hbip, ?_⟩)
        · rw [hbmeta]
          exact List.mem_singleton_self gateway
        · rw [canBePublic, hbpublic, hbip]
          rfl
        · rw [hsa, hbsa]
      · obtain ⟨b, hb, ⟨scope, hbmeta⟩, hgua, -⟩ := (mem_guasAt _ gateway port).mp hx
        refine previous.exposed_of_group rows hgroup hb ?_ ?_
          (.inl ⟨hip, isIp_of_gua hgua, ?_⟩)
        · rw [hbmeta]
          exact List.mem_singleton_self gateway
        · rw [canBePublic, hgua, Option.isSome_some, Bool.or_true, Bool.true_or]
        · rw [hsa, toSocketAddr_of_gua hgua]

theorem mem_setAvailable_of_publicDomain (ha : a ∈ (previous.refresh rows).available)
    (hdomain : a.metadata.isPublicDomain = true) : a ∈ (previous.setAvailable rows).available := by
  obtain ⟨b, hb, rfl⟩ := List.mem_map.mp ha
  have hgua : b.gua = none := by
    rw [← projectRow_gua _ b]
    exact gua_of_isWanName (WanAgree.isWanName_of_publicDomain hdomain)
  refine List.mem_map.mpr ⟨b, hb, ?_⟩
  rw [projectRow_of_none _ b hgua, projectRow_of_none _ b hgua]

/-- A domain without encryption always belongs to a group, one with encryption may be withheld. -/
theorem exposed_of_untouched (ha : a ∈ (previous.setAvailable rows).available)
    (hdomain : a.metadata.isPublicDomain = true) (hport : a.port = some port)
    (hkey : a.overrideKey ∉ (previous.withholding rows).disabled)
    (hnone : ∀ group ∈ (previous.setAvailable rows).wanGroups previous,
      a.overrideKey ∉ (previous.withholding rows).publicDomainKeys group.1.1 group.1.2) :
    previous.DomainWasOn a := by
  obtain ⟨hdisabled, hwithheld⟩ : a.overrideKey ∉ previous.disabled ∧
      a.overrideKey ∉ (previous.setAvailable rows).withheld previous := by
    simpa [withholding, setAvailable] using hkey
  cases hssl : a.ssl with
  | false =>
    obtain ⟨gateway, hmeta⟩ := HostnameMetadata.exists_of_isPublicDomain hdomain
    refine absurd ?_ (hnone ((gateway, port), previous.allOn gateway)
      (mem_wanGroups.mpr ⟨⟨a, ha, hssl, hport, hmeta⟩, rfl⟩))
    refine List.mem_map.mpr ⟨a, List.mem_filter.mpr ⟨?_, by simp [hmeta]⟩, ?_⟩
    · exact (mem_plainRows _ port).mpr ⟨ha, hssl, hport⟩
    · rw [HostnameInfo.overrideKey, hport, Option.getD_some]
  | true =>
    refine ⟨hdomain, hssl, ?_⟩
    by_cases hbefore : a ∈ previous.available
    · refine .inl (List.mem_filter.mpr ⟨hbefore, ?_⟩)
      rw [isOn_of_isWanName (WanAgree.isWanName_of_publicDomain hdomain)]
      simp [hdisabled]
    · refine .inr ?_
      by_contra hnot
      refine hwithheld (List.mem_map.mpr ⟨a, List.mem_filter.mpr ⟨ha, ?_⟩, rfl⟩)
      simp only [hdomain, hport, hssl, hbefore, Option.isSome_some, not_false_eq_true,
        decide_true, Bool.true_and, Bool.or_eq_true, Bool.not_eq_true', List.contains_iff_mem]
      by_cases hoff : a.hostname ∈ previous.domainNames false
      · exact .inl hoff
      · refine .inr (Bool.eq_false_iff.mpr fun hon => hnot ⟨?_, hoff⟩)
        exact List.contains_iff_mem.mp hon

theorem exposed_of_publicDomain (ha : a ∈ (previous.refresh rows).enabledRows)
    (hdomain : a.metadata.isPublicDomain = true) : Exposed previous (previous.refresh rows) a := by
  obtain ⟨ha, hon⟩ := List.mem_filter.mp ha
  have hname : a.metadata.isIp = false := by
    obtain ⟨gateway, hmeta⟩ := HostnameMetadata.exists_of_isPublicDomain hdomain
    rw [hmeta]
    rfl
  rw [isOn_of_isWanName (WanAgree.isWanName_of_publicDomain hdomain), Bool.or_eq_true] at hon
  obtain hinternal | hon := hon
  · exact .irregular (.inl hinternal)
  cases hport : a.port with
  | none => exact .irregular (.inr (.inr ⟨hname, .inl hport⟩))
  | some port =>
    by_cases hparse : parseIp a.hostname = none
    · have hmem := previous.mem_setAvailable_of_publicDomain rows ha hdomain
      have hkey : parseIp a.overrideKey.1 = none := hparse
      obtain ⟨hdisabled, hnone⟩ | ⟨gateway, port', hgroup, hkeys⟩ :=
        notMem_disabled_of_setWanGroups hkey
          (of_decide_eq_true hon)
      · exact .domain (previous.exposed_of_untouched rows hmem hdomain hport hdisabled hnone)
      · obtain ⟨b, hb, heq⟩ := List.mem_map.mp hkeys
        obtain ⟨hb, hmeta⟩ := List.mem_filter.mp hb
        have hmeta := eq_of_beq hmeta
        have hbport := ((mem_plainRows _ port').mp hb).2.2
        refine previous.exposed_of_group rows hgroup hb ?_ ?_ (.inr ⟨hdomain, ?_, ?_⟩)
        · rw [hmeta]
          exact List.mem_singleton_self gateway
        · rw [canBePublic, hmeta]
          exact Bool.or_true _
        · rw [hmeta]
          rfl
        · rw [← heq, HostnameInfo.overrideKey, hbport, Option.getD_some]
    · exact .irregular (.inr (.inr ⟨hname, .inr hparse⟩))

/-- What is public after a refresh had been opted in, is the domain of rows that were on, or is
switched with a row at a gateway where all that could be public was. -/
theorem refresh_public_only_for (previous : DerivedAddressInfo) (rows : List HostnameInfo) :
    (previous.refresh rows).PublicOnlyFor (Exposed previous (previous.refresh rows)) := by
  intro a ha hpub
  obtain hdomain | hip := hpub
  · exact previous.exposed_of_publicDomain rows ha hdomain
  · exact previous.exposed_of_publicIp rows ha hip

end Exposure

/-- Why a row would be public if everything public at its gateway had to be on before, with and
without encryption, and rows of different gateways were apart. -/
def ExposedApart (previous new : DerivedAddressInfo) (a : HostnameInfo) : Prop :=
  previous.OptedIn a ∨ previous.DomainWasOn a ∨ ∃ gateway port, new.PlainMember gateway port a ∧
    (∃ ssl, previous.HadPublic gateway ssl) ∧ ∀ ssl, previous.AllPublic gateway ssl

def encryptedRow : HostnameInfo where
  ssl := true
  isPublic := true
  hostname := "smp.example.com"
  port := some 443
  metadata := .publicDomain "eth0"

def plainRow : HostnameInfo where
  ssl := false
  isPublic := true
  hostname := "smp.example.com"
  port := some 5223
  metadata := .publicDomain "eth0"

/-- A domain that is off with encryption and on without. -/
def encryptedOff : DerivedAddressInfo where
  disabled := {encryptedRow.overrideKey}
  available := [encryptedRow, plainRow]

/-- The row without encryption stays on beside the one that is off. -/
theorem plain_row_stays_on : ¬(encryptedOff.refresh [encryptedRow, plainRow]).PublicOnlyFor
    (ExposedApart encryptedOff (encryptedOff.refresh [encryptedRow, plainRow])) := by
  intro h
  have hon : plainRow ∈ (encryptedOff.refresh [encryptedRow, plainRow]).enabledRows := by
    decide +kernel
  obtain ⟨hip, -⟩ | ⟨-, hssl, -⟩ | ⟨gateway, port, hmember, -, hall⟩ := h plainRow hon (.inl rfl)
  · cases hip
  · cases hssl
  · obtain rfl : gateway = "eth0" := List.mem_singleton.mp hmember.mem_gateways
    have hoff := hall true encryptedRow (by decide +kernel) rfl rfl (by decide +kernel)
    exact absurd hoff (by decide +kernel)

end DerivedAddressInfo

end StartTech.Net

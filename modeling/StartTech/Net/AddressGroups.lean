import StartTech.Net.Address

/-!
# What the group operations write

Each operation on the rows of a gateway and a port leaves the rows as they are. For each set of
overrides it is said which members it has afterwards.
-/

namespace StartTech.Net

namespace HostnameInfo

variable {a : HostnameInfo} {gua : SocketAddrV6}

theorem toSocketAddr_eq_v6 : a.toSocketAddr = some (.v6 gua) ↔
    parseIp a.hostname = some (.v6 gua.ip) ∧ a.port = some gua.port := by
  unfold toSocketAddr
  constructor
  · intro h
    obtain ⟨ip, hip, h⟩ := Option.bind_eq_some_iff.mp h
    obtain ⟨port, hport, h⟩ := Option.bind_eq_some_iff.mp h
    have heq : SocketAddr.new ip port = .v6 gua := Option.some.inj h
    cases ip with
    | v4 ip => cases heq
    | v6 ip =>
      obtain rfl := SocketAddr.v6.inj heq
      exact ⟨hip, hport⟩
  · rintro ⟨hip, hport⟩
    rw [hip, hport]
    rfl

theorem gua_eq_some : a.gua = some gua ↔ (∃ gateway scope, a.metadata = .ipv6 gateway scope) ∧
    parseIp a.hostname = some (.v6 gua.ip) ∧ gua.ip.isLocal = false ∧ a.port = some gua.port := by
  unfold HostnameInfo.gua
  constructor
  · intro h
    split at h
    · rename_i gateway scope ip hmeta hip
      split at h
      · cases h
      · rename_i hlocal
        obtain ⟨port, hport, rfl⟩ := Option.map_eq_some_iff.mp h
        exact ⟨⟨gateway, scope, hmeta⟩, hip, Bool.eq_false_iff.mpr hlocal, hport⟩
    · cases h
  · rintro ⟨⟨gateway, scope, hmeta⟩, hip, hlocal, hport⟩
    simp [hmeta, hip, hlocal, hport]

theorem isIp_of_gua (h : a.gua = some gua) : a.metadata.isIp = true := by
  obtain ⟨⟨gateway, scope, hmeta⟩, -⟩ := gua_eq_some.mp h
  rw [hmeta]
  rfl

theorem toSocketAddr_of_gua (h : a.gua = some gua) : a.toSocketAddr = some (.v6 gua) := by
  obtain ⟨-, hip, -, hport⟩ := gua_eq_some.mp h
  exact toSocketAddr_eq_v6.mpr ⟨hip, hport⟩

end HostnameInfo

namespace DerivedAddressInfo

/-- What every step of an iteration keeps, the iteration keeps. -/
theorem foldl_keeps {α β γ : Type*} {f : α → β → α} {proj : α → γ} {l : List β}
    (h : ∀ a b, proj (f a b) = proj a) (a : α) : proj (l.foldl f a) = proj a := by
  induction l generalizing a with
  | nil => rfl
  | cons b rest ih => rw [List.foldl_cons, ih, h]

section Switched

variable {α : Type*} [DecidableEq α] {s : Finset α} {l : List α} {present : Bool} {a x : α}

/-- A set into which the elements of a list have been put, or out of which they have been taken. -/
def switched (l : List α) (present : Bool) (s : Finset α) : Finset α :=
  if present then s ∪ l.toFinset else s \ l.toFinset

@[simp] theorem mem_switched :
    x ∈ switched l present s ↔ (x ∈ l ∧ present = true) ∨ (x ∉ l ∧ x ∈ s) := by
  by_cases h : x ∈ l
  · cases present <;> simp [switched, h]
  · cases present <;> simp [switched, h]

theorem switched_nil : switched [] present s = s := by
  ext x
  simp

theorem switched_cons : switched l present (switched [a] present s) = switched (a :: l) present s := by
  ext x
  by_cases h : x = a
  · by_cases hl : x ∈ l <;> simp [hl]
  · simp [h]

end Switched

section Overrides

variable (d : DerivedAddressInfo) (on : Bool)

@[simp] theorem setLanIp_eq (key : OverrideKey) : d.setLanIp key on = { d with
      disabled := switched [key] (!on) d.disabled
      lanEnabled := switched [key] on d.lanEnabled } := by
  cases on <;> simp [setLanIp, switched, Finset.sdiff_singleton_eq_erase]

@[simp] theorem setName_eq (key : OverrideKey) :
    d.setName key on = { d with disabled := switched [key] (!on) d.disabled } := by
  cases on <;> simp [setName, switched, Finset.sdiff_singleton_eq_erase]

@[simp] theorem setPublicIp_eq (sa : SocketAddr) :
    d.setPublicIp sa on = { d with enabled := switched [sa] on d.enabled } := by
  cases on <;> simp [setPublicIp, switched, Finset.sdiff_singleton_eq_erase]

@[simp] theorem setGuaWan_eq (gua : SocketAddrV6) :
    d.setGuaWan gua on = { d with guaWan := switched [gua] on d.guaWan } := by
  cases on <;> simp [setGuaWan, switched, Finset.sdiff_singleton_eq_erase]

/-- The overrides of names at a gateway and a port have been switched. -/
def switchedNames (keys : List OverrideKey) : DerivedAddressInfo :=
  keys.foldl (fun d key => d.setName key on) d

@[simp] theorem switchedNames_eq (keys : List OverrideKey) :
    d.switchedNames on keys = { d with disabled := switched keys (!on) d.disabled } := by
  induction keys generalizing d with
  | nil => rw [switched_nil]; rfl
  | cons key rest ih => exact (ih _).trans (by simp only [setName_eq, switched_cons])

/-- The public addresses at a gateway and a port have been switched. -/
def switchedIps (sas : List SocketAddr) : DerivedAddressInfo :=
  sas.foldl (fun d sa => d.setPublicIp sa on) d

@[simp] theorem switchedIps_eq (sas : List SocketAddr) :
    d.switchedIps on sas = { d with enabled := switched sas on d.enabled } := by
  induction sas generalizing d with
  | nil => rw [switched_nil]; rfl
  | cons sa rest ih => exact (ih _).trans (by simp only [setPublicIp_eq, switched_cons])

/-- The global addresses at a gateway and a port have been opted in or out. -/
def switchedGuas (guas : List SocketAddrV6) : DerivedAddressInfo :=
  guas.foldl (fun d gua => d.setGuaWan gua on) d

@[simp] theorem switchedGuas_eq (guas : List SocketAddrV6) :
    d.switchedGuas on guas = { d with guaWan := switched guas on d.guaWan } := by
  induction guas generalizing d with
  | nil => rw [switched_nil]; rfl
  | cons gua rest ih => exact (ih _).trans (by simp only [setGuaWan_eq, switched_cons])

/-- The private addresses at a gateway and a port have been switched. -/
def switchedLanIps (keys : List OverrideKey) : DerivedAddressInfo :=
  keys.foldl (fun d key => d.setLanIp key on) d

@[simp] theorem switchedLanIps_eq (keys : List OverrideKey) : d.switchedLanIps on keys = { d with
      disabled := switched keys (!on) d.disabled
      lanEnabled := switched keys on d.lanEnabled } := by
  induction keys generalizing d with
  | nil => rw [switched_nil, switched_nil]; rfl
  | cons key rest ih => exact (ih _).trans (by simp only [setLanIp_eq, switched_cons])

end Overrides

section Groups

variable (d : DerivedAddressInfo) (gateway : GatewayId) (port : UInt16) (lanOn : Bool)
  {key : OverrideKey}

theorem mem_plainRows {a : HostnameInfo} :
    a ∈ d.plainRows port ↔ a ∈ d.available ∧ a.ssl = false ∧ a.port = some port := by
  simp [plainRows]

theorem mem_guasAt {x : SocketAddrV6 × String} : x ∈ d.guasAt gateway port ↔
    ∃ a ∈ d.plainRows port, (∃ scope, a.metadata = .ipv6 gateway scope) ∧ a.gua = some x.1 ∧
      a.hostname = x.2 := by
  constructor
  · intro h
    obtain ⟨a, ha, hx⟩ := List.mem_filterMap.mp h
    refine ⟨a, ha, ?_⟩
    cases hmeta : a.metadata with
    | ipv6 gw scope =>
      rw [hmeta] at hx
      dsimp only at hx
      split at hx
      · rename_i hgw
        obtain ⟨gua, hgua, rfl⟩ := Option.map_eq_some_iff.mp hx
        exact ⟨⟨scope, hgw ▸ rfl⟩, hgua, rfl⟩
      · cases hx
    | ipv4 _ | mdns _ | privateDomain _ | publicDomain _ | plugin _ =>
      rw [hmeta] at hx
      cases hx
  · rintro ⟨a, ha, ⟨scope, hmeta⟩, hgua, hname⟩
    refine List.mem_filterMap.mpr ⟨a, ha, ?_⟩
    rw [hmeta]
    dsimp only
    rw [if_pos rfl, hgua, Option.map_some, hname]

section

variable (x : SocketAddrV6 × String)
include x

@[simp] theorem resolveGua_available : (resolveGua lanOn port d x).available = d.available := by
  unfold resolveGua
  split
  · rfl
  · simp

@[simp] theorem resolveGua_guaWan : (resolveGua lanOn port d x).guaWan = d.guaWan := by
  unfold resolveGua
  split
  · rfl
  · simp

theorem mem_resolveGua_enabled (sa : SocketAddr) : sa ∈ (resolveGua lanOn port d x).enabled ↔
      if sa = .v6 x.1 then x.1 ∈ d.guaWan else sa ∈ d.enabled := by
  unfold resolveGua
  by_cases hwan : x.1 ∈ d.guaWan
  · by_cases hsa : sa = .v6 x.1
    · simp [hwan, hsa]
    · simp [hwan, hsa]
  · by_cases hsa : sa = .v6 x.1
    · simp [hwan]
    · simp [hwan, hsa]

theorem mem_resolveGua_disabled
    (hkey : key ≠ (x.2, port)) : key ∈ (resolveGua lanOn port d x).disabled ↔ key ∈ d.disabled := by
  unfold resolveGua
  split
  · simp [hkey]
  · simp [hkey]

end

variable (l : List (SocketAddrV6 × String))

/-- By induction on the addresses; the opted ones stay the same throughout. -/
theorem mem_foldl_resolveGua_enabled (sa : SocketAddr) :
    sa ∈ (l.foldl (resolveGua lanOn port) d).enabled ↔
      (∃ x ∈ l, sa = .v6 x.1 ∧ x.1 ∈ d.guaWan) ∨ (sa ∈ d.enabled ∧ ∀ x ∈ l, sa ≠ .v6 x.1) := by
  induction l generalizing d with
  | nil => simp
  | cons x rest ih =>
    rw [List.foldl_cons, ih, resolveGua_guaWan, mem_resolveGua_enabled]
    by_cases hsa : sa = .v6 x.1
    · subst hsa
      simp only [if_true, List.mem_cons, exists_eq_or_imp, true_and, ne_eq, forall_eq_or_imp,
        not_true, false_and, and_false, or_false]
      constructor
      · rintro (⟨y, hy, heq, hwan⟩ | ⟨hwan, -⟩)
        · exact .inr ⟨y, hy, heq, hwan⟩
        · exact .inl hwan
      · rintro (hwan | ⟨y, hy, heq, hwan⟩)
        · by_cases hrest : ∃ y ∈ rest, SocketAddr.v6 x.1 = .v6 y.1
          · obtain ⟨y, hy, heq⟩ := hrest
            exact .inl ⟨y, hy, heq, SocketAddr.v6.inj heq ▸ hwan⟩
          · exact .inr ⟨hwan, fun y hy heq => hrest ⟨y, hy, heq⟩⟩
        · exact .inl ⟨y, hy, heq, hwan⟩
    · simp [hsa]

theorem mem_foldl_resolveGua_disabled (hkey : ∀ x ∈ l, key ≠ (x.2, port)) :
    key ∈ (l.foldl (resolveGua lanOn port) d).disabled ↔ key ∈ d.disabled := by
  induction l generalizing d with
  | nil => rfl
  | cons x rest ih =>
    obtain ⟨hx, hrest⟩ := List.forall_mem_cons.mp hkey
    rw [List.foldl_cons, ih _ hrest, mem_resolveGua_disabled d port lanOn x hx]

@[simp] theorem resolveNonsslGua_available :
    (d.resolveNonsslGua gateway port).available = d.available :=
  foldl_keeps (fun d x => resolveGua_available d port _ x) d

@[simp] theorem resolveNonsslGua_guaWan : (d.resolveNonsslGua gateway port).guaWan = d.guaWan :=
  foldl_keeps (fun d x => resolveGua_guaWan d port _ x) d

theorem guasAt_congr {d d' : DerivedAddressInfo} (h : d'.available = d.available)
    (gateway : GatewayId) (port : UInt16) : d'.guasAt gateway port = d.guasAt gateway port := by
  rw [guasAt, guasAt, plainRows, plainRows, h]

end Groups

variable (d : DerivedAddressInfo) (gateway : GatewayId) (port : UInt16) (on : Bool)
  {key : OverrideKey}

/-- One of the global addresses at a gateway and a port. -/
def HasGua (sa : SocketAddr) : Prop := ∃ x ∈ d.guasAt gateway port, sa = .v6 x.1

theorem mem_resolveNonsslGua_enabled (sa : SocketAddr) :
    sa ∈ (d.resolveNonsslGua gateway port).enabled ↔
      (∃ x ∈ d.guasAt gateway port, sa = .v6 x.1 ∧ x.1 ∈ d.guaWan) ∨
        (sa ∈ d.enabled ∧ ¬d.HasGua gateway port sa) := by
  rw [resolveNonsslGua, mem_foldl_resolveGua_enabled]
  simp [HasGua]

theorem mem_resolveNonsslGua_disabled (hkey : ∀ x ∈ d.guasAt gateway port, key ≠ (x.2, port)) :
    key ∈ (d.resolveNonsslGua gateway port).disabled ↔ key ∈ d.disabled :=
  mem_foldl_resolveGua_disabled d port _ _ hkey

/-- A public group before its global addresses are resolved. -/
def switchedWan : DerivedAddressInfo :=
  ((d.switchedNames on (d.publicDomainKeys gateway port)).switchedIps on
    (d.publicIpv4s gateway port)).switchedGuas on ((d.guasAt gateway port).map Prod.fst)

theorem setNonsslWanGroup_eq : d.setNonsslWanGroup gateway port on =
    (d.switchedWan gateway port on).resolveNonsslGua gateway port := rfl

@[simp] theorem switchedWan_available :
    (d.switchedWan gateway port on).available = d.available := by
  simp [switchedWan]

@[simp] theorem setNonsslWanGroup_available :
    (d.setNonsslWanGroup gateway port on).available = d.available := by
  simp [setNonsslWanGroup_eq]

theorem mem_switchedWan_guaWan (gua : SocketAddrV6) : gua ∈ (d.switchedWan gateway port on).guaWan ↔
      (d.HasGua gateway port (.v6 gua) ∧ on = true) ∨
        (¬d.HasGua gateway port (.v6 gua) ∧ gua ∈ d.guaWan) := by
  have hiff : gua ∈ (d.guasAt gateway port).map Prod.fst ↔ d.HasGua gateway port (.v6 gua) := by
    constructor
    · intro h
      obtain ⟨x, hx, rfl⟩ := List.mem_map.mp h
      exact ⟨x, hx, rfl⟩
    · rintro ⟨x, hx, heq⟩
      exact List.mem_map.mpr ⟨x, hx, (SocketAddr.v6.inj heq).symm⟩
  rw [switchedWan, switchedGuas_eq, mem_switched, hiff]
  simp

/-- The global addresses of the group are opted in or out together. -/
theorem mem_setNonsslWanGroup_guaWan (gua : SocketAddrV6) :
    gua ∈ (d.setNonsslWanGroup gateway port on).guaWan ↔
      (d.HasGua gateway port (.v6 gua) ∧ on = true) ∨
        (¬d.HasGua gateway port (.v6 gua) ∧ gua ∈ d.guaWan) := by
  rw [setNonsslWanGroup_eq, resolveNonsslGua_guaWan, mem_switchedWan_guaWan]

/-- The public addresses of the group are on or off together. -/
theorem mem_setNonsslWanGroup_enabled (sa : SocketAddr) :
    sa ∈ (d.setNonsslWanGroup gateway port on).enabled ↔
      ((sa ∈ d.publicIpv4s gateway port ∨ d.HasGua gateway port sa) ∧ on = true) ∨
        (sa ∉ d.publicIpv4s gateway port ∧ ¬d.HasGua gateway port sa ∧ sa ∈ d.enabled) := by
  have hguas := guasAt_congr (d.switchedWan_available gateway port on) gateway port
  have henabled : sa ∈ (d.switchedWan gateway port on).enabled ↔
      (sa ∈ d.publicIpv4s gateway port ∧ on = true) ∨
        (sa ∉ d.publicIpv4s gateway port ∧ sa ∈ d.enabled) := by
    simp [switchedWan]
  rw [setNonsslWanGroup_eq, mem_resolveNonsslGua_enabled, HasGua, hguas, henabled]
  by_cases hgua : d.HasGua gateway port sa
  · have hopted : (∃ x ∈ d.guasAt gateway port, sa = .v6 x.1 ∧
        x.1 ∈ (d.switchedWan gateway port on).guaWan) ↔ on = true := by
      constructor
      · rintro ⟨x, hx, rfl, hwan⟩
        simpa [hgua] using (mem_switchedWan_guaWan d gateway port on x.1).mp hwan
      · intro hon
        obtain ⟨x, hx, rfl⟩ := hgua
        exact ⟨x, hx, rfl, (mem_switchedWan_guaWan d gateway port on x.1).mpr
          (.inl ⟨⟨x, hx, rfl⟩, hon⟩)⟩
    rw [hopted]
    simp [show (∃ x ∈ d.guasAt gateway port, sa = .v6 x.1) from hgua, hgua]
  · have hnone : ¬∃ x ∈ d.guasAt gateway port, sa = .v6 x.1 ∧
        x.1 ∈ (d.switchedWan gateway port on).guaWan := by
      rintro ⟨x, hx, heq, -⟩
      exact hgua ⟨x, hx, heq⟩
    have hnone' : ¬∃ x ∈ d.guasAt gateway port, sa = .v6 x.1 := hgua
    simp [hnone, hnone', hgua]

/-- The names of the group are on or off together. -/
theorem mem_setNonsslWanGroup_disabled (hkey : ∀ x ∈ d.guasAt gateway port, key ≠ (x.2, port)) :
    key ∈ (d.setNonsslWanGroup gateway port on).disabled ↔
      (key ∈ d.publicDomainKeys gateway port ∧ on = false) ∨
        (key ∉ d.publicDomainKeys gateway port ∧ key ∈ d.disabled) := by
  have hguas := guasAt_congr (d.switchedWan_available gateway port on) gateway port
  rw [setNonsslWanGroup_eq, mem_resolveNonsslGua_disabled _ _ _ (by rwa [hguas])]
  simp [switchedWan]

/-- A private group before its global addresses are resolved. -/
def switchedLan : DerivedAddressInfo :=
  (d.switchedNames on (d.privateDomainKeys gateway port)).switchedLanIps on
    (d.lanIpv4Keys gateway port)

theorem setNonsslLanGroup_eq : d.setNonsslLanGroup gateway port on =
    (d.switchedLan gateway port on).resolveNonsslGua gateway port := rfl

@[simp] theorem switchedLan_available :
    (d.switchedLan gateway port on).available = d.available := by
  simp [switchedLan]

@[simp] theorem switchedLan_guaWan : (d.switchedLan gateway port on).guaWan = d.guaWan := by
  simp [switchedLan]

@[simp] theorem setNonsslLanGroup_available :
    (d.setNonsslLanGroup gateway port on).available = d.available := by
  simp [setNonsslLanGroup_eq]

@[simp] theorem setNonsslLanGroup_guaWan :
    (d.setNonsslLanGroup gateway port on).guaWan = d.guaWan := by
  simp [setNonsslLanGroup_eq]

theorem mem_setNonsslLanGroup_enabled (sa : SocketAddr) :
    sa ∈ (d.setNonsslLanGroup gateway port on).enabled ↔
      (∃ x ∈ d.guasAt gateway port, sa = .v6 x.1 ∧ x.1 ∈ d.guaWan) ∨
        (sa ∈ d.enabled ∧ ¬d.HasGua gateway port sa) := by
  have hguas := guasAt_congr (d.switchedLan_available gateway port on) gateway port
  rw [setNonsslLanGroup_eq, mem_resolveNonsslGua_enabled, HasGua, hguas]
  simp [switchedLan, HasGua]

variable (guaWan : Finset SocketAddrV6) (a : HostnameInfo)

/-- Projecting a row writes nothing but its flag. -/
theorem projectRow_eq : ∃ isPublic, projectRow guaWan a = { a with isPublic := isPublic } := by
  unfold projectRow
  split
  · exact ⟨_, rfl⟩
  · exact ⟨a.isPublic, rfl⟩

@[simp] theorem projectRow_fields : (projectRow guaWan a).ssl = a.ssl ∧
    (projectRow guaWan a).hostname = a.hostname ∧ (projectRow guaWan a).port = a.port ∧
    (projectRow guaWan a).metadata = a.metadata := by
  obtain ⟨isPublic, h⟩ := projectRow_eq guaWan a
  simp [h]

@[simp] theorem projectRow_gua : (projectRow guaWan a).gua = a.gua := by
  simp [HostnameInfo.gua]

@[simp] theorem projectRow_toSocketAddr : (projectRow guaWan a).toSocketAddr = a.toSocketAddr := by
  simp [HostnameInfo.toSocketAddr]

theorem projectRow_of_none (h : a.gua = none) : projectRow guaWan a = a := by
  rw [projectRow, h]

@[simp] theorem projectRow_projectRow (guaWan' : Finset SocketAddrV6) :
    projectRow guaWan (projectRow guaWan' a) = projectRow guaWan a := by
  cases hgua : a.gua with
  | none => rw [projectRow_of_none guaWan' a hgua]
  | some gua =>
    obtain ⟨isPublic, h⟩ := projectRow_eq guaWan' a
    have hgua' : (projectRow guaWan' a).gua = some gua := by rw [projectRow_gua, hgua]
    rw [projectRow, hgua', h, projectRow, hgua]

end DerivedAddressInfo

end StartTech.Net

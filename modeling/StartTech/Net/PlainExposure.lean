import StartTech.Net.Datapath

/-!
# Exposure of ports without encryption

A forward of a port is open to everybody at a gateway if some public row of its binding stands at
the port and the gateway, of whichever version its address is. A public global address of the sixth
version therefore opens the forward of the fourth version at its gateway. Where every gateway with
such an address has a public row of the fourth version or a public domain as well, exposure follows
the switches of its own version.
-/

namespace StartTech.Net

open Foundation
open OrderedMap (insertAll)

namespace InterfaceForwardEntry

variable {entry : InterfaceForwardEntry} {ifaces : InterfaceMap} {call : ForwardCall}
  {keep : List Ipv4Addr} {visits : List (GatewayId × NetworkInterfaceInfo × IpNet)}
  {visit : GatewayId × NetworkInterfaceInfo × IpNet} {ip : Ipv4Addr} {gateway : GatewayId}
  {info : NetworkInterfaceInfo} {subnet : IpNet}

theorem attempt_eq_some :
    entry.attempt keep visit = some (ip, call) ↔ visit.2.2.addr = .v4 ip ∧ ip ∉ keep ∧
      entry.select visit.1 visit.2.1 visit.2.2 ip = some call := by
  unfold attempt
  cases haddr : visit.2.2.addr with
  | v6 _ => simp
  | v4 ip' =>
    dsimp only
    split
    · rename_i hkeep
      simp only [reduceCtorEq, IpAddr.v4.injEq, false_iff, not_and]
      rintro rfl hnot
      exact absurd (List.contains_iff_mem.mp hkeep) hnot
    · rename_i hkeep
      simp only [Option.map_eq_some_iff, Prod.mk.injEq, IpAddr.v4.injEq]
      constructor
      · rintro ⟨call', hselect, rfl, rfl⟩
        exact ⟨rfl, fun h => hkeep (List.contains_iff_mem.mpr h), hselect⟩
      · rintro ⟨rfl, -, hselect⟩
        exact ⟨call, hselect, rfl, rfl⟩

theorem select_source (h : entry.select gateway info subnet ip = some call) :
    call.gateway = gateway ∧ call.rule.source = ⟨ip, entry.external⟩ := by
  obtain ⟨t, -, ht⟩ := List.exists_of_findSome?_eq_some h
  obtain ⟨srcFilter, -, rfl⟩ := Option.map_eq_some_iff.mp ht
  exact ⟨rfl, rfl⟩

/-- A call is made for one of the addresses that are visited. -/
theorem exists_visit (h : call ∈ entry.callsFrom keep visits) : ∃ visit ∈ visits, ∃ ip,
    visit.2.2.addr = .v4 ip ∧ entry.select visit.1 visit.2.1 visit.2.2 ip = some call := by
  induction visits generalizing keep with
  | nil => cases h
  | cons visit rest ih =>
    rw [callsFrom] at h
    split at h
    · obtain ⟨visit', hmem, hcall⟩ := ih h
      exact ⟨visit', List.mem_cons_of_mem _ hmem, hcall⟩
    · rename_i ip call' hattempt
      obtain ⟨haddr, -, hselect⟩ := attempt_eq_some.mp hattempt
      obtain rfl | h := List.mem_cons.mp h
      · exact ⟨visit, List.mem_cons_self, ip, haddr, hselect⟩
      · obtain ⟨visit', hmem, hcall⟩ := ih h
        exact ⟨visit', List.mem_cons_of_mem _ hmem, hcall⟩

/-- An address for which a call can be made is in one, unless it was in one before. -/
theorem exists_call (hvisit : visit ∈ visits) (haddr : visit.2.2.addr = .v4 ip) (hkeep : ip ∉ keep)
    (hselect : (entry.select visit.1 visit.2.1 visit.2.2 ip).isSome = true) :
    ∃ call ∈ entry.callsFrom keep visits, call.rule.source.ip = ip := by
  induction visits generalizing keep with
  | nil => cases hvisit
  | cons first rest ih =>
    rw [callsFrom]
    split
    · rename_i hnone
      obtain rfl | hrest := List.mem_cons.mp hvisit
      · obtain ⟨call, hcall⟩ := Option.isSome_iff_exists.mp hselect
        rw [attempt_eq_some.mpr ⟨haddr, hkeep, hcall⟩] at hnone
        cases hnone
      · exact ih hrest hkeep
    · rename_i ip' call hattempt
      obtain ⟨haddr', -, hselect'⟩ := attempt_eq_some.mp hattempt
      by_cases heq : ip' = ip
      · refine ⟨call, List.mem_cons_self, ?_⟩
        rw [(select_source hselect').2, heq]
      · obtain rfl | hrest := List.mem_cons.mp hvisit
        · rw [haddr] at haddr'
          exact absurd (IpAddr.v4.inj haddr').symm heq
        · have hkeep' : ip ∉ ip' :: keep := by simp [Ne.symm heq, hkeep]
          obtain ⟨call', hmem, hsrc⟩ := ih hrest hkeep'
          exact ⟨call', List.mem_cons_of_mem _ hmem, hsrc⟩

theorem mem_visits : (gateway, info, subnet) ∈ InterfaceForwardEntry.visits ifaces ↔
      (gateway, info) ∈ ifaces.entries ∧ subnet ∈ info.subnets := by
  constructor
  · intro h
    obtain ⟨⟨g, i⟩, he, hsubnet⟩ := List.mem_flatMap.mp h
    obtain ⟨s, hs, heq⟩ := List.mem_map.mp hsubnet
    cases heq
    exact ⟨he, hs⟩
  · rintro ⟨he, hsubnet⟩
    exact List.mem_flatMap.mpr ⟨_, he, List.mem_map.mpr ⟨subnet, hsubnet, rfl⟩⟩

end InterfaceForwardEntry

open InterfaceForwardEntry

section Reconciled

variable {ifaces : InterfaceMap} {accepts : Rule → Bool} {call : ForwardCall}
  {forwards : List (UInt16 × InterfaceForward)} {e : UInt16 × InterfaceForward}
  {gateway : GatewayId} {reqs : ForwardRequirements}

theorem exists_of_mem_reconcile (h : call ∈ (reconcile ifaces accepts forwards).calls) :
    ∃ e ∈ forwards, call ∈ (entryFor ifaces e).calls ifaces := by
  induction forwards with
  | nil => cases h
  | cons e rest ih =>
    rw [reconcile] at h
    split at h
    · obtain h | h := List.mem_append.mp h
      · exact ⟨e, List.mem_cons_self, h⟩
      · obtain ⟨e', he', hcall⟩ := ih h
        exact ⟨e', List.mem_cons_of_mem _ he', hcall⟩
    · exact ⟨e, List.mem_cons_self, (List.takeWhile_sublist _).subset h⟩

/-- Mappings are asked for only where a forward was installed. -/
theorem mem_calls_of_mem_mapped (h : call ∈ (reconcile ifaces accepts forwards).mapped) :
    call ∈ (reconcile ifaces accepts forwards).calls ∧ call.isOpen = true := by
  induction forwards with
  | nil => cases h
  | cons e rest ih =>
    rw [reconcile] at h ⊢
    split at h
    · rename_i hall
      rw [if_pos hall]
      obtain h | h := List.mem_append.mp h
      · obtain ⟨hmem, hopen⟩ := List.mem_filter.mp h
        exact ⟨List.mem_append_left _ hmem, hopen⟩
      · obtain ⟨hmem, hopen⟩ := ih h
        exact ⟨List.mem_append_right _ hmem, hopen⟩
    · cases h

/-- Without a failure every call is made. -/
theorem mem_reconcile_of_mem (he : e ∈ forwards) (h : call ∈ (entryFor ifaces e).calls ifaces) :
    call ∈ (reconcile ifaces (fun _ => true) forwards).calls := by
  induction forwards with
  | nil => cases he
  | cons first rest ih =>
    rw [reconcile]
    rw [if_pos (List.all_eq_true.mpr fun _ _ => rfl)]
    obtain rfl | he := List.mem_cons.mp he
    · exact List.mem_append_left _ h
    · exact List.mem_append_right _ (ih he)

/-- For whom the one target of an entry is forwarded. -/
theorem select_entryFor {info : NetworkInterfaceInfo} {subnet : IpNet} {ip : Ipv4Addr} :
    (entryFor ifaces e).select gateway info subnet ip =
      (ForwardTarget.filter ⟨e.2.reqs, e.2.target, targetPrefix ifaces e.2.target.ip, true⟩ gateway
        info subnet ip).map fun srcFilter => ⟨gateway, ⟨ip, e.1⟩, e.2.target, e.2.count,
          targetPrefix ifaces e.2.target.ip, srcFilter⟩ := by
  rw [select, entryFor, List.findSome?_singleton]

/-- A call for everybody is made for a gateway at which the forward is public. -/
theorem publicOn_of_isOpen (h : call ∈ (entryFor ifaces e).calls ifaces)
    (hopen : call.isOpen = true) :
    e.2.reqs.publicOn call.gateway = true ∧ call.rule.source.port = e.1 ∧
      ∃ info subnet, (call.gateway, info) ∈ ifaces.entries ∧ subnet ∈ info.subnets ∧
        subnet.addr = .v4 call.rule.source.ip := by
  obtain ⟨⟨gateway, info, subnet⟩, hvisit, ip, haddr, hselect⟩ :=
    exists_visit h
  obtain ⟨hmem, hsubnet⟩ := mem_visits.mp hvisit
  rw [select_entryFor] at hselect
  obtain ⟨srcFilter, hfilter, rfl⟩ := Option.map_eq_some_iff.mp hselect
  refine ⟨?_, rfl, info, subnet, hmem, hsubnet, haddr⟩
  obtain rfl : srcFilter = none := Option.isNone_iff_eq_none.mp hopen
  unfold ForwardTarget.filter at hfilter
  split at hfilter
  · cases hfilter
  · split at hfilter
    · cases hfilter
    · split at hfilter
      · rename_i hpub
        exact hpub
      · split at hfilter
        · cases hfilter
        · cases hfilter

/-- Where a forward is public, the call is for everybody. -/
theorem filter_of_publicOn (h : reqs.publicOn gateway = true)
    (target : SocketAddrV4) (targetPrefix : UInt8) (info : NetworkInterfaceInfo) (subnet : IpNet)
    (ip : Ipv4Addr) :
    ForwardTarget.filter ⟨reqs, target, targetPrefix, true⟩ gateway info subnet ip = some none := by
  have hsecure : reqs.secure = true := (Bool.and_eq_true_iff.mp h).1
  simp [ForwardTarget.filter, h, ForwardRequirements.allowsGateway, hsecure]

end Reconciled

variable (ifaces : InterfaceMap) (container : Container)

/-- The forward that a binding asks for. -/
def bindRequest (e : UInt16 × BindInfo) : Option (UInt16 × InterfaceForward) :=
  if e.2.enabled && !e.2.options.proxy && !container.ip.isLoopback then
    e.2.net.assignedPort.map fun external =>
      (external, ⟨⟨container.ip, e.1⟩, 1, requirementsAt ifaces e.2 external⟩)
  else none

/-- The forward that a range asks for. -/
def rangeRequest (e : UInt16 × RangeBindInfo) : Option (UInt16 × InterfaceForward) :=
  let reqs := rangeRequirements ifaces e.2
  if e.2.enabled && !reqs.isEmpty then
    some (e.2.externalStartPort, ⟨⟨container.ip, e.1⟩, e.2.numberOfPorts, reqs⟩)
  else none

def requests (host : Host) : List (UInt16 × InterfaceForward) :=
  host.bindings.filterMap (bindRequest ifaces container) ++
    host.bindingRanges.filterMap (rangeRequest ifaces container)

/-- Put in a forward that was asked for. -/
def putForward (forwards : List (UInt16 × InterfaceForward)) :
    Option (UInt16 × InterfaceForward) → List (UInt16 × InterfaceForward)
  | some e => OrderedMap.insert e.1 e.2 forwards
  | none => forwards

theorem addBinding_forwards (d : Datapath) (e : UInt16 × BindInfo) :
    (addBinding ifaces container d e).forwards =
      putForward d.forwards (bindRequest ifaces container e) := by
  obtain ⟨internal, enabled, ⟨addSsl, secure, proxy⟩, ⟨port, sslPort⟩, addresses, exported⟩ := e
  unfold addBinding bindRequest
  cases enabled with
  | false => rfl
  | true =>
    cases port with
    | none => cases sslPort <;> cases proxy <;> cases container.ip.isLoopback <;> rfl
    | some external =>
      unfold addPlain
      cases sslPort <;> cases proxy <;> cases container.ip.isLoopback <;> rfl

theorem addRange_forwards (d : Datapath) (e : UInt16 × RangeBindInfo) :
    (addRange ifaces container d e).forwards =
      putForward d.forwards (rangeRequest ifaces container e) := by
  unfold addRange rangeRequest
  dsimp only
  cases e.2.enabled with
  | false => rfl
  | true => cases (rangeRequirements ifaces e.2).isEmpty <;> rfl

theorem foldl_forwards {β : Type*} {f : Datapath → β → Datapath}
    {request : β → Option (UInt16 × InterfaceForward)}
    (h : ∀ d e, (f d e).forwards = putForward d.forwards (request e)) (l : List β) (d : Datapath) :
    (l.foldl f d).forwards = insertAll d.forwards (l.filterMap request) := by
  induction l generalizing d with
  | nil => rfl
  | cons e rest ih =>
    rw [List.foldl_cons, ih, h]
    cases hreq : request e with
    | none => rw [List.filterMap_cons_none hreq, putForward]
    | some r =>
      rw [List.filterMap_cons_some hreq, putForward, insertAll, insertAll, List.foldl_cons]

/-- The forwards are those that were asked for, in the order of their ports. -/
theorem update_forwards (host : Host) : (update ifaces container host).forwards =
    insertAll [] (requests ifaces container host) := by
  rw [update, foldl_forwards (addRange_forwards ifaces container),
    foldl_forwards (addBinding_forwards ifaces container), requests, insertAll,
    insertAll, insertAll, List.foldl_append]

theorem sorted_forwards (host : Host) :
    OrderedMap.Sorted (update ifaces container host).forwards := by
  rw [update_forwards]
  exact OrderedMap.Sorted.insertAll .nil _

section Exposure

variable (host : Host)

/-- A row that makes a gateway public for addresses of the fourth version. -/
def HostnameInfo.opensV4 (a : HostnameInfo) : Bool :=
  match a.metadata with
  | .ipv4 _ => a.isPublic
  | .publicDomain _ => true
  | _ => false

/-- Rows of a binding that are on, at a port and a gateway. -/
def BindInfo.RowAt (bind : BindInfo) (external : UInt16) (gateway : GatewayId)
    (a : HostnameInfo) : Prop :=
  a ∈ bind.enabledAddresses ∧ a.port = some external ∧ gateway ∈ a.metadata.gateways

/-- A public row of a binding has the address of a forward. -/
def BindInfo.Publishes (bind : BindInfo) (f : GuaKey × GuaForward) : Prop :=
  ∃ a ∈ bind.enabledAddresses, a.isPublic = true ∧ a.gua = some ⟨f.1.1, f.1.2⟩

/-- Exposure of ports without encryption follows the switches of its own version: a forward of a
binding that is open to everybody, or for which a mapping is asked, has a row of the fourth version
or a public domain, and a global address is forwarded for everybody if its own row is public. -/
structure FollowsSwitches : Prop where
  v4 : ∀ accepts, ∀ e ∈ host.bindings, ∀ external forward,
    bindRequest ifaces container e = some (external, forward) →
    (external, forward) ∈ (update ifaces container host).forwards →
    ∀ call, call ∈ (reconcile ifaces accepts (update ifaces container host).forwards).calls ∧
        call.isOpen = true ∨
          call ∈ (reconcile ifaces accepts (update ifaces container host).forwards).mapped →
      call.rule.source.port = external → e.2.options.secure.isSome = true ∧
        ∃ a, e.2.RowAt external call.gateway a ∧ a.opensV4 = true
  v6 : ∀ f ∈ (update ifaces container host).guaForwards, f.2.srcFilter = none →
    ∃ e ∈ host.bindings, e.2.Publishes f

/-- A gateway has an address of the fourth version. -/
def HasV4 (gateway : GatewayId) (ip : Ipv4Addr) : Prop :=
  ∃ info subnet, (gateway, info) ∈ ifaces.entries ∧ subnet ∈ info.subnets ∧ subnet.addr = .v4 ip

/-- Wherever a secure binding has a public row at its port, it has one that is no address of the
sixth version. -/
def VersionsAgree : Prop :=
  ∀ e ∈ host.bindings, e.2.enabled = true → e.2.options.proxy = false →
    e.2.options.secure.isSome = true → container.ip.isLoopback = false →
    ∀ external, e.2.net.assignedPort = some external →
    ∀ gateway ip, HasV4 ifaces gateway ip → ∀ a, e.2.RowAt external gateway a →
      a.isPublic = true → ∃ b, e.2.RowAt external gateway b ∧ b.opensV4 = true

/-- Ports and addresses are given out once. -/
structure Allotted : Prop where
  ports : ((host.bindings.filterMap fun e => e.2.net.assignedPort) ++
    host.bindingRanges.map fun e => e.2.externalStartPort).Nodup
  addresses : ∀ gateway gateway' ip, HasV4 ifaces gateway ip → HasV4 ifaces gateway' ip →
    gateway = gateway'

variable {ifaces container host} {gateway : GatewayId} {external : UInt16} {e : UInt16 × BindInfo}
  {forwards : List (GuaKey × GuaForward)} {f : GuaKey × GuaForward} {r : UInt16 × InterfaceForward}
  {bind : BindInfo}

theorem mem_publicGateways {rows : List HostnameInfo} : gateway ∈ publicGateways rows ↔
      ∃ a ∈ rows, a.isPublic = true ∧ gateway ∈ a.metadata.gateways := by
  simp [publicGateways, and_assoc]

theorem publicOn_requirementsAt : (requirementsAt ifaces bind external).publicOn gateway = true ↔
      bind.options.secure.isSome = true ∧
        ∃ a, bind.RowAt external gateway a ∧ a.isPublic = true := by
  rw [ForwardRequirements.publicOn, Bool.and_eq_true, List.contains_iff_mem, requirementsAt,
    mem_publicGateways]
  simp only [List.mem_filter, beq_iff_eq]
  constructor
  · rintro ⟨hsecure, a, ⟨ha, hport⟩, hpub, hgw⟩
    exact ⟨hsecure, a, ⟨ha, hport, hgw⟩, hpub⟩
  · rintro ⟨hsecure, a, ⟨ha, hport, hgw⟩, hpub⟩
    exact ⟨hsecure, a, ⟨ha, hport⟩, hpub, hgw⟩

theorem bindRequest_eq_some {forward : InterfaceForward} :
    bindRequest ifaces container e = some (external, forward) ↔ e.2.enabled = true ∧
      e.2.options.proxy = false ∧ container.ip.isLoopback = false ∧
        e.2.net.assignedPort = some external ∧
          forward = ⟨⟨container.ip, e.1⟩, 1, requirementsAt ifaces e.2 external⟩ := by
  unfold bindRequest
  constructor
  · intro h
    split at h
    · rename_i hcond
      obtain ⟨port, hport, heq⟩ := Option.map_eq_some_iff.mp h
      obtain ⟨rfl, rfl⟩ := Prod.mk.inj heq
      simp only [Bool.and_eq_true, Bool.not_eq_true'] at hcond
      exact ⟨hcond.1.1, hcond.1.2, hcond.2, hport, rfl⟩
    · cases h
  · rintro ⟨henabled, hproxy, hloopback, hport, rfl⟩
    simp [henabled, hproxy, hloopback, hport]

/-- A global address is forwarded for everybody only for a public row. -/
theorem addGuaForward_public {reqs : ForwardRequirements} {internal : UInt16} {target : Ipv6Addr}
    {a : HostnameInfo} (h : f ∈ addGuaForward ifaces reqs external internal target forwards a)
    (hopen : f.2.srcFilter = none) :
    f ∈ forwards ∨ (a.isPublic = true ∧ a.gua = some ⟨f.1.1, f.1.2⟩) := by
  unfold addGuaForward at h
  split at h
  · exact .inl h
  · rename_i gua hgua
    split at h
    · exact .inl h
    · split at h
      · exact .inl h
      · rename_i srcFilter hfilter
        obtain rfl | h := OrderedMap.mem_insert h
        · refine .inr ⟨?_, hgua⟩
          obtain rfl : srcFilter = none := hopen
          unfold guaFilter at hfilter
          split at hfilter
          · rename_i hpub
            exact (Bool.and_eq_true_iff.mp hpub).1
          · split at hfilter
            · cases hfilter
            · obtain ⟨subnet, -, heq⟩ := Option.map_eq_some_iff.mp hfilter
              cases heq
        · exact .inl h

theorem addGuaForwards_public {internal : UInt16}
    (h : f ∈ addGuaForwards ifaces container bind external internal forwards)
    (hopen : f.2.srcFilter = none) : f ∈ forwards ∨ bind.Publishes f := by
  unfold addGuaForwards at h
  split at h
  · exact .inl h
  · rename_i target _
    have hfold : ∀ f ∈ bind.enabledAddresses.foldl (addGuaForward ifaces
        (requirementsAt ifaces bind external) external internal target) forwards,
        f.2.srcFilter = none → f ∈ forwards ∨ bind.Publishes f := by
      refine List.foldlRecOn (motive := fun m : List (GuaKey × GuaForward) =>
        ∀ f ∈ m, f.2.srcFilter = none → f ∈ forwards ∨ bind.Publishes f) _ _ ?_ ?_
      · exact fun f hf _ => .inl hf
      · intro m hm a ha f hf hopen
        obtain hf | hpub := addGuaForward_public hf hopen
        · exact hm f hf hopen
        · exact .inr ⟨a, ha, hpub⟩
    exact hfold f h hopen

theorem addBinding_guaForwards {d : Datapath}
    (h : f ∈ (addBinding ifaces container d e).guaForwards) (hopen : f.2.srcFilter = none) :
    f ∈ d.guaForwards ∨ e.2.Publishes f := by
  obtain ⟨internal, enabled, ⟨addSsl, secure, proxy⟩, ⟨port, sslPort⟩, addresses, exported⟩ := e
  cases enabled with
  | false => exact .inl h
  | true =>
    cases port with
    | none => cases sslPort <;> exact .inl h
    | some external =>
      cases proxy with
      | true => cases sslPort <;> exact .inl h
      | false => cases sslPort <;> exact addGuaForwards_public h hopen

theorem update_guaForwards (host : Host) : (update ifaces container host).guaForwards =
    (host.bindings.foldl (addBinding ifaces container) {}).guaForwards := by
  refine DerivedAddressInfo.foldl_keeps (fun d e => ?_) _
  unfold addRange
  dsimp only
  split
  · rfl
  · split <;> rfl

/-- By induction on the bindings. -/
theorem update_guaForwards_public (h : f ∈ (update ifaces container host).guaForwards)
    (hopen : f.2.srcFilter = none) : ∃ e ∈ host.bindings, e.2.Publishes f := by
  have hfold : ∀ f ∈ (host.bindings.foldl (addBinding ifaces container) {}).guaForwards,
      f.2.srcFilter = none → ∃ e ∈ host.bindings, e.2.Publishes f := by
    refine List.foldlRecOn (motive := fun d : Datapath => ∀ f ∈ d.guaForwards,
      f.2.srcFilter = none → ∃ e ∈ host.bindings, e.2.Publishes f) _ _ ?_ ?_
    · exact fun f hf => absurd hf List.not_mem_nil
    · intro d hd e he f hf hopen
      obtain hf | hpub := addBinding_guaForwards hf hopen
      · exact hd f hf hopen
      · exact ⟨e, he, hpub⟩
  rw [update_guaForwards] at h
  exact hfold f h hopen

theorem VersionsAgree.followsSwitches (h : VersionsAgree ifaces container host) :
    FollowsSwitches ifaces container host := by
  refine ⟨?_, fun f hf hopen => update_guaForwards_public hf hopen⟩
  intro accepts e he external forward hreq hmem call hcall hport
  obtain ⟨hmade, hopen⟩ : call ∈ (reconcile ifaces accepts
      (update ifaces container host).forwards).calls ∧ call.isOpen = true := by
    obtain hcall | hmapped := hcall
    · exact hcall
    · exact mem_calls_of_mem_mapped hmapped
  obtain ⟨⟨external', forward'⟩, hmem', hcall'⟩ := exists_of_mem_reconcile hmade
  obtain ⟨hpub, hport', info, subnet, hgw, hsubnet, haddr⟩ :=
    publicOn_of_isOpen hcall' hopen
  obtain rfl : external = external' := hport.symm.trans hport'
  obtain rfl := (sorted_forwards ifaces container host).eq_of_mem hmem hmem'
  obtain ⟨henabled, hproxy, hloopback, hassigned, rfl⟩ := bindRequest_eq_some.mp hreq
  obtain ⟨hsecure, a, hrow, ha⟩ := publicOn_requirementsAt.mp hpub
  exact ⟨hsecure, h e he henabled hproxy hsecure hloopback external hassigned call.gateway _
    ⟨info, subnet, hgw, hsubnet, haddr⟩ a hrow ha⟩

theorem sublist_of_filterMap {α κ β : Type*} {f : α → Option (κ × β)} {g : α → Option κ}
    (h : ∀ a r, f a = some r → g a = some r.1) (l : List α) :
    ((l.filterMap f).map Prod.fst).Sublist (l.filterMap g) := by
  induction l with
  | nil => exact .slnil
  | cons a rest ih =>
    cases hf : f a with
    | none =>
      rw [List.filterMap_cons_none hf]
      refine ih.trans ?_
      rw [List.filterMap_cons]
      split
      · exact .refl _
      · exact List.sublist_cons_self _ _
    | some r =>
      rw [List.filterMap_cons_some hf, List.filterMap_cons_some (h a r hf)]
      exact ih.cons_cons r.1

theorem rangeRequest_port {e : UInt16 × RangeBindInfo}
    (h : rangeRequest ifaces container e = some r) : e.2.externalStartPort = r.1 := by
  unfold rangeRequest at h
  dsimp only at h
  split at h
  · obtain rfl := Option.some.inj h
    rfl
  · cases h

/-- The forwards of distinct ports are all there. -/
theorem Allotted.forwards_perm (h : Allotted ifaces host) (container : Container) :
    (update ifaces container host).forwards.Perm (requests ifaces container host) := by
  have hbindings := sublist_of_filterMap (l := host.bindings)
    (f := bindRequest ifaces container) (g := fun e => e.2.net.assignedPort)
    fun e r hr => (bindRequest_eq_some.mp hr).2.2.2.1
  have hranges := sublist_of_filterMap (l := host.bindingRanges)
    (f := rangeRequest ifaces container)
    fun e r hr => congrArg some (rangeRequest_port hr)
  rw [List.filterMap_eq_map'] at hranges
  have hnodup : ((requests ifaces container host).map Prod.fst).Nodup := by
    rw [requests, List.map_append]
    exact h.ports.sublist (hbindings.append hranges)
  rw [update_forwards]
  exact OrderedMap.insertAll_perm (List.pairwise_map.mp hnodup)
    fun e he => absurd he List.not_mem_nil

/-- Where a forward is public at a gateway, an open call is made for the gateway. -/
theorem Allotted.exists_open_call (h : Allotted ifaces host) {e : UInt16 × InterfaceForward}
    {ip : Ipv4Addr} (hv4 : HasV4 ifaces gateway ip) (hpub : e.2.reqs.publicOn gateway = true) :
    ∃ call ∈ (entryFor ifaces e).calls ifaces, call.gateway = gateway ∧ call.isOpen = true ∧
      call.rule.source = ⟨ip, e.1⟩ ∧ call.rule.count = e.2.count := by
  obtain ⟨info, subnet, hgw, hsubnet, haddr⟩ := hv4
  have hvisit := mem_visits.mpr ⟨hgw, hsubnet⟩
  have hselect : ((entryFor ifaces e).select gateway info subnet ip).isSome = true := by
    rw [select_entryFor, filter_of_publicOn hpub]
    rfl
  obtain ⟨call, hcall, hip⟩ :=
    exists_call hvisit haddr List.not_mem_nil hselect
  obtain ⟨⟨gateway', info', subnet'⟩, hvisit', ip', haddr', hselect'⟩ :=
    exists_visit hcall
  obtain ⟨hgw', hsubnet'⟩ := mem_visits.mp hvisit'
  have hsrc := (select_source hselect').2
  obtain rfl : ip' = ip := by rw [← hip, hsrc]
  obtain rfl := h.addresses gateway gateway' ip' ⟨info, subnet, hgw, hsubnet, haddr⟩
    ⟨info', subnet', hgw', hsubnet', haddr'⟩
  rw [select_entryFor, filter_of_publicOn hpub] at hselect'
  obtain rfl := Option.some.inj hselect'
  exact ⟨_, hcall, rfl, rfl, rfl, rfl⟩

theorem Allotted.versionsAgree (hallotted : Allotted ifaces host)
    (h : FollowsSwitches ifaces container host) : VersionsAgree ifaces container host := by
  intro e he henabled hproxy hsecure hloopback external hassigned gateway ip hv4 a hrow hpub
  have hreq : bindRequest ifaces container e = some (external,
      ⟨⟨container.ip, e.1⟩, 1, requirementsAt ifaces e.2 external⟩) :=
    bindRequest_eq_some.mpr ⟨henabled, hproxy, hloopback, hassigned, rfl⟩
  have hmem := (hallotted.forwards_perm container).mem_iff.mpr
    (List.mem_append_left _ (List.mem_filterMap.mpr ⟨e, he, hreq⟩))
  obtain ⟨call, hcall, hgw, hopen, hsrc, -⟩ := hallotted.exists_open_call hv4
    (e := (external, ⟨⟨container.ip, e.1⟩, 1, requirementsAt ifaces e.2 external⟩))
    (publicOn_requirementsAt.mpr ⟨hsecure, a, hrow, hpub⟩)
  have hmade := mem_reconcile_of_mem hmem hcall
  rw [← hgw]
  exact (h.v4 _ e he external _ hreq hmem call (.inl ⟨hmade, hopen⟩) (by rw [hsrc])).2

/-- Exposure follows the switches of its own version wherever the versions agree; with ports and
addresses that are given out once, only there. -/
theorem exposure_follows_switches_iff (ifaces : InterfaceMap) (container : Container)
    (host : Host) :
    (VersionsAgree ifaces container host → FollowsSwitches ifaces container host) ∧
      (Allotted ifaces host →
        (FollowsSwitches ifaces container host ↔ VersionsAgree ifaces container host)) := by
  refine ⟨VersionsAgree.followsSwitches, fun hallotted => ⟨?_, ?_⟩⟩
  · exact hallotted.versionsAgree
  · exact VersionsAgree.followsSwitches

end Exposure

/-- A gateway with an address of each version. -/
def dualStack : InterfaceMap where
  entries := [("eth0", ⟨none, some
    { deviceType := some .ethernet
      subnets := [⟨.v4 (.ofOctets 192 168 1 5), 24⟩,
        ⟨.v6 (.ofSegments [0x2001, 0xdb8, 0, 0, 0, 0, 0, 5]), 64⟩]
      wanIp := some (.ofOctets 203 0 113 1) }⟩)]
  sorted := List.pairwise_singleton _ _

def sampleContainer : Container := ⟨.ofOctets 10 0 3 7, none⟩

/-- The global address is on and public; the address of the fourth version is off. -/
def globalOnly : BindInfo where
  enabled := true
  options := ⟨false, some ⟨false⟩, false⟩
  net := ⟨some 8080, none⟩
  addresses :=
    { enabled := {.v6 ⟨.ofSegments [0x2001, 0xdb8, 0, 0, 0, 0, 0, 5], 8080⟩}
      guaWan := {⟨.ofSegments [0x2001, 0xdb8, 0, 0, 0, 0, 0, 5], 8080⟩}
      available := [⟨false, true, "2001:db8::5", some 8080, .ipv6 "eth0" 0⟩,
        ⟨false, true, "203.0.113.1", some 8080, .ipv4 "eth0"⟩] }
  exported := true

/-- Only the address of the fourth version is on. -/
def v4Only : BindInfo :=
  { globalOnly with addresses :=
      { globalOnly.addresses with enabled := {.v4 ⟨.ofOctets 203 0 113 1, 8080⟩} } }

theorem exposure_follows_switches_v4Only : Allotted dualStack { bindings := [(80, v4Only)] } ∧
    v4Only.enabledAddresses.map HostnameInfo.isPublic = [true] ∧
    FollowsSwitches dualStack sampleContainer { bindings := [(80, v4Only)] } := by
  have hallotted : Allotted dualStack { bindings := [(80, v4Only)] } := by
    refine ⟨by decide, fun _ _ _ ⟨_, _, h, _⟩ ⟨_, _, h', _⟩ => ?_⟩
    exact congrArg Prod.fst ((List.mem_singleton.mp h).trans (List.mem_singleton.mp h').symm)
  refine ⟨hallotted, by decide +kernel,
    ((exposure_follows_switches_iff dualStack sampleContainer _).2 hallotted).mpr ?_⟩
  intro e he _ _ _ _ _ _ _ _ _ a ha _
  rw [List.mem_singleton.mp he] at ha ⊢
  have hrows : v4Only.enabledAddresses.all HostnameInfo.opensV4 = true := by decide +kernel
  exact ⟨a, ha, List.all_eq_true.mp hrows a ha.1⟩

/-- The forward of the fourth version is open to everybody although none of its rows is on. -/
theorem global_address_opens_v4 :
    ¬FollowsSwitches dualStack sampleContainer { bindings := [(80, globalOnly)] } := by
  intro h
  have hreq : bindRequest dualStack sampleContainer (80, globalOnly) =
      some (8080, ⟨⟨sampleContainer.ip, 80⟩, 1, requirementsAt dualStack globalOnly 8080⟩) :=
    bindRequest_eq_some.mpr ⟨rfl, rfl, by decide +kernel, rfl, rfl⟩
  have hcalls : ((reconcile dualStack (fun _ => true) [(8080,
      ⟨⟨sampleContainer.ip, 80⟩, 1, requirementsAt dualStack globalOnly 8080⟩)]).calls.any fun call =>
        call.isOpen && call.rule.source.port == 8080) = true := by
    decide +kernel
  obtain ⟨call, hcall, hopen⟩ := List.any_eq_true.mp hcalls
  obtain ⟨hopen, hport⟩ := Bool.and_eq_true_iff.mp hopen
  obtain ⟨-, a, ⟨ha, -⟩, hv4⟩ := h.v4 _ (80, globalOnly) List.mem_cons_self 8080 _ hreq
    (by exact List.mem_cons_self) call (.inl ⟨hcall, hopen⟩) (eq_of_beq hport)
  have hnone : globalOnly.enabledAddresses.all (fun a => !a.opensV4) = true := by decide +kernel
  have hnot := List.all_eq_true.mp hnone a ha
  rw [hv4] at hnot
  cases hnot

end StartTech.Net

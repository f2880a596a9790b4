import StartTech.Net.AddressGroups
import StartTech.Net.PortForward

/-!
# What a host record makes the machine answer

From the bindings and ranges of a host and the addresses that are on, `update` computes forwards
of ports, listeners that are shared by name, and forwards of global addresses. A forward of a port
is then installed at the addresses of the gateways.

## Implementation notes

Sets of gateways and addresses are lists; they are only asked for members. Of a listener's target
only the gateways and addresses are kept from which it accepts. Each external port is given out
once, so an entry of the forward controller has the one target that was asked for; targets whose
handle was dropped are passed over.
-/

namespace StartTech.Net

open Foundation
open OrderedMap (insert)

inductive NetworkInterfaceType
  | ethernet
  | wireless
  | bridge
  | wireguard
  | loopback
  deriving DecidableEq

structure IpInfo where
  deviceType : Option NetworkInterfaceType
  subnets : List IpNet
  wanIp : Option Ipv4Addr

structure NetworkInterfaceInfo where
  secure : Option Bool
  ipInfo : Option IpInfo

namespace NetworkInterfaceInfo

/-- What stays on the host is secure by itself. -/
def isIntrinsicallySecure (info : NetworkInterfaceInfo) : Bool :=
  match info.ipInfo.bind IpInfo.deviceType with
  | some .loopback | some .bridge => true
  | _ => false

def isSecure (info : NetworkInterfaceInfo) : Bool := info.secure.getD info.isIntrinsicallySecure

def subnets (info : NetworkInterfaceInfo) : List IpNet :=
  match info.ipInfo with
  | some ipInfo => ipInfo.subnets
  | none => []

end NetworkInterfaceInfo

/-- The interfaces in the order of their gateways. -/
structure InterfaceMap where
  entries : List (GatewayId × NetworkInterfaceInfo)
  sorted : OrderedMap.Sorted entries

def InterfaceMap.get (ifaces : InterfaceMap) (gateway : GatewayId) : Option NetworkInterfaceInfo :=
  OrderedMap.get ifaces.entries gateway

structure Security where
  ssl : Bool

/-- Whether encryption is added, and whether requests go through a proxy. -/
structure BindOptions where
  addSsl : Bool
  secure : Option Security
  proxy : Bool

structure NetInfo where
  assignedPort : Option UInt16
  assignedSslPort : Option UInt16

structure BindInfo where
  enabled : Bool
  options : BindOptions
  net : NetInfo
  addresses : DerivedAddressInfo
  exported : Bool

/-- Without an exported interface a binding is served internally only. -/
def BindInfo.enabledAddresses (bind : BindInfo) : List HostnameInfo :=
  if bind.exported then bind.addresses.enabledRows
  else bind.addresses.enabledRows.filter HostnameInfo.isInternal

structure RangeBindInfo where
  enabled : Bool
  externalStartPort : UInt16
  numberOfPorts : UInt16
  addresses : DerivedAddressInfo
  exported : Bool

def RangeBindInfo.enabledAddresses (range : RangeBindInfo) : List HostnameInfo :=
  if range.exported then range.addresses.enabledRows
  else range.addresses.enabledRows.filter HostnameInfo.isInternal

structure PublicDomainConfig where
  gateway : GatewayId
  acme : Bool

/-- Bindings and ranges by their internal port. -/
structure Host where
  bindings : List (UInt16 × BindInfo) := []
  bindingRanges : List (UInt16 × RangeBindInfo) := []
  publicDomains : List (String × PublicDomainConfig) := []

structure ForwardRequirements where
  publicGateways : List GatewayId
  privateIps : List IpAddr
  secure : Bool

namespace ForwardRequirements

variable (reqs : ForwardRequirements)

def allowsGateway (info : NetworkInterfaceInfo) : Bool := reqs.secure || info.isSecure

/-- The public network is never secure. -/
def publicOn (gateway : GatewayId) : Bool := reqs.secure && reqs.publicGateways.contains gateway

/-- Nobody is served. -/
def isEmpty : Bool := reqs.publicGateways.isEmpty && reqs.privateIps.isEmpty

end ForwardRequirements

/-- The gateways of public rows. -/
def publicGateways (rows : List HostnameInfo) : List GatewayId :=
  (rows.filter HostnameInfo.isPublic).flatMap fun a => a.metadata.gateways

/-- An address admits itself, a private domain every address of its gateways. -/
def forwardedLanIps (ifaces : InterfaceMap) (rows : List HostnameInfo) : List IpAddr :=
  (rows.filter fun a => !a.isPublic).flatMap fun a =>
    match a.metadata with
    | .ipv4 _ | .ipv6 _ _ => (parseIp a.hostname).toList
    | .privateDomain gateways =>
      (gateways.filterMap ifaces.get).flatMap fun info => info.subnets.map IpNet.addr
    | _ => []

/-- What the rows at a port ask of its forward. -/
def requirementsAt (ifaces : InterfaceMap) (bind : BindInfo) (external : UInt16) :
    ForwardRequirements :=
  let rows := bind.enabledAddresses.filter fun a => a.port == some external
  ⟨publicGateways rows, forwardedLanIps ifaces rows, bind.options.secure.isSome⟩

/-- From which gateways and at which addresses a listener accepts. -/
structure ProxyTarget where
  publicV4 : List GatewayId := []
  publicV6 : List Ipv6Addr := []
  privateIps : List IpAddr := []

/-- A name, if it is served by name, with the port and whether it is the public part. -/
abbrev VHostKey := Option String × UInt16 × Bool

instance portFlagOrd : Ord (UInt16 × Bool) := lexOrd

instance vhostKeyOrd : Ord VHostKey := lexOrd

/-- The global addresses of a gateway. -/
def guaIps (ifaces : InterfaceMap) (gateways : List GatewayId) : List Ipv6Addr :=
  (gateways.filterMap ifaces.get).flatMap fun info =>
    info.subnets.filterMap fun subnet =>
      match subnet.addr with
      | .v6 ip => if ip.isLocal then none else some ip
      | .v4 _ => none

def HostnameMetadata.isIpv4 : HostnameMetadata → Bool
  | ipv4 _ => true
  | _ => false

/-- The gateways of public addresses of the fourth version at the port with encryption. -/
def sslVhostPublicV4 (rows : List HostnameInfo) : List GatewayId :=
  (rows.filter fun a => a.isPublic && a.ssl && a.metadata.isIpv4).flatMap fun a =>
    a.metadata.gateways

def sslVhostPublicV6 (rows : List HostnameInfo) : List Ipv6Addr :=
  (rows.filter fun a => a.isPublic && a.ssl).filterMap fun a => a.gua.map SocketAddrV6.ip

def sslVhostPrivateIps (rows : List HostnameInfo) : List IpAddr :=
  (rows.filter fun a => !a.isPublic && a.ssl && a.metadata.isIp).filterMap fun a =>
    parseIp a.hostname

def sslVhostInternalIps (rows : List HostnameInfo) : List IpAddr :=
  (rows.filter fun a => a.ssl && a.isInternal).filterMap fun a => parseIp a.hostname

/-- The port at which a name is served, and whether publicly. -/
def namedVhostLeg (a : HostnameInfo) (assignedSslPort : UInt16) : Option (UInt16 × Bool) :=
  match a.metadata with
  | .publicDomain _ | .privateDomain _ | .mdns _ => a.port.map fun port => (port, a.isPublic)
  | .plugin _ => some (assignedSslPort, false)
  | _ => none

abbrev VHosts := List (VHostKey × ProxyTarget)

/-- A public name is public on its gateways with both versions of addresses. -/
def ProxyTarget.extend (target : ProxyTarget) (ifaces : InterfaceMap) (a : HostnameInfo)
    (isPublic : Bool) : ProxyTarget :=
  if isPublic then
    { target with
      publicV4 := target.publicV4 ++ a.metadata.gateways
      publicV6 := target.publicV6 ++ guaIps ifaces a.metadata.gateways }
  else
    { target with
      privateIps := target.privateIps ++ (a.metadata.gateways.filterMap ifaces.get).flatMap
        fun info => info.subnets.map IpNet.addr }

def addNamedVhost (ifaces : InterfaceMap) (internal : List IpAddr) (assignedSslPort : UInt16)
    (vhosts : VHosts) (a : HostnameInfo) : VHosts :=
  if !a.ssl then vhosts
  else
    match namedVhostLeg a assignedSslPort with
    | none => vhosts
    | some (port, isPublic) =>
      let key := (some a.hostname, port, isPublic)
      let target := (OrderedMap.get vhosts key).getD { privateIps := internal }
      insert key (target.extend ifaces a isPublic) vhosts

def addNamedVhosts (ifaces : InterfaceMap) (rows : List HostnameInfo) (assignedSslPort : UInt16)
    (vhosts : VHosts) : VHosts :=
  rows.foldl (addNamedVhost ifaces (sslVhostInternalIps rows) assignedSslPort) vhosts

/-- The listener of a port with encryption, for what arrives without a name of its own. -/
def sslTarget (rows : List HostnameInfo) : ProxyTarget :=
  ⟨sslVhostPublicV4 rows, sslVhostPublicV6 rows, sslVhostPrivateIps rows⟩

def addSslVhosts (ifaces : InterfaceMap) (rows : List HostnameInfo) (assignedSslPort : UInt16)
    (vhosts : VHosts) : VHosts :=
  let target := sslTarget rows
  let vhosts :=
    if target.privateIps.isEmpty && target.publicV4.isEmpty && target.publicV6.isEmpty then vhosts
    else insert (none, assignedSslPort, true) target vhosts
  addNamedVhosts ifaces rows assignedSslPort vhosts

def IpAddr.isIpv6 : IpAddr → Bool
  | .v6 _ => true
  | .v4 _ => false

/-- What a row adds to the target of a port that is served by a proxy, at one of its gateways. -/
def plaintextAt (ifaces : InterfaceMap) (reqs : ForwardRequirements) (a : HostnameInfo)
    (target : ProxyTarget) (gateway : GatewayId) : ProxyTarget :=
  match (ifaces.get gateway).filter reqs.allowsGateway with
  | none => target
  | some info =>
    let isPublic := a.isPublic && reqs.publicOn gateway
    match a.metadata, isPublic with
    | .publicDomain _, true =>
      { target with
        publicV4 := target.publicV4 ++ [gateway]
        publicV6 := target.publicV6 ++ guaIps ifaces [gateway] }
    | .ipv4 _, true => { target with publicV4 := target.publicV4 ++ [gateway] }
    | .ipv6 _ _, true =>
      match parseIp a.hostname with
      | some (.v6 ip) => { target with publicV6 := target.publicV6 ++ [ip] }
      | _ => target
    | .ipv4 _, false | .ipv6 _ _, false =>
      match parseIp a.hostname with
      | some ip =>
        if reqs.privateIps.contains ip || (ip.isIpv6 && a.isPublic) then
          { target with privateIps := target.privateIps ++ [ip] }
        else target
      | none => target
    | .privateDomain _, _ =>
      { target with
        privateIps := target.privateIps ++
          (info.subnets.map IpNet.addr).filter fun ip => reqs.privateIps.contains ip }
    | _, _ => target

def plaintextRow (ifaces : InterfaceMap) (reqs : ForwardRequirements) (target : ProxyTarget)
    (a : HostnameInfo) : ProxyTarget :=
  if a.isInternal then
    { target with privateIps := target.privateIps ++ (parseIp a.hostname).toList }
  else a.metadata.gateways.foldl (plaintextAt ifaces reqs a) target

def plaintextHttpTarget (ifaces : InterfaceMap) (external : UInt16) (rows : List HostnameInfo)
    (reqs : ForwardRequirements) : ProxyTarget :=
  (rows.filter fun a => !a.ssl && a.port == some external).foldl (plaintextRow ifaces reqs) {}

structure InterfaceForward where
  target : SocketAddrV4
  count : UInt16
  reqs : ForwardRequirements

/-- Where a global address is forwarded to, and for whom. -/
structure GuaForward where
  target : Ipv6Addr
  port : UInt16
  srcFilter : Option IpNet
  deriving DecidableEq

instance : Ord Ipv6Addr := ⟨fun a b => compare a.bits.toNat b.bits.toNat⟩

abbrev GuaKey := Ipv6Addr × UInt16

instance : Ord GuaKey := lexOrd

/-- All that `update` asks of the controllers. -/
structure Datapath where
  forwards : List (UInt16 × InterfaceForward) := []
  vhosts : VHosts := []
  guaForwards : List (GuaKey × GuaForward) := []

/-- The container of a service. -/
structure Container where
  ip : Ipv4Addr
  ipv6 : Option Ipv6Addr

variable (ifaces : InterfaceMap) (container : Container)

/-- The subnet of a row's gateways that holds an address. -/
def lanSubnet (a : HostnameInfo) (ip : Ipv6Addr) : Option IpNet :=
  ((a.metadata.gateways.filterMap ifaces.get).flatMap NetworkInterfaceInfo.subnets).find?
    fun subnet => subnet.contains (.v6 ip)

/-- Only a public row of a secure binding is forwarded for everybody. -/
def guaFilter (reqs : ForwardRequirements) (a : HostnameInfo) (ip : Ipv6Addr) :
    Option (Option IpNet) :=
  if a.isPublic && reqs.secure then some none
  else if !reqs.secure && !(a.metadata.gateways.filterMap ifaces.get).any reqs.allowsGateway then
    none
  else (lanSubnet ifaces a ip).map some

def addGuaForward (reqs : ForwardRequirements) (external internal : UInt16) (target : Ipv6Addr)
    (forwards : List (GuaKey × GuaForward)) (a : HostnameInfo) : List (GuaKey × GuaForward) :=
  match a.gua with
  | none => forwards
  | some gua =>
    if gua.port ≠ external then forwards
    else
      match guaFilter ifaces reqs a gua.ip with
      | none => forwards
      | some srcFilter =>
        insert (gua.ip, gua.port) ⟨target, internal, srcFilter⟩ forwards

def addGuaForwards (bind : BindInfo) (external internal : UInt16)
    (forwards : List (GuaKey × GuaForward)) : List (GuaKey × GuaForward) :=
  match container.ipv6 with
  | none => forwards
  | some target =>
    bind.enabledAddresses.foldl
      (addGuaForward ifaces (requirementsAt ifaces bind external) external internal target)
      forwards

/-- The port of a binding without encryption: a proxy answers it, or it is forwarded. -/
def addPlain (bind : BindInfo) (internal external : UInt16) (d : Datapath) : Datapath :=
  let reqs := requirementsAt ifaces bind external
  if bind.options.proxy then
    { d with
      vhosts := insert (none, external, true)
        (plaintextHttpTarget ifaces external bind.enabledAddresses reqs) d.vhosts }
  else
    { d with
      forwards :=
        if container.ip.isLoopback then d.forwards
        else insert external ⟨⟨container.ip, internal⟩, 1, reqs⟩ d.forwards
      guaForwards := addGuaForwards ifaces container bind external internal d.guaForwards }

/-- What one binding adds. -/
def addBinding (d : Datapath) (e : UInt16 × BindInfo) : Datapath :=
  let bind := e.2
  if !bind.enabled then d
  else
    let d :=
      match bind.net.assignedSslPort with
      | some port =>
        { d with vhosts := addSslVhosts ifaces bind.enabledAddresses port d.vhosts }
      | none => d
    match bind.net.assignedPort with
    | some external => addPlain ifaces container bind e.1 external d
    | none => d

/-- Ranges carry no option for security. -/
def rangeRequirements (range : RangeBindInfo) : ForwardRequirements :=
  ⟨publicGateways range.enabledAddresses, forwardedLanIps ifaces range.enabledAddresses, true⟩

def addRange (d : Datapath) (e : UInt16 × RangeBindInfo) : Datapath :=
  let range := e.2
  let reqs := rangeRequirements ifaces range
  if !range.enabled then d
  else if reqs.isEmpty then d
  else
    { d with
      forwards := insert range.externalStartPort
        ⟨⟨container.ip, e.1⟩, range.numberOfPorts, reqs⟩ d.forwards }

def update (host : Host) : Datapath :=
  host.bindingRanges.foldl (addRange ifaces container)
    (host.bindings.foldl (addBinding ifaces container) {})

structure ForwardTarget where
  reqs : ForwardRequirements
  target : SocketAddrV4
  targetPrefix : UInt8
  live : Bool

structure InterfaceForwardEntry where
  external : UInt16
  count : UInt16
  targets : List ForwardTarget

/-- A call that installs a rule, for the sake of a gateway. -/
structure ForwardCall where
  gateway : GatewayId
  rule : Rule

/-- For everybody, so that the gateway is asked for a mapping too. -/
def ForwardCall.isOpen (call : ForwardCall) : Bool := call.rule.srcFilter.isNone

/-- For whom a target is forwarded at an address. -/
def ForwardTarget.filter (t : ForwardTarget) (gateway : GatewayId) (info : NetworkInterfaceInfo)
    (subnet : IpNet) (ip : Ipv4Addr) : Option (Option IpNet) :=
  if !t.live then none
  else if !t.reqs.allowsGateway info then none
  else if t.reqs.publicOn gateway then some none
  else if t.reqs.privateIps.contains (.v4 ip) then some (some subnet.trunc)
  else none

namespace InterfaceForwardEntry

variable (entry : InterfaceForwardEntry)

/-- The first target that is forwarded at the address. -/
def select (gateway : GatewayId) (info : NetworkInterfaceInfo) (subnet : IpNet) (ip : Ipv4Addr) :
    Option ForwardCall :=
  entry.targets.findSome? fun t =>
    (t.filter gateway info subnet ip).map fun srcFilter =>
      ⟨gateway, ⟨ip, entry.external⟩, t.target, entry.count, t.targetPrefix, srcFilter⟩

/-- The call for an address, unless one was made for it. -/
def attempt (keep : List Ipv4Addr) (visit : GatewayId × NetworkInterfaceInfo × IpNet) :
    Option (Ipv4Addr × ForwardCall) :=
  match visit.2.2.addr with
  | .v6 _ => none
  | .v4 ip =>
    if keep.contains ip then none
    else (entry.select visit.1 visit.2.1 visit.2.2 ip).map fun call => (ip, call)

/-- Every address is forwarded once, for the first gateway that asks for it. -/
def callsFrom (keep : List Ipv4Addr) :
    List (GatewayId × NetworkInterfaceInfo × IpNet) → List ForwardCall
  | [] => []
  | visit :: rest =>
    match entry.attempt keep visit with
    | none => callsFrom keep rest
    | some (ip, call) => call :: callsFrom (ip :: keep) rest

/-- The addresses of all gateways, in order. -/
def visits (ifaces : InterfaceMap) : List (GatewayId × NetworkInterfaceInfo × IpNet) :=
  ifaces.entries.flatMap fun e => e.2.subnets.map fun subnet => (e.1, e.2, subnet)

def calls (ifaces : InterfaceMap) : List ForwardCall := entry.callsFrom [] (visits ifaces)

end InterfaceForwardEntry

/-- The length of the network that holds an address, of the first gateway that has one. -/
def targetPrefix (ifaces : InterfaceMap) (ip : Ipv4Addr) : UInt8 :=
  match (ifaces.entries.flatMap fun e => e.2.subnets).find? fun subnet => subnet.contains (.v4 ip) with
  | some subnet => subnet.prefixLen.toUInt8
  | none => 32

/-- The entry of a port after its forward has been asked for. -/
def entryFor (ifaces : InterfaceMap) (e : UInt16 × InterfaceForward) : InterfaceForwardEntry :=
  ⟨e.1, e.2.count, [⟨e.2.reqs, e.2.target, targetPrefix ifaces e.2.target.ip, true⟩]⟩

/-- What was installed, and the addresses and ports for which mappings were asked. -/
structure Installed where
  calls : List ForwardCall := []
  mapped : List ForwardCall := []

/-- The first call that fails ends the update; the mappings of its port are not asked for. -/
def reconcile (ifaces : InterfaceMap) (accepts : Rule → Bool) :
    List (UInt16 × InterfaceForward) → Installed
  | [] => {}
  | e :: rest =>
    let calls := (entryFor ifaces e).calls ifaces
    if calls.all fun call => accepts call.rule then
      let later := reconcile ifaces accepts rest
      ⟨calls ++ later.calls, calls.filter ForwardCall.isOpen ++ later.mapped⟩
    else ⟨calls.takeWhile fun call => accepts call.rule, []⟩

end StartTech.Net

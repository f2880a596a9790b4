import StartTech.Foundation.OrderedMap
import StartTech.Net.Ip

/-!
# The addresses of a binding

A binding can be reached at addresses, each of them a row with a name or an IP address, a port
and the gateways it belongs to. The operator switches rows on and off. What was switched is kept
in sets of overrides, from which it follows which rows are on.

## Implementation notes

The rows of a binding are a list; nothing depends on their order or on a row that occurs twice.
Of a plugin's row only the package is kept.
-/

namespace StartTech.Net

open Foundation

abbrev GatewayId := String

inductive HostnameMetadata
  | ipv4 (gateway : GatewayId)
  | ipv6 (gateway : GatewayId) (scopeId : UInt32)
  | mdns (gateways : List GatewayId)
  | privateDomain (gateways : List GatewayId)
  | publicDomain (gateway : GatewayId)
  | plugin (packageId : String)
  deriving DecidableEq

namespace HostnameMetadata

def isIp : HostnameMetadata → Bool
  | ipv4 _ | ipv6 _ _ => true
  | _ => false

def isPublicDomain : HostnameMetadata → Bool
  | publicDomain _ => true
  | _ => false

def gateways : HostnameMetadata → List GatewayId
  | ipv4 gateway | ipv6 gateway _ | publicDomain gateway => [gateway]
  | privateDomain gateways | mdns gateways => gateways
  | plugin _ => []

end HostnameMetadata

structure HostnameInfo where
  ssl : Bool
  isPublic : Bool
  hostname : String
  port : Option UInt16
  metadata : HostnameMetadata
  deriving DecidableEq

/-- What an override of a name or of a private address is kept under. -/
abbrev OverrideKey := String × UInt16

namespace HostnameInfo

def toSocketAddr (a : HostnameInfo) : Option SocketAddr := do
  let ip ← parseIp a.hostname
  let port ← a.port
  return .new ip port

def isInternal (a : HostnameInfo) : Bool :=
  match parseIp a.hostname with
  | some ip => isInternalIp ip
  | none => false

/-- A global address of the sixth version. -/
def gua (a : HostnameInfo) : Option SocketAddrV6 :=
  match a.metadata, parseIp a.hostname with
  | .ipv6 _ _, some (.v6 ip) => if ip.isLocal then none else a.port.map fun port => ⟨ip, port⟩
  | _, _ => none

def overrideKey (a : HostnameInfo) : OverrideKey := (a.hostname, a.port.getD 0)

/-- The port that no port stands for. -/
def servedPort (a : HostnameInfo) : UInt16 := a.port.getD (if a.ssl then 443 else 80)

/-- A row for names resolved on the local network resolves to a row with an address. -/
def mdnsCovers (mdns ip : HostnameInfo) : Bool :=
  match ip.metadata, mdns.metadata with
  | .ipv4 gateway, .mdns gateways | .ipv6 gateway _, .mdns gateways =>
    mdns.port == ip.port && gateways.contains gateway
  | _, _ => false

end HostnameInfo

/-- Overrides, and the rows they apply to. -/
structure DerivedAddressInfo where
  enabled : Finset SocketAddr := ∅
  disabled : Finset OverrideKey := ∅
  guaWan : Finset SocketAddrV6 := ∅
  lanEnabled : Finset OverrideKey := ∅
  available : List HostnameInfo := []

namespace DerivedAddressInfo

variable (d : DerivedAddressInfo)

/-- Public addresses are off unless they were enabled; one that cannot be read is on. -/
def publicIpOn (a : HostnameInfo) : Bool :=
  match a.toSocketAddr with
  | some sa => decide (sa ∈ d.enabled)
  | none => true

/-- An override decides; without one the names that resolve to the address do. -/
def lanIpOn (a : HostnameInfo) : Bool :=
  if a.overrideKey ∈ d.lanEnabled then true
  else if a.overrideKey ∈ d.disabled then false
  else (d.available.filter fun mdns => mdns.mdnsCovers a).all fun mdns =>
    decide (mdns.overrideKey ∉ d.disabled)

def mdnsOn (mdns : HostnameInfo) : Bool :=
  decide (mdns.overrideKey ∉ d.disabled) ||
    (!mdns.ssl && d.available.any fun ip => !ip.isPublic && mdns.mdnsCovers ip && d.lanIpOn ip)

def isOn (a : HostnameInfo) : Bool :=
  if a.isInternal then true
  else
    match a.metadata with
    | .ipv4 _ | .ipv6 _ _ => if a.isPublic then d.publicIpOn a else d.lanIpOn a
    | .mdns _ => d.mdnsOn a
    | _ => decide (a.overrideKey ∉ d.disabled)

/-- The rows that are on. -/
def enabledRows : List HostnameInfo := d.available.filter d.isOn

def setLanIp (d : DerivedAddressInfo) (key : OverrideKey) (on : Bool) : DerivedAddressInfo :=
  if on then
    { d with disabled := d.disabled.erase key, lanEnabled := insert key d.lanEnabled }
  else { d with lanEnabled := d.lanEnabled.erase key, disabled := insert key d.disabled }

/-- A name is on unless it is disabled. -/
def setName (d : DerivedAddressInfo) (key : OverrideKey) (on : Bool) : DerivedAddressInfo :=
  if on then { d with disabled := d.disabled.erase key }
  else { d with disabled := insert key d.disabled }

def setPublicIp (d : DerivedAddressInfo) (sa : SocketAddr) (on : Bool) : DerivedAddressInfo :=
  if on then { d with enabled := insert sa d.enabled }
  else { d with enabled := d.enabled.erase sa }

def setGuaWan (d : DerivedAddressInfo) (gua : SocketAddrV6) (on : Bool) : DerivedAddressInfo :=
  if on then { d with guaWan := insert gua d.guaWan }
  else { d with guaWan := d.guaWan.erase gua }

variable (gateway : GatewayId) (port : UInt16)

/-- The rows of a port without encryption. -/
def plainRows : List HostnameInfo := d.available.filter fun a => !a.ssl && a.port == some port

def hasNonsslPublicDomain : Bool :=
  (d.plainRows port).any fun a => a.metadata == .publicDomain gateway

def isPrivateDomainOn (gateway : GatewayId) : HostnameMetadata → Bool
  | .privateDomain gateways => gateways.contains gateway
  | _ => false

def hasNonsslPrivateDomain : Bool :=
  (d.plainRows port).any fun a => isPrivateDomainOn gateway a.metadata

/-- A private domain or a local address at the gateway and the port is on. -/
def nonsslLanOn : Bool :=
  (d.plainRows port).any fun a =>
    match a.metadata with
    | .privateDomain gateways => gateways.contains gateway && decide (a.overrideKey ∉ d.disabled)
    | .ipv4 gw => !a.isPublic && gw == gateway && d.lanIpOn a
    | _ => false

/-- The global addresses at a gateway and a port. -/
def guasAt : List (SocketAddrV6 × String) :=
  (d.plainRows port).filterMap fun a =>
    match a.metadata with
    | .ipv6 gw _ => if gw = gateway then a.gua.map fun gua => (gua, a.hostname) else none
    | _ => none

/-- One that is opted into the public network is on; any other follows the local ones. -/
def resolveGua (lanOn : Bool) (port : UInt16) (d : DerivedAddressInfo) (x : SocketAddrV6 × String) :
    DerivedAddressInfo :=
  if x.1 ∈ d.guaWan then
    { d with
      enabled := insert (.v6 x.1) d.enabled
      disabled := d.disabled.erase (x.2, port)
      lanEnabled := d.lanEnabled.erase (x.2, port) }
  else (d.setPublicIp (.v6 x.1) false).setLanIp (x.2, port) lanOn

def resolveNonsslGua : DerivedAddressInfo :=
  (d.guasAt gateway port).foldl (resolveGua (d.nonsslLanOn gateway port) port) d

/-- The keys of the public domains at a gateway and a port. -/
def publicDomainKeys : List OverrideKey :=
  ((d.plainRows port).filter fun a => a.metadata == .publicDomain gateway).map fun a =>
    (a.hostname, port)

/-- The public addresses of the fourth version at a gateway and a port. -/
def publicIpv4s : List SocketAddr :=
  ((d.plainRows port).filter fun a => a.isPublic && a.metadata == .ipv4 gateway).filterMap
    HostnameInfo.toSocketAddr

/-- Switch everything public at a gateway and a port. -/
def setNonsslWanGroup (on : Bool) : DerivedAddressInfo :=
  let keys := d.publicDomainKeys gateway port
  let ipv4 := d.publicIpv4s gateway port
  let guas := (d.guasAt gateway port).map Prod.fst
  let d := keys.foldl (fun d key => d.setName key on) d
  let d := ipv4.foldl (fun d sa => d.setPublicIp sa on) d
  let d := guas.foldl (fun d gua => d.setGuaWan gua on) d
  d.resolveNonsslGua gateway port

def privateDomainKeys : List OverrideKey :=
  ((d.plainRows port).filter fun a => isPrivateDomainOn gateway a.metadata).map fun a =>
    (a.hostname, port)

def lanIpv4Keys : List OverrideKey :=
  ((d.plainRows port).filter fun a => !a.isPublic && a.metadata == .ipv4 gateway).map fun a =>
    (a.hostname, port)

/-- Switch everything private at a gateway and a port. -/
def setNonsslLanGroup (on : Bool) : DerivedAddressInfo :=
  let domains := d.privateDomainKeys gateway port
  let ips := d.lanIpv4Keys gateway port
  let d := domains.foldl (fun d key => d.setName key on) d
  let d := ips.foldl (fun d key => d.setLanIp key on) d
  d.resolveNonsslGua gateway port

inductive AddressError
  | invalidRequest (message : String)
  deriving DecidableEq, Repr

/-- What else moves with a row that was switched at a port without encryption. -/
def moveLanGroup (d : DerivedAddressInfo) (a : HostnameInfo) (port : UInt16) (on : Bool) :
    DerivedAddressInfo :=
  match a.metadata with
  | .publicDomain gateway => d.setNonsslWanGroup gateway port on
  | .privateDomain gateways => gateways.foldl (fun d gw => d.setNonsslLanGroup gw port on) d
  | .ipv4 gateway =>
    if d.hasNonsslPrivateDomain gateway port then d.setNonsslLanGroup gateway port on else d
  | .mdns gateways =>
    if on then d
    else
      let d := gateways.foldl (fun d gw =>
        if d.hasNonsslPrivateDomain gw port then d.setNonsslLanGroup gw port false else d) d
      let held := (d.available.filter fun ip => !ip.isPublic && a.mdnsCovers ip).map
        HostnameInfo.overrideKey
      { d with lanEnabled := d.lanEnabled \ held.toFinset }
  | _ => d

def setAddressEnabledOn (d : DerivedAddressInfo) (a : HostnameInfo) (on : Bool) :
    Except AddressError DerivedAddressInfo :=
  if a.isPublic && a.metadata.isIp then
    match a.toSocketAddr with
    | none => .error (.invalidRequest "cannot convert address to socket addr")
    | some sa =>
      let d := d.setPublicIp sa on
      let port := a.servedPort
      match a.ssl, a.metadata with
      | false, .ipv4 gateway | false, .ipv6 gateway _ =>
        if d.hasNonsslPublicDomain gateway port then .ok (d.setNonsslWanGroup gateway port on)
        else .ok d
      | _, _ => .ok d
  else
    let key := (a.hostname, a.servedPort)
    let d := if a.metadata.isIp then d.setLanIp key on else d.setName key on
    if a.ssl then .ok d else .ok (d.moveLanGroup a a.servedPort on)

/-- Global addresses are public if they are opted into the public network. -/
def projectRow (guaWan : Finset SocketAddrV6) (a : HostnameInfo) : HostnameInfo :=
  match a.gua with
  | some gua => { a with isPublic := decide (gua ∈ guaWan) }
  | none => a

def setAvailable (d : DerivedAddressInfo) (rows : List HostnameInfo) : DerivedAddressInfo :=
  { d with available := rows.map (projectRow d.guaWan) }

/-- A row that can be public. -/
def canBePublic (a : HostnameInfo) : Bool :=
  (a.isPublic && a.metadata.isIp) || a.gua.isSome || a.metadata.isPublicDomain

/-- A row that can be public is, and is on. -/
def publicOn (d : DerivedAddressInfo) (a : HostnameInfo) : Bool :=
  match a.gua with
  | some gua => decide (gua ∈ d.guaWan) && d.publicIpOn a
  | none => decide (a ∈ d.enabledRows)

/-- Whether all rows that could be public at a gateway were, if there were any. -/
def allPublic (previous : DerivedAddressInfo) (gateway : GatewayId) (ssl : Bool) : Option Bool :=
  let rows := previous.available.filter fun a =>
    canBePublic a && a.ssl == ssl && a.metadata.gateways.contains gateway
  if rows.isEmpty then none else some (rows.all previous.publicOn)

/-- Without rows at a port without encryption, those with encryption count. -/
def allOn (previous : DerivedAddressInfo) (gateway : GatewayId) : Bool :=
  ((previous.allPublic gateway false).or (previous.allPublic gateway true)).getD false

/-- Names of public domains of which some row was off, or was on. -/
def domainNames (previous : DerivedAddressInfo) (on : Bool) : List String :=
  (previous.available.filter fun a =>
    a.metadata.isPublicDomain && (decide (a ∈ previous.enabledRows) == on)).map
    HostnameInfo.hostname

/-- New rows with encryption of a public domain that was not on everywhere. -/
def withheld (d previous : DerivedAddressInfo) : List OverrideKey :=
  (d.available.filter fun a =>
    a.metadata.isPublicDomain && a.port.isSome && a.ssl && decide (a ∉ previous.available) &&
      ((previous.domainNames false).contains a.hostname ||
        !(previous.domainNames true).contains a.hostname)).map HostnameInfo.overrideKey

instance : Ord (GatewayId × UInt16) := lexOrd

/-- The gateways and ports with a public domain and no encryption, in their order. -/
def wanGroups (d previous : DerivedAddressInfo) : List ((GatewayId × UInt16) × Bool) :=
  d.available.foldl (fun groups a =>
    match a.metadata, a.port, a.ssl with
    | .publicDomain gateway, some port, false =>
      OrderedMap.insert (gateway, port) (previous.allOn gateway) groups
    | _, _, _ => groups) []

def resolveAddressGroups (d previous : DerivedAddressInfo) : DerivedAddressInfo :=
  let groups := d.wanGroups previous
  let d := { d with disabled := d.disabled ∪ (d.withheld previous).toFinset }
  groups.foldl (fun d group => d.setNonsslWanGroup group.1.1 group.1.2 group.2) d

/-- Take up new rows. -/
def refresh (d : DerivedAddressInfo) (rows : List HostnameInfo) : DerivedAddressInfo :=
  ((d.setAvailable rows).resolveAddressGroups d).setAvailable rows

end DerivedAddressInfo

end StartTech.Net

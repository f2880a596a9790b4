import StartTech.Foundation.Prog
import StartTech.Net.PortForward
import StartTech.Tunnel.PortForwards
import StartTech.Tunnel.SniDemux

/-!
# The state of the tunnel

What the tunnel persists (devices, forwards and pinholes) and what it keeps in memory: the
handles of the forwards that are installed, the demultiplexer, and the leases of the mappings
that devices made for themselves. The operations on it are programs of atomic steps.

## Implementation notes

A step is a transaction on the database, an access to the leases or a call of the dataplane.
The map of handles is read and written in the step of the call that it belongs to. What the
host reports, and which of its calls succeed, is a parameter of each operation; calls other than
those of the forward script are numbered in the order in which they are made. Time is a number.
-/

namespace StartTech.Tunnel

open Net Foundation
open OrderedMap (get insert erase)

/-- Whose lease it is. -/
inductive LeaseKey
  | dnat (source : SocketAddrV4)
  | sni (source : SocketAddrV4) (hostname : Text)
  | sniFallback (source : SocketAddrV4)
  | pinhole (key : SocketAddrV6)
  deriving DecidableEq

namespace LeaseKey

/-- Keys are ordered by their kind, then by the address, then by the host name. -/
def code : LeaseKey → List Nat
  | dnat source => [0, source.code]
  | sni source hostname => 1 :: source.code :: hostname.map Char.toNat
  | sniFallback source => [2, source.code]
  | pinhole key => [3, key.code]

instance ordLeaseKey : Ord LeaseKey := ⟨fun a b => compare a.code b.code⟩

end LeaseKey

/-- The moment at which each lease ends. -/
abbrev Leases := List (LeaseKey × Nat)

structure WgClient where
  wanIp : Option Ipv4Addr
  allowAutoPortForward : Bool
  deriving DecidableEq

structure WgSubnet where
  clients : List (Ipv4Addr × WgClient)
  wanIp : Option Ipv4Addr
  ipv6 : Option (Ipv6Addr × Nat)
  deriving DecidableEq

structure WebserverInfo where
  enabled : Bool
  listen : Option SocketAddrV4
  deriving DecidableEq

/-- The port of the gateway's own pages lies in the run. -/
def WebserverInfo.reservesPlainForward (web : WebserverInfo) (source : SocketAddrV4)
    (count : UInt16) : Bool :=
  web.enabled && web.listen.any fun listen =>
    (listen.ip.bits == 0 || listen.ip == source.ip) && source.port ≤ listen.port &&
      listen.port ≤ spanEnd source.port count

/-- What the host reports to an operation, and which of the calls to it succeed. -/
structure Host where
  defaultWan : Option Ipv4Addr
  prefixFor : Ipv4Addr → UInt8
  webserver : WebserverInfo
  redirects : Ipv4Addr → Bool
  outcomes : Nat → Bool
  calls : Nat → Bool

structure TunnelContext where
  subnets : List (IpNet × WgSubnet)
  portForwards : PortForwards
  pinholes : Pinholes6
  active : List (SocketAddrV4 × Nat)
  forward : Forwarding
  demux : SniDemux
  pinholeRules : List (SocketAddrV6 × UInt16 × UInt16)
  leases : Leases
  calls : Nat
  now : Nat

namespace TunnelContext

/-- A tunnel with its devices and nothing forwarded. -/
def initial (subnets : List (IpNet × WgSubnet)) : TunnelContext :=
  ⟨subnets, [], [], [], .initial, .initial, [], [], 0, 0⟩

variable (s : TunnelContext) (peer : Ipv4Addr)

def assignedWanFor : Option Ipv4Addr :=
  s.subnets.findSome? fun cfg =>
    (get cfg.2.clients peer).bind fun client => client.wanIp.or cfg.2.wanIp

def externalIpv4 (host : Host) : Option Ipv4Addr := (s.assignedWanFor peer).or host.defaultWan

def isKnownClient : Bool :=
  s.subnets.any fun cfg => (get cfg.2.clients peer).any WgClient.allowAutoPortForward

end TunnelContext

/-- A device's own address of the sixth version under a delegated network. -/
def hostV6 (net : Ipv6Addr × Nat) (v4 : Ipv4Addr) : Ipv6Addr :=
  let keep := min (128 - net.2) 32
  let network := net.1.bits.toNat / 2 ^ (128 - net.2) * 2 ^ (128 - net.2)
  ⟨BitVec.ofNat 128 (network + v4.bits.toNat % 2 ^ keep)⟩

/-- The network contains the address. -/
def containsV6 (net : Ipv6Addr × Nat) (ip : Ipv6Addr) : Bool :=
  ip.bits.toNat / 2 ^ (128 - net.2) == net.1.bits.toNat / 2 ^ (128 - net.2)

def TunnelContext.isKnownGua (s : TunnelContext) (gua : Ipv6Addr) : Bool :=
  s.subnets.any fun cfg => cfg.2.ipv6.any fun net =>
    containsV6 net gua && cfg.2.clients.any fun client => hostV6 net client.1 == gua

/-- A transaction on the forwards, undone when it fails. -/
def transact {ε α : Type} (g : PortForwards → Except ε (α × PortForwards)) :
    Prog TunnelContext (Except ε α) :=
  Prog.mutate fun s =>
    match g s.portForwards with
    | .ok (a, forwards) => (.ok a, { s with portForwards := forwards })
    | .error e => (.error e, s)

/-- A transaction on the forwards that cannot fail. -/
def change {α : Type} (g : PortForwards → α × PortForwards) : Prog TunnelContext α :=
  Prog.mutate fun s => ((g s.portForwards).1, { s with portForwards := (g s.portForwards).2 })

def currentForward (source : SocketAddrV4) : Prog TunnelContext (Option PortForward) :=
  Prog.peek fun s => get s.portForwards source

def stamp (key : LeaseKey) (lifetime : Nat) : Prog TunnelContext Unit :=
  Prog.modify fun s => { s with leases := insert key (s.now + lifetime) s.leases }

def forget (key : LeaseKey) : Prog TunnelContext Unit :=
  Prog.modify fun s => { s with leases := erase s.leases key }

/-- A call to the host other than of the forward script. -/
def call (host : Host) : Prog TunnelContext Bool :=
  Prog.mutate fun s => (host.calls s.calls, { s with calls := s.calls + 1 })

/-- Diversion of the replies is set up before a route is granted. -/
def prepare (host : Host) : Prog TunnelContext (Except UInt8 Unit) := do
  let done ← call host
  pure (if done then .ok () else .error resultNoResources)

def sniRegister (host : Host) (source : SocketAddrV4) (hostnames : List Text)
    (target : SocketAddrV4) : Prog TunnelContext (Except UInt8 Unit) :=
  Prog.mutate fun s =>
    let r := s.demux.register source hostnames target (host.calls s.calls)
    (r.1, { s with demux := r.2, calls := s.calls + 1 })

def sniUnregister (source : SocketAddrV4) (hostnames : List Text) (target : SocketAddrV4) :
    Prog TunnelContext Unit :=
  Prog.modify fun s => { s with demux := s.demux.unregister source hostnames target }

def sniRegisterFallback (host : Host) (source target : SocketAddrV4) :
    Prog TunnelContext (Except UInt8 Unit) :=
  Prog.mutate fun s =>
    let r := s.demux.registerFallback source target (host.calls s.calls)
    (r.1, { s with demux := r.2, calls := s.calls + 1 })

def sniUnregisterFallback (source target : SocketAddrV4) : Prog TunnelContext Unit :=
  Prog.modify fun s => { s with demux := s.demux.unregisterFallback source target }

/-- The handles that are left when the one of a source is given up for another. -/
def dropHandle (held : Finset Nat) (old : Option Nat) (new : Option Nat) : Finset Nat :=
  match old with
  | none => held
  | some rc => if new = some rc then held else held.erase rc

/-- Install a forward and keep its handle. -/
def TunnelContext.addForwardRange (s : TunnelContext) (host : Host) (source target : SocketAddrV4)
    (count : UInt16) : Bool × TunnelContext :=
  match s.forward.addForward host.outcomes
      ⟨source, target, count, host.prefixFor target.ip, none⟩ with
  | (.error _, w) => (false, { s with forward := w })
  | (.ok rc, w) =>
    (true, { s with
      forward := { w with held := dropHandle w.held (get s.active source) (some rc) }
      active := insert source rc s.active })

def addForwardRange (host : Host) (source target : SocketAddrV4) (count : UInt16) :
    Prog TunnelContext Bool :=
  Prog.mutate fun s => s.addForwardRange host source target count

/-- Give up the handle of a source. -/
def TunnelContext.release (s : TunnelContext) (source : SocketAddrV4) : TunnelContext :=
  { s with
    active := erase s.active source
    forward := { s.forward with
      held := dropHandle s.forward.held (get s.active source) none } }

def TunnelContext.gcForward (s : TunnelContext) (host : Host) : Bool × TunnelContext :=
  ((s.forward.gc host.outcomes).1.toBool, { s with forward := (s.forward.gc host.outcomes).2 })

/-- Give up the handle of a source, if there is one, and collect. -/
def withdraw (host : Host) (source : SocketAddrV4) : Prog TunnelContext Bool :=
  Prog.mutate fun s =>
    if (get s.active source).isSome then (s.release source).gcForward host else (true, s)

end StartTech.Tunnel

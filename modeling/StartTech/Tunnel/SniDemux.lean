import StartTech.Foundation.OrderedMap
import StartTech.Net.Ip

/-!
# The demultiplexer of shared ports

For each external address the demultiplexer keeps which host name goes to which device, and
where it sends what no name matches. Names are compared in lower case. A registration is
withdrawn again when its listener cannot be started.

## Implementation notes

Bindings that expire and the fallback of the gateway's own pages are left out: the tunnel
registers its forwards without a lifetime. Whether a listener can be started is a parameter
of each registration.
-/

namespace StartTech.Tunnel

open Net Foundation
open OrderedMap (get insert erase orInsert)

/-- Letters of the Latin alphabet in lower case. -/
def toAsciiLowercase (name : Text) : Text := name.map Char.toLower

def lowercased (hostnames : List Text) : List Text := hostnames.map toAsciiLowercase

def resultNoResources : UInt8 := 8

def resultHostnameTaken : UInt8 := 192

structure PortBindings where
  hostnames : List (Text × SocketAddrV4)
  fallback : Option SocketAddrV4
  deriving DecidableEq

namespace PortBindings

def default : PortBindings := ⟨[], none⟩

def isEmpty (b : PortBindings) : Bool := b.hostnames.isEmpty && b.fallback.isNone

end PortBindings

structure SniDemux where
  ports : List (SocketAddrV4 × PortBindings)
  listeners : List SocketAddrV4
  deriving DecidableEq

namespace SniDemux

def initial : SniDemux := ⟨[], []⟩

variable (d : SniDemux) (key : SocketAddrV4)

def reapIfEmpty : SniDemux :=
  if (get d.ports key).all PortBindings.isEmpty then
    ⟨erase d.ports key, d.listeners.erase key⟩
  else d

def prune : SniDemux :=
  ((d.ports.filter fun e => e.2.isEmpty).map Prod.fst).foldl reapIfEmpty d

/-- `binds` says whether a new listener can be started. -/
def ensureListener (binds : Bool) : Option SniDemux :=
  if key ∈ d.listeners then some d
  else if (get d.ports key).all PortBindings.isEmpty then none
  else if binds then some { d with listeners := key :: d.listeners }
  else none

/-- Give back to each name what it had, where the registration still holds it. -/
def rollback (previous : List (Text × Option SocketAddrV4)) (applied : SocketAddrV4) : SniDemux :=
  match get d.ports key with
  | none => d.reapIfEmpty key
  | some entry =>
    let restored := previous.foldl (fun m p =>
      if get m p.1 = some applied then
        match p.2 with
        | some binding => insert p.1 binding m
        | none => erase m p.1
      else m) entry.hostnames
    reapIfEmpty { d with ports := insert key { entry with hostnames := restored } d.ports } key

def register (hostnames : List Text) (target : SocketAddrV4) (binds : Bool) :
    Except UInt8 Unit × SniDemux :=
  if hostnames.isEmpty then (.ok (), d)
  else
    let names := lowercased hostnames
    let entry := (get d.ports key).getD .default
    if names.any fun n => (get entry.hostnames n).any fun t => t.ip ≠ target.ip then
      (.error resultHostnameTaken, { d with ports := orInsert d.ports key .default })
    else
      let previous := names.map fun n => (n, get entry.hostnames n)
      let bound := names.foldl (fun m n => insert n target m) entry.hostnames
      let d := { d with ports := insert key { entry with hostnames := bound } d.ports }
      match d.ensureListener key binds with
      | some d => (.ok (), d)
      | none => (.error resultNoResources, d.rollback key previous target)

def unregister (hostnames : List Text) (target : SocketAddrV4) : SniDemux :=
  match get d.ports key with
  | none => d.reapIfEmpty key
  | some entry =>
    let left := (lowercased hostnames).foldl (fun m n =>
      if get m n = some target then erase m n else m) entry.hostnames
    reapIfEmpty { d with ports := insert key { entry with hostnames := left } d.ports } key

def registerFallback (target : SocketAddrV4) (binds : Bool) : Except UInt8 Unit × SniDemux :=
  let entry := (get d.ports key).getD .default
  if entry.fallback.any fun t => t.ip ≠ target.ip then
    (.error resultHostnameTaken, { d with ports := orInsert d.ports key .default })
  else
    let d := { d with
      ports := insert key { entry with fallback := some target } d.ports }
    match d.ensureListener key binds with
    | some d => (.ok (), d)
    | none => (.error resultNoResources,
        reapIfEmpty { d with ports := insert key entry d.ports } key)

def unregisterFallback (target : SocketAddrV4) : SniDemux :=
  match get d.ports key with
  | none => d.prune
  | some entry =>
    if entry.fallback = some target then
      prune { d with ports := insert key { entry with fallback := none } d.ports }
    else d.prune

end SniDemux

end StartTech.Tunnel

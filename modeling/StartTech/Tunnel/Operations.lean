import StartTech.Tunnel.Requests

/-!
# The operator, the reaper, and reassigned addresses

The operator adds, removes and switches forwards by hand, removes devices and assigns external
addresses to them. The reaper removes what a device made for itself and did not renew. When a
device gets another external address, its forwards move to that address: the whole map is built
again, each forward under the address that its device has now.
-/

namespace StartTech.Tunnel

open Net Foundation
open OrderedMap (get insert erase)
open Prog (peek each)

/-- Why a call of the operator fails. -/
inductive ForwardError
  | countZero
  | noWanIp (device : Ipv4Addr)
  | redirectPort (ip : Ipv4Addr)
  | sniRange
  | sniRegistration (code : UInt8)
  | rangeExceeds
  | uiPortReserved
  | overlaps (conflict : SocketAddrV4)
  | exists (source : SocketAddrV4)
  | network
  | notFound (source : SocketAddrV4)
  | hostnameRequired
  | noRoute (hostname : Text) (source : SocketAddrV4)
  | sniDiversion (code : UInt8)
  deriving DecidableEq

def reserveManual (host : Host) (source target : SocketAddrV4) (count : UInt16)
    (label : Option Text) (forwards : PortForwards) : Except ForwardError (Unit × PortForwards) :=
  if host.webserver.reservesPlainForward source count then .error .uiPortReserved
  else
    match PortForwards.overlapping forwards source count with
    | some conflict => .error (.overlaps conflict)
    | none =>
      if (get forwards source).isSome then .error (.exists source)
      else .ok ((), insert source (.dnat target label true count false) forwards)

/-- Reserve the slot, install the forward, and free the slot when that fails. -/
def addManual (host : Host) (source target : SocketAddrV4) (count : UInt16)
    (label : Option Text) : Prog TunnelContext (Except ForwardError Unit) := do
  match ← transact (reserveManual host source target count label) with
  | .error e => pure (.error e)
  | .ok () => do
    let installed ← addForwardRange host source target count
    if installed then pure (.ok ())
    else do
      change fun forwards => ((), erase forwards source)
      pure (.error .network)

def addForwardAt (host : Host) (source target : SocketAddrV4) (label : Option Text)
    (sni : List Text) (count : UInt16) : Prog TunnelContext (Except ForwardError Unit) := do
  if coversRedirect source count && host.redirects source.ip then pure (.error (.redirectPort source.ip))
  else if !sni.isEmpty then
    if 1 < count then pure (.error .sniRange)
    else do
      match ← persistSniForward host source target sni none false label with
      | .ok () => pure (.ok ())
      | .error code => pure (.error (.sniRegistration code))
  else if 65535 < source.port.toNat + (count.toNat - 1) ∨ 65535 < target.port.toNat + (count.toNat - 1) then
    pure (.error .rangeExceeds)
  else addManual host source target count label

def addForward (host : Host) (externalPort : UInt16) (target : SocketAddrV4) (label : Option Text)
    (sni : List Text) (count : Option UInt16) : Prog TunnelContext (Except ForwardError Unit) := do
  if count.getD 1 = 0 then pure (.error .countZero)
  else
    match ← peek fun s => s.externalIpv4 target.ip host with
    | none => pure (.error (.noWanIp target.ip))
    | some ip => addForwardAt host ⟨ip, externalPort⟩ target label sni (count.getD 1)

/-- The routes to remove: one, or all. -/
def routesToRemove (routes : List (Text × SniRoute)) : Option Text → List (Text × SocketAddrV4)
  | some h => ((get routes h).map fun r => (h, r.target)).toList
  | none => routes.map fun e => (e.1, e.2.target)

def removeForward (host : Host) (source : SocketAddrV4) (hostname : Option Text) :
    Prog TunnelContext Bool := do
  match ← currentForward source with
  | some (.sni routes fallback) => do
    each (fun e => removeSniRoutes source e.2 [e.1] false) (routesToRemove routes hostname)
    match hostname, fallback with
    | none, some f => removeSniFallback source f.target
    | _, _ => pure ()
    pure true
  | some (.dnat _ _ _ _ _) => do
    change fun forwards => ((), erase forwards source)
    withdraw host source
  | none => pure true

inductive ForwardToggle
  | dnat (target : SocketAddrV4) (count : UInt16)
  | sni (hostname : Text) (target : SocketAddrV4)

def updateForwardEnabled (host : Host) (source : SocketAddrV4) (enabled : Bool)
    (hostname : Option Text) (forwards : PortForwards) :
    Except ForwardError (ForwardToggle × PortForwards) :=
  match get forwards source with
  | none => .error (.notFound source)
  | some (.dnat target label _ count auto) =>
    if enabled && host.webserver.reservesPlainForward source count then .error .uiPortReserved
    else .ok (.dnat target count,
      insert source (.dnat target label enabled count auto) forwards)
  | some (.sni routes fallback) =>
    match hostname with
    | none => .error .hostnameRequired
    | some h =>
      match get routes h with
      | none => .error (.noRoute h source)
      | some route => .ok (.sni h route.target, insert source
          (.sni (insert h { route with enabled := enabled } routes) fallback) forwards)

def toggleForward (host : Host) (source : SocketAddrV4) (enabled : Bool) :
    ForwardToggle → Prog TunnelContext (Except ForwardError Unit)
  | .dnat target count => do
    let done ← (if enabled then addForwardRange host source target count
      else withdraw host source)
    pure (if done then .ok () else .error .network)
  | .sni hostname target =>
    if enabled then do
      match ← prepare host with
      | .error code => pure (.error (.sniDiversion code))
      | .ok () => do
        match ← sniRegister host source [hostname] target with
        | .error code => pure (.error (.sniRegistration code))
        | .ok () => pure (.ok ())
    else do
      sniUnregister source [hostname] target
      pure (.ok ())

def setForwardEnabled (host : Host) (source : SocketAddrV4) (enabled : Bool)
    (hostname : Option Text) : Prog TunnelContext (Except ForwardError Unit) :=
  Prog.locked do
    match ← transact (updateForwardEnabled host source enabled hostname) with
    | .error e => pure (.error e)
    | .ok toggle => toggleForward host source enabled toggle

def expiredKeys (leases : Leases) (now : Nat) : List LeaseKey :=
  (leases.filter fun e => e.2 ≤ now).map Prod.fst

/-- Without the lock: an automatic run that is there goes, with its handle. -/
def reapDnat (host : Host) (source : SocketAddrV4) : Prog TunnelContext Unit := do
  let auto ← peek fun s =>
    match get s.portForwards source with
    | some (.dnat _ _ _ _ auto) => auto
    | _ => false
  if auto then do
    change fun forwards => ((), erase forwards source)
    let _ ← withdraw host source
    pure ()
  else pure ()

/-- The target of an automatic route. -/
def autoRouteTarget (forwards : PortForwards) (source : SocketAddrV4) (hostname : Text) :
    Option SocketAddrV4 :=
  match get forwards source with
  | some (.sni routes _) =>
    ((get routes hostname).filter SniRoute.auto).map SniRoute.target
  | _ => none

def autoFallbackTarget (forwards : PortForwards) (source : SocketAddrV4) : Option SocketAddrV4 :=
  match get forwards source with
  | some (.sni _ fallback) => (fallback.filter SniRoute.auto).map SniRoute.target
  | _ => none

def reapSni (source : SocketAddrV4) (hostname : Text) : Prog TunnelContext Unit := do
  match ← peek fun s => autoRouteTarget s.portForwards source hostname with
  | none => pure ()
  | some target => removeSniRoutes source target [hostname] true

def reapSniFallback (source : SocketAddrV4) : Prog TunnelContext Unit := do
  match ← peek fun s => autoFallbackTarget s.portForwards source with
  | none => pure ()
  | some target => removeSniFallback source target

def reapPinhole (host : Host) (key : SocketAddrV6) : Prog TunnelContext Unit := do
  let _ ← closePinhole host key true
  pure ()

def reapKey (host : Host) : LeaseKey → Prog TunnelContext Unit
  | .dnat source => reapDnat host source
  | .sni source hostname => reapSni source hostname
  | .sniFallback source => reapSniFallback source
  | .pinhole key => reapPinhole host key

/-- The lease is still there and has ended. -/
def TunnelContext.lapsed (s : TunnelContext) (now : Nat) (key : LeaseKey) : Bool :=
  (get s.leases key).any fun expiry => expiry ≤ now

/-- The lease goes unless it was renewed meanwhile. -/
def dropLapsed (now : Nat) (key : LeaseKey) : Prog TunnelContext Unit :=
  Prog.modify fun s =>
    if s.lapsed now key then { s with leases := erase s.leases key } else s

def reapLapsed (host : Host) (now : Nat) (key : LeaseKey) : Prog TunnelContext Unit := do
  let lapsed ← peek fun s => s.lapsed now key
  if lapsed then do
    reapKey host key
    dropLapsed now key
  else pure ()

/-- Returns when the next lease ends. -/
def reapExpired (host : Host) : Prog TunnelContext (Option Nat) := do
  let now ← peek TunnelContext.now
  let expired ← peek fun s => expiredKeys s.leases now
  each (reapLapsed host now) expired
  peek fun s => (s.leases.map Prod.snd).min?

/-- The sources of a device's runs. -/
def peerDnatSources (forwards : PortForwards) (peer : Ipv4Addr) (autoOnly : Bool) :
    List SocketAddrV4 :=
  forwards.filterMap fun e =>
    match e.2 with
    | .dnat target _ _ _ auto => if target.ip = peer && (!autoOnly || auto) then some e.1 else none
    | .sni _ _ => none

def peerSniRoutes (forwards : PortForwards) (peer : Ipv4Addr) (autoOnly : Bool) :
    List (SocketAddrV4 × SocketAddrV4 × Text) :=
  forwards.flatMap fun e =>
    match e.2 with
    | .dnat _ _ _ _ _ => []
    | .sni routes _ =>
      (routes.filter fun r => r.2.target.ip = peer && (!autoOnly || r.2.auto)).map
        fun r => (e.1, r.2.target, r.1)

def peerSniFallbacks (forwards : PortForwards) (peer : Ipv4Addr) (autoOnly : Bool) :
    List (SocketAddrV4 × SocketAddrV4) :=
  forwards.filterMap fun e =>
    match e.2 with
    | .sni _ (some f) =>
      if f.target.ip = peer && (!autoOnly || f.auto) then some (e.1, f.target) else none
    | _ => none

/-- A device's own addresses of the sixth version. -/
def TunnelContext.peerGuas (s : TunnelContext) (peer : Ipv4Addr) : List Ipv6Addr :=
  s.subnets.filterMap fun cfg => cfg.2.ipv6.map fun net => hostV6 net peer

def clearForPeer (host : Host) (peer : Ipv4Addr) (autoOnly : Bool) : Prog TunnelContext Unit := do
  let forwards ← peek TunnelContext.portForwards
  each (fun source => do
    let _ ← removePeerForwardBySource host source peer false
    pure ()) (peerDnatSources forwards peer autoOnly)
  each (fun e => removeSniRoutes e.1 e.2.1 [e.2.2] false) (peerSniRoutes forwards peer autoOnly)
  each (fun e => removeSniFallback e.1 e.2) (peerSniFallbacks forwards peer autoOnly)
  let guas ← peek fun s => s.peerGuas peer
  let keys ← peek fun s =>
    (s.pinholes.filter fun e => guas.contains e.1.ip && (!autoOnly || e.2.auto)).map Prod.fst
  each (fun key => do
    let _ ← closePinhole host key false
    pure ()) keys

/-- What is left of an entry when only some devices are. -/
def gcEntry (keep : Ipv4Addr → Bool) : PortForward → Option PortForward
  | .dnat target label enabled count auto =>
    if keep target.ip then some (.dnat target label enabled count auto) else none
  | .sni routes fallback =>
    let left := routes.filter fun r => keep r.2.target.ip
    let fallbackLeft := fallback.filter fun f => keep f.target.ip
    if left.isEmpty && fallbackLeft.isNone then none else some (.sni left fallbackLeft)

def gcForwards (keep : Ipv4Addr → Bool) (forwards : PortForwards) : PortForwards :=
  forwards.filterMap fun e => (gcEntry keep e.2).map fun entry => (e.1, entry)

def droppedSni (keep : Ipv4Addr → Bool) (forwards : PortForwards) :
    List (SocketAddrV4 × Text × SocketAddrV4) :=
  forwards.flatMap fun e =>
    match e.2 with
    | .dnat _ _ _ _ _ => []
    | .sni routes _ =>
      (routes.filter fun r => !keep r.2.target.ip).map fun r => (e.1, r.1, r.2.target)

def droppedFallbacks (keep : Ipv4Addr → Bool) (forwards : PortForwards) :
    List (SocketAddrV4 × SocketAddrV4) :=
  forwards.filterMap fun e =>
    match e.2 with
    | .sni _ (some f) => if !keep f.target.ip then some (e.1, f.target) else none
    | _ => none

structure GcForwards where
  keepSources : List SocketAddrV4
  droppedSni : List (SocketAddrV4 × Text × SocketAddrV4)
  droppedFallbacks : List (SocketAddrV4 × SocketAddrV4)

/-- The address is that of a device. -/
def isClient (subnets : List (IpNet × WgSubnet)) (ip : Ipv4Addr) : Bool :=
  subnets.any fun cfg => (get cfg.2.clients ip).isSome

/-- Other devices are configured, and what is forwarded to none of them goes. -/
def TunnelContext.configureGc (s : TunnelContext) (subnets : List (IpNet × WgSubnet)) :
    GcForwards × TunnelContext :=
  let left := gcForwards (isClient subnets) s.portForwards
  (⟨left.map Prod.fst, droppedSni (isClient subnets) s.portForwards,
      droppedFallbacks (isClient subnets) s.portForwards⟩,
    { s with subnets := subnets, portForwards := left })

def LeaseKey.keptBy (keep : List SocketAddrV4) : LeaseKey → Bool
  | .dnat source => keep.contains source
  | .sni source _ => keep.contains source
  | .sniFallback source => keep.contains source
  | .pinhole _ => true

/-- Give up the handles of all sources but some. -/
def TunnelContext.retainActive (s : TunnelContext) (keep : List SocketAddrV4) : TunnelContext :=
  ((s.active.map Prod.fst).filter fun source => !keep.contains source).foldl
    TunnelContext.release s

def collectForwards (host : Host) (gc : GcForwards) : Prog TunnelContext Bool := do
  each (fun e => sniUnregister e.1 [e.2.1] e.2.2) gc.droppedSni
  each (fun e => sniUnregisterFallback e.1 e.2) gc.droppedFallbacks
  Prog.modify fun s => s.retainActive gc.keepSources
  Prog.modify fun s =>
    { s with leases := s.leases.filter fun e => e.1.keptBy gc.keepSources }
  Prog.mutate fun s => s.gcForward host

/-- Configure devices, have the interface follow, and collect what is left over. -/
def reconfigure (host : Host) (update : List (IpNet × WgSubnet) → Option (List (IpNet × WgSubnet))) :
    Prog TunnelContext Bool := do
  let gc ← Prog.mutate fun s =>
    match update s.subnets with
    | none => (none, s)
    | some subnets => ((some (s.configureGc subnets).1), (s.configureGc subnets).2)
  match gc with
  | none => pure false
  | some gc => do
    let synced ← call host
    if synced then collectForwards host gc else pure false

/-- Change the configuration of one subnet. -/
def updateSubnet (subnet : IpNet) (f : WgSubnet → Option WgSubnet)
    (subnets : List (IpNet × WgSubnet)) : Option (List (IpNet × WgSubnet)) :=
  (get subnets subnet).bind fun cfg => (f cfg).map fun cfg' =>
    subnets.map fun e => if e.1 = subnet then (e.1, cfg') else e

/-- Change the configuration of one device. -/
def updateClient (ip : Ipv4Addr) (f : WgClient → WgClient) (cfg : WgSubnet) : Option WgSubnet :=
  (get cfg.clients ip).map fun client =>
    { cfg with clients := cfg.clients.map fun e => if e.1 = ip then (e.1, f client) else e }

def removeClient (ip : Ipv4Addr) (cfg : WgSubnet) : Option WgSubnet :=
  (get cfg.clients ip).map fun _ =>
    { cfg with clients := erase cfg.clients ip }

def removeDevice (host : Host) (subnet : IpNet) (ip : Ipv4Addr) : Prog TunnelContext Bool := do
  clearForPeer host ip false
  reconfigure host (updateSubnet subnet (removeClient ip))

def removeSubnet (host : Host) (subnet : IpNet) : Prog TunnelContext Bool :=
  reconfigure host fun subnets => some (erase subnets subnet)

/-- The address that a forward of the device has now. -/
def movedKey (external : Ipv4Addr → Option Ipv4Addr) (source : SocketAddrV4) (device : Ipv4Addr) :
    SocketAddrV4 :=
  ⟨(external device).getD source.ip, source.port⟩

/-- A route is lost where a run of ports is in its place. -/
def rekeyRoute (want : PortForwards) (key : SocketAddrV4) (hostname : Text) (route : SniRoute) :
    PortForwards :=
  match get want key with
  | some (.dnat _ _ _ _ _) => want
  | some (.sni routes fallback) =>
    insert key (.sni (insert hostname route routes) fallback) want
  | none => insert key (.sni [(hostname, route)] none) want

def rekeyFallback (want : PortForwards) (key : SocketAddrV4) (f : SniRoute) : PortForwards :=
  match get want key with
  | some (.dnat _ _ _ _ _) => want
  | some (.sni routes _) => insert key (.sni routes (some f)) want
  | none => insert key (.sni [] (some f)) want

def rekeyEntry (external : Ipv4Addr → Option Ipv4Addr) (want : PortForwards)
    (e : SocketAddrV4 × PortForward) : PortForwards :=
  match e.2 with
  | .dnat target label enabled count auto =>
    insert (movedKey external e.1 target.ip) (.dnat target label enabled count auto) want
  | .sni routes fallback =>
    let want := routes.foldl (fun want r =>
      rekeyRoute want (movedKey external e.1 r.2.target.ip) r.1 r.2) want
    match fallback with
    | none => want
    | some f => rekeyFallback want (movedKey external e.1 f.target.ip) f

/-- Every forward under the address that its device has now. -/
def rekey (external : Ipv4Addr → Option Ipv4Addr) (old : PortForwards) : PortForwards :=
  old.foldl (rekeyEntry external) []

/-- The routes of all shared ports, or the enabled ones. -/
def allRoutes (forwards : PortForwards) (enabledOnly : Bool) :
    List ((SocketAddrV4 × Text) × SocketAddrV4) :=
  forwards.flatMap fun e =>
    match e.2 with
    | .dnat _ _ _ _ _ => []
    | .sni routes _ =>
      (routes.filter fun r => !enabledOnly || r.2.enabled).map fun r => ((e.1, r.1), r.2.target)

def allFallbacks (forwards : PortForwards) (enabledOnly : Bool) :
    List (SocketAddrV4 × SocketAddrV4) :=
  forwards.filterMap fun e =>
    match e.2 with
    | .sni _ (some f) => if !enabledOnly || f.enabled then some (e.1, f.target) else none
    | _ => none

def reconcileSniDemux (host : Host) (old want : PortForwards) : Prog TunnelContext Unit := do
  each (fun e =>
    if get (allRoutes want true) e.1 = some e.2 then pure ()
    else sniUnregister e.1.1 [e.1.2] e.2) (allRoutes old false)
  each (fun e => do
    let _ ← sniRegister host e.1.1 [e.1.2] e.2
    pure ()) (allRoutes want true)
  each (fun e =>
    if get (allFallbacks want true) e.1 = some e.2 then pure ()
    else sniUnregisterFallback e.1 e.2) (allFallbacks old false)
  each (fun e => do
    let _ ← sniRegisterFallback host e.1 e.2
    pure ()) (allFallbacks want true)

/-- The addresses of the runs of ports. -/
def dnatSources (forwards : PortForwards) : List SocketAddrV4 :=
  (forwards.filter fun e => !e.2.isSni).map Prod.fst

/-- Install the enabled runs whose address has no handle; stop where that fails. -/
def installMissing (host : Host) : PortForwards → Prog TunnelContext Bool
  | [] => pure true
  | (source, .dnat target _ true count _) :: rest => do
    let active ← peek fun s => (get s.active source).isSome
    let installed ← (if active then pure true else addForwardRange host source target count)
    if installed then installMissing host rest else pure false
  | _ :: rest => installMissing host rest

/-- Build the map again, bring the dataplane in line with it, and store it. -/
def resyncForwardKeys (host : Host) : Prog TunnelContext Bool := do
  let old ← peek TunnelContext.portForwards
  let want ← peek fun s => rekey (fun ip => s.externalIpv4 ip host) old
  reconcileSniDemux host old want
  Prog.modify fun s =>
    ((dnatSources old).filter fun source => !(dnatSources want).contains source).foldl
      TunnelContext.release s
  let installed ← installMissing host want
  if installed then do
    let _ ← Prog.mutate fun s => s.gcForward host
    Prog.modify fun s => { s with portForwards := want }
    pure true
  else pure false

/-- Assign external addresses, have the rules for outgoing traffic follow, and move the
forwards. -/
def reassign (host : Host) (update : List (IpNet × WgSubnet) → Option (List (IpNet × WgSubnet))) :
    Prog TunnelContext Bool := do
  let assigned ← Prog.mutate fun s =>
    match update s.subnets with
    | none => (false, s)
    | some subnets => (true, { s with subnets := subnets })
  if assigned then do
    let synced ← call host
    if synced then resyncForwardKeys host else pure false
  else pure false

def assignSubnet (subnet : IpNet) (wanIp : Option Ipv4Addr) :
    List (IpNet × WgSubnet) → Option (List (IpNet × WgSubnet)) :=
  updateSubnet subnet fun cfg => some { cfg with wanIp := wanIp }

def assignDevice (subnet : IpNet) (ip : Ipv4Addr) (wanIp : Option Ipv4Addr) :
    List (IpNet × WgSubnet) → Option (List (IpNet × WgSubnet)) :=
  updateSubnet subnet (updateClient ip fun client => { client with wanIp := wanIp })

def setSubnetWan (host : Host) (subnet : IpNet) (wanIp : Option Ipv4Addr) :
    Prog TunnelContext Bool :=
  reassign host (assignSubnet subnet wanIp)

def setDeviceWan (host : Host) (subnet : IpNet) (ip : Ipv4Addr) (wanIp : Option Ipv4Addr) :
    Prog TunnelContext Bool :=
  reassign host (assignDevice subnet ip wanIp)

/-- What happens to the tunnel. Devices may also be added and given other rights, and time
passes. -/
inductive Operation
  | map (peer : Ipv4Addr) (r : MapRequest)
  | map6 (peer : Ipv6Addr) (r : MapRequest)
  | control (peer : Ipv4Addr) (r : IgdRequest)
  | addForward (externalPort : UInt16) (target : SocketAddrV4) (label : Option Text)
      (sni : List Text) (count : Option UInt16)
  | removeForward (source : SocketAddrV4) (hostname : Option Text)
  | setForwardEnabled (source : SocketAddrV4) (enabled : Bool) (hostname : Option Text)
  | reapExpired
  | clearForPeer (peer : Ipv4Addr) (autoOnly : Bool)
  | removeDevice (subnet : IpNet) (ip : Ipv4Addr)
  | removeSubnet (subnet : IpNet)
  | setDeviceWan (subnet : IpNet) (ip : Ipv4Addr) (wanIp : Option Ipv4Addr)
  | setSubnetWan (subnet : IpNet) (wanIp : Option Ipv4Addr)
  | configure (subnets : List (IpNet × WgSubnet))
  | wait (seconds : Nat)

def Operation.program (host : Host) : Operation → Prog TunnelContext Unit
  | .map peer r => do
    let _ ← handle host peer r
    pure ()
  | .map6 peer r => do
    let _ ← handle6 host peer r
    pure ()
  | .control peer r => do
    let _ ← handleControl host peer r
    pure ()
  | .addForward externalPort target label sni count => do
    let _ ← Tunnel.addForward host externalPort target label sni count
    pure ()
  | .removeForward source hostname => do
    let _ ← Tunnel.removeForward host source hostname
    pure ()
  | .setForwardEnabled source enabled hostname => do
    let _ ← Tunnel.setForwardEnabled host source enabled hostname
    pure ()
  | .reapExpired => do
    let _ ← Tunnel.reapExpired host
    pure ()
  | .clearForPeer peer autoOnly => Tunnel.clearForPeer host peer autoOnly
  | .removeDevice subnet ip => do
    let _ ← Tunnel.removeDevice host subnet ip
    pure ()
  | .removeSubnet subnet => do
    let _ ← Tunnel.removeSubnet host subnet
    pure ()
  | .setDeviceWan subnet ip wanIp => do
    let _ ← Tunnel.setDeviceWan host subnet ip wanIp
    pure ()
  | .setSubnetWan subnet wanIp => do
    let _ ← Tunnel.setSubnetWan host subnet wanIp
    pure ()
  | .configure subnets => Prog.modify fun s => { s with subnets := subnets }
  | .wait seconds => Prog.modify fun s => { s with now := s.now + seconds }

/-- An operation with what the host reports while it runs. -/
structure Call where
  host : Host
  operation : Operation

def perform (s : TunnelContext) (c : Call) : TunnelContext := ((c.operation.program c.host).run s).2

/-- The assignment that an operation makes before it moves the forwards. -/
def Operation.assignment :
    Operation → Option (List (IpNet × WgSubnet) → Option (List (IpNet × WgSubnet)))
  | .setDeviceWan subnet ip wanIp => some (assignDevice subnet ip wanIp)
  | .setSubnetWan subnet wanIp => some (assignSubnet subnet wanIp)
  | _ => none

/-- Every step of a run meets a condition in the state in which it is taken. -/
def Meets (cond : TunnelContext → Call → Bool) : TunnelContext → List Call → Bool
  | _, [] => true
  | s, c :: rest => cond s c && Meets cond (perform s c) rest

/-- Something holds of every state of a run, and something else of every step. -/
def Throughout (inv : TunnelContext → Prop) (keeps : TunnelContext → Call → Prop) :
    TunnelContext → List Call → Prop
  | s, [] => inv s
  | s, c :: rest => inv s ∧ keeps s c ∧ Throughout inv keeps (perform s c) rest

/-- Steps that meet a condition keep an invariant, so runs of them do. -/
theorem throughout_of_step {cond : TunnelContext → Call → Bool} {inv : TunnelContext → Prop}
    {keeps : TunnelContext → Call → Prop}
    (hstep : ∀ s c, inv s → cond s c = true → inv (perform s c) ∧ keeps s c) {s : TunnelContext}
    {calls : List Call} (h : inv s) (hmeets : Meets cond s calls = true) :
    Throughout inv keeps s calls := by
  induction calls generalizing s with
  | nil => exact h
  | cons c rest ih =>
    rw [Meets, Bool.and_eq_true] at hmeets
    obtain ⟨hnext, hkeeps⟩ := hstep s c h hmeets.1
    exact ⟨h, hkeeps, ih hnext hmeets.2⟩

theorem Throughout.imp {inv inv' : TunnelContext → Prop} {keeps : TunnelContext → Call → Prop}
    (himp : ∀ s, inv s → inv' s) {s : TunnelContext} {calls : List Call}
    (h : Throughout inv keeps s calls) : Throughout inv' keeps s calls := by
  induction calls generalizing s with
  | nil => exact himp s h
  | cons c rest ih => exact ⟨himp s h.1, h.2.1, ih h.2.2⟩

/-- A host on which every call succeeds and that has no pages of its own. -/
def Host.steady : Host where
  defaultWan := none
  prefixFor _ := 24
  webserver := ⟨false, none⟩
  redirects _ := false
  outcomes _ := true
  calls _ := true

def sampleSubnet : IpNet := ⟨.v4 (.ofOctets 10 59 0 1), 24⟩

/-- A tunnel with two devices, each with an external address of its own. -/
def sampleTunnel : TunnelContext :=
  .initial [(sampleSubnet,
    ⟨[(.ofOctets 10 59 0 2, ⟨some (.ofOctets 203 0 113 1), true⟩),
      (.ofOctets 10 59 0 3, ⟨some (.ofOctets 203 0 113 2), true⟩)], none, none⟩)]

/-- A request for one port of a device. -/
def samplePort (port : UInt16) : MapRequest := ⟨3600, port, port, true, [], none⟩

end StartTech.Tunnel

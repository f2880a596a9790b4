import StartTech.Tunnel.Context

/-!
# What devices ask the tunnel for

Devices make and delete mappings to themselves, by one of two protocols. A mapping is a run of
ports, a host name on a shared port, everything else on a shared port, or a pinhole. A run of
one port becomes the fallback of a shared port when its device asks for a host name on it.

## Implementation notes

Requests are modelled behind their decoding: what is malformed changes nothing. The texts that a
failed transaction would report are replaced by what they name.
-/

namespace StartTech.Tunnel

open Net Foundation
open OrderedMap (get insert erase)
open Prog (peek locked mutate each modify)

/-- The owner of a route may point it elsewhere within its device; other changes conflict. -/
def routeConflicts (route : SniRoute) (target : SocketAddrV4) (auto : Bool) : Bool :=
  route.target ≠ target && (route.auto ≠ auto || route.target.ip ≠ target.ip)

/-- Label, whether it is enabled, and owner: those of the route that is there. -/
def sniRouteFields (existing : Option SniRoute) (auto : Bool) (defaultLabel : Option Text) :
    Option Text × Bool × Bool :=
  match existing with
  | some r => (r.label.or defaultLabel, r.enabled, r.auto)
  | none => (defaultLabel, true, auto)

def sniRoute (existing : Option SniRoute) (target : SocketAddrV4) (auto : Bool)
    (defaultLabel : Option Text) : SniRoute :=
  let fields := sniRouteFields existing auto defaultLabel
  ⟨target, fields.1, fields.2.1, fields.2.2⟩

/-- Why a transaction on the forwards fails. -/
inductive PersistError
  | overlaps (conflict : SocketAddrV4)
  | dnatRange
  | dnatOfAnotherClient
  | hostnameHeld (hostname : Text)
  | fallbackHeld
  | notSniDemuxed
  deriving DecidableEq

def persistFallback (source target : SocketAddrV4) (auto : Bool) (defaultLabel : Option Text)
    (forwards : PortForwards) : Except PersistError (Bool × PortForwards) :=
  match get forwards source with
  | some (.sni routes fallback) =>
    if fallback.any fun f => routeConflicts f target auto then .error .fallbackHeld
    else
      let route := sniRoute fallback target auto defaultLabel
      .ok (route.enabled, insert source (.sni routes (some route)) forwards)
  | _ => .error .notSniDemuxed

/-- The fallback goes if it is the target's; a shared port without routes goes with it. -/
def dropFallback (source target : SocketAddrV4) (forwards : PortForwards) : PortForwards :=
  match get forwards source with
  | some (.sni routes fallback) =>
    let left := if fallback.any fun f => f.target = target then none else fallback
    if routes.isEmpty && left.isNone then erase forwards source
    else insert source (.sni routes left) forwards
  | _ => forwards

def removeSniFallbackLocked (source target : SocketAddrV4) : Prog TunnelContext Unit := do
  sniUnregisterFallback source target
  forget (.sniFallback source)
  change fun forwards => ((), dropFallback source target forwards)

def removeSniFallback (source target : SocketAddrV4) : Prog TunnelContext Unit :=
  (removeSniFallbackLocked source target).locked

/-- The label of what a device makes for itself. -/
def automaticLabel : Text := "Automatic".toList

def defaultLabel (auto : Bool) (label : Option Text) : Option Text :=
  if auto then some automaticLabel else label

def stampFor (key : LeaseKey) : Option Nat → Prog TunnelContext Unit
  | some lifetime => stamp key lifetime
  | none => pure ()

/-- Register the fallback that was persisted, or remove it again. -/
def registerFallback (host : Host) (source target : SocketAddrV4) (lifetime : Option Nat)
    (enabled : Bool) : Prog TunnelContext (Except UInt8 Unit) := do
  let registered ← (if enabled then sniRegisterFallback host source target else pure (.ok ()))
  match registered with
  | .error _ => do
    removeSniFallbackLocked source target
    pure (.error resultHostnameTaken)
  | .ok () => do
    stampFor (.sniFallback source) lifetime
    pure (.ok ())

def persistFallbackForwardLocked (host : Host) (source target : SocketAddrV4)
    (lifetime : Option Nat) (auto : Bool) (label : Option Text) :
    Prog TunnelContext (Except UInt8 Unit) := do
  match ← prepare host with
  | .error code => pure (.error code)
  | .ok () => do
    match ← transact (persistFallback source target auto (defaultLabel auto label)) with
    | .error _ => pure (.error resultHostnameTaken)
    | .ok enabled => registerFallback host source target lifetime enabled

/-- Point the device's own mapping elsewhere within the device. -/
def remapAutoDnat (source target : SocketAddrV4) (count : UInt16) (forwards : PortForwards) :
    Bool × PortForwards :=
  if (PortForwards.overlapping forwards source count).isSome then (false, forwards)
  else
    match get forwards source with
    | some (.dnat existing label enabled _ true) =>
      if existing.ip = target.ip then
        (true, insert source (.dnat target label enabled count true) forwards)
      else (false, forwards)
    | _ => (false, forwards)

def reserveDnat (source target : SocketAddrV4) (count : UInt16) (label : Text)
    (forwards : PortForwards) : Bool × PortForwards :=
  if (PortForwards.overlapping forwards source count).isSome then (false, forwards)
  else (true, insert source (.dnat target (some label) true count true) forwards)

def conflictInMappingEntry : UInt16 := 718

def actionFailed : UInt16 := 501

/-- The port of the redirect to the secure pages lies in the run. -/
def coversRedirect (source : SocketAddrV4) (count : UInt16) : Bool :=
  source.port ≤ 80 && 80 ≤ spanEnd source.port count

/-- The run is there: install it if it is enabled and not installed, and renew its lease. -/
def renewDnat (host : Host) (source target : SocketAddrV4) (count : UInt16)
    (lifetime : Option Nat) (enabled : Bool) : Prog TunnelContext (Except UInt16 Unit) := do
  let active ← peek fun s => (get s.active source).isSome
  let installed ← (if enabled && !active then addForwardRange host source target count
    else pure true)
  if installed then do
    stampFor (.dnat source) lifetime
    pure (.ok ())
  else pure (.error actionFailed)

/-- Another mapping of the address is there. -/
def reassertDnat (host : Host) (source target : SocketAddrV4) (count : UInt16)
    (lifetime : Option Nat) (existing : SocketAddrV4) (existingCount : UInt16) (enabled : Bool) :
    Prog TunnelContext (Except UInt16 Unit) := do
  if existing ≠ target ∨ existingCount ≠ count then do
    let remapped ← change (remapAutoDnat source target count)
    if remapped then do
      let _ ← withdraw host source
      renewDnat host source target count lifetime enabled
    else pure (.error conflictInMappingEntry)
  else renewDnat host source target count lifetime enabled

/-- The slot is reserved before the forward is installed, and freed when that fails. -/
def createDnat (host : Host) (source target : SocketAddrV4) (count : UInt16) (label : Text)
    (lifetime : Option Nat) : Prog TunnelContext (Except UInt16 Unit) := do
  let reserved ← change (reserveDnat source target count label)
  if reserved then do
    let installed ← addForwardRange host source target count
    if installed then do
      stampFor (.dnat source) lifetime
      pure (.ok ())
    else do
      change fun forwards => ((), erase forwards source)
      pure (.error actionFailed)
  else pure (.error conflictInMappingEntry)

def applyPeerForwardRange (host : Host) (source target : SocketAddrV4) (count : UInt16)
    (label : Text) (lifetime : Option Nat) : Prog TunnelContext (Except UInt16 Unit) :=
  locked do
    if coversRedirect source count || host.webserver.reservesPlainForward source count then
      pure (.error conflictInMappingEntry)
    else
      match ← currentForward source with
      | some (.sni _ _) =>
        if count ≠ 1 then pure (.error conflictInMappingEntry)
        else do
          match ← persistFallbackForwardLocked host source target lifetime true none with
          | .ok () => pure (.ok ())
          | .error _ => pure (.error conflictInMappingEntry)
      | some (.dnat existing _ enabled existingCount _) =>
        reassertDnat host source target count lifetime existing existingCount enabled
      | none => createDnat host source target count label lifetime

/-- A run of one port may become the fallback of a shared port of the same device. -/
def planDnatConversion (existing : Option PortForward) (newTarget : SocketAddrV4) :
    Except PersistError Bool :=
  match existing with
  | some (.dnat target _ _ count _) =>
    if count ≠ 1 then .error .dnatRange
    else if target.ip ≠ newTarget.ip then .error .dnatOfAnotherClient
    else .ok true
  | _ => .ok false

/-- The routes and the fallback that names are added to. -/
def sharedPort : Option PortForward → List (Text × SniRoute) × Option SniRoute
  | some (.dnat target label enabled _ auto) => ([], some ⟨target, label, enabled, auto⟩)
  | some (.sni routes fallback) => (routes, fallback)
  | none => ([], none)

/-- The routes with one for each name, and the names whose route is enabled. -/
def insertRoutes (target : SocketAddrV4) (auto : Bool) (label : Option Text)
    (routes : List (Text × SniRoute)) (hostnames : List Text) :
    List (Text × SniRoute) × List Text :=
  hostnames.foldl (fun acc h =>
    let route := sniRoute (get acc.1 h) target auto label
    (insert h route acc.1, if route.enabled then acc.2 ++ [h] else acc.2)) (routes, [])

/-- What was there, the run that became a fallback, and the names to register. -/
structure Persisted where
  converted : Option PortForward
  previous : Option PortForward
  enabledHostnames : List Text

def persistSni (source target : SocketAddrV4) (hostnames : List Text) (auto : Bool)
    (label : Option Text) (forwards : PortForwards) :
    Except PersistError (Persisted × PortForwards) :=
  match PortForwards.overlapping forwards source 1 with
  | some conflict => .error (.overlaps conflict)
  | none => do
    let previous := get forwards source
    let convert ← planDnatConversion previous target
    let shared := sharedPort previous
    match hostnames.find? fun h =>
        (get shared.1 h).any fun r => routeConflicts r target auto with
    | some h => .error (.hostnameHeld h)
    | none =>
      let added := insertRoutes target auto label shared.1 hostnames
      .ok (⟨if convert then previous else none, previous, added.2⟩,
        insert source (.sni added.1 shared.2) forwards)

def restorePersistedForward (source : SocketAddrV4) (previous : Option PortForward) :
    Prog TunnelContext Unit :=
  change fun forwards =>
    match previous with
    | some forward => ((), insert source forward forwards)
    | none => ((), erase forwards source)

/-- Register the names; when that fails, everything is as before. -/
def registerOrRestore (host : Host) (source target : SocketAddrV4) (hostnames : List Text)
    (restore : Prog TunnelContext Unit) : Prog TunnelContext (Except UInt8 Unit) := do
  match ← sniRegister host source hostnames target with
  | .ok () => pure (.ok ())
  | .error code => do
    restore
    pure (.error code)

def registerConvertedSni (host : Host) (source target : SocketAddrV4) (hostnames : List Text)
    (fallbackTarget : Option SocketAddrV4) (restore : Prog TunnelContext Unit) :
    Prog TunnelContext (Except UInt8 Unit) :=
  match fallbackTarget with
  | none => registerOrRestore host source target hostnames restore
  | some fallback => do
    match ← sniRegisterFallback host source fallback with
    | .error code => do
      restore
      pure (.error code)
    | .ok () =>
      registerOrRestore host source target hostnames do
        sniUnregisterFallback source fallback
        restore

def registerPersisted (host : Host) (source target : SocketAddrV4) (p : Persisted) :
    Prog TunnelContext (Except UInt8 Unit) :=
  match p.converted with
  | some (.dnat dnatTarget _ dnatEnabled _ _) =>
    registerConvertedSni host source target p.enabledHostnames
      (if dnatEnabled then some dnatTarget else none) (restorePersistedForward source p.converted)
  | _ =>
    registerOrRestore host source target p.enabledHostnames
      (restorePersistedForward source p.previous)

/-- The run's lease becomes the fallback's. -/
def carryLease (source : SocketAddrV4) : Prog TunnelContext Unit := do
  let carried ← mutate fun s =>
    (get s.leases (.dnat source),
      { s with leases := erase s.leases (.dnat source) })
  match carried with
  | some expiry => modify fun s =>
    { s with leases := insert (.sniFallback source) expiry s.leases }
  | none => pure ()

def stampNames (source : SocketAddrV4) (hostnames : List Text) (lifetime : Option Nat) :
    Prog TunnelContext Unit :=
  each (fun h => stampFor (.sni source h) lifetime) hostnames

/-- The run that became a fallback is withdrawn. -/
def completeConversion (host : Host) (source : SocketAddrV4) (p : Persisted) :
    Prog TunnelContext Unit :=
  if p.converted.isSome then do
    let _ ← withdraw host source
    carryLease source
  else pure ()

def persistSniForward (host : Host) (source target : SocketAddrV4) (hostnames : List Text)
    (lifetime : Option Nat) (auto : Bool) (label : Option Text) :
    Prog TunnelContext (Except UInt8 Unit) :=
  locked do
    match ← prepare host with
    | .error code => pure (.error code)
    | .ok () => do
      match ← transact (persistSni source target hostnames auto (defaultLabel auto label)) with
      | .error _ => pure (.error resultHostnameTaken)
      | .ok p => do
        match ← registerPersisted host source target p with
        | .error code => pure (.error code)
        | .ok () => do
          completeConversion host source p
          stampNames source hostnames lifetime
          pure (.ok ())

/-- The run at an address goes, with its handle and its lease. -/
def removeDnat (host : Host) (source : SocketAddrV4) : Prog TunnelContext Unit := do
  change fun forwards => ((), erase forwards source)
  let _ ← withdraw host source
  forget (.dnat source)

def removePeerForwardBySource (host : Host) (source : SocketAddrV4) (peer : Ipv4Addr)
    (autoOnly : Bool) : Prog TunnelContext Bool :=
  locked do
    match ← currentForward source with
    | some (.dnat target _ _ _ auto) =>
      if target.ip = peer && (!autoOnly || auto) then do
        removeDnat host source
        pure true
      else pure false
    | some (.sni _ (some fallback)) =>
      if fallback.target.ip = peer && (!autoOnly || fallback.auto) then do
        removeSniFallbackLocked source fallback.target
        pure true
      else pure false
    | _ => pure false

/-- Routes of the target under one of the names go; a shared port that is left empty goes
with them. -/
def dropRoutes (source target : SocketAddrV4) (hostnames : List Text) (autoOnly : Bool)
    (forwards : PortForwards) : List Text × PortForwards :=
  match get forwards source with
  | some (.sni routes fallback) =>
    let goes := fun e : Text × SniRoute =>
      e.2.target = target && hostnames.contains e.1 && (!autoOnly || e.2.auto)
    let left := routes.filter fun e => !goes e
    ((routes.filter goes).map Prod.fst,
      if left.isEmpty && fallback.isNone then erase forwards source
      else insert source (.sni left fallback) forwards)
  | _ => ([], forwards)

def removeSniRoutes (source target : SocketAddrV4) (hostnames : List Text) (autoOnly : Bool) :
    Prog TunnelContext Unit :=
  locked do
    let removed ← change (dropRoutes source target hostnames autoOnly)
    sniUnregister source removed target
    each (fun hostname => forget (.sni source hostname)) removed

def peerForwardMatches (entry : PortForward) (target : SocketAddrV4) : Bool :=
  match entry with
  | .dnat t _ _ _ auto => auto && t = target
  | .sni _ fallback => fallback.any fun f => f.auto && f.target = target

def PortForward.isSni : PortForward → Bool
  | .dnat _ _ _ _ _ => false
  | .sni _ _ => true

def peerForwardSource (forwards : PortForwards) (target : SocketAddrV4) :
    Option (SocketAddrV4 × Bool) :=
  (forwards.find? fun e => peerForwardMatches e.2 target).map fun e => (e.1, e.2.isSni)

def removePeerForward (host : Host) (peer : Ipv4Addr) (internalPort : UInt16) :
    Prog TunnelContext Unit :=
  locked do
    match ← peek fun s => peerForwardSource s.portForwards ⟨peer, internalPort⟩ with
    | none => pure ()
    | some (source, true) => removeSniFallbackLocked source ⟨peer, internalPort⟩
    | some (source, false) => removeDnat host source

/-- Why a pinhole is refused. -/
inductive PinholeError
  | overlaps (conflict : SocketAddrV6)
  | heldByAnother
  deriving DecidableEq

def pinholeLabel : Text := "PCP".toList

def upsertPinhole (key : SocketAddrV6) (internalPort count : UInt16) (label : Option Text)
    (auto : Bool) (pinholes : Pinholes6) : Except PinholeError (Bool × Pinholes6) :=
  match Pinholes6.overlapping pinholes key count with
  | some conflict => .error (.overlaps conflict)
  | none =>
    let pinhole := (get pinholes key).getD
      ⟨if auto then some pinholeLabel else none, true, count, none, auto⟩
    if pinhole.auto ≠ auto &&
        (pinhole.internal key.port ≠ internalPort || pinhole.count ≠ count) then
      .error .heldByAnother
    else
      .ok (pinhole.enabled, insert key
        { pinhole with
          internalPort := if internalPort ≠ key.port then some internalPort else none
          count := count
          label := label.or pinhole.label } pinholes)

def applyPinhole (host : Host) (key : SocketAddrV6) (internalPort count : UInt16) :
    Prog TunnelContext Bool :=
  mutate fun s =>
    if host.calls s.calls then
      (true, { s with
        pinholeRules := insert key (internalPort, count) s.pinholeRules
        calls := s.calls + 1 })
    else (false, { s with calls := s.calls + 1 })

/-- Persist a pinhole and install its rules if it is enabled. -/
def openPinhole (host : Host) (key : SocketAddrV6) (internalPort count : UInt16)
    (label : Option Text) (auto : Bool) : Prog TunnelContext Bool :=
  locked do
    let upserted ← mutate fun s =>
      match upsertPinhole key internalPort count label auto s.pinholes with
      | .ok (enabled, pinholes) => (some enabled, { s with pinholes := pinholes })
      | .error _ => (none, s)
    match upserted with
    | none => pure false
    | some false => pure true
    | some true => applyPinhole host key internalPort count

def addPinhole (host : Host) (gua : Ipv6Addr) (externalPort internalPort count : UInt16)
    (lifetime : Option Nat) : Prog TunnelContext Bool := do
  let opened ← openPinhole host ⟨gua, externalPort⟩ internalPort count none true
  if opened then do
    stampFor (.pinhole ⟨gua, externalPort⟩) lifetime
    pure true
  else pure false

/-- Returns whether there was such a pinhole. -/
def closePinhole (host : Host) (key : SocketAddrV6) (autoOnly : Bool) : Prog TunnelContext Bool :=
  locked do
    let removed ← mutate fun s =>
      if (get s.pinholes key).any fun p => !autoOnly || p.auto then
        (true, { s with pinholes := erase s.pinholes key })
      else (false, s)
    if removed then do
      modify fun s =>
        { s with
          pinholeRules := if host.calls s.calls then erase s.pinholeRules key
            else s.pinholeRules
          calls := s.calls + 1 }
      pure true
    else pure false

def removePinhole (host : Host) (gua : Ipv6Addr) (externalPort : UInt16) :
    Prog TunnelContext Unit := do
  let _ ← closePinhole host ⟨gua, externalPort⟩ true
  forget (.pinhole ⟨gua, externalPort⟩)

def maxLifetimeSeconds : Nat := 3600

def maxPortSet : UInt16 := 1024

/-- The longest lease of the older protocol, a week. -/
def igdMaxLeaseSeconds : Nat := 604800

/-- The label of every run of ports that a device makes, by either protocol. -/
def protocolLabel : Text := "PCP".toList

structure MapRequest where
  lifetime : Nat
  internalPort : UInt16
  suggestedExternalPort : UInt16
  tcp : Bool
  hostnames : List Text
  portSet : Option UInt16

/-- The result code of an answer and the lifetime that it grants. -/
structure MapResponse where
  result : UInt8
  lifetime : Nat
  deriving DecidableEq

namespace MapResponse

def success (lifetime : Nat) : MapResponse := ⟨0, lifetime⟩

def failure (result : UInt8) : MapResponse := ⟨result, 0⟩

end MapResponse

def notAuthorized : UInt8 := 2

def malformedRequest : UInt8 := 3

def malformedOption : UInt8 := 6

def cannotProvideExternal : UInt8 := 11

def resultUnsuppHostname : UInt8 := 193

/-- The suggested port, or the internal one. -/
def MapRequest.externalPort (r : MapRequest) : UInt16 :=
  if r.suggestedExternalPort ≠ 0 then r.suggestedExternalPort else r.internalPort

/-- A run of ports: made or renewed, or deleted when no lifetime is asked for. -/
def mapRun (host : Host) (peer : Ipv4Addr) (source : SocketAddrV4) (r : MapRequest)
    (count : UInt16) : Prog TunnelContext MapResponse := do
  if r.lifetime = 0 then do
    removePeerForward host peer r.internalPort
    pure (.success 0)
  else do
    let granted := min r.lifetime maxLifetimeSeconds
    match ← applyPeerForwardRange host source ⟨peer, r.internalPort⟩ count protocolLabel
        (some granted) with
    | .ok () => pure (.success granted)
    | .error _ => pure (.failure resultNoResources)

def mapHostnames (host : Host) (peer : Ipv4Addr) (source : SocketAddrV4) (r : MapRequest) :
    Prog TunnelContext MapResponse := do
  let hostnames := lowercased r.hostnames
  if !r.tcp then pure (.failure resultUnsuppHostname)
  else if r.lifetime = 0 then do
    removeSniRoutes source ⟨peer, r.internalPort⟩ hostnames true
    pure (.success 0)
  else do
    let granted := min r.lifetime maxLifetimeSeconds
    match ← persistSniForward host source ⟨peer, r.internalPort⟩ hostnames (some granted) true
        none with
    | .ok () => pure (.success granted)
    | .error code => pure (.failure code)

/-- Answer a request of a device. -/
def handle (host : Host) (peer : Ipv4Addr) (r : MapRequest) : Prog TunnelContext MapResponse := do
  let known ← peek fun s => s.isKnownClient peer
  let external ← peek fun s => s.externalIpv4 peer host
  if !known then pure (.failure notAuthorized)
  else
    match external with
    | none => pure (.failure cannotProvideExternal)
    | some ip =>
      if r.internalPort = 0 then pure (.failure malformedRequest)
      else if !r.hostnames.isEmpty then mapHostnames host peer ⟨ip, r.externalPort⟩ r
      else if r.portSet = some 0 then pure (.failure malformedOption)
      else mapRun host peer ⟨ip, r.externalPort⟩ r (min (r.portSet.getD 1) maxPortSet)

/-- Answer a request of a device at its own address of the sixth version. -/
def handle6 (host : Host) (peer : Ipv6Addr) (r : MapRequest) : Prog TunnelContext MapResponse := do
  let known ← peek fun s => s.isKnownGua peer
  if !known then pure (.failure notAuthorized)
  else if r.internalPort = 0 then pure (.failure malformedRequest)
  else if r.lifetime = 0 then do
    removePinhole host peer r.externalPort
    pure (.success 0)
  else do
    let granted := min r.lifetime maxLifetimeSeconds
    let opened ← addPinhole host peer r.externalPort r.internalPort 1 (some granted)
    pure (if opened then .success granted else .failure resultNoResources)

/-- The requests of the older protocol. -/
inductive IgdRequest
  | addMapping (externalPort internalPort : UInt16) (leaseDuration : Option Nat)
  | deleteMapping (externalPort : UInt16)
  | addHostnameMapping (externalPort internalPort : UInt16) (hostname : Text)
      (leaseDuration : Nat)
  | deleteHostnameMapping (externalPort internalPort : UInt16) (hostname : Text)

/-- No lease, or one of no length, is permanent. -/
def igdLifetime (leaseDuration : Option Nat) : Option Nat :=
  match leaseDuration with
  | none => none
  | some secs => if secs = 0 then none else some (min secs igdMaxLeaseSeconds)

/-- Answer a request of the older protocol; returns whether it succeeded. -/
def handleControl (host : Host) (peer : Ipv4Addr) (r : IgdRequest) : Prog TunnelContext Bool := do
  let known ← peek fun s => s.isKnownClient peer
  let external ← peek fun s => s.externalIpv4 peer host
  match external, r with
  | none, _ => pure false
  | some ip, .addMapping externalPort internalPort leaseDuration =>
    if externalPort = 0 || internalPort = 0 || !known then pure false
    else do
      let applied ← applyPeerForwardRange host ⟨ip, externalPort⟩ ⟨peer, internalPort⟩ 1
        protocolLabel (igdLifetime leaseDuration)
      pure applied.toBool
  | some ip, .deleteMapping externalPort =>
    removePeerForwardBySource host ⟨ip, externalPort⟩ peer true
  | some ip, .addHostnameMapping externalPort internalPort hostname leaseDuration =>
    if externalPort = 0 || internalPort = 0 || !known then pure false
    else do
      let lifetime := if 0 < leaseDuration then min leaseDuration maxLifetimeSeconds
        else maxLifetimeSeconds
      let persisted ← persistSniForward host ⟨ip, externalPort⟩ ⟨peer, internalPort⟩
        [toAsciiLowercase hostname] (some lifetime) true none
      pure persisted.toBool
  | some ip, .deleteHostnameMapping externalPort internalPort hostname =>
    if externalPort = 0 || internalPort = 0 || !known then pure false
    else do
      removeSniRoutes ⟨ip, externalPort⟩ ⟨peer, internalPort⟩ [toAsciiLowercase hostname] true
      pure true

end StartTech.Tunnel

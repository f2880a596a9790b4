import StartTech.Foundation.Text
import Mathlib.Data.BitVec

/-!
# Internet addresses

Addresses are numbers of 32 and 128 bits. Their texts are read as the standard library of the
source reads them: four decimal parts without leading zeros, or eight groups of up to four
hexadecimal digits of which one run may be left out.
-/

namespace StartTech.Net

open Foundation

@[ext] structure Ipv4Addr where
  bits : BitVec 32
  deriving DecidableEq

@[ext] structure Ipv6Addr where
  bits : BitVec 128
  deriving DecidableEq

inductive IpAddr
  | v4 (ip : Ipv4Addr)
  | v6 (ip : Ipv6Addr)
  deriving DecidableEq

@[ext] structure SocketAddrV4 where
  ip : Ipv4Addr
  port : UInt16
  deriving DecidableEq

/-- An address without flow information and scope. -/
@[ext] structure SocketAddrV6 where
  ip : Ipv6Addr
  port : UInt16
  deriving DecidableEq

inductive SocketAddr
  | v4 (addr : SocketAddrV4)
  | v6 (addr : SocketAddrV6)
  deriving DecidableEq

def SocketAddr.new : IpAddr → UInt16 → SocketAddr
  | .v4 ip, port => .v4 ⟨ip, port⟩
  | .v6 ip, port => .v6 ⟨ip, port⟩

/-- An address with the length of its network part. -/
structure IpNet where
  addr : IpAddr
  prefixLen : Nat
  deriving DecidableEq

/-- Addresses are ordered by the address, then by the port. -/
def SocketAddrV4.code (a : SocketAddrV4) : Nat := a.ip.bits.toNat * 65536 + a.port.toNat

theorem SocketAddrV4.code_inj {a b : SocketAddrV4} (h : a.code = b.code) : a = b := by
  have ha := a.port.toNat_lt
  have hb := b.port.toNat_lt
  rw [SocketAddrV4.code, SocketAddrV4.code] at h
  ext1
  · exact Ipv4Addr.ext (BitVec.eq_of_toNat_eq (by omega))
  · exact UInt16.toNat_inj.mp (by omega)

instance : Ord SocketAddrV4 := ⟨fun a b => compare a.code b.code⟩

instance : Std.TransOrd SocketAddrV4 where
  eq_swap {a b} := Std.OrientedOrd.eq_swap (a := a.code) (b := b.code)
  isLE_trans {a b c} := Std.TransOrd.isLE_trans (a := a.code) (b := b.code) (c := c.code)

instance : Std.LawfulEqOrd SocketAddrV4 where
  eq_of_compare h := SocketAddrV4.code_inj (Std.LawfulEqOrd.eq_of_compare h)

/-- Addresses are ordered by the address, then by the port. -/
def SocketAddrV6.code (a : SocketAddrV6) : Nat := a.ip.bits.toNat * 65536 + a.port.toNat

instance ordSocketAddrV6 : Ord SocketAddrV6 := ⟨fun a b => compare a.code b.code⟩

namespace Ipv4Addr

def ofOctets (a b c d : Nat) : Ipv4Addr := ⟨BitVec.ofNat 32 (((a * 256 + b) * 256 + c) * 256 + d)⟩

def octet (ip : Ipv4Addr) (i : Nat) : Nat := ip.bits.toNat / 256 ^ (3 - i) % 256

def isLoopback (ip : Ipv4Addr) : Bool := ip.octet 0 == 127

end Ipv4Addr

namespace Ipv6Addr

def ofSegments (segments : List Nat) : Ipv6Addr :=
  ⟨BitVec.ofNat 128 (segments.foldl (fun n s => n * 65536 + s) 0)⟩

def segment (ip : Ipv6Addr) (i : Nat) : Nat := ip.bits.toNat / 65536 ^ (7 - i) % 65536

def isLoopback (ip : Ipv6Addr) : Bool := ip.bits == 1

/-- An address that holds one of the other family. -/
def toIpv4Mapped (ip : Ipv6Addr) : Option Ipv4Addr :=
  if ip.bits.toNat / 4294967296 = 65535 then some ⟨ip.bits.setWidth 32⟩ else none

/-- A unique local address, in `fc00::/7`. -/
def isUla (ip : Ipv6Addr) : Bool := ip.segment 0 / 512 == 126

/-- An address in `fe80::/10`. -/
def isLinkLocal (ip : Ipv6Addr) : Bool := ip.segment 0 / 64 == 1018

def isLocal (ip : Ipv6Addr) : Bool := ip.isLoopback || ip.isUla || ip.isLinkLocal

end Ipv6Addr

namespace IpAddr

def toCanonical : IpAddr → IpAddr
  | .v4 ip => .v4 ip
  | .v6 ip =>
    match ip.toIpv4Mapped with
    | some ip => .v4 ip
    | none => .v6 ip

def isLoopback : IpAddr → Bool
  | .v4 ip => ip.isLoopback
  | .v6 ip => ip.isLoopback

/-- The bits of an address in front of a place. -/
def front (n : Nat) : IpAddr → Nat
  | .v4 ip => ip.bits.toNat / 2 ^ (32 - n)
  | .v6 ip => ip.bits.toNat / 2 ^ (128 - n)

end IpAddr

namespace IpNet

/-- The network, without the part that names the host. -/
def trunc (net : IpNet) : IpNet :=
  match net.addr with
  | .v4 ip => ⟨.v4 ⟨BitVec.ofNat 32 (ip.bits.toNat / 2 ^ (32 - net.prefixLen) *
      2 ^ (32 - net.prefixLen))⟩, net.prefixLen⟩
  | .v6 ip => ⟨.v6 ⟨BitVec.ofNat 128 (ip.bits.toNat / 2 ^ (128 - net.prefixLen) *
      2 ^ (128 - net.prefixLen))⟩, net.prefixLen⟩

def contains (net : IpNet) (ip : IpAddr) : Bool :=
  match net.addr, ip with
  | .v4 _, .v4 _ | .v6 _, .v6 _ => net.addr.front net.prefixLen == ip.front net.prefixLen
  | _, _ => false

end IpNet

/-- The address of the host on the bridge to its containers. -/
def hostIp : Ipv4Addr := .ofOctets 10 0 3 1

def bridgeV6Addr : Ipv6Addr := .ofSegments [0xfd00, 3, 0, 0, 0, 0, 0, 1]

def isInternalIp (ip : IpAddr) : Bool :=
  let ip := ip.toCanonical
  ip.isLoopback || ip == .v4 hostIp || ip == .v6 bridgeV6Addr

/-- A decimal part of an address, without leading zeros. -/
def parseOctet (s : Text) : Option Nat :=
  if s.isEmpty || 3 < s.length || !s.all Char.isDigit || (1 < s.length && s.head? == some '0') then
    none
  else
    let n := Nat.ofDigitChars 10 s 0
    if n < 256 then some n else none

def parseIpv4 (s : Text) : Option Ipv4Addr :=
  match (s.splitOn '.').mapM parseOctet with
  | some [a, b, c, d] => some (.ofOctets a b c d)
  | _ => none

def hexDigit (c : Char) : Option Nat :=
  if c.isDigit then some (c.toNat - 48)
  else if 'a' ≤ c ∧ c ≤ 'f' then some (c.toNat - 87)
  else if 'A' ≤ c ∧ c ≤ 'F' then some (c.toNat - 55)
  else none

def parseGroup (s : Text) : Option Nat :=
  if s.isEmpty || 4 < s.length then none
  else (s.mapM hexDigit).map fun digits => digits.foldl (fun n d => n * 16 + d) 0

/-- Groups between colons, of which the last may be an address of the other family. -/
def parseGroups : List Text → Option (List Nat)
  | [] => some []
  | [last] =>
    match parseGroup last with
    | some n => some [n]
    | none => (parseIpv4 last).map fun ip =>
      [ip.bits.toNat / 65536, ip.bits.toNat % 65536]
  | s :: rest => do
    let n ← parseGroup s
    let groups ← parseGroups rest
    return n :: groups

/-- The groups of a part of an address, of which an empty one has none. -/
def parseSide (s : Text) : Option (List Nat) :=
  if s.isEmpty then some [] else parseGroups (s.splitOn ':')

/-- The parts before and after the first place that leaves groups out. -/
def splitElision : Text → Option (Text × Text)
  | [] => none
  | ':' :: ':' :: rest => some ([], rest)
  | c :: rest => (splitElision rest).map fun parts => (c :: parts.1, parts.2)

/-- A part in front of left out groups ends with a group. -/
def parseIpv6 (s : Text) : Option Ipv6Addr :=
  match splitElision s with
  | none =>
    match parseSide s with
    | some groups => if groups.length = 8 then some (.ofSegments groups) else none
    | none => none
  | some (front, back) =>
    if front.contains '.' then none
    else
      match parseSide front, parseSide back with
      | some head, some tail =>
        if head.length + tail.length ≤ 7 then
          some (.ofSegments (head ++ (List.replicate (8 - head.length - tail.length) 0 ++ tail)))
        else none
      | _, _ => none

def parseIp (s : String) : Option IpAddr :=
  match parseIpv4 s.toList with
  | some ip => some (.v4 ip)
  | none => (parseIpv6 s.toList).map .v6

example : parseIp "::ffff:1.2.3.4" =
    some (.v6 (.ofSegments [0, 0, 0, 0, 0, 0xffff, 0x102, 0x304])) := by decide +kernel

example : parseIp "01.2.3.4" = none := by decide +kernel

end StartTech.Net

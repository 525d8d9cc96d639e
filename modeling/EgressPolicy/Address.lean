/-!
Public IPv6 addresses.

An IPv6 address is public unless it is the unspecified address, the loopback address, an IPv4
address in IPv6 form, link-local or unique-local. IPv4 addresses are never public IPv6 addresses.
-/

namespace EgressPolicy

/-- An IPv6 address: eight segments of sixteen bits, the most significant first. -/
structure Ipv6 where
  s0 : UInt16
  s1 : UInt16
  s2 : UInt16
  s3 : UInt16
  s4 : UInt16
  s5 : UInt16
  s6 : UInt16
  s7 : UInt16
  deriving DecidableEq, Repr

/-- An address of either family. -/
inductive Address where
  | v4 (a b c d : UInt8)
  | v6 (address : Ipv6)
  deriving DecidableEq, Repr

namespace Ipv6

/-- The address as a number of one hundred and twenty-eight bits. -/
def toNat (a : Ipv6) : Nat :=
  [a.s0, a.s1, a.s2, a.s3, a.s4, a.s5, a.s6, a.s7].foldl (fun n s => n * 0x10000 + s.toNat) 0

/-- The address that stands for no address. -/
def unspecified : Ipv6 := ⟨0, 0, 0, 0, 0, 0, 0, 0⟩

def loopback : Ipv6 := ⟨0, 0, 0, 0, 0, 0, 0, 1⟩

/-- Whether the address holds an IPv4 address: eighty zeros, sixteen ones, and the IPv4 address. -/
def isMappedIpv4 (a : Ipv6) : Bool :=
  a.s0 == 0 && a.s1 == 0 && a.s2 == 0 && a.s3 == 0 && a.s4 == 0 && a.s5 == 0xFFFF

/-- Whether the address is valid on one link only: its first ten bits are those of `fe80`. -/
def isLinkLocal (a : Ipv6) : Bool :=
  a.s0 &&& 0xFFC0 == 0xFE80

/-- Whether the address is local to a site: its first seven bits are those of `fc00`. -/
def isUniqueLocal (a : Ipv6) : Bool :=
  a.s0 &&& 0xFE00 == 0xFC00

/-- Whether the address is reachable from everywhere. -/
def isPublic (a : Ipv6) : Bool :=
  !a.isMappedIpv4 && a != loopback && a != unspecified && !a.isLinkLocal && !a.isUniqueLocal

end Ipv6

def Address.isPublicIpv6 : Address → Bool
  | v4 .. => false
  | v6 a => a.isPublic

end EgressPolicy

import LinuxDoc.Foundations.Bytes
import LinuxDoc.TxTimestamp.Options

/-! How txtimestamp chooses its destination addresses from what `getaddrinfo` returns.
The loop over the list ends with the first address of either family.
-/

namespace LinuxDoc.TxTimestamp

open Foundations

def afInet : UInt16 := 2

def afInet6 : UInt16 := 10

structure SockaddrIn where
  sinFamily : UInt16
  sinPort : UInt16
  sinAddr : UInt32
  deriving DecidableEq

structure SockaddrIn6 where
  sin6Family : UInt16
  sin6Port : UInt16
  sin6Flowinfo : UInt32
  sin6Addr : BitVec 128
  sin6ScopeId : UInt32
  deriving DecidableEq

inductive AddrInfo where
  | inet (addr : SockaddrIn) (family : addr.sinFamily = afInet)
  | inet6 (addr : SockaddrIn6) (family : addr.sin6Family = afInet6)
  | other

structure Destination where
  doIpv4 : Bool
  doIpv6 : Bool
  daddr : SockaddrIn
  daddr6 : SockaddrIn6

/-- The addresses are static variables, so they are zero at the start. -/
def Destination.initial (doIpv4 doIpv6 : Bool) : Destination :=
  ⟨doIpv4, doIpv6, ⟨0, 0, 0⟩, ⟨0, 0, 0, 0, 0⟩⟩

structure Search where
  dest : Destination
  haveIpv4 : Bool
  haveIpv6 : Bool

section Resolve

variable (host : Endian) (destPort : UInt16)

def htons (port : UInt16) : UInt16 :=
  UInt16.ofNat (host.decode (Endian.big.encode 2 port.toNat))

def SockaddrIn.toPort (addr : SockaddrIn) : SockaddrIn :=
  { addr with sinPort := htons host destPort }

def SockaddrIn6.toPort (addr : SockaddrIn6) : SockaddrIn6 :=
  { addr with sin6Port := htons host destPort }

def Search.visit (s : Search) : AddrInfo → Search
  | .inet addr _ =>
      if s.haveIpv4 = false then
        { s with dest := { s.dest with daddr := addr.toPort host destPort }, haveIpv4 := true }
      else s
  | .inet6 addr _ =>
      if s.haveIpv6 = false then
        { s with dest := { s.dest with daddr6 := addr.toPort host destPort }, haveIpv6 := true }
      else s
  | .other => s

def searchAddrs : List AddrInfo → Search → Search
  | [], s => s
  | cur :: rest, s =>
      if s.haveIpv4 = false ∧ s.haveIpv6 = false then searchAddrs rest (s.visit host destPort cur)
      else s

def resolveHostname (addrs : List AddrInfo) (dest : Destination) : Destination :=
  let s := searchAddrs host destPort addrs ⟨dest, false, false⟩
  { s.dest with
    doIpv4 := s.dest.doIpv4 && s.haveIpv4
    doIpv6 := s.dest.doIpv6 && s.haveIpv6 }

end Resolve

def AddrInfo.inet? : AddrInfo → Option SockaddrIn
  | .inet addr _ => some addr
  | .inet6 _ _ | .other => none

def AddrInfo.inet6? : AddrInfo → Option SockaddrIn6
  | .inet6 addr _ => some addr
  | .inet _ _ | .other => none

def firstInet (addrs : List AddrInfo) : Option SockaddrIn :=
  addrs.findSome? AddrInfo.inet?

def firstInet6 (addrs : List AddrInfo) : Option SockaddrIn6 :=
  addrs.findSome? AddrInfo.inet6?

/-- Both families are used as far as they are available: the flags say so, and the addresses
are the first ones of their families.
-/
structure UsesAvailable (host : Endian) (destPort : UInt16) (addrs : List AddrInfo)
    (before after : Destination) : Prop where
  ipv4 : after.doIpv4 = true ↔ before.doIpv4 = true ∧ (firstInet addrs).isSome
  ipv6 : after.doIpv6 = true ↔ before.doIpv6 = true ∧ (firstInet6 addrs).isSome
  daddr : ∀ addr, firstInet addrs = some addr →
    after.daddr = addr.toPort host destPort
  daddr6 : ∀ addr, firstInet6 addrs = some addr →
    after.daddr6 = addr.toPort host destPort

section Search

variable {host : Endian} {destPort : UInt16}

/-- Once an address is found, the loop ends. -/
theorem searchAddrs_found {s : Search} (found : ¬ (s.haveIpv4 = false ∧ s.haveIpv6 = false))
    (addrs : List AddrInfo)
    : searchAddrs host destPort addrs s = s := by
  cases addrs with
  | nil => rfl
  | cons cur rest => exact if_neg found

/-- What the loop ends with: nothing, or the first address of either family. -/
inductive Finds (host : Endian) (destPort : UInt16) (addrs : List AddrInfo) (dest : Destination)
    : Search → Prop where
  | nothing (none4 : firstInet addrs = none)
      (none6 : firstInet6 addrs = none)
      : Finds host destPort addrs dest ⟨dest, false, false⟩
  | inet (addr : SockaddrIn) (first : firstInet addrs = some addr)
      : Finds host destPort addrs dest
          ⟨{ dest with daddr := addr.toPort host destPort }, true, false⟩
  | inet6 (addr : SockaddrIn6) (first : firstInet6 addrs = some addr)
      : Finds host destPort addrs dest
          ⟨{ dest with daddr6 := addr.toPort host destPort }, false, true⟩

/-- The loop stops at the first address of either family, by induction on the list. -/
theorem searchAddrs_finds (addrs : List AddrInfo) (dest : Destination)
    : Finds host destPort addrs dest
        (searchAddrs host destPort addrs ⟨dest, false, false⟩) := by
  induction addrs with
  | nil => exact .nothing rfl rfl
  | cons cur rest ih =>
      have visits : searchAddrs host destPort (cur :: rest) ⟨dest, false, false⟩
          = searchAddrs host destPort rest (Search.visit host destPort ⟨dest, false, false⟩ cur) :=
        if_pos ⟨rfl, rfl⟩
      rw [visits]
      cases cur with
      | inet addr family =>
          rw [searchAddrs_found (by simp [Search.visit])]
          exact .inet addr rfl
      | inet6 addr family =>
          rw [searchAddrs_found (by simp [Search.visit])]
          exact .inet6 addr rfl
      | other =>
          have skips : Search.visit host destPort ⟨dest, false, false⟩ .other
              = ⟨dest, false, false⟩ :=
            rfl
          rw [skips]
          generalize searchAddrs host destPort rest ⟨dest, false, false⟩ = found at ih ⊢
          cases ih with
          | nothing none4 none6 => exact .nothing none4 none6
          | inet addr first => exact .inet addr first
          | inet6 addr first => exact .inet6 addr first

theorem firstInet_family {addrs : List AddrInfo} {addr : SockaddrIn}
    (first : firstInet addrs = some addr)
    : addr.sinFamily = afInet := by
  obtain ⟨info, -, isInet⟩ := List.exists_of_findSome?_eq_some first
  cases info with
  | inet found family =>
      cases isInet
      exact family
  | inet6 found family => cases isInet
  | other => cases isInet

theorem firstInet6_family {addrs : List AddrInfo} {addr : SockaddrIn6}
    (first : firstInet6 addrs = some addr)
    : addr.sin6Family = afInet6 := by
  obtain ⟨info, -, isInet6⟩ := List.exists_of_findSome?_eq_some first
  cases info with
  | inet found family => cases isInet6
  | inet6 found family =>
      cases isInet6
      exact family
  | other => cases isInet6

end Search

/-- Both families are used as far as they are available exactly if the list does not contain
addresses of both: the loop does not get to the second family. By cases on what it finds first.
-/
theorem resolveHostname_usesAvailable_iff (host : Endian) (destPort : UInt16)
    (addrs : List AddrInfo) (doIpv4 doIpv6 : Bool)
    : UsesAvailable host destPort addrs (.initial doIpv4 doIpv6)
        (resolveHostname host destPort addrs (.initial doIpv4 doIpv6))
      ↔ ¬ ((firstInet addrs).isSome ∧ (firstInet6 addrs).isSome) := by
  have finds : Finds host destPort addrs (.initial doIpv4 doIpv6) _ :=
    searchAddrs_finds addrs (.initial doIpv4 doIpv6)
  rw [resolveHostname]
  generalize searchAddrs host destPort addrs ⟨.initial doIpv4 doIpv6, false, false⟩ = s at finds
  cases finds with
  | nothing none4 none6 =>
      refine iff_of_true ?_ (by simp [none4])
      constructor <;> simp [none4, none6]
  | inet addr first =>
      cases second : firstInet6 addrs with
      | none =>
          refine iff_of_true ?_ (by simp)
          constructor <;> simp [first, second, Destination.initial]
      | some addr6 =>
          refine iff_of_false ?_ (by simp [first])
          intro uses
          have zero : (0 : UInt16) = addr6.sin6Family :=
            congrArg SockaddrIn6.sin6Family (uses.daddr6 addr6 second)
          rw [firstInet6_family second] at zero
          exact absurd zero (by decide)
  | inet6 addr6 first =>
      cases second : firstInet addrs with
      | none =>
          refine iff_of_true ?_ (by simp)
          constructor <;> simp [first, second, Destination.initial]
      | some addr =>
          refine iff_of_false ?_ (by simp [first])
          intro uses
          have zero : (0 : UInt16) = addr.sinFamily :=
            congrArg SockaddrIn.sinFamily (uses.daddr addr second)
          rw [firstInet_family second] at zero
          exact absurd zero (by decide)

def dualStack : List AddrInfo :=
  [.inet6 ⟨afInet6, 0, 0, 1, 0⟩ rfl, .inet ⟨afInet, 0, 0x0100007f⟩ rfl]

/-- With both families allowed and both in the list, IPv4 is switched off. -/
theorem dualStack_ipv6_only
    : (resolveHostname .little 9000 dualStack (.initial true true)).doIpv4 = false
      ∧ (resolveHostname .little 9000 dualStack (.initial true true)).doIpv6 = true
      ∧ (firstInet dualStack).isSome = true
      ∧ ¬ UsesAvailable .little 9000 dualStack (.initial true true)
          (resolveHostname .little 9000 dualStack (.initial true true)) := by
  refine ⟨by decide, by decide, by decide, ?_⟩
  intro uses
  have ipv4 := uses.ipv4.mpr ⟨rfl, by decide⟩
  exact absurd ipv4 (by decide)

end LinuxDoc.TxTimestamp

/-
Network safety (`policy.c`): which addresses the proxy must never connect
to. Addresses are in network byte order, as the kernel stores them.
-/
import SecureProxy.Lib.Bytes

namespace SecureProxy

open Bytes

/-- A `struct sockaddr`: its family, and the address of the two families the
code knows. -/
inductive Sockaddr where
  | inet (addr : Fin 4 → Byte)
  | inet6 (addr : Fin 16 → Byte)
  | other
  deriving DecidableEq

/-- The blocked IPv4 networks, each with its mask. -/
def blockedV4 : List (UInt32 × UInt32) :=
  [(0x00000000, 0xFF000000),  -- 0.0.0.0/8        "this" network / unspecified
   (0x0A000000, 0xFF000000),  -- 10.0.0.0/8       private
   (0x64400000, 0xFFC00000),  -- 100.64.0.0/10    carrier-grade NAT
   (0x7F000000, 0xFF000000),  -- 127.0.0.0/8      loopback
   (0xA9FE0000, 0xFFFF0000),  -- 169.254.0.0/16   link-local, cloud metadata
   (0xAC100000, 0xFFF00000),  -- 172.16.0.0/12    private
   (0xC0000000, 0xFFFFFF00),  -- 192.0.0.0/24     IETF protocol assignments
   (0xC0000200, 0xFFFFFF00),  -- 192.0.2.0/24     documentation
   (0xC0A80000, 0xFFFF0000),  -- 192.168.0.0/16   private
   (0xC6120000, 0xFFFE0000),  -- 198.18.0.0/15    benchmarking
   (0xC6336400, 0xFFFFFF00),  -- 198.51.100.0/24  documentation
   (0xCB007100, 0xFFFFFF00),  -- 203.0.113.0/24   documentation
   (0xE0000000, 0xF0000000),  -- 224.0.0.0/4      multicast
   (0xF0000000, 0xF0000000)]  -- 240.0.0.0/4      reserved + broadcast

/-- `ip` is in host byte order. -/
def ipv4IsUnsafe (ip : UInt32) : Bool := blockedV4.any fun (net, mask) => ip &&& mask == net

/-- `v4_from_bytes`, which is also what `ntohl` makes of `s_addr`. -/
def v4FromBytes (b0 b1 b2 b3 : Byte) : UInt32 :=
  (b0.toUInt32 <<< 24) ||| (b1.toUInt32 <<< 16) ||| (b2.toUInt32 <<< 8) ||| b3.toUInt32

/-- The bytes of 64:ff9b::/96. -/
def nat64 : List Byte := [0x00, 0x64, 0xFF, 0x9B, 0, 0, 0, 0, 0, 0, 0, 0]

def ipv6IsUnsafe (a : Fin 16 → Byte) : Bool :=
  let prefix12 := (List.ofFn a).take 12
  let first10Zero := ((List.ofFn a).take 10).all (· == 0)
  -- ::/96 covers unspecified, loopback and IPv4-compatible
  if prefix12.all (· == 0) then true
  -- ::ffff:a.b.c.d IPv4-mapped
  else if first10Zero && a 10 == 0xFF && a 11 == 0xFF then
    ipv4IsUnsafe (v4FromBytes (a 12) (a 13) (a 14) (a 15))
  -- 64:ff9b::/96 NAT64
  else if prefix12 == nat64 then ipv4IsUnsafe (v4FromBytes (a 12) (a 13) (a 14) (a 15))
  -- 64:ff9b:1::/48 local-use NAT64
  else if a 0 == 0x00 && a 1 == 0x64 && a 2 == 0xFF && a 3 == 0x9B && a 4 == 0x00 && a 5 == 0x01 then true
  -- 2002::/16 6to4
  else if a 0 == 0x20 && a 1 == 0x02 then ipv4IsUnsafe (v4FromBytes (a 2) (a 3) (a 4) (a 5))
  -- 2001::/32 Teredo
  else if a 0 == 0x20 && a 1 == 0x01 && a 2 == 0x00 && a 3 == 0x00 then true
  -- 2001:db8::/32 documentation
  else if a 0 == 0x20 && a 1 == 0x01 && a 2 == 0x0D && a 3 == 0xB8 then true
  -- 100::/64 discard-only
  else if a 0 == 0x01 && a 1 == 0x00 && a 2 == 0 && a 3 == 0 && a 4 == 0 && a 5 == 0 && a 6 == 0 &&
      a 7 == 0 then true
  -- fc00::/7 unique local
  else if a 0 &&& 0xFE == 0xFC then true
  -- fe80::/10 link-local, fec0::/10 site-local
  else if a 0 == 0xFE && (a 1 &&& 0xC0 == 0x80 || a 1 &&& 0xC0 == 0xC0) then true
  -- ff00::/8 multicast
  else if a 0 == 0xFF then true
  else false

/-- `address_is_unsafe` of an address that is there; an unknown family is
never connected to. -/
def addressIsUnsafe : Sockaddr → Bool
  | .inet a => ipv4IsUnsafe (v4FromBytes (a 0) (a 1) (a 2) (a 3))
  | .inet6 a => ipv6IsUnsafe a
  | .other => true

end SecureProxy

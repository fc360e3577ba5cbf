import Mathlib.Data.Fin.Basic
import Bitmark.Base.Stream

/-!
# Network addresses

`CNetAddr` and `CService` (`src/netbase.h:41–135`), with the tests of `src/netbase.cpp:600–735`
that decide whether an address is routable and to which group it belongs.
-/

namespace Bitmark

/-- `CNetAddr`: sixteen bytes in network order. -/
structure CNetAddr where
  ip : Bytes
  size_ip : ip.length = 16
deriving DecidableEq

namespace CNetAddr

/-- The sixteen bytes after `Init`. -/
theorem size_init : (List.replicate 16 0 : Bytes).length = 16 := rfl

/-- `GetByte`, `src/netbase.cpp:600`, from the lowest byte. -/
def getByte (a : CNetAddr) (n : Nat) : UInt8 := a.ip.getD (15 - n) 0

/-- `memcmp(ip, pch, sizeof(pch)) == 0`. -/
def startsWith (a : CNetAddr) (pch : Bytes) : Bool := a.ip.take pch.length = pch

/-- `pchIPv4`, `src/netbase.cpp:34`. -/
def pchIPv4 : Bytes := [0, 0, 0, 0, 0, 0, 0, 0, 0, 0, 0xff, 0xff]

/-- `pchOnionCat`, `src/netbase.cpp:552`. -/
def pchOnionCat : Bytes := [0xFD, 0x87, 0xD8, 0x7E, 0xEB, 0x43]

def isIPv4 (a : CNetAddr) : Bool := a.startsWith pchIPv4

def isRFC1918 (a : CNetAddr) : Bool :=
  a.isIPv4 && (a.getByte 3 == 10 || (a.getByte 3 == 192 && a.getByte 2 == 168) ||
    (a.getByte 3 == 172 && (16 ≤ a.getByte 2 && a.getByte 2 ≤ 31)))

def isRFC3927 (a : CNetAddr) : Bool := a.isIPv4 && (a.getByte 3 == 169 && a.getByte 2 == 254)

def isRFC3849 (a : CNetAddr) : Bool :=
  a.getByte 15 == 0x20 && a.getByte 14 == 0x01 && a.getByte 13 == 0x0D && a.getByte 12 == 0xB8

def isRFC3964 (a : CNetAddr) : Bool := a.getByte 15 == 0x20 && a.getByte 14 == 0x02

def isRFC6052 (a : CNetAddr) : Bool := a.startsWith [0, 0x64, 0xFF, 0x9B, 0, 0, 0, 0, 0, 0, 0, 0]

def isRFC4380 (a : CNetAddr) : Bool :=
  a.getByte 15 == 0x20 && a.getByte 14 == 0x01 && a.getByte 13 == 0 && a.getByte 12 == 0

def isRFC4862 (a : CNetAddr) : Bool := a.startsWith [0xFE, 0x80, 0, 0, 0, 0, 0, 0]

def isRFC4193 (a : CNetAddr) : Bool := a.getByte 15 &&& 0xFE == 0xFC

def isRFC6145 (a : CNetAddr) : Bool := a.startsWith [0, 0, 0, 0, 0, 0, 0, 0, 0xFF, 0xFF, 0, 0]

def isRFC4843 (a : CNetAddr) : Bool :=
  a.getByte 15 == 0x20 && a.getByte 14 == 0x01 && a.getByte 13 == 0x00 &&
    a.getByte 12 &&& 0xF0 == 0x10

def isTor (a : CNetAddr) : Bool := a.startsWith pchOnionCat

def isLocal (a : CNetAddr) : Bool :=
  (a.isIPv4 && (a.getByte 3 == 127 || a.getByte 3 == 0)) ||
    a.startsWith [0, 0, 0, 0, 0, 0, 0, 0, 0, 0, 0, 0, 0, 0, 0, 1]

/-- `IsValid`, `src/netbase.cpp:696`; the first test refuses addresses that were read three bytes
off. -/
def isValid (a : CNetAddr) : Bool :=
  !a.startsWith (pchIPv4.drop 3) && !a.startsWith (List.replicate 16 0) && !a.isRFC3849 &&
    !(a.isIPv4 &&
      (a.ip.drop 12 == [0xff, 0xff, 0xff, 0xff] || a.ip.drop 12 == [0, 0, 0, 0]))

/-- `IsRoutable`, `src/netbase.cpp:732`. -/
def isRoutable (a : CNetAddr) : Bool :=
  a.isValid && !(a.isRFC1918 || a.isRFC3927 || a.isRFC4862 || (a.isRFC4193 && !a.isTor) ||
    a.isRFC4843 || a.isLocal)

/-- The end of `GetGroup`: the class and the first `nBits` bits from `nStartByte` on, the last byte
filled up with ones. -/
def groupBytes (a : CNetAddr) (nClass : UInt8) (nStartByte nBits : Nat) : Bytes :=
  nClass :: (List.range (nBits / 8)).map (fun i ↦ a.getByte (15 - (nStartByte + i))) ++
    if 0 < nBits % 8 then
      [a.getByte (15 - (nStartByte + nBits / 8)) ||| UInt8.ofNat ((1 <<< (nBits % 8)) - 1)]
    else []

/-- `GetGroup`, `src/netbase.cpp:809`; the classes are `NET_UNROUTABLE`, `NET_IPV4`, `NET_IPV6` and
`NET_TOR`. A local address is not routable, so its class 255 is always replaced. -/
def getGroup (a : CNetAddr) : Bytes :=
  if !a.isRoutable then a.groupBytes 0 0 0
  else if a.isIPv4 || a.isRFC6145 || a.isRFC6052 then a.groupBytes 1 12 16
  else if a.isRFC3964 then a.groupBytes 1 2 16
  else if a.isRFC4380 then [1, a.getByte 3 ^^^ 0xFF, a.getByte 2 ^^^ 0xFF]
  else if a.isTor then a.groupBytes 3 6 4
  else if a.getByte 15 == 0x20 && a.getByte 14 == 0x01 && a.getByte 13 == 0x04 &&
      a.getByte 12 == 0x70 then a.groupBytes 2 0 36
  else a.groupBytes 2 0 32

end CNetAddr

/-- `CService`: an address and a port in host order. -/
structure CService extends CNetAddr where
  port : BitVec 16
deriving DecidableEq

/-- `CService::GetKey`, `src/netbase.cpp:1088`. -/
def CService.getKey (s : CService) : Bytes :=
  s.ip ++ [UInt8.ofNat (s.port.toNat / 0x100), UInt8.ofNat (s.port.toNat % 0x100)]

end Bitmark

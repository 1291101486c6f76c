/-
  Bytes — little-endian numbers and checked windows of a byte string.

  `le w n` are the `w` low bytes of `n`, least significant first, and `ofLe`
  reads such bytes back. `window` cuts a stretch out of a byte string, or says
  that the string ends before the stretch does. `patch` overwrites a stretch in
  place.
-/

namespace ApuScore

abbrev Bytes := List UInt8

namespace Bytes

/-- The `width` low bytes of `n`, least significant first. -/
def le : Nat → Nat → Bytes
  | 0, _ => []
  | width + 1, n => UInt8.ofNat (n % 256) :: le width (n / 256)

/-- The number whose bytes, least significant first, are the given ones. -/
def ofLe : Bytes → Nat
  | [] => 0
  | b :: rest => b.toNat + 256 * ofLe rest

/-- The `len` bytes from `off` on, if the string reaches that far. -/
def window (off len : Nat) (bytes : Bytes) : Option Bytes :=
  if off + len ≤ bytes.length then some ((bytes.drop off).take len) else none

/-- `bytes` with `fresh` written over the bytes from `off` on. -/
def patch (off : Nat) (fresh bytes : Bytes) : Bytes :=
  bytes.take off ++ fresh ++ bytes.drop (off + fresh.length)

/-- Two hexadecimal digits per byte, upper digit first. -/
def hex (bytes : Bytes) : String :=
  let digit (n : UInt8) : Char :=
    if n < 10 then Char.ofNat (48 + n.toNat) else Char.ofNat (87 + n.toNat)
  String.ofList (bytes.flatMap fun b => [digit (b / 16), digit (b % 16)])

/-- The 64-bit FNV-1a digest. -/
def digest (bytes : Bytes) : UInt64 :=
  bytes.foldl (fun h b => (h ^^^ b.toUInt64) * 0x100000001b3) 0xcbf29ce484222325

end Bytes

end ApuScore

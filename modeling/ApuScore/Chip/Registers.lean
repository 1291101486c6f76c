import ApuScore.Chip.Layout
/-
  The register file — the last byte written to each of the chip's 24 registers.

  Setting one parameter keeps the other bits of its register. Reads beyond the
  file give nothing and writes beyond it do nothing.
-/

namespace ApuScore

/-- The bytes of registers 0x00 to 0x17. -/
structure Registers where
  bytes : Vector UInt8 24
  deriving DecidableEq, Repr

namespace Registers

def zero : Registers := ⟨Vector.replicate 24 0⟩

def read? (r : Registers) (register : UInt8) : Option UInt8 :=
  r.bytes[register.toNat]?

def write (r : Registers) (register byte : UInt8) : Registers :=
  ⟨r.bytes.setIfInBounds register.toNat byte⟩

/-- The file after a field of the register at `channel` and `offset` is set, with
the register and its new byte. -/
def set (r : Registers) (channel : Channel) (offset : UInt8) (field : BitField)
    (value : UInt8) : Registers × UInt8 × UInt8 :=
  let register := channel.base + offset
  let byte := field.insert ((r.read? register).getD 0) value
  (r.write register byte, register, byte)

/-- The file that holds the given bytes from register 0 on, and zeros after them. -/
def ofBytes (bytes : List UInt8) : Registers :=
  ⟨Vector.ofFn fun i => bytes.getD i.val 0⟩

def toBytes (r : Registers) : List UInt8 := r.bytes.toList

end Registers

end ApuScore

import ApuScore.Proofs.BitFields
import ApuScore.Chip.Registers
/-
  What the layout tables and the register file promise.

  Every field of the tables fits its byte, a parameter is found at the register
  that lists it (`find?_eq_some`), and an owned register is its block's base plus
  its offset (`ofRegister?_spec`). The register file reads back what was written
  and nothing else.
-/

namespace ApuScore

theorem forall_byte {P : UInt8 → Prop} (h : ∀ n < 256, P (UInt8.ofNat n)) (b : UInt8) : P b := by
  have hb := h b.toNat b.toNat_lt
  rwa [UInt8.ofNat_toNat] at hb

namespace Channel

theorem layout_fits (c : Channel) : ∀ fields ∈ c.layout, ∀ f ∈ fields, f.Fits := by
  have htable : ∀ fields ∈ c.layout, ∀ f ∈ fields, 0 < f.width ∧ f.low + f.width ≤ 8 := by
    cases c <;> decide
  intro fields hfields f hf
  obtain ⟨hpos, hle⟩ := htable fields hfields f hf
  exact ⟨hpos, hle⟩

theorem find?_layout (c : Channel) :
    ∀ i < c.layout.length, ∀ f ∈ c.layout.getD i [],
      c.find? f.param = some (UInt8.ofNat i, f) := by
  cases c <;> decide

theorem fields_fit {c : Channel} {off : UInt8} {fields : List BitField}
    (h : c.fieldsAt? off = some fields) : ∀ f ∈ fields, f.Fits :=
  c.layout_fits fields (List.mem_of_getElem? h)

theorem find?_eq_some {c : Channel} {off : UInt8} {fields : List BitField}
    (h : c.fieldsAt? off = some fields) {f : BitField} (hf : f ∈ fields) :
    c.find? f.param = some (off, f) := by
  obtain ⟨hlt, hget⟩ := List.getElem?_eq_some_iff.mp h
  have hentry := c.find?_layout off.toNat hlt f
  rw [List.getD_eq_getElem?_getD, show c.layout[off.toNat]? = some fields from h,
    UInt8.ofNat_toNat] at hentry
  exact hentry hf

theorem ofRegister?_spec {register : UInt8} {c : Channel} {off : UInt8}
    (h : ofRegister? register = some (c, off)) :
    c.base + off = register ∧ register.toNat < 24 ∧ off.toNat < c.layout.length := by
  have htable : ∀ register, ∀ place ∈ ofRegister? register,
      place.1.base + place.2 = register ∧ register.toNat < 24 ∧
        place.2.toNat < place.1.layout.length :=
    forall_byte (by decide +kernel)
  exact htable register (c, off) h

end Channel

def registerFields (register : UInt8) : List BitField :=
  match Channel.ofRegister? register with
  | some (c, off) => (c.fieldsAt? off).getD []
  | none => []

theorem fieldsAt?_of_ofRegister? {register : UInt8} {c : Channel} {off : UInt8}
    (h : Channel.ofRegister? register = some (c, off)) :
    c.fieldsAt? off = some (registerFields register) := by
  obtain ⟨-, -, hlt⟩ := Channel.ofRegister?_spec h
  have hget : c.fieldsAt? off = some c.layout[off.toNat] := List.getElem?_eq_getElem hlt
  simp only [registerFields, h, hget, Option.getD_some]

theorem registerFields_fit (register : UInt8) : ∀ f ∈ registerFields register, f.Fits := by
  cases h : Channel.ofRegister? register with
  | none => simp only [registerFields, h, List.not_mem_nil, false_implies, implies_true]
  | some place => exact Channel.fields_fit (fieldsAt?_of_ofRegister? h)

/-- Of the owned registers exactly 0x09 and 0x0D hold nothing. -/
theorem registerFields_eq_nil_iff {register : UInt8}
    (h : (Channel.ofRegister? register).isSome) :
    registerFields register = [] ↔ register = 0x09 ∨ register = 0x0D := by
  have htable : ∀ register, (Channel.ofRegister? register).isSome →
      (registerFields register = [] ↔ register = 0x09 ∨ register = 0x0D) :=
    forall_byte (by decide +kernel)
  exact htable register h

namespace Registers

theorem read?_zero {register : UInt8} (h : register.toNat < 24) :
    zero.read? register = some 0 := by
  rw [read?, zero, Vector.getElem?_replicate, if_pos h]

theorem read?_write_self (r : Registers) {register : UInt8} (byte : UInt8)
    (h : register.toNat < 24) : (r.write register byte).read? register = some byte := by
  rw [read?, write, Vector.getElem?_setIfInBounds_self, if_pos h]

theorem read?_write_of_ne (r : Registers) {register other : UInt8} (byte : UInt8)
    (h : register ≠ other) : (r.write register byte).read? other = r.read? other := by
  have hne : register.toNat ≠ other.toNat := fun heq => h (UInt8.toNat_inj.mp heq)
  rw [read?, write, Vector.getElem?_setIfInBounds_ne hne, read?]

theorem write_write (r : Registers) (register first second : UInt8) :
    (r.write register first).write register second = r.write register second := by
  simp only [write, mk.injEq]
  apply Vector.ext
  intro i hi
  simp only [Vector.getElem_setIfInBounds]
  split <;> rfl

end Registers

end ApuScore

import ApuScore.Chip.Layout
/-
  Bit fields, bit by bit.

  A byte is known by its eight bits (`ext_bit`). A field covers the bits from
  `low` up; `extract` moves them down to bit 0 and `insert` puts new ones in their
  place and leaves the other bits alone. So writing into a byte all the fields that
  were read from another one copies exactly the covered bits (`foldl_insert`).
-/

namespace ApuScore

def bit (b : UInt8) (i : Nat) : Bool := b.toBitVec.getLsbD i

theorem bit_of_ge {b : UInt8} {i : Nat} (h : 8 ≤ i) : bit b i = false :=
  BitVec.getLsbD_of_ge _ i h

theorem ext_bit {a b : UInt8} (h : ∀ i < 8, bit a i = bit b i) : a = b := by
  apply UInt8.toBitVec_inj.mp
  apply BitVec.eq_of_getLsbD_eq
  intro i hi
  exact h i hi

@[simp] theorem bit_zero (i : Nat) : bit 0 i = false := by
  rw [bit]; exact BitVec.getLsbD_zero

@[simp] theorem bit_and (a b : UInt8) (i : Nat) : bit (a &&& b) i = (bit a i && bit b i) := by
  rw [bit, UInt8.toBitVec_and, BitVec.getLsbD_and]; rfl

@[simp] theorem bit_or (a b : UInt8) (i : Nat) : bit (a ||| b) i = (bit a i || bit b i) := by
  rw [bit, UInt8.toBitVec_or, BitVec.getLsbD_or]; rfl

theorem bit_not (a : UInt8) {i : Nat} (h : i < 8) : bit (~~~a) i = !bit a i := by
  rw [bit, UInt8.toBitVec_not, BitVec.getLsbD_not, decide_eq_true h, Bool.true_and]; rfl

theorem shift_amount {n : Nat} (h : n < 8) :
    ((UInt8.ofNat n).toBitVec % 8).toNat = n := by
  rw [UInt8.toBitVec_ofNat', BitVec.toNat_umod, BitVec.toNat_ofNat]
  simp only [Nat.reducePow, BitVec.reduceToNat]
  omega

theorem bit_shiftRight (a : UInt8) {n : Nat} (i : Nat) (h : n < 8) :
    bit (a >>> UInt8.ofNat n) i = bit a (n + i) := by
  rw [bit, UInt8.toBitVec_shiftRight, BitVec.ushiftRight_eq', BitVec.getLsbD_ushiftRight,
    shift_amount h]; rfl

theorem bit_shiftLeft (a : UInt8) {n i : Nat} (hn : n < 8) (hi : i < 8) :
    bit (a <<< UInt8.ofNat n) i = (decide (n ≤ i) && bit a (i - n)) := by
  rw [bit, UInt8.toBitVec_shiftLeft, BitVec.shiftLeft_eq', BitVec.getLsbD_shiftLeft,
    shift_amount hn, decide_eq_true hi, Bool.true_and]
  by_cases h : n ≤ i
  · rw [decide_eq_true h, decide_eq_false (by omega)]; rfl
  · rw [decide_eq_false h, decide_eq_true (by omega)]; rfl

namespace BitField

/-- The field has bits, and they lie in the byte. -/
structure Fits (f : BitField) : Prop where
  pos : 0 < f.width
  le : f.low + f.width ≤ 8

def covers (f : BitField) (i : Nat) : Bool := decide (f.low ≤ i ∧ i < f.low + f.width)

variable {f : BitField}

theorem bit_mask (hf : f.Fits) (i : Nat) : bit f.mask i = f.covers i := by
  by_cases hi : i < 8
  · rw [bit, mask, UInt8.toBitVec_ofNat', BitVec.getLsbD_ofNat, decide_eq_true hi, Bool.true_and,
      Nat.testBit_shiftLeft, Nat.shiftLeft_eq, Nat.one_mul, Nat.testBit_two_pow_sub_one, covers]
    by_cases hlow : f.low ≤ i
    · rw [decide_eq_true hlow, Bool.true_and]
      exact decide_eq_decide.mpr (by omega)
    · rw [decide_eq_false hlow, Bool.false_and, decide_eq_false (by omega)]
  · have hle := hf.le
    rw [bit_of_ge (by omega), covers, decide_eq_false (by omega)]

theorem bit_extract (hf : f.Fits) (b : UInt8) (i : Nat) :
    bit (f.extract b) i = (decide (i < f.width) && bit b (f.low + i)) := by
  have hlow : f.low < 8 := by have := hf.pos; have := hf.le; omega
  rw [extract, bit_shiftRight _ i hlow, bit_and, bit_mask hf, covers, Bool.and_comm]
  congr 1
  exact decide_eq_decide.mpr (by omega)

theorem bit_insert (hf : f.Fits) (b v : UInt8) {i : Nat} (hi : i < 8) :
    bit (f.insert b v) i = if f.covers i then bit v (i - f.low) else bit b i := by
  have hlow : f.low < 8 := by have := hf.pos; have := hf.le; omega
  rw [insert, bit_or, bit_and, bit_and, bit_not _ hi, bit_shiftLeft _ hlow hi, bit_mask hf]
  cases hc : f.covers i with
  | false => rw [Bool.not_false, Bool.and_true, Bool.and_false, Bool.or_false]; rfl
  | true =>
    have hle : f.low ≤ i := (of_decide_eq_true hc).1
    rw [Bool.not_true, Bool.and_false, Bool.false_or, Bool.and_true, decide_eq_true hle,
      Bool.true_and]; rfl

theorem extract_lt (hf : f.Fits) (b : UInt8) : (f.extract b).toNat < f.range := by
  rw [range, Nat.shiftLeft_eq, Nat.one_mul]
  apply Nat.lt_pow_two_of_testBit
  intro i hi
  have hbit := bit_extract hf b i
  rw [decide_eq_false (by omega), Bool.false_and] at hbit
  exact hbit

/-- Writing a field with what was read from `byte` copies the covered bits. -/
theorem bit_insert_extract (hf : f.Fits) (b byte : UInt8) {i : Nat} (hi : i < 8) :
    bit (f.insert b (f.extract byte)) i = if f.covers i then bit byte i else bit b i := by
  rw [bit_insert hf _ _ hi]
  cases hc : f.covers i with
  | false => rfl
  | true =>
    obtain ⟨hlow, hhigh⟩ := of_decide_eq_true hc
    rw [if_pos rfl, if_pos rfl, bit_extract hf, decide_eq_true (by omega), Bool.true_and,
      Nat.add_sub_cancel' hlow]

end BitField

/-- The bits that some field covers. -/
def fieldBits (fields : List BitField) : UInt8 :=
  fields.foldr (fun f bits => f.mask ||| bits) 0

theorem bit_fieldBits {fields : List BitField} (hf : ∀ f ∈ fields, f.Fits) (i : Nat) :
    bit (fieldBits fields) i = fields.any (fun f => f.covers i) := by
  induction fields with
  | nil => exact bit_zero i
  | cons f rest ih =>
    rw [fieldBits, List.foldr_cons, bit_or, BitField.bit_mask (hf f List.mem_cons_self),
      List.any_cons]
    congr 1
    exact ih fun g hg => hf g (List.mem_cons_of_mem f hg)

theorem bit_foldl_insert {fields : List BitField} (hf : ∀ f ∈ fields, f.Fits) (old byte : UInt8)
    {i : Nat} (hi : i < 8) :
    bit (fields.foldl (fun b f => f.insert b (f.extract byte)) old) i =
      if bit (fieldBits fields) i then bit byte i else bit old i := by
  rw [bit_fieldBits hf]
  induction fields generalizing old with
  | nil => rfl
  | cons f rest ih =>
    have hrest : ∀ g ∈ rest, g.Fits := fun g hg => hf g (List.mem_cons_of_mem f hg)
    rw [List.foldl_cons, ih hrest, BitField.bit_insert_extract (hf f List.mem_cons_self) _ _ hi,
      List.any_cons]
    cases f.covers i <;> cases rest.any (fun g => g.covers i) <;> rfl

/-- Over a byte without other bits, the copy is the byte masked to the fields. -/
theorem foldl_insert {fields : List BitField} (hf : ∀ f ∈ fields, f.Fits) {old : UInt8}
    (hold : old &&& fieldBits fields = old) (byte : UInt8) :
    fields.foldl (fun b f => f.insert b (f.extract byte)) old = byte &&& fieldBits fields := by
  apply ext_bit
  intro i hi
  rw [bit_foldl_insert hf old byte hi, bit_and]
  cases hb : bit (fieldBits fields) i with
  | true => rw [if_pos rfl, Bool.and_true]
  | false =>
    have hclear : bit old i = false := by rw [← hold, bit_and, hb, Bool.and_false]
    rw [if_neg Bool.false_ne_true, hclear, Bool.and_false]

theorem extract_and_fieldBits {fields : List BitField} (hf : ∀ f ∈ fields, f.Fits) {f : BitField}
    (hmem : f ∈ fields) (byte : UInt8) :
    f.extract (byte &&& fieldBits fields) = f.extract byte := by
  apply ext_bit
  intro i _
  rw [BitField.bit_extract (hf f hmem), BitField.bit_extract (hf f hmem), bit_and,
    bit_fieldBits hf]
  by_cases hi : i < f.width
  · have hcover : f.covers (f.low + i) = true := decide_eq_true (by omega)
    have hany : fields.any (fun g => g.covers (f.low + i)) = true :=
      List.any_eq_true.mpr ⟨f, hmem, hcover⟩
    rw [hany, Bool.and_true]
  · rw [decide_eq_false hi, Bool.false_and, Bool.false_and]

end ApuScore

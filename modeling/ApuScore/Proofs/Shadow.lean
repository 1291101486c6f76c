import ApuScore.Proofs.Layout
import ApuScore.Proofs.Writes
import ApuScore.Log.Assembly
/-
  What the register file says about the parameters.

  `Registers.value` reads a parameter out of the file. Assembling an accepted write
  sets the value of its parameter and no other (`value_put`), because the fields of a
  register do not overlap and blocks do not share registers. What becomes of a run of
  writes is then a fold over values (`value_foldl_put`).
-/

namespace ApuScore

/-! ## Places -/

theorem Channel.find?_spec {c : Channel} {p : Param} {off : UInt8} {f : BitField}
    (h : c.find? p = some (off, f)) :
    f.Fits ∧ (c.base + off).toNat < 24 ∧ ofRegister? (c.base + off) = some (c, off) := by
  have htable : ∀ q ∈ Param.all, ∀ place ∈ c.find? q,
      (0 < place.2.width ∧ place.2.low + place.2.width ≤ 8) ∧ (c.base + place.1).toNat < 24 ∧
        ofRegister? (c.base + place.1) = some (c, place.1) := by
    cases c <;> decide +kernel
  obtain ⟨⟨hpos, hle⟩, hlt, howner⟩ := htable p p.mem_all (off, f) h
  exact ⟨⟨hpos, hle⟩, hlt, howner⟩

theorem Channel.find?_disjoint {c : Channel} {p q : Param} {off : UInt8} {f g : BitField}
    (hp : c.find? p = some (off, f)) (hq : c.find? q = some (off, g)) (hne : p ≠ q) :
    f.low + f.width ≤ g.low ∨ g.low + g.width ≤ f.low := by
  have htable : ∀ p ∈ Param.all, ∀ q ∈ Param.all, ∀ x ∈ c.find? p, ∀ y ∈ c.find? q,
      p ≠ q → x.1 = y.1 →
        x.2.low + x.2.width ≤ y.2.low ∨ y.2.low + y.2.width ≤ x.2.low := by
    cases c <;> decide +kernel
  exact htable p p.mem_all q q.mem_all _ hp _ hq hne rfl

namespace BitField

variable {f g : BitField}

theorem extract_insert (hf : f.Fits) (b : UInt8) {v : UInt8} (hv : v.toNat < f.range) :
    f.extract (f.insert b v) = v := by
  have hle := hf.le
  apply ext_bit
  intro i hi
  rw [bit_extract hf]
  by_cases hlt : i < f.width
  · have hcover : f.covers (f.low + i) = true := decide_eq_true (by omega)
    rw [decide_eq_true hlt, Bool.true_and, bit_insert hf b v (by omega), hcover, if_pos rfl,
      Nat.add_sub_cancel_left]
  · -- the value has no bits beyond the field's width
    have hclear : bit v i = false := by
      apply Nat.testBit_lt_two_pow
      rw [range, Nat.shiftLeft_eq, Nat.one_mul] at hv
      exact Nat.lt_of_lt_of_le hv (Nat.pow_le_pow_right (by decide) (Nat.not_lt.mp hlt))
    rw [decide_eq_false hlt, Bool.false_and, hclear]

theorem extract_insert_of_disjoint (hf : f.Fits) (hg : g.Fits)
    (h : f.low + f.width ≤ g.low ∨ g.low + g.width ≤ f.low) (b v : UInt8) :
    g.extract (f.insert b v) = g.extract b := by
  have hle := hg.le
  apply ext_bit
  intro i hi
  rw [bit_extract hg, bit_extract hg]
  by_cases hlt : i < g.width
  · have hcover : f.covers (g.low + i) = false := decide_eq_false (by omega)
    rw [bit_insert hf b v (by omega), hcover, if_neg Bool.false_ne_true]
  · rw [decide_eq_false hlt, Bool.false_and, Bool.false_and]

end BitField

/-! ## Values -/

namespace Registers

def byteAt (r : Registers) (c : Channel) (off : UInt8) : UInt8 :=
  (r.read? (c.base + off)).getD 0

/-- The value that the file holds for a parameter. -/
def value (r : Registers) (c : Channel) (p : Param) : UInt8 :=
  match c.find? p with
  | none => 0
  | some (off, f) => f.extract (r.byteAt c off)

def put (r : Registers) (w : ParamWrite) : Registers :=
  match w.channel.find? w.param with
  | none => r
  | some (off, f) => (r.set w.channel off f w.value).1

end Registers

/-- The write names the offset that the layout gives to its parameter. -/
def ParamWrite.Placed (w : ParamWrite) : Prop := w.channel.offset? w.param = some w.offset

theorem ParamWrite.exists_field {w : ParamWrite} (hplaced : w.Placed) (htaken : w.taken = true) :
    ∃ f, w.channel.find? w.param = some (w.offset, f) ∧ w.value.toNat < f.range := by
  unfold Placed Channel.offset? at hplaced
  unfold taken Channel.takes at htaken
  cases hfind : w.channel.find? w.param with
  | none =>
    rw [hfind] at hplaced
    cases hplaced
  | some place =>
    rw [hfind] at hplaced htaken
    obtain ⟨off, f⟩ := place
    cases hplaced
    exact ⟨f, rfl, of_decide_eq_true htaken⟩

theorem exists_offset {w : ParamWrite} (h : w.taken = true) :
    ∃ offset, w.channel.offset? w.param = some offset := by
  rw [ParamWrite.taken, Channel.takes] at h
  rw [Channel.offset?]
  cases hfind : w.channel.find? w.param with
  | none => rw [hfind] at h; cases h
  | some place => exact ⟨place.1, rfl⟩

namespace Registers

theorem put_eq {r : Registers} {w : ParamWrite} {f : BitField}
    (hfind : w.channel.find? w.param = some (w.offset, f)) :
    r.put w = r.write (w.channel.base + w.offset)
      (f.insert (r.byteAt w.channel w.offset) w.value) := by
  unfold put
  rw [hfind]
  rfl

theorem byteAt_put_of_ne {r : Registers} {w : ParamWrite} (hplaced : w.Placed)
    (htaken : w.taken = true) {c : Channel} {off : UInt8}
    (howner : Channel.ofRegister? (c.base + off) = some (c, off))
    (hne : (c, off) ≠ (w.channel, w.offset)) : (r.put w).byteAt c off = r.byteAt c off := by
  obtain ⟨f, hfind, -⟩ := ParamWrite.exists_field hplaced htaken
  obtain ⟨-, -, howner'⟩ := Channel.find?_spec hfind
  have hregister : w.channel.base + w.offset ≠ c.base + off := by
    intro heq
    rw [heq, howner] at howner'
    exact hne (Option.some.inj howner')
  rw [put_eq hfind, byteAt, read?_write_of_ne r _ hregister]
  rfl

/-- A write sets the value of its parameter and of no other. -/
theorem value_put {r : Registers} {w : ParamWrite} (hplaced : w.Placed) (htaken : w.taken = true)
    (c : Channel) (p : Param) :
    (r.put w).value c p =
      if w.channel = c ∧ w.param = p then w.value else r.value c p := by
  obtain ⟨f, hfind, hrange⟩ := ParamWrite.exists_field hplaced htaken
  obtain ⟨hf, hlt, -⟩ := Channel.find?_spec hfind
  have hself : (r.put w).byteAt w.channel w.offset =
      f.insert (r.byteAt w.channel w.offset) w.value := by
    rw [put_eq hfind, byteAt, read?_write_self r _ hlt]
    rfl
  by_cases hsame : w.channel = c ∧ w.param = p
  · obtain ⟨rfl, rfl⟩ := hsame
    simp only [value, hfind, hself, and_self, if_true]
    exact BitField.extract_insert hf _ hrange
  · rw [if_neg hsame]
    unfold value
    cases hfound : c.find? p with
    | none => rfl
    | some found =>
      obtain ⟨off, g⟩ := found
      obtain ⟨hg, -, howner⟩ := Channel.find?_spec hfound
      dsimp only
      by_cases hplace : (c, off) = (w.channel, w.offset)
      · -- another field of the same register
        cases hplace
        have hparam : w.param ≠ p := fun heq => hsame ⟨rfl, heq⟩
        rw [hself, BitField.extract_insert_of_disjoint hf hg
          (Channel.find?_disjoint hfind hfound hparam)]
      · rw [byteAt_put_of_ne hplaced htaken howner hplace]

end Registers

/-- The value of a parameter behind a write, if it was `old` before. -/
def ParamWrite.update (c : Channel) (p : Param) (old : UInt8) (w : ParamWrite) : UInt8 :=
  if w.channel = c ∧ w.param = p then w.value else old

/-- The value of a parameter behind a run of writes is that of the last one that sets
it. -/
theorem Registers.value_foldl_put {writes : List ParamWrite}
    (h : ∀ w ∈ writes, w.Placed ∧ w.taken = true) (r : Registers) (c : Channel) (p : Param) :
    (writes.foldl put r).value c p = writes.foldl (ParamWrite.update c p) (r.value c p) := by
  induction writes generalizing r with
  | nil => rfl
  | cons w writes ih =>
    rw [List.forall_mem_cons] at h
    rw [List.foldl_cons, List.foldl_cons, ih h.2, value_put h.1.1 h.1.2]
    rfl

end ApuScore

import ApuScore.Proofs.FrameRuns
/-
  The register file behind the writes of a frame.

  Each frame sets the parameters that it changes, and the file keeps the others; so the
  file behind a frame holds that frame (`Registers.Mirrors.settle`), with every length
  halted, every volume constant and every length load zero.
-/

namespace ApuScore

/-! ## Values behind writes -/

theorem Registers.value_lt {c : Channel} {p : Param} {off : UInt8} {f : BitField}
    (hfind : c.find? p = some (off, f)) (r : Registers) : (r.value c p).toNat < f.range := by
  unfold value
  rw [hfind]
  exact BitField.extract_lt (Channel.find?_spec hfind).1 _

theorem placed_frameWrites (before after : Frame) :
    ∀ w ∈ frameWrites before after, w.Placed ∧ w.atom = 0 := by
  have henable : ∀ (v : Voice) (on : Bool), (enableWrite v on).Placed ∧
      (enableWrite v on).atom = 0 := by
    intro v on
    cases v <;> exact ⟨rfl, rfl⟩
  simp only [frameWrites, List.forall_mem_append]
  refine ⟨⟨⟨?_, ?_⟩, ?_⟩, ?_⟩
  · exact forall_pulseWrites (henable _ _) ⟨rfl, rfl⟩ ⟨rfl, rfl⟩ ⟨rfl, rfl⟩ ⟨rfl, rfl⟩ ⟨rfl, rfl⟩
  · exact forall_pulseWrites (henable _ _) ⟨rfl, rfl⟩ ⟨rfl, rfl⟩ ⟨rfl, rfl⟩ ⟨rfl, rfl⟩ ⟨rfl, rfl⟩
  · exact forall_triangleWrites (henable _ _) ⟨rfl, rfl⟩ ⟨rfl, rfl⟩ ⟨rfl, rfl⟩
  · exact forall_noiseWrites (henable _ _) ⟨rfl, rfl⟩ ⟨rfl, rfl⟩ (fun _ => ⟨rfl, rfl⟩) ⟨rfl, rfl⟩

theorem foldl_update_writesOf {v : Voice} {c : Channel} {p : Param}
    (haims : ∀ w : ParamWrite, w.channel = c → w.param = p → w.aims v = true)
    (writes : List ParamWrite) (old : UInt8) :
    writes.foldl (ParamWrite.update c p) old =
      (writesOf v writes).foldl (ParamWrite.update c p) old := by
  induction writes generalizing old with
  | nil => rfl
  | cons w writes ih =>
    rw [List.foldl_cons, ih]
    by_cases hw : w.aims v = true
    · have hmine : writesOf v (w :: writes) = w :: writesOf v writes :=
        List.filter_cons_of_pos hw
      rw [hmine, List.foldl_cons]
    · have hother : writesOf v (w :: writes) = writesOf v writes :=
        List.filter_cons_of_neg hw
      rw [hother, ParamWrite.update, if_neg fun h => hw (haims w h.1 h.2)]

theorem foldl_update_of_channel {c : Channel} {writes : List ParamWrite}
    (h : ∀ w ∈ writes, w.channel ≠ c) (p : Param) (old : UInt8) :
    writes.foldl (ParamWrite.update c p) old = old := by
  induction writes with
  | nil => rfl
  | cons w writes ih =>
    rw [List.forall_mem_cons] at h
    rw [List.foldl_cons, ParamWrite.update, if_neg fun hw => h.1 hw.1]
    exact ih h.2

/-- The file behind the writes of a frame. -/
def Registers.settle (r : Registers) (before after : Frame) : Registers :=
  (frameWrites before after).foldl put r

section
variable {before after : Frame} (htaken : ∀ w ∈ frameWrites before after, w.taken = true)
  (r : Registers) (v : Voice)
include htaken

theorem Registers.value_settle (p : Param) :
    (r.settle before after).value v.channel p =
      (v.sets before after).foldl (ParamWrite.update v.channel p) (r.value v.channel p) := by
  have hplaced : ∀ w ∈ frameWrites before after, w.Placed ∧ w.taken = true := fun w hw =>
    ⟨(placed_frameWrites before after w hw).1, htaken w hw⟩
  have haims : ∀ w : ParamWrite, w.channel = v.channel → w.param = p → w.aims v = true := by
    intro w hw _
    rw [ParamWrite.aims, hw, beq_self_eq_true, Bool.true_or]
  have hgates : ∀ w ∈ v.gates before after, w.channel ≠ v.channel :=
    forall_gates v.channel_ne_status.symm
  rw [settle, value_foldl_put hplaced, foldl_update_writesOf haims, writesOf_frame,
    List.foldl_append, foldl_update_of_channel hgates]

/-- The enable bit of a voice follows its gate. -/
theorem Registers.Enables.settle (h : r.Enables v (v.sounds before)) :
    (r.settle before after).Enables v (v.sounds after) := by
  have hplaced : ∀ w ∈ frameWrites before after, w.Placed ∧ w.taken = true := fun w hw =>
    ⟨(placed_frameWrites before after w hw).1, htaken w hw⟩
  have haims : ∀ w : ParamWrite, w.channel = .status → w.param = v.enable → w.aims v = true := by
    intro w hw hp
    rw [ParamWrite.aims, hw, hp, beq_self_eq_true, beq_self_eq_true, Bool.and_self, Bool.or_true]
  have hsets : ∀ w ∈ v.sets before after, w.channel ≠ .status := by
    intro w hw
    rw [(forall_sets v before after w hw).1]
    exact v.channel_ne_status
  have hgate : ∀ b a : Bool, (gateWrites v b a).foldl (ParamWrite.update .status v.enable)
      (if b then 1 else 0) = if a then 1 else 0 := by
    intro b a
    cases v <;> cases b <;> cases a <;> rfl
  rw [Enables, Registers.settle, value_foldl_put hplaced, foldl_update_writesOf haims,
    writesOf_frame, List.foldl_append, foldl_update_of_channel hsets, h]
  exact hgate _ _

end

/-! ## The frame that the file holds -/

/-- The registers of a pulse hold a slot, at a halted length and a constant volume. -/
structure Registers.MirrorsPulse (r : Registers) (c : Channel) (s : Slot) : Prop where
  duty : r.value c .duty = s.timbre
  halt : r.value c .lengthHalt = 1
  constant : r.value c .constantVolume = 1
  low : r.value c .timerLow = s.low
  high : r.value c .timerHigh = s.high
  load : r.value c .lengthLoad = 0

structure Registers.MirrorsTriangle (r : Registers) (s : Slot) : Prop where
  low : r.value .triangle .timerLow = s.low
  high : r.value .triangle .timerHigh = s.high
  load : r.value .triangle .lengthLoad = 0

/-- The registers of the noise hold the loop flag of a slot, at a halted length and a
constant volume. -/
structure Registers.MirrorsNoise (r : Registers) (s : Slot) : Prop where
  halt : r.value .noise .lengthHalt = 1
  constant : r.value .noise .constantVolume = 1
  looping : r.value .noise .noiseLoop = s.timbre
  load : r.value .noise .lengthLoad = 0

/-- The registers hold a frame. -/
structure Registers.Mirrors (r : Registers) (f : Frame) : Prop where
  enable : ∀ v : Voice, r.Enables v (v.sounds f)
  pulse1 : r.MirrorsPulse .pulse1 f.pulse1
  pulse2 : r.MirrorsPulse .pulse2 f.pulse2
  triangle : r.MirrorsTriangle f.triangle
  noise : r.MirrorsNoise f.noise

theorem update_place (c d : Channel) (p q : Param) (old value : UInt8) (atom : Nat) :
    ParamWrite.update c p old (.place d q value atom) =
      if d = c ∧ q = p then value else old := rfl

theorem ite_bne {α : Type} [BEq α] [LawfulBEq α] (a b : α) :
    (if (a != b) = true then a else b) = a := by
  split
  · rfl
  · rename_i hsame
    exact (eq_of_not_bne hsame).symm

theorem foldl_pulseSets (v : Voice) (p : Param) (before after : Slot) (old : UInt8) :
    (pulseSets v before after).foldl (ParamWrite.update v.channel p) old =
      match p with
      | .duty => if after.timbre != before.timbre then after.timbre else old
      | .volume => if after.volume != 0 && after.volume != before.volume then after.volume else old
      | .timerLow => if after.low != before.low then after.low else old
      | .timerHigh => if Pulse.loads before after then after.high else old
      | .lengthLoad => if Pulse.loads before after then 0 else old
      | _ => old := by
  cases p <;> simp [pulseSets, foldl_whenNeeded, highWrites, update_place]

theorem foldl_triangleSets (p : Param) (before after : Slot) (old : UInt8) :
    (triangleSets before after).foldl (ParamWrite.update .triangle p) old =
      match p with
      | .timerLow => if after.period != before.period then after.low else old
      | .timerHigh => if after.period != before.period then after.high else old
      | .lengthLoad => if after.period != before.period then 0 else old
      | _ => old := by
  cases p <;> simp [triangleSets, foldl_whenNeeded, highWrites, update_place]

theorem foldl_noiseSets (p : Param) (before after : Slot) (old : UInt8) :
    (noiseSets before after).foldl (ParamWrite.update .noise p) old =
      match p with
      | .volume => if after.volume != 0 && after.volume != before.volume then after.volume else old
      | .noiseLoop => if after.timbre != before.timbre then after.timbre else old
      | .noisePeriod =>
        if after.low != 0 && after.low != before.low then noisePeriodOf after.low else old
      | .lengthLoad => if after.low != 0 && after.low != before.low then 0 else old
      | _ => old := by
  cases p <;> simp [noiseSets, foldl_whenNeeded, update_place]

/-- A period that is not written has not changed its high byte. -/
theorem high_of_loads {before after : Slot} :
    (if Pulse.loads before after then after.high else before.high) = after.high := by
  split
  · rfl
  · rename_i hnot
    rw [Pulse.loads, Bool.or_eq_true, not_or, bne_iff_ne] at hnot
    exact (Decidable.not_not.mp hnot.2).symm

theorem Slot.bytes_of_period {s t : Slot} (h : s.period = t.period) :
    s.low = t.low ∧ s.high = t.high := by
  have hs := s.low.toNat_lt
  have ht := t.low.toNat_lt
  unfold period at h
  exact ⟨UInt8.toNat_inj.mp (by omega), UInt8.toNat_inj.mp (by omega)⟩

section
variable {r : Registers} {before after : Frame}
  (htaken : ∀ w ∈ frameWrites before after, w.taken = true)
include htaken

theorem Registers.MirrorsPulse.settle {v : Voice} {s t : Slot}
    (hsets : v.sets before after = pulseSets v s t) (h : r.MirrorsPulse v.channel s) :
    (r.settle before after).MirrorsPulse v.channel t := by
  refine ⟨?_, ?_, ?_, ?_, ?_, ?_⟩ <;> rw [value_settle htaken, hsets, foldl_pulseSets]
  · rw [h.duty]
    exact ite_bne _ _
  · exact h.halt
  · exact h.constant
  · rw [h.low]
    exact ite_bne _ _
  · rw [h.high]
    exact high_of_loads
  · rw [h.load]
    exact ite_self _

theorem Registers.MirrorsTriangle.settle (h : r.MirrorsTriangle before.triangle) :
    (r.settle before after).MirrorsTriangle after.triangle := by
  have hvalue : ∀ p, (r.settle before after).value .triangle p =
      (triangleSets before.triangle after.triangle).foldl (ParamWrite.update .triangle p)
        (r.value .triangle p) := fun p => value_settle htaken r .triangle p
  refine ⟨?_, ?_, ?_⟩ <;> rw [hvalue, foldl_triangleSets]
  · rw [h.low]
    dsimp only
    split
    · rfl
    · rename_i hsame
      exact (Slot.bytes_of_period (eq_of_not_bne hsame)).1.symm
  · rw [h.high]
    dsimp only
    split
    · rfl
    · rename_i hsame
      exact (Slot.bytes_of_period (eq_of_not_bne hsame)).2.symm
  · rw [h.load]
    exact ite_self _

theorem Registers.MirrorsNoise.settle (h : r.MirrorsNoise before.noise) :
    (r.settle before after).MirrorsNoise after.noise := by
  have hvalue : ∀ p, (r.settle before after).value .noise p =
      (noiseSets before.noise after.noise).foldl (ParamWrite.update .noise p)
        (r.value .noise p) := fun p => value_settle htaken r .noise p
  refine ⟨?_, ?_, ?_, ?_⟩ <;> rw [hvalue, foldl_noiseSets]
  · exact h.halt
  · exact h.constant
  · rw [h.looping]
    exact ite_bne _ _
  · rw [h.load]
    exact ite_self _

/-- The writes of a frame leave the registers holding it. -/
theorem Registers.Mirrors.settle (h : r.Mirrors before) :
    (r.settle before after).Mirrors after where
  enable v := (h.enable v).settle htaken r v
  pulse1 := MirrorsPulse.settle htaken (v := .pulse1) rfl h.pulse1
  pulse2 := MirrorsPulse.settle htaken (v := .pulse2) rfl h.pulse2
  triangle := h.triangle.settle htaken
  noise := h.noise.settle htaken

end

end ApuScore

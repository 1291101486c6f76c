import ApuScore.Proofs.Writes
/-
  Bounds of the units.

  Each unit of the chip has a `Bounded` predicate on its registers and counters.
  A tick of the sequencer keeps it, and so does a write that the unit's channel
  takes. The bounds of one unit lean on each other: the period is bounded because
  the sweep moves it only to a target below 0x800, the target because the period
  is, and the envelope's divider because it restarts once it passes a volume
  register of four bits.
-/

namespace ApuScore

structure Envelope.Bounded (e : Envelope) : Prop where
  divider : e.divider ≤ 15
  decay : e.decay ≤ 15

structure VolumeUnit.Bounded (u : VolumeUnit) : Prop where
  level : u.level.toNat ≤ 15
  envelope : u.envelope.Bounded

/-- The sweep's registers fit three bits, its divider counts from 8 down to 1, and
its target is at most one below zero and at most twice the longest period. -/
structure Sweep.Bounded (s : Sweep) : Prop where
  period : s.period ≤ 7
  shift : s.shift ≤ 7
  divider_pos : 1 ≤ s.divider
  divider_le : s.divider ≤ 8
  target_ge : -1 ≤ s.target
  target_le : s.target ≤ 0xFFE

structure Pulse.Bounded (p : Pulse) : Prop where
  duty : p.duty.toNat ≤ 3
  timer : p.timer ≤ 0x7FF
  volume : p.volume.Bounded
  sweep : p.sweep.Bounded

structure Triangle.Bounded (t : Triangle) : Prop where
  timer : t.timer ≤ 0x7FF
  reloadValue : t.reloadValue.toNat ≤ 127
  linear : t.linear ≤ 127

structure Noise.Bounded (n : Noise) : Prop where
  period : n.period.toNat ≤ 15
  volume : n.volume.Bounded

/-- The phase is at most one second of samples. -/
structure Sequencer.Bounded (s : Sequencer) : Prop where
  phase : s.phase ≤ sampleRate

theorem Tick.keeps {α : Type} {P : α → Prop} {quarter half : α → α}
    (hquarter : ∀ a, P a → P (quarter a)) (hhalf : ∀ a, P a → P (half a)) (t : Tick) {a : α}
    (h : P a) :
    P (if t.half then half (if t.quarter then quarter a else a)
      else if t.quarter then quarter a else a) := by
  have hfirst : P (if t.quarter then quarter a else a) := by
    split
    · exact hquarter a h
    · exact h
  split
  · exact hhalf _ hfirst
  · exact hfirst

theorem withLow_le (period : Nat) (low : UInt8) : withLow period low ≤ 0x7FF := by
  have hlow := low.toNat_lt
  unfold withLow
  omega

theorem withHigh_le (period : Nat) (high : UInt8) : withHigh period high ≤ 0x7FF := by
  unfold withHigh
  omega

/-! ## The volume unit -/

theorem Envelope.nextDecay_le (looping : Bool) {decay : Nat} (h : decay ≤ 15) :
    nextDecay looping decay ≤ 15 := by
  unfold nextDecay
  split
  · split <;> decide
  · omega

/-- The divider stays in four bits whatever it was, as the period does. -/
theorem Envelope.Bounded.clock {e : Envelope} (h : e.Bounded) {period : Nat} (hp : period ≤ 15)
    (looping : Bool) : (e.clock period looping).Bounded := by
  unfold Envelope.clock
  split
  · exact ⟨by decide, by decide⟩
  · dsimp only
    split
    · exact ⟨Nat.zero_le 15, nextDecay_le looping h.decay⟩
    · rename_i hle
      exact ⟨Nat.le_trans (Nat.not_lt.mp hle) hp, h.decay⟩

namespace VolumeUnit.Bounded

variable {u : VolumeUnit} (h : u.Bounded)
include h

theorem clock (looping : Bool) : (u.clock looping).Bounded :=
  ⟨h.level, h.envelope.clock h.level looping⟩

theorem restart : u.restart.Bounded := ⟨h.level, h.envelope.divider, h.envelope.decay⟩

theorem output_le : u.output.toNat ≤ 15 := by
  unfold VolumeUnit.output
  split
  · exact h.level
  · have hdecay := h.envelope.decay
    rw [UInt8.toNat_ofNat']
    omega

end VolumeUnit.Bounded

/-! ## The pulse -/

namespace Pulse

theorem targetOf_bounds {p : Pulse} (h : p.timer ≤ 0x7FF) :
    -1 ≤ p.targetOf ∧ p.targetOf ≤ 0xFFE := by
  have hdelta : p.timer >>> (p.sweep.shift % 32) ≤ p.timer := by
    rw [Nat.shiftRight_eq_div_pow]
    exact Nat.div_le_self _ _
  unfold targetOf
  generalize p.timer >>> (p.sweep.shift % 32) = delta at hdelta ⊢
  dsimp only
  split
  · split <;> omega
  · omega

namespace Bounded

variable {p : Pulse} (h : p.Bounded)
include h

theorem retarget : p.retarget.Bounded :=
  { h with
    sweep := { h.sweep with
      target_ge := (targetOf_bounds h.timer).1
      target_le := (targetOf_bounds h.timer).2 } }

theorem setTimer {timer : Nat} (htimer : timer ≤ 0x7FF) : (p.setTimer timer).Bounded :=
  retarget { h with timer := htimer }

theorem enableSweep (on : Bool) : (p.enableSweep on).Bounded :=
  retarget { h with sweep := { h.sweep with } }

/-- The period only ever moves to a target below 0x800. -/
theorem glide : p.glide.Bounded := by
  have hq := h.retarget
  unfold Pulse.glide
  dsimp only
  split
  · rename_i hmoves
    rw [Bool.and_eq_true, inRange, Bool.and_eq_true, decide_eq_true_iff, decide_eq_true_iff]
      at hmoves
    have htarget := hmoves.1.2
    exact { hq with timer := by dsimp only; omega }
  · exact hq

theorem runSweep : p.runSweep.Bounded := by
  have hdue : (if p.sweep.divider ≤ 1 then p.glide else p).Bounded := by
    split
    · exact h.glide
    · exact h
  have hperiod := h.sweep.period
  have hdivider := h.sweep.divider_le
  unfold Pulse.runSweep
  dsimp only
  -- the divider restarts one above the period, or counts down from above 1
  refine { hdue with sweep := { hdue.sweep with divider_pos := ?_, divider_le := ?_ } }
  · dsimp only
    split <;> omega
  · dsimp only
    split <;> omega

theorem quarterFrame : p.quarterFrame.Bounded :=
  { h with volume := h.volume.clock _ }

theorem halfFrame : p.halfFrame.Bounded := by
  have hlength : Bounded { p with length := p.length.clock } := { h with }
  unfold Pulse.halfFrame clockSweep
  split
  · exact hlength.runSweep
  · exact hlength

theorem tick (t : Tick) : (p.tick t).Bounded :=
  t.keeps (fun _ hq => quarterFrame hq) (fun _ hq => halfFrame hq) h

theorem gate (length : LengthCounter) : Bounded { p with length := length } := { h with }

/-- The fields of a pulse register are as wide as the bounds need. -/
theorem write {param : Param} {value : UInt8}
    (htaken : Channel.pulse1.takes param value = true) : (p.write param value).Bounded := by
  cases param with
  | duty =>
    have hvalue : value.toNat < 4 := of_decide_eq_true htaken
    exact { h with duty := Nat.le_of_lt_succ hvalue }
  | volume =>
    have hvalue : value.toNat < 16 := of_decide_eq_true htaken
    exact { h with volume := { h.volume with level := Nat.le_of_lt_succ hvalue } }
  | sweepPeriod =>
    have hvalue : value.toNat < 8 := of_decide_eq_true htaken
    exact { h with sweep := { h.sweep with period := Nat.le_of_lt_succ hvalue } }
  | sweepShift =>
    have hvalue : value.toNat < 8 := of_decide_eq_true htaken
    exact { h with sweep := { h.sweep with shift := Nat.le_of_lt_succ hvalue } }
  | lengthHalt => exact { h with }
  | constantVolume => exact { h with volume := { h.volume with } }
  | sweepEnable => exact h.enableSweep _
  | sweepNegate => exact { h with sweep := { h.sweep with } }
  | timerLow => exact h.setTimer (withLow_le _ _)
  | timerHigh => exact h.setTimer (withHigh_le _ _)
  | lengthLoad => exact { h with volume := h.volume.restart }
  | _ => exact h

end Bounded

end Pulse

/-! ## The triangle, the noise and the sequencer -/

namespace Triangle.Bounded

variable {t : Triangle} (h : t.Bounded)
include h

theorem clockLinear : t.clockLinear.Bounded := by
  have hreload := h.reloadValue
  have hlinear := h.linear
  refine { h with linear := ?_ }
  unfold Triangle.clockLinear
  dsimp only
  split <;> omega

theorem gate (length : LengthCounter) : Bounded { t with length := length } := { h with }

theorem tick (k : Tick) : (t.tick k).Bounded :=
  k.keeps (fun _ hu => clockLinear hu) (fun _ hu => gate hu _) h

theorem write {param : Param} {value : UInt8}
    (htaken : Channel.triangle.takes param value = true) : (t.write param value).Bounded := by
  cases param with
  | linearReload =>
    have hvalue : value.toNat < 128 := of_decide_eq_true htaken
    exact { h with reloadValue := Nat.le_of_lt_succ hvalue }
  | timerLow => exact { h with timer := withLow_le _ _ }
  | timerHigh => exact { h with timer := withHigh_le _ _ }
  | lengthHalt => exact { h with }
  | lengthLoad => exact { h with }
  | _ => exact h

end Triangle.Bounded

namespace Noise.Bounded

variable {n : Noise} (h : n.Bounded)
include h

theorem gate (length : LengthCounter) : Bounded { n with length := length } := { h with }

theorem clockVolume (looping : Bool) : Bounded { n with volume := n.volume.clock looping } :=
  { h with volume := h.volume.clock looping }

theorem tick (t : Tick) : (n.tick t).Bounded := by
  have hquarter : ∀ m : Noise, m.Bounded →
      Bounded { m with volume := m.volume.clock m.length.halt } :=
    fun _ hm => clockVolume hm _
  have hhalf : ∀ m : Noise, m.Bounded → Bounded { m with length := m.length.clock } :=
    fun _ hm => gate hm _
  exact t.keeps hquarter hhalf h

theorem write {param : Param} {value : UInt8}
    (htaken : Channel.noise.takes param value = true) : (n.write param value).Bounded := by
  cases param with
  | volume =>
    have hvalue : value.toNat < 16 := of_decide_eq_true htaken
    exact { h with volume := { h.volume with level := Nat.le_of_lt_succ hvalue } }
  | noisePeriod =>
    have hvalue : value.toNat < 16 := of_decide_eq_true htaken
    exact { h with period := Nat.le_of_lt_succ hvalue }
  | lengthHalt => exact { h with }
  | constantVolume => exact { h with volume := { h.volume with } }
  | noiseLoop => exact { h with }
  | lengthLoad => exact { h with volume := h.volume.restart }
  | _ => exact h

end Noise.Bounded

namespace Sequencer

theorem rate_le (s : Sequencer) : s.rate ≤ 240 := by
  unfold rate
  split <;> decide

namespace Bounded

variable {s : Sequencer} (h : s.Bounded)
include h

theorem advance : s.advance.Bounded := by
  have hphase := h.phase
  have hrate := s.rate_le
  unfold sampleRate at hphase
  unfold Sequencer.advance Sequencer.steps? sampleRate
  split
  · exact ⟨by unfold sampleRate; dsimp only; omega⟩
  · rename_i hstep
    rw [decide_eq_true_iff] at hstep
    exact ⟨by unfold sampleRate; dsimp only; omega⟩

end Bounded

theorem bounded_select (fiveStep : Bool) (s : Sequencer) : (s.select fiveStep).Bounded :=
  ⟨Nat.zero_le _⟩

end Sequencer

end ApuScore

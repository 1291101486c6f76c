import Mathlib.Order.Monotone.Basic
import ApuScore.Proofs.Sequencing
import ApuScore.Proofs.Targets
/-
  When and where a sweep glides.

  A sweep that is enabled counts its divider down, one call for each half frame. This file

  1. says all that one call does (`clockSweep_eq`): it is due if the divider has run out, and
     then it computes the target and moves the period there if both are in range;
  2. shows at which calls of a run the sweep is due (`Sweep.FallsDue`, `fallsDue_iff`);
  3. shows that the period goes one way only (`monotone_timer`, `antitone_timer`), and that it
     stays where it is once its target has left the range (`stuck_iterate`);
  4. shows that samples without writes do to the period and the sweep what as many calls do as
     they fire half frames (`pulse_iterate`);
  5. puts these together for every reachable pulse (`sweep_glides`).
-/

namespace ApuScore

/-- Whether an enabled sweep is due at a call, where calls are counted from 1: at the call that
the divider counts, and a whole round of the divider behind it, two rounds, and so on. A reload
that is pending starts the first round at call 1, which is due only if the divider has run out. -/
def Sweep.FallsDue (s : Sweep) (call : Nat) : Prop :=
  if s.reload then call = 1 ∧ s.divider = 1 ∨ ∃ i, call = 1 + (i + 1) * (s.period + 1)
  else ∃ i, call = s.divider + i * (s.period + 1)

namespace Pulse

/-! ## One call -/

section

variable {p : Pulse}

theorem timer_glide (p : Pulse) :
    p.glide.timer = if 8 ≤ p.timer ∧ p.targetOf < 0x800 ∧ 0 < p.sweep.shift then p.targetOf.toNat
      else p.timer := by
  have hmoves : (p.retarget.inRange && decide (0 < p.retarget.sweep.shift)) = true ↔
      8 ≤ p.timer ∧ p.targetOf < 0x800 ∧ 0 < p.sweep.shift := by
    rw [Bool.and_eq_true, inRange, Bool.and_eq_true, decide_eq_true_iff, decide_eq_true_iff,
      decide_eq_true_iff]
    exact and_assoc
  unfold glide
  dsimp only
  split
  · rename_i h
    rw [if_pos (hmoves.mp h)]
    rfl
  · rename_i h
    rw [if_neg (mt hmoves.mpr h)]
    rfl

theorem clockSweep_eq (hon : p.sweep.enabled = true) :
    p.clockSweep =
      { p with
        timer := if p.sweep.divider ≤ 1 then p.glide.timer else p.timer
        sweep := { p.sweep with
          target := if p.sweep.divider ≤ 1 then p.targetOf else p.sweep.target
          divider := if p.sweep.divider ≤ 1 ∨ p.sweep.reload then p.sweep.period + 1
            else p.sweep.divider - 1
          reload := false } } := by
  have hglide : p.glide = { p with
      timer := p.glide.timer, sweep := { p.sweep with target := p.targetOf } } := by
    unfold glide
    dsimp only
    split <;> rfl
  rw [clockSweep, if_pos hon, runSweep]
  dsimp only
  split
  · rw [hglide]
  · rfl

theorem clockSweep_of_off (hoff : p.sweep.enabled = false) : p.clockSweep = p := by
  rw [clockSweep, hoff, if_neg Bool.false_ne_true]

end

end Pulse

/-! ## Calls that are due -/

namespace Sweep

variable {s : Sweep} (hpos : 1 ≤ s.divider)
include hpos

theorem fallsDue_one : s.FallsDue 1 ↔ s.divider ≤ 1 := by
  unfold FallsDue
  split
  · constructor
    · rintro (⟨-, hdivider⟩ | ⟨i, hcall⟩)
      · omega
      · rw [Nat.succ_mul] at hcall
        omega
    · intro hdivider
      exact .inl ⟨rfl, by omega⟩
  · constructor
    · rintro ⟨i, hcall⟩
      omega
    · intro hdivider
      exact ⟨0, by omega⟩

/-- The calls behind the first are those of the sweep that the first call leaves. -/
theorem fallsDue_add_two (target : Int) (call : Nat) :
    s.FallsDue (call + 2) ↔
      FallsDue { s with
        target := target
        divider := if s.divider ≤ 1 ∨ s.reload then s.period + 1 else s.divider - 1
        reload := false } (call + 1) := by
  unfold FallsDue
  dsimp only
  rw [if_neg Bool.false_ne_true]
  cases s.reload with
  | true =>
    rw [if_pos rfl, if_pos (.inr rfl)]
    constructor
    · rintro (⟨hcall, -⟩ | ⟨i, hcall⟩)
      · omega
      · rw [Nat.succ_mul] at hcall
        exact ⟨i, by omega⟩
    · rintro ⟨i, hcall⟩
      exact .inr ⟨i, by rw [Nat.succ_mul]; omega⟩
  | false =>
    rw [if_neg Bool.false_ne_true]
    by_cases hdue : s.divider ≤ 1
    · rw [if_pos (.inl hdue)]
      constructor
      · rintro ⟨i, hcall⟩
        -- the first call was due, so the call is of a later round
        cases i with
        | zero => omega
        | succ i =>
          rw [Nat.succ_mul] at hcall
          exact ⟨i, by omega⟩
      · rintro ⟨i, hcall⟩
        exact ⟨i + 1, by rw [Nat.succ_mul]; omega⟩
    · rw [if_neg (by simp [hdue])]
      constructor
      · rintro ⟨i, hcall⟩
        exact ⟨i, by omega⟩
      · rintro ⟨i, hcall⟩
        exact ⟨i, by omega⟩

end Sweep

namespace Pulse

section

variable {p : Pulse} (hon : p.sweep.enabled = true)
include hon

theorem enabled_clockSweep : p.clockSweep.sweep.enabled = true := by
  rw [clockSweep_eq hon, hon]

theorem enabled_iterate (calls : Nat) : (clockSweep^[calls] p).sweep.enabled = true := by
  induction calls with
  | zero => exact hon
  | succ calls ih =>
    rw [Function.iterate_succ_apply']
    exact enabled_clockSweep ih

theorem fallsDue_iff (hpos : 1 ≤ p.sweep.divider) (calls : Nat) :
    p.sweep.FallsDue (calls + 1) ↔ (clockSweep^[calls] p).sweep.divider ≤ 1 := by
  induction calls generalizing p with
  | zero => exact Sweep.fallsDue_one hpos
  | succ calls ih =>
    have hnext : 1 ≤ p.clockSweep.sweep.divider := by
      rw [clockSweep_eq hon]
      dsimp only
      split <;> omega
    rw [Function.iterate_succ_apply, ← ih (enabled_clockSweep hon) hnext, clockSweep_eq hon]
    exact Sweep.fallsDue_add_two hpos _ calls

end

/-! ## Where the period goes -/

theorem Bounded.clockSweep {p : Pulse} (h : p.Bounded) : p.clockSweep.Bounded := by
  unfold Pulse.clockSweep
  split
  · exact h.runSweep
  · exact h

theorem Bounded.iterate {p : Pulse} (h : p.Bounded) (calls : Nat) :
    (Pulse.clockSweep^[calls] p).Bounded := by
  induction calls with
  | zero => exact h
  | succ calls ih =>
    rw [Function.iterate_succ_apply']
    exact ih.clockSweep

section

variable (p : Pulse)

theorem timer_le_targetOf (hup : p.sweep.negate = false) : (p.timer : Int) ≤ p.targetOf := by
  unfold targetOf
  generalize p.timer >>> (p.sweep.shift % 32) = delta
  rw [hup, if_neg Bool.false_ne_true]
  omega

theorem targetOf_le_timer (hdown : p.sweep.negate = true) : p.targetOf ≤ p.timer := by
  unfold targetOf
  generalize p.timer >>> (p.sweep.shift % 32) = delta
  rw [hdown, if_pos rfl]
  split <;> omega

theorem timer_le_clockSweep (hup : p.sweep.negate = false) : p.timer ≤ p.clockSweep.timer := by
  have htarget := p.timer_le_targetOf hup
  cases hon : p.sweep.enabled with
  | false => rw [clockSweep_of_off hon]
  | true =>
    rw [clockSweep_eq hon]
    dsimp only
    split
    · rw [timer_glide]
      split <;> omega
    · exact Nat.le_refl _

theorem clockSweep_le_timer (hdown : p.sweep.negate = true) : p.clockSweep.timer ≤ p.timer := by
  have htarget := p.targetOf_le_timer hdown
  cases hon : p.sweep.enabled with
  | false => rw [clockSweep_of_off hon]
  | true =>
    rw [clockSweep_eq hon]
    dsimp only
    split
    · rw [timer_glide]
      split <;> omega
    · exact Nat.le_refl _

theorem written_clockSweep :
    p.clockSweep.onesComplement = p.onesComplement ∧
      p.clockSweep.sweep.negate = p.sweep.negate ∧ p.clockSweep.sweep.shift = p.sweep.shift := by
  cases hon : p.sweep.enabled with
  | false =>
    rw [clockSweep_of_off hon]
    exact ⟨rfl, rfl, rfl⟩
  | true =>
    rw [clockSweep_eq hon]
    exact ⟨rfl, rfl, rfl⟩

theorem written_iterate (calls : Nat) :
    (clockSweep^[calls] p).onesComplement = p.onesComplement ∧
      (clockSweep^[calls] p).sweep.negate = p.sweep.negate ∧
      (clockSweep^[calls] p).sweep.shift = p.sweep.shift := by
  induction calls with
  | zero => exact ⟨rfl, rfl, rfl⟩
  | succ calls ih =>
    obtain ⟨hcomplement, hnegate, hshift⟩ := (clockSweep^[calls] p).written_clockSweep
    rw [Function.iterate_succ_apply', hcomplement, hnegate, hshift]
    exact ih

theorem monotone_timer (hup : p.sweep.negate = false) :
    Monotone fun calls => (clockSweep^[calls] p).timer := by
  apply monotone_nat_of_le_succ
  intro calls
  obtain ⟨-, hnegate, -⟩ := p.written_iterate calls
  rw [Function.iterate_succ_apply']
  exact timer_le_clockSweep _ (hnegate.trans hup)

theorem antitone_timer (hdown : p.sweep.negate = true) :
    Antitone fun calls => (clockSweep^[calls] p).timer := by
  apply antitone_nat_of_succ_le
  intro calls
  obtain ⟨-, hnegate, -⟩ := p.written_iterate calls
  rw [Function.iterate_succ_apply']
  exact clockSweep_le_timer _ (hnegate.trans hdown)

end

def revoice (volume : VolumeUnit) (length : LengthCounter) (p : Pulse) : Pulse :=
  { p with volume := volume, length := length }

/-- The target has left the range, and is there again whenever it is computed. -/
structure Stuck (p : Pulse) : Prop where
  computed : 0x800 ≤ p.targetOf
  kept : 0x800 ≤ p.sweep.target

theorem timer_glide_of_le {p : Pulse} (hout : 0x800 ≤ p.targetOf) : p.glide.timer = p.timer := by
  rw [timer_glide, if_neg fun hmoves => absurd hmoves.2.1 (Int.not_lt.mpr hout)]

theorem stuck_clockSweep {p : Pulse} (hon : p.sweep.enabled = true) (hdue : p.sweep.divider ≤ 1)
    (hout : 0x800 ≤ p.targetOf) : p.clockSweep.Stuck ∧ p.clockSweep.timer = p.timer := by
  rw [clockSweep_eq hon, timer_glide_of_le hout, ite_self, if_pos hdue]
  exact ⟨⟨hout, hout⟩, rfl⟩

namespace Stuck

variable {p : Pulse} (h : p.Stuck)
include h

theorem clockSweep : p.clockSweep.Stuck ∧ p.clockSweep.timer = p.timer := by
  cases hon : p.sweep.enabled with
  | false =>
    rw [clockSweep_of_off hon]
    exact ⟨h, rfl⟩
  | true =>
    rw [clockSweep_eq hon, timer_glide_of_le h.computed, ite_self]
    refine ⟨⟨h.computed, ?_⟩, rfl⟩
    dsimp only
    split
    · exact h.computed
    · exact h.kept

theorem iterate (calls : Nat) :
    (Pulse.clockSweep^[calls] p).Stuck ∧ (Pulse.clockSweep^[calls] p).timer = p.timer := by
  induction calls with
  | zero => exact ⟨h, rfl⟩
  | succ calls ih =>
    obtain ⟨hstuck, htimer⟩ := ih
    rw [Function.iterate_succ_apply']
    exact ⟨hstuck.clockSweep.1, hstuck.clockSweep.2.trans htimer⟩

theorem audible?_eq_none (volume : VolumeUnit) (length : LengthCounter) :
    (p.revoice volume length).audible? = none := by
  rw [Option.eq_none_iff_forall_ne_some]
  intro out hout
  obtain ⟨-, -, hrange, -⟩ := Pulse.audible?_eq_some.mp hout
  rw [inRange, Bool.and_eq_true, decide_eq_true_iff, decide_eq_true_iff] at hrange
  exact absurd hrange.2 (Int.not_lt.mpr h.kept)

end Stuck

/-- A call that is due and finds its target out of range is the last that could have moved the
period. -/
theorem stuck_iterate {p : Pulse} (hon : p.sweep.enabled = true) {calls later : Nat}
    (hdue : (clockSweep^[calls] p).sweep.divider ≤ 1)
    (hout : 0x800 ≤ (clockSweep^[calls] p).targetOf) (hlater : calls < later) :
    (clockSweep^[later] p).Stuck ∧
      (clockSweep^[later] p).timer = (clockSweep^[calls] p).timer := by
  obtain ⟨more, rfl⟩ := Nat.exists_eq_add_of_le' (Nat.succ_le_of_lt hlater)
  obtain ⟨hstuck, htimer⟩ := stuck_clockSweep (enabled_iterate hon calls) hdue hout
  rw [Function.iterate_add_apply, Nat.succ_eq_add_one, Function.iterate_succ_apply', ← htimer]
  exact hstuck.iterate more

/-! ## Samples -/

theorem clockSweep_revoice (p : Pulse) (volume : VolumeUnit) (length : LengthCounter) :
    (p.revoice volume length).clockSweep = p.clockSweep.revoice volume length := by
  have hglide : (p.revoice volume length).glide.timer = p.glide.timer := by
    rw [timer_glide, timer_glide]
    rfl
  cases hon : p.sweep.enabled with
  | false =>
    have hoff : (p.revoice volume length).sweep.enabled = false := hon
    rw [clockSweep_of_off hon, clockSweep_of_off hoff]
  | true =>
    have hstill : (p.revoice volume length).sweep.enabled = true := hon
    rw [clockSweep_eq hon, clockSweep_eq hstill, hglide]
    rfl

/-- A sample is a call of the sweep if it fires a half frame, and none if not. -/
theorem tick_eq (t : Tick) (p : Pulse) :
    ∃ volume length, p.tick t = (if t.half then p.clockSweep else p).revoice volume length := by
  unfold tick halfFrame
  cases t.quarter <;> cases t.half
  · exact ⟨p.volume, p.length, rfl⟩
  · exact ⟨p.volume, p.length.clock, p.clockSweep_revoice _ _⟩
  · exact ⟨p.quarterFrame.volume, p.length, rfl⟩
  · exact ⟨p.quarterFrame.volume, p.length.clock, p.clockSweep_revoice _ _⟩

end Pulse

namespace Apu

variable (a : Apu)

theorem sequencer_iterate (n : Nat) :
    (step^[n] a).sequencer = Sequencer.advance^[n] a.sequencer := by
  induction n with
  | zero => rfl
  | succ n ih =>
    rw [Function.iterate_succ_apply', Function.iterate_succ_apply', ← ih]
    rfl

/-- Samples without writes call the sweep once for each half frame that they fire. -/
theorem pulse_iterate (second : Bool) (n : Nat) :
    ∃ volume length, (step^[n] a).pulse second =
      (Pulse.clockSweep^[(a.sequencer.ticksIn n).countP Tick.half] (a.pulse second)).revoice
        volume length := by
  induction n with
  | zero => exact ⟨_, _, rfl⟩
  | succ n ih =>
    obtain ⟨volume, length, heq⟩ := ih
    have htick : (step^[n + 1] a).pulse second =
        ((step^[n] a).pulse second).tick (Sequencer.advance^[n] a.sequencer).tick := by
      rw [Function.iterate_succ_apply', ← sequencer_iterate]
      cases second <;> rfl
    obtain ⟨volume', length', hnext⟩ :=
      Pulse.tick_eq (Sequencer.advance^[n] a.sequencer).tick ((step^[n] a).pulse second)
    refine ⟨volume', length', ?_⟩
    rw [htick, hnext, heq, Sequencer.ticksIn_succ, List.countP_append, List.countP_singleton]
    cases (Sequencer.advance^[n] a.sequencer).tick.half with
    | false => rfl
    | true =>
      rw [if_pos rfl, if_pos rfl, Function.iterate_succ_apply', Pulse.clockSweep_revoice]
      rfl

end Apu

/-- A reachable pulse whose sweep is enabled, behind any number of calls of the sweep without a
write:

1. at the calls that are due, and at no other, the target becomes that of the registers, and
   the period moves there if both are in range and the shift is above zero; the period always
   fits eleven bits;
2. the period never falls, or with a negated sweep never rises;
3. once a target that was computed lies at 0x800 or above, the period stays, and the pulse is
   mute from then on, whatever its volume and its length counter are;
4. the chip's samples make as many calls as they fire half frames. -/
theorem sweep_glides {clock : Clock} {a : Apu} (h : Reachable clock a) (second : Bool)
    (hon : (a.pulse second).sweep.enabled = true) :
    let p := a.pulse second
    let behind := fun calls : Nat => Pulse.clockSweep^[calls] p
    let target := fun calls : Nat =>
      sweepTarget (!second) p.sweep.negate (behind calls).timer p.sweep.shift
    (∀ calls,
      (p.sweep.FallsDue (calls + 1) →
        (behind (calls + 1)).sweep.target = target calls ∧
        (behind (calls + 1)).timer =
          if 8 ≤ (behind calls).timer ∧ target calls < 0x800 ∧ 0 < p.sweep.shift then
            (target calls).toNat
          else (behind calls).timer) ∧
      (¬p.sweep.FallsDue (calls + 1) →
        (behind (calls + 1)).sweep.target = (behind calls).sweep.target ∧
        (behind (calls + 1)).timer = (behind calls).timer) ∧
      (behind calls).timer ≤ 0x7FF) ∧
    (p.sweep.negate = false → Monotone fun calls => (behind calls).timer) ∧
    (p.sweep.negate = true → Antitone fun calls => (behind calls).timer) ∧
    (∀ calls, p.sweep.FallsDue (calls + 1) → 0x800 ≤ target calls → ∀ later, calls < later →
      (behind later).timer = (behind calls).timer ∧
      ∀ volume length, ((behind later).revoice volume length).audible? = none) ∧
    ∀ n, ∃ volume length, (Apu.step^[n] a).pulse second =
      (behind ((a.sequencer.ticksIn n).countP Tick.half)).revoice volume length := by
  intro p behind target
  have hbounded : p.Bounded := h.bounded_pulse second
  have hcall : ∀ calls, behind (calls + 1) = (behind calls).clockSweep := fun calls =>
    Function.iterate_succ_apply' _ calls p
  have htarget : ∀ calls, (behind calls).targetOf = target calls := by
    intro calls
    obtain ⟨hcomplement, hnegate, hshift⟩ := p.written_iterate calls
    rw [(hbounded.iterate calls).targetOf_eq, hcomplement, hnegate, hshift, h.onesComplement]
  have hshift : ∀ calls, (behind calls).sweep.shift = p.sweep.shift := fun calls =>
    (p.written_iterate calls).2.2
  have hdue : ∀ calls, p.sweep.FallsDue (calls + 1) ↔ (behind calls).sweep.divider ≤ 1 :=
    Pulse.fallsDue_iff hon hbounded.sweep.divider_pos
  refine ⟨?_, ?_, ?_, ?_, a.pulse_iterate second⟩
  · intro calls
    rw [hdue, hcall, Pulse.clockSweep_eq (Pulse.enabled_iterate hon calls)]
    refine ⟨?_, ?_, (hbounded.iterate calls).timer⟩
    · intro hnow
      dsimp only
      rw [if_pos hnow, if_pos hnow, Pulse.timer_glide, htarget, hshift]
      exact ⟨rfl, rfl⟩
    · intro hnow
      exact ⟨if_neg hnow, if_neg hnow⟩
  · exact p.monotone_timer
  · exact p.antitone_timer
  · intro calls hnow hout later hlater
    obtain ⟨hmute, hstays⟩ :=
      Pulse.stuck_iterate hon ((hdue calls).mp hnow) (htarget calls ▸ hout) hlater
    exact ⟨hstays, hmute.audible?_eq_none⟩

/-- The first pulse, at period 0x100 with a sweep that adds half of it at every second call:
behind eleven calls it has gone as far as it can. -/
theorem sweep_glides_rising :
    ∃ a, Reachable .ntsc a ∧ (a.pulse false).sweep.enabled = true ∧
      (a.pulse false).sweep.reload = true ∧ (a.pulse false).timer = 0x100 ∧
      (a.pulse false).audible? = some 15 ∧
      (Pulse.clockSweep^[9] (a.pulse false)).timer = 1944 ∧
      (Pulse.clockSweep^[10] (a.pulse false)).audible? = some 15 ∧
      ∀ later, 10 < later → (Pulse.clockSweep^[later] (a.pulse false)).timer = 1944 ∧
        ∀ volume length,
          ((Pulse.clockSweep^[later] (a.pulse false)).revoice volume length).audible? = none := by
  let writes : List ParamWrite :=
    [.place .pulse1 .constantVolume 1 0, .place .pulse1 .volume 15 0,
      .place .pulse1 .sweepPeriod 1 0, .place .pulse1 .sweepShift 1 0,
      .place .pulse1 .sweepEnable 1 0, .place .pulse1 .timerLow 0 0,
      .place .pulse1 .lengthLoad 0 0, .place .pulse1 .timerHigh 1 0]
  have hreach : Reachable .ntsc ((Apu.new .ntsc).step.setAll writes) :=
    Reachable.new.step.setAll (by decide)
  have hon : (((Apu.new .ntsc).step.setAll writes).pulse false).sweep.enabled = true := rfl
  obtain ⟨-, -, -, hmute, -⟩ := sweep_glides hreach false hon
  have hdue : (((Apu.new .ntsc).step.setAll writes).pulse false).sweep.FallsDue 11 := .inr ⟨4, rfl⟩
  refine ⟨_, hreach, hon, rfl, rfl, by decide +kernel, by decide +kernel, by decide +kernel, ?_⟩
  intro later hlater
  obtain ⟨htimer, hnone⟩ := hmute 10 hdue (by decide +kernel) later hlater
  exact ⟨htimer.trans (by decide +kernel), hnone⟩

end ApuScore

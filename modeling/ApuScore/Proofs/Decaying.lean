import ApuScore.Proofs.Gating
import ApuScore.Proofs.Gliding
import ApuScore.Proofs.Repeats
/-
  How an envelope decays.

  A quarter frame that restarts the envelope does not count in a round of the divider. Every
  other one counts the divider up, and the decay level drops where it passes the period. This
  file

  1. says all that one quarter frame does where the divider's byte does not wrap (`clock_eq`),
     and that whatever it finds, it leaves the divider at most at its period
     (`divider_clock_le`);
  2. follows a restarted envelope through one round of its divider and through any number of
     rounds (`iterate_within`, `iterate_rounds`), and reads the level off the rounds
     (`nextDecay_iterate`, `clock_iterate`);
  3. runs an envelope through quarter frames whose period, looping flag and restart differ
     (`Envelope.run`);
  4. shows that samples without writes do to the envelopes of the chip what as many quarter
     frames do as they fire (`Apu.volume_iterate`);
  5. puts these together (`envelope_decays`).
-/

namespace ApuScore

namespace Envelope

/-! ## One quarter frame -/

section

variable {e : Envelope} {period : Nat}

theorem clock_start (hstart : e.start = true) (looping : Bool) :
    e.clock period looping = { start := false, divider := 0, decay := 15 } :=
  if_pos hstart

/-- All that a quarter frame does to an envelope that is not restarted. -/
theorem clock_eq (hidle : e.start = false) (hbyte : e.divider ≤ 254) (looping : Bool) :
    e.clock period looping =
      if e.divider < period then { e with divider := e.divider + 1 }
      else { e with divider := 0, decay := nextDecay looping e.decay } := by
  have hfits : (e.divider + 1) % 256 = e.divider + 1 := Nat.mod_eq_of_lt (by omega)
  rw [clock, hidle, if_neg Bool.false_ne_true]
  dsimp only
  rw [hfits]
  by_cases hbelow : e.divider < period
  · rw [if_pos hbelow, if_neg (by omega)]
  · rw [if_neg hbelow, if_pos (by omega)]

/-- The divider is compared behind its count, so not even a wrapped byte or a period that was
lowered leaves it above the period. -/
theorem divider_clock_le (e : Envelope) (period : Nat) (looping : Bool) :
    (e.clock period looping).divider ≤ period := by
  unfold clock
  split
  · exact Nat.zero_le period
  · dsimp only
    split
    · exact Nat.zero_le period
    · rename_i hle
      exact Nat.not_lt.mp hle

end

/-! ## Rounds of the divider -/

section

variable {period : Nat} (hperiod : period ≤ 254) (looping : Bool) (decay : Nat)
include hperiod

theorem iterate_within {count : Nat} (hcount : count ≤ period) :
    (clock period looping)^[count] ⟨false, 0, decay⟩ = ⟨false, count, decay⟩ := by
  induction count with
  | zero => rfl
  | succ count ih =>
    have hbelow : count < period := hcount
    rw [Function.iterate_succ_apply', ih (Nat.le_of_lt hbelow),
      clock_eq rfl (Nat.le_trans (Nat.le_of_lt hbelow) hperiod), if_pos hbelow]

theorem iterate_round :
    (clock period looping)^[period + 1] ⟨false, 0, decay⟩ =
      ⟨false, 0, nextDecay looping decay⟩ := by
  rw [Function.iterate_succ_apply', iterate_within hperiod looping decay (Nat.le_refl period),
    clock_eq rfl hperiod, if_neg (Nat.lt_irrefl period)]

theorem iterate_rounds (drops : Nat) :
    (clock period looping)^[(period + 1) * drops] ⟨false, 0, decay⟩ =
      ⟨false, 0, (nextDecay looping)^[drops] decay⟩ := by
  induction drops with
  | zero => rfl
  | succ drops ih =>
    rw [Nat.mul_succ, Nat.add_comm, Function.iterate_add_apply, ih,
      iterate_round hperiod, Function.iterate_succ_apply']

end

/-- The level behind any number of decay steps: a looping envelope goes through sixteen levels
over and over, and one that does not loop stays at zero. -/
theorem nextDecay_iterate (looping : Bool) (drops : Nat) :
    (nextDecay looping)^[drops] 15 = 15 - (if looping then drops % 16 else min drops 15) := by
  induction drops with
  | zero => cases looping <;> rfl
  | succ drops ih =>
    rw [Function.iterate_succ_apply', ih, nextDecay]
    cases looping with
    | false =>
      simp only [Bool.false_eq_true, if_false]
      split <;> omega
    | true =>
      simp only [if_true]
      split <;> omega

theorem clock_iterate {e : Envelope} (hstart : e.start = true) {period : Nat}
    (hperiod : period ≤ 254) (looping : Bool) (n : Nat) :
    (clock period looping)^[n + 1] e =
      { start := false
        divider := n % (period + 1)
        decay := (nextDecay looping)^[n / (period + 1)] 15 } := by
  have hcount : n % (period + 1) ≤ period := Nat.le_of_lt_succ (Nat.mod_lt n period.succ_pos)
  calc (clock period looping)^[n + 1] e
      = (clock period looping)^[n] ⟨false, 0, 15⟩ := by
        rw [Function.iterate_succ_apply, clock_start hstart]
    _ = (clock period looping)^[n % (period + 1)]
          ((clock period looping)^[(period + 1) * (n / (period + 1))] ⟨false, 0, 15⟩) := by
        rw [← Function.iterate_add_apply, Nat.mod_add_div]
    _ = ⟨false, n % (period + 1), (nextDecay looping)^[n / (period + 1)] 15⟩ := by
        rw [iterate_rounds hperiod, iterate_within hperiod looping _ hcount]

/-! ## Quarter frames that differ -/

/-- What an envelope meets at a quarter frame. -/
structure QuarterFrame where
  /-- Whether the envelope was told to restart since the quarter frame before. -/
  restart : Bool
  period : Nat
  looping : Bool

def meet (e : Envelope) (f : QuarterFrame) : Envelope :=
  { e with start := e.start || f.restart }.clock f.period f.looping

def run (e : Envelope) (frames : List QuarterFrame) : Envelope :=
  frames.foldl meet e

theorem run_concat (e : Envelope) (frames : List QuarterFrame) (f : QuarterFrame) :
    e.run (frames ++ [f]) = (e.run frames).meet f := by
  rw [run, List.foldl_append]
  rfl

theorem divider_meet_le (e : Envelope) (f : QuarterFrame) : (e.meet f).divider ≤ f.period :=
  divider_clock_le _ _ _

theorem divider_run_le {e : Envelope} (he : e.divider ≤ 15) {frames : List QuarterFrame}
    (hperiod : ∀ f ∈ frames, f.period ≤ 15) : (e.run frames).divider ≤ 15 := by
  cases frames using List.reverseRecOn with
  | nil => exact he
  | append_singleton frames f =>
    rw [run_concat]
    exact Nat.le_trans (divider_meet_le _ f)
      (hperiod f (List.mem_append_right _ List.mem_cons_self))

end Envelope

/-! ## Samples -/

/-- The voices with an envelope. -/
inductive EnvelopeVoice where
  | pulse (second : Bool)
  | noise
  deriving DecidableEq, Repr

def EnvelopeVoice.voice : EnvelopeVoice → Voice
  | .pulse second => pulseVoice second
  | .noise => .noise

theorem Pulse.volume_clockSweep (p : Pulse) : p.clockSweep.volume = p.volume := by
  cases hon : p.sweep.enabled with
  | false => rw [clockSweep_of_off hon]
  | true => rw [clockSweep_eq hon]

theorem Pulse.volume_tick (p : Pulse) (t : Tick) :
    (p.tick t).volume = if t.quarter then p.volume.clock p.length.halt else p.volume := by
  unfold tick halfFrame
  cases t.quarter <;> cases t.half
  · rfl
  · exact volume_clockSweep _
  · rfl
  · exact volume_clockSweep _

theorem Noise.volume_tick (n : Noise) (t : Tick) :
    (n.tick t).volume = if t.quarter then n.volume.clock n.length.halt else n.volume := by
  unfold tick
  cases t.quarter <;> cases t.half <;> rfl

namespace Apu

def volume (a : Apu) : EnvelopeVoice → VolumeUnit
  | .pulse second => (a.pulse second).volume
  | .noise => a.noise.volume

/-- Whether a voice's envelope loops: its flag is the one that halts the length counter. -/
def loops (a : Apu) (v : EnvelopeVoice) : Bool := (a.counter v.voice).halt

variable (a : Apu) (v : EnvelopeVoice)

theorem volume_step :
    a.step.volume v = if a.nextTick.quarter then (a.volume v).clock (a.loops v)
      else a.volume v := by
  match v with
  | .pulse false => exact a.pulse1.volume_tick a.nextTick
  | .pulse true => exact a.pulse2.volume_tick a.nextTick
  | .noise => exact a.noise.volume_tick a.nextTick

theorem loops_step : a.step.loops v = a.loops v := by
  rw [loops, counter_step]
  split
  · exact LengthCounter.halt_clock _
  · rfl

/-- Samples without writes clock an envelope once for each quarter frame that they fire, always
with the same period and flag. -/
theorem volume_iterate (n : Nat) :
    (step^[n] a).loops v = a.loops v ∧
      (step^[n] a).volume v =
        { a.volume v with
          envelope := (Envelope.clock (a.volume v).level.toNat (a.loops v))^[
            (a.sequencer.ticksIn n).countP Tick.quarter] (a.volume v).envelope } := by
  induction n with
  | zero => exact ⟨rfl, rfl⟩
  | succ n ih =>
    obtain ⟨hloops, hvolume⟩ := ih
    have htick : (step^[n] a).nextTick = (Sequencer.advance^[n] a.sequencer).tick := by
      rw [nextTick, sequencer_iterate]
    rw [Function.iterate_succ_apply', loops_step, volume_step, hloops, hvolume, htick,
      Sequencer.ticksIn_succ, List.countP_append, List.countP_singleton]
    refine ⟨rfl, ?_⟩
    cases (Sequencer.advance^[n] a.sequencer).tick.quarter with
    | false => rfl
    | true =>
      rw [if_pos rfl, if_pos rfl, Function.iterate_succ_apply']
      rfl

end Apu

theorem Reachable.bounded_volume {clock : Clock} {a : Apu} (h : Reachable clock a)
    (v : EnvelopeVoice) : (a.volume v).Bounded := by
  cases v with
  | pulse second => exact (h.bounded_pulse second).volume
  | noise => exact h.bounded.noise.volume

/-- The law of the envelope:

1. behind a restart and a period and a flag that stay, the level has dropped once for each
   round of the divider, down to zero or, if the envelope loops, from zero to 15 again, and the
   divider is what is left of a round;
2. from a divider of four bits, with periods of four bits, flags and restarts that differ from
   one quarter frame to the next, the divider's byte never wraps, and each quarter frame leaves
   the divider at most at the period that it met;
3. the periods and the dividers of a reachable chip have four bits, so each of its quarter
   frames leaves the divider at most at the period, whatever was written in between;
4. the chip's samples make as many calls, with the level register for a period, as they fire
   quarter frames. -/
theorem envelope_decays :
    (∀ (e : Envelope) (period : Nat) (looping : Bool) (n : Nat),
      e.start = true → period ≤ 15 → 1 ≤ n →
        let drops := (n - 1) / (period + 1)
        let behind := (Envelope.clock period looping)^[n] e
        behind.decay = 15 - (if looping then drops % 16 else min drops 15) ∧
          behind.divider = (n - 1) % (period + 1)) ∧
    (∀ (e : Envelope) (before : List Envelope.QuarterFrame) (f : Envelope.QuarterFrame),
      e.divider ≤ 15 → (∀ b ∈ before, b.period ≤ 15) →
        (e.run before).NoWrap ∧ (e.run (before ++ [f])).divider ≤ f.period) ∧
    ∀ (clock : Clock) (a : Apu), Reachable clock a → ∀ v : EnvelopeVoice,
      (a.volume v).level.toNat ≤ 15 ∧ (a.volume v).envelope.divider ≤ 15 ∧
      (a.nextTick.quarter = true →
        (a.step.volume v).envelope.divider ≤ (a.volume v).level.toNat) ∧
      ∀ n, (Apu.step^[n] a).volume v =
        { a.volume v with
          envelope := (Envelope.clock (a.volume v).level.toNat (a.loops v))^[
            (a.sequencer.ticksIn n).countP Tick.quarter] (a.volume v).envelope } := by
  refine ⟨?_, ?_, ?_⟩
  · intro e period looping n hstart hperiod hn
    obtain ⟨n, rfl⟩ := Nat.exists_eq_add_of_le' hn
    have hbehind := Envelope.clock_iterate hstart (Nat.le_trans hperiod (by decide)) looping n
    dsimp only
    rw [hbehind, Nat.add_sub_cancel, Envelope.nextDecay_iterate]
    exact ⟨rfl, rfl⟩
  · intro e before f he hbefore
    have hdivider : (e.run before).divider ≤ 15 := Envelope.divider_run_le he hbefore
    rw [Envelope.run_concat]
    exact ⟨Nat.mod_eq_of_lt (by omega), Envelope.divider_meet_le _ f⟩
  · intro clock a h v
    have hbounded := h.bounded_volume v
    refine ⟨hbounded.level, hbounded.envelope.divider, ?_, fun n => (a.volume_iterate v n).2⟩
    intro hquarter
    rw [Apu.volume_step, if_pos hquarter]
    exact Envelope.divider_clock_le _ _ _

/-- A second behind the restart of a looping envelope with period 5, which is 240 quarter frames:
the level has dropped 39 times, past zero twice. And a period that is lowered below the divider. -/
theorem envelope_decays_looping :
    (∃ a, Reachable .ntsc a ∧ (a.volume (.pulse false)).envelope.start = true ∧
      (a.volume (.pulse false)).level = 5 ∧ a.loops (.pulse false) = true ∧
      ((Apu.step^[44100] a).volume (.pulse false)).envelope.decay = 8 ∧
      ((Apu.step^[44100] a).volume (.pulse false)).envelope.divider = 5) ∧
    (Envelope.run { divider := 12 } [⟨false, 15, false⟩]).divider = 13 ∧
    (Envelope.run { divider := 12 } [⟨false, 15, false⟩]).NoWrap ∧
    (Envelope.run { divider := 12 } ([⟨false, 15, false⟩] ++ [⟨false, 3, true⟩])).divider ≤ 3 := by
  obtain ⟨hlaw, hruns, hchip⟩ := envelope_decays
  refine ⟨?_, rfl, hruns { divider := 12 } [⟨false, 15, false⟩] ⟨false, 3, true⟩ (by decide)
    (by decide)⟩
  let writes : List ParamWrite :=
    [.place .pulse1 .lengthHalt 1 0, .place .pulse1 .volume 5 0, .place .pulse1 .lengthLoad 0 0,
      .place .frameCounter .frameMode 0 0]
  let a := (Apu.new .ntsc).step.setAll writes
  have hreach : Reachable .ntsc a := Reachable.new.step.setAll (by decide)
  have hstarts : a.sequencer.Starts := .select false _
  have hquarters : (a.sequencer.ticksIn 44100).countP Tick.quarter = 240 := by
    rw [hstarts.quarters_eq 44099, hstarts.stepsIn_eq (by decide)]
    decide
  obtain ⟨hdecay, hdivider⟩ :=
    hlaw (a.volume (.pulse false)).envelope 5 true 240 rfl (by decide) (by decide)
  refine ⟨a, hreach, rfl, rfl, rfl, ?_, ?_⟩
  · rw [(hchip .ntsc a hreach (.pulse false)).2.2.2 44100, hquarters]
    exact hdecay
  · rw [(hchip .ntsc a hreach (.pulse false)).2.2.2 44100, hquarters]
    exact hdivider

end ApuScore

import Mathlib.Algebra.Order.Floor.Div
import Mathlib.Logic.Function.Iterate
import ApuScore.Proofs.Bounds
/-
  How many frames the sequencer fires, for any number of samples.

  The sequencer adds the rate to its phase at every sample and takes the sample rate off
  for a step. So the phase and the steps together are the rate times the samples, and no
  rounding enters. This file

  1. proves what one sample does to the phase and to the count of steps
     (`balance_advance`, `steps_advance`) and what a run of samples does
     (`balance_iterate`, `steps_iterate`);
  2. reads the count of steps off the balance, as a quotient (`stepsIn_eq`);
  3. counts the quarter and half frames by the steps, with those that a selected mode adds
     (`quarters_eq`, `halves_eq`);
  4. puts these together for every start, power-on or a selected mode (`ticks_exact`).
-/

namespace ApuScore

namespace Sequencer

/-- How many of the next `n` samples complete a step. -/
def stepsIn (n : Nat) (s : Sequencer) : Nat :=
  (List.range n).countP fun i => (advance^[i] s).steps?

/-- What fires at the next `n` samples. -/
def ticksIn (n : Nat) (s : Sequencer) : List Tick :=
  (List.range n).map fun i => (advance^[i] s).tick

/-- A sequencer at power-on, or one whose mode was selected just now. -/
inductive Starts : Sequencer → Prop where
  | new (region : Region) : Starts { region := region }
  | select (fiveStep : Bool) (s : Sequencer) : Starts (s.select fiveStep)

/-! ## One sample -/

section

variable (s : Sequencer)

theorem rate_pos : 0 < s.rate := by
  unfold rate
  split <;> omega

theorem rate_advance : s.advance.rate = s.rate := by
  have hregion : s.advance.region = s.region := by unfold advance; split <;> rfl
  have hmode : s.advance.fiveStep = s.fiveStep := by unfold advance; split <;> rfl
  rw [rate, hregion, hmode, rate]

theorem selected_advance : s.advance.selected = false := by
  unfold advance
  split <;> rfl

theorem steps_advance : s.advance.steps = s.steps + if s.steps? then 1 else 0 := by
  unfold advance
  split <;> rfl

/-- A step takes off the phase what it counts. -/
theorem balance_advance :
    s.advance.phase + sampleRate * s.advance.steps =
      s.phase + sampleRate * s.steps + s.rate := by
  unfold advance
  split
  · rename_i hstep
    rw [steps?, decide_eq_true_iff] at hstep
    dsimp only
    rw [Nat.mul_succ]
    omega
  · dsimp only
    omega

/-- A step fires only above the sample rate, so some phase is left. -/
theorem phase_advance_pos : 0 < s.advance.phase := by
  have hrate := s.rate_pos
  unfold advance
  split
  · rename_i hstep
    rw [steps?, decide_eq_true_iff] at hstep
    dsimp only
    omega
  · dsimp only
    omega

/-! ## Runs of samples -/

theorem rate_iterate (n : Nat) : (advance^[n] s).rate = s.rate := by
  induction n with
  | zero => rfl
  | succ n ih => rw [Function.iterate_succ_apply', rate_advance, ih]

theorem selected_iterate_succ (n : Nat) : (advance^[n + 1] s).selected = false := by
  rw [Function.iterate_succ_apply', selected_advance]

theorem stepsIn_succ (n : Nat) :
    s.stepsIn (n + 1) = s.stepsIn n + if (advance^[n] s).steps? then 1 else 0 := by
  rw [stepsIn, List.range_succ, List.countP_append, List.countP_singleton, stepsIn]

theorem steps_iterate (n : Nat) : (advance^[n] s).steps = s.steps + s.stepsIn n := by
  induction n with
  | zero => rfl
  | succ n ih =>
    rw [Function.iterate_succ_apply', steps_advance, ih, stepsIn_succ, Nat.add_assoc]

/-- The phase that is left and the steps that fired make up the rate at every sample. -/
theorem balance_iterate (n : Nat) :
    (advance^[n] s).phase + sampleRate * s.stepsIn n = s.phase + n * s.rate := by
  suffices hsteps : (advance^[n] s).phase + sampleRate * (advance^[n] s).steps =
      s.phase + sampleRate * s.steps + n * s.rate by
    rw [steps_iterate, Nat.mul_add] at hsteps
    omega
  induction n with
  | zero => simp
  | succ n ih =>
    rw [Function.iterate_succ_apply', balance_advance, rate_iterate, ih, Nat.succ_mul,
      Nat.add_assoc]

theorem phase_iterate_pos {n : Nat} (hn : 1 ≤ n) : 1 ≤ (advance^[n] s).phase := by
  obtain ⟨n, rfl⟩ := Nat.exists_eq_add_of_le' hn
  rw [Function.iterate_succ_apply']
  exact phase_advance_pos _

theorem ticksIn_succ (n : Nat) : s.ticksIn (n + 1) = s.ticksIn n ++ [(advance^[n] s).tick] := by
  rw [ticksIn, List.range_succ, List.map_append, ticksIn]
  rfl

end

theorem Bounded.iterate {s : Sequencer} (h : s.Bounded) (n : Nat) :
    (Sequencer.advance^[n] s).Bounded := by
  induction n with
  | zero => exact h
  | succ n ih =>
    rw [Function.iterate_succ_apply']
    exact ih.advance

/-! ## Counts from a start -/

namespace Starts

variable {s : Sequencer} (h : s.Starts)
include h

theorem phase : s.phase = 0 := by
  cases h <;> rfl

theorem steps : s.steps = 0 := by
  cases h <;> rfl

/-- The first sample completes no step, so it fires what the selected mode asks for. -/
theorem steps?_eq : s.steps? = false := by
  have hrate := s.rate_le
  rw [steps?, h.phase, sampleRate, decide_eq_false_iff_not]
  omega

theorem tick_eq : s.tick = ⟨s.selected, s.selected⟩ := by
  rw [tick, h.steps?_eq, Bool.false_and, Bool.or_false]

theorem phase_iterate_le (n : Nat) : (advance^[n] s).phase ≤ sampleRate := by
  have hbounded : s.Bounded := ⟨h.phase ▸ Nat.zero_le _⟩
  exact (hbounded.iterate n).phase

/-- A phase above zero and at most the sample rate leaves one count of steps. -/
theorem stepsIn_eq {n : Nat} (hn : 1 ≤ n) :
    s.stepsIn n = n * s.rate ⌈/⌉ sampleRate - 1 := by
  have hbalance := s.balance_iterate n
  have hpos := s.phase_iterate_pos hn
  have hle := h.phase_iterate_le n
  rw [h.phase] at hbalance
  rw [Nat.ceilDiv_eq_add_pred_div]
  unfold sampleRate at *
  omega

theorem quarters_eq (n : Nat) :
    (s.ticksIn (n + 1)).countP Tick.quarter =
      s.stepsIn (n + 1) + if s.selected then 1 else 0 := by
  induction n with
  | zero =>
    show List.countP Tick.quarter [s.tick] = s.stepsIn 1 + _
    rw [List.countP_singleton, h.tick_eq, stepsIn_succ]
    simp [stepsIn, h.steps?_eq]
  | succ n ih =>
    have hquarter : (advance^[n + 1] s).tick.quarter = (advance^[n + 1] s).steps? := by
      rw [tick, selected_iterate_succ, Bool.false_or]
    rw [ticksIn_succ, List.countP_append, List.countP_singleton, ih, s.stepsIn_succ (n + 1),
      hquarter, Nat.add_right_comm]

/-- Every second step is a half frame, and the first is not. -/
theorem halves_eq (n : Nat) :
    (s.ticksIn (n + 1)).countP Tick.half =
      s.stepsIn (n + 1) / 2 + if s.selected then 1 else 0 := by
  induction n with
  | zero =>
    show List.countP Tick.half [s.tick] = s.stepsIn 1 / 2 + _
    rw [List.countP_singleton, h.tick_eq, stepsIn_succ]
    simp [stepsIn, h.steps?_eq]
  | succ n ih =>
    have hsteps := s.steps_iterate (n + 1)
    rw [h.steps, Nat.zero_add] at hsteps
    have hhalf : (advance^[n + 1] s).tick.half =
        ((advance^[n + 1] s).steps? && s.stepsIn (n + 1) % 2 == 1) := by
      simp only [tick, hsteps, selected_iterate_succ, Bool.false_or]
    rw [ticksIn_succ, List.countP_append, List.countP_singleton, ih, s.stepsIn_succ (n + 1), hhalf]
    cases (advance^[n + 1] s).steps? with
    | false => simp
    | true =>
      rw [Bool.true_and, if_pos rfl]
      by_cases hodd : s.stepsIn (n + 1) % 2 = 1
      · rw [if_pos (beq_iff_eq.mpr hodd)]
        omega
      · rw [if_neg (mt beq_iff_eq.mp hodd)]
        omega

end Starts

/-- From power-on or a selected mode on, in either region and either mode, behind `n` samples:

1. `n` times the rate over the sample rate, rounded up, is one more than the steps that have
   fired; what the steps leave of `n` times the rate is the phase, so the dates never drift;
2. the phase is above zero and at most the sample rate, so no step is left for a later sample,
   and one sample fires one step at most;
3. every step was a quarter frame and every second one a half frame; a selected mode fired one
   more of each, at its first sample. -/
theorem ticks_exact {s : Sequencer} (h : s.Starts) {n : Nat} (hn : 1 ≤ n) :
    s.stepsIn n = n * s.rate ⌈/⌉ sampleRate - 1 ∧
    sampleRate * s.stepsIn n + (advance^[n] s).phase = n * s.rate ∧
    1 ≤ (advance^[n] s).phase ∧ (advance^[n] s).phase ≤ sampleRate ∧
    s.stepsIn (n + 1) ≤ s.stepsIn n + 1 ∧
    s.tick = ⟨s.selected, s.selected⟩ ∧
    (s.ticksIn n).countP Tick.quarter = s.stepsIn n + (if s.selected then 1 else 0) ∧
    (s.ticksIn n).countP Tick.half = s.stepsIn n / 2 + (if s.selected then 1 else 0) := by
  have hbalance := s.balance_iterate n
  rw [h.phase, Nat.zero_add, Nat.add_comm] at hbalance
  have hone : s.stepsIn (n + 1) ≤ s.stepsIn n + 1 := by
    rw [stepsIn_succ]
    split <;> omega
  refine ⟨h.stepsIn_eq hn, hbalance, s.phase_iterate_pos hn, h.phase_iterate_le n, hone, h.tick_eq,
    ?_⟩
  obtain ⟨n, rfl⟩ := Nat.exists_eq_add_of_le' hn
  exact ⟨h.quarters_eq n, h.halves_eq n⟩

/-- Ten seconds of the five-step mode, selected a thousand samples behind power-on: the phase has
come to the sample rate itself, so the last step is still to fire. -/
theorem ticks_exact_pal :
    let s := select true { region := .pal, phase := 23600, steps := 4 }
    s.Starts ∧ s.stepsIn 441000 = 1599 ∧ (advance^[441000] s).phase = sampleRate ∧
      (s.ticksIn 441000).countP Tick.quarter = 1600 ∧
      (s.ticksIn 441000).countP Tick.half = 800 := by
  intro s
  have hstarts : s.Starts := .select true _
  obtain ⟨hsteps, hphase, -, -, -, -, hquarter, hhalf⟩ :=
    ticks_exact hstarts (show 1 ≤ 441000 by decide)
  have hrate : s.rate = 160 := rfl
  have hceil : 441000 * 160 ⌈/⌉ sampleRate = 1600 := by decide
  have hselected : s.selected = true := rfl
  rw [hrate, hceil] at hsteps
  rw [hsteps, hrate, sampleRate] at hphase
  rw [hsteps, hselected] at hquarter hhalf
  exact ⟨hstarts, hsteps, by unfold sampleRate; omega, hquarter, hhalf⟩

end Sequencer

end ApuScore

import ApuScore.Proofs.Runs
import ApuScore.Proofs.Spans
/-
  How long a scribed score takes.

  A score waits once behind every frame and once more if samples are left, so its waits
  add up to its length whatever its rate is. This file

  1. adds up the waits of spans (`totalSamples_spanSteps`) and of frame ends, which are
     capped at the length and never go back (`waitsTo_spec`);
  2. concludes that the waits of a score add up to its sample count, or to its number of
     frames if it is at the sample rate and has more frames than samples
     (`totalSamples_scribe`).
-/

namespace ApuScore

def waitSum (waits : List Nat) : Nat := waits.foldr (fun n total => n + total) 0

theorem waitSum_append (front rest : List Nat) :
    waitSum (front ++ rest) = waitSum front + waitSum rest := by
  induction front with
  | nil => exact (Nat.zero_add _).symm
  | cons n front ih =>
    rw [waitSum] at ih ⊢
    rw [List.cons_append, List.foldr_cons, ih, ← Nat.add_assoc]
    rfl

theorem waitSum_reverse (waits : List Nat) : waitSum waits.reverse = waitSum waits := by
  induction waits with
  | nil => rfl
  | cons n waits ih =>
    rw [List.reverse_cons, waitSum_append, ih, Nat.add_comm]
    rfl

theorem waitSum_replicate_one (count : Nat) : waitSum (List.replicate count 1) = count := by
  induction count with
  | zero => rfl
  | succ count ih =>
    rw [List.replicate_succ, waitSum, List.foldr_cons, ← waitSum, ih, Nat.add_comm]

theorem le_waitSum {waits : List Nat} {n : Nat} (h : n ∈ waits) : n ≤ waitSum waits := by
  induction waits with
  | nil => cases h
  | cons m waits ih =>
    rw [waitSum, List.foldr_cons, ← waitSum]
    rcases List.mem_cons.mp h with rfl | h
    · exact Nat.le_add_right _ _
    · exact Nat.le_trans (ih h) (Nat.le_add_left _ _)

theorem map_mod_eq {waits : List Nat} (h : waitSum waits ≤ 0xFFFFFFFF) :
    waits.map (· % 0x100000000) = waits := by
  rw [List.map_congr_left, List.map_id]
  intro n hn
  exact Nat.mod_eq_of_lt (Nat.lt_succ_of_le (Nat.le_trans (le_waitSum hn) h))

theorem totalSamples_spanSteps (before : Frame) (spans : List (Frame × Nat)) :
    totalSamples (spanSteps before spans) = waitSum (spans.map Prod.snd) := by
  induction spans generalizing before with
  | nil => rfl
  | cons span rest ih =>
    obtain ⟨f, n⟩ := span
    have hacts : totalSamples ((frameWrites before f).map Step.act) = 0 := totalSamples_acts _
    rw [spanSteps, totalSamples_append, hacts, totalSamples_cons, ih, Nat.zero_add]
    rfl

namespace RawScore

/-- The waits to ascending or other ends reach what they add up to, and no more than the
total. -/
theorem waitsTo_spec (total : Nat) (ends : List Nat) :
    waitSum (waitsTo total ends).1 = (waitsTo total ends).2 ∧ (waitsTo total ends).2 ≤ total := by
  have hfold : ∀ r : Nat × List Nat, waitSum r.2 = r.1 → r.1 ≤ total →
      let r' := ends.foldl (fun (s : Nat × List Nat) stop =>
        let wait := min stop total - s.1
        (s.1 + wait, wait :: s.2)) r
      waitSum r'.2 = r'.1 ∧ r'.1 ≤ total := by
    induction ends with
    | nil => exact fun r hsum hle => ⟨hsum, hle⟩
    | cons stop ends ih =>
      intro r hsum hle
      refine ih _ ?_ ?_
      · rw [waitSum, List.foldr_cons, ← waitSum, hsum, Nat.add_comm]
      · dsimp only
        omega
  rw [waitsTo, waitSum_reverse]
  exact hfold (0, []) rfl (Nat.zero_le total)

theorem waits_spec (s : RawScore) :
    waitSum s.waits.1 = s.waits.2 ∧
      if isSampleRate s.rate then s.waits.2 = s.frames.length else s.waits.2 ≤ s.sampleCount := by
  unfold waits
  dsimp only
  split
  · exact ⟨waitSum_replicate_one _, rfl⟩
  · exact waitsTo_spec _ _

theorem map_waits_mod (s : RawScore) (hcount : s.sampleCount ≤ 0xFFFFFFFF) :
    s.waits.1.map (· % 0x100000000) = s.waits.1 := by
  obtain ⟨hsum, hreached⟩ := s.waits_spec
  by_cases hnative : isSampleRate s.rate = true
  · simp [waits, hnative]
  · rw [if_neg hnative] at hreached
    apply map_mod_eq
    rw [hsum]
    exact Nat.le_trans hreached hcount

/-- The waits of a score add up to its sample count; at the sample rate they add up to
its number of frames if that is more. -/
theorem totalSamples_scribe (s : RawScore) (hcount : s.sampleCount ≤ 0xFFFFFFFF) :
    totalSamples (opening.map .act ++ s.frameSteps) =
      if isSampleRate s.rate then max s.frames.length s.sampleCount else s.sampleCount := by
  obtain ⟨hsum, hreached⟩ := s.waits_spec
  have hopening : totalSamples (opening.map Step.act) = 0 := totalSamples_acts _
  have hsecond : (s.frames.zip s.waits.1).map Prod.snd = s.waits.1 :=
    List.map_snd_zip (Nat.le_of_eq s.length_waits)
  have hall : totalSamples (opening.map .act ++ s.frameSteps) = max s.waits.2 s.sampleCount := by
    rw [totalSamples_append, hopening, s.frameSteps_eq, totalSamples_spanSteps, spans,
      s.map_waits_mod hcount, List.map_append, waitSum_append, hsecond, hsum]
    split
    · -- what is left is the last wait
      show 0 + (_ + ((s.sampleCount - s.waits.2) % 0x100000000 + 0)) = _
      omega
    · show 0 + (_ + 0) = _
      omega
  by_cases hnative : isSampleRate s.rate = true
  · rw [if_pos hnative] at hreached ⊢
    rw [hall, hreached]
  · rw [if_neg hnative] at hreached ⊢
    rw [hall, Nat.max_eq_right hreached]

end RawScore

end ApuScore

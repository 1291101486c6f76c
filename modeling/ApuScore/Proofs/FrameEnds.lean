import Mathlib.Data.Finset.Lattice.Fold
import Mathlib.Data.Finset.Range
import Mathlib.Order.Lattice.Nat
import ApuScore.Proofs.Lengths
/-
  Where the frames of a scribed score end.

  The scribe goes from one frame end to the next and takes what it is given for an end: it
  may lie behind the score, or before an end that it has reached. This file

  1. shows that behind so many ends, whatever they are, the scribe has reached the last of
     them that lies within the score (`reached_waitsTo`, `startOf_waitsTo`);
  2. shows that what a score waits is written in full, once behind the writes of each frame
     and once more for the samples that are left (`scribe_eq`);
  3. puts both together: no sample of a score is lost, whatever its rate is
     (`scribe_accounts`).
-/

namespace ApuScore

theorem startOf_length (waits : List Nat) : startOf waits waits.length = waitSum waits := by
  rw [startOf, List.take_length, waitSum]

theorem startOf_append_of_le {waits : List Nat} {i : Nat} (h : i ≤ waits.length)
    (rest : List Nat) : startOf (waits ++ rest) i = startOf waits i := by
  rw [startOf, List.take_append_of_le_length h, startOf]

namespace RawScore

/-! ## Ends of any kind -/

theorem waitsTo_concat (total : Nat) (ends : List Nat) (stop : Nat) :
    waitsTo total (ends ++ [stop]) =
      ((waitsTo total ends).1 ++ [min stop total - (waitsTo total ends).2],
        (waitsTo total ends).2 + (min stop total - (waitsTo total ends).2)) := by
  simp [waitsTo, List.foldl_append]

/-- The scribe reaches the last of the ends, those behind the score counted as its end. -/
theorem reached_waitsTo (total : Nat) (stop : Nat → Nat) (count : Nat) :
    (waitsTo total ((List.range count).map stop)).2 =
      (Finset.range count).sup fun i => min (stop i) total := by
  induction count with
  | zero => rfl
  | succ count ih =>
    rw [List.range_succ, List.map_append, List.map_singleton, waitsTo_concat, Finset.range_add_one,
      Finset.sup_insert]
    dsimp only
    rw [ih]
    omega

theorem startOf_waitsTo (total : Nat) (stop : Nat → Nat) {count i : Nat} (h : i ≤ count) :
    startOf (waitsTo total ((List.range count).map stop)).1 i =
      (Finset.range i).sup fun i => min (stop i) total := by
  induction count with
  | zero =>
    obtain rfl := Nat.le_zero.mp h
    rfl
  | succ count ih =>
    have hlength : ∀ count, (waitsTo total ((List.range count).map stop)).1.length = count := by
      intro count
      rw [length_waitsTo, List.length_map, List.length_range]
    rcases Nat.lt_or_eq_of_le h with hlt | rfl
    · have hle : i ≤ (waitsTo total ((List.range count).map stop)).1.length := by
        rw [hlength]
        omega
      rw [List.range_succ, List.map_append, List.map_singleton, waitsTo_concat,
        startOf_append_of_le hle, ih (Nat.le_of_lt_succ hlt)]
    · rw [← reached_waitsTo, ← (waitsTo_spec total ((List.range (count + 1)).map stop)).1,
        ← startOf_length, hlength]

/-! ## The log -/

/-- What a score waits behind the waits of its frames. -/
def remainder (s : RawScore) : List Nat :=
  if s.waits.2 < s.sampleCount then [s.sampleCount - s.waits.2] else []

section
variable (s : RawScore) (hcount : s.sampleCount ≤ 0xFFFFFFFF)
include hcount

theorem le_of_mem_remainder : ∀ n ∈ s.remainder, 0 < n ∧ n ≤ 0xFFFFFFFF := by
  intro n hn
  unfold remainder at hn
  split at hn
  · obtain rfl := List.mem_singleton.mp hn
    omega
  · cases hn

theorem waitsIn_scribe_eq : waitsIn s.scribe = s.waits.1 ++ s.remainder := by
  have hsecond : (s.frames.zip s.waits.1).map Prod.snd = s.waits.1 :=
    List.map_snd_zip (Nat.le_of_eq s.length_waits)
  rw [waitsIn_scribe, spans, s.map_waits_mod hcount, List.map_append, hsecond, remainder]
  split
  · rw [List.map_singleton, Nat.mod_eq_of_lt (by omega)]
  · rfl

theorem scribe_eq : s.scribe = Timeline.toEvents ⟨s.clock, opening.map .act ++
    spanSteps Frame.zero (s.frames.zip s.waits.1) ++ s.remainder.map .wait⟩ := by
  have hrest : (if s.waits.2 < s.sampleCount then [waitStep (s.sampleCount - s.waits.2)] else []) =
      s.remainder.map .wait := by
    unfold remainder
    split
    · rw [waitStep, Nat.mod_eq_of_lt (by omega), List.map_singleton]
    · rfl
  have hsteps : s.frameSteps =
      spanSteps Frame.zero (s.frames.zip s.waits.1) ++ s.remainder.map .wait := by
    rw [← hrest, ← s.map_waits_mod hcount, ← flatten_zipWith]
    rfl
  rw [scribe, hsteps, List.append_assoc]

end

/-- A score of less than 2³² samples waits once behind the writes of each frame and at most
once more, for more than no sample, and no wait is cut when it is written. At the sample rate
a frame waits one sample. At any other rate, whatever frame ends it gives, the wait of a frame
ends where the latest of the ends up to its own lies, those behind the score counted as its
end. All waits together take the samples of the score; at the sample rate they take one for
each frame if that is more. -/
theorem scribe_accounts (s : RawScore) (hcount : s.sampleCount ≤ 0xFFFFFFFF) :
    s.scribe = Timeline.toEvents ⟨s.clock, opening.map .act ++
        spanSteps Frame.zero (s.frames.zip s.waits.1) ++ s.remainder.map .wait⟩ ∧
      s.waits.1.length = s.frames.length ∧ s.remainder.length ≤ 1 ∧
      (∀ n ∈ s.remainder, 0 < n) ∧ (∀ n ∈ s.waits.1 ++ s.remainder, n ≤ 0xFFFFFFFF) ∧
      waitTotal s.scribe =
        (if isSampleRate s.rate then max s.frames.length s.sampleCount else s.sampleCount) ∧
      (isSampleRate s.rate = true → ∀ n ∈ s.waits.1, n = 1) ∧
      (isSampleRate s.rate = false → ∀ i < s.frames.length,
        startOf (waitsIn s.scribe) (i + 1) =
          (Finset.range (i + 1)).sup fun j => min (frameStart s.rate (j + 1)) s.sampleCount) := by
  have hones : isSampleRate s.rate = true → ∀ n ∈ s.waits.1, n = 1 := by
    intro hnative n hn
    simp only [waits, hnative, if_true] at hn
    exact List.eq_of_mem_replicate hn
  refine ⟨s.scribe_eq hcount, s.length_waits, ?_, ?_, ?_, ?_, hones, ?_⟩
  · unfold remainder
    split <;> simp
  · exact fun n hn => (s.le_of_mem_remainder hcount n hn).1
  · intro n hn
    rcases List.mem_append.mp hn with hn | hn
    · rw [← s.map_waits_mod hcount] at hn
      obtain ⟨m, -, rfl⟩ := List.mem_map.mp hn
      omega
    · exact (s.le_of_mem_remainder hcount n hn).2
  · rw [scribe, Timeline.waitTotal_toEvents, s.totalSamples_scribe hcount]
  · intro hnot i hi
    have hwaits : s.waits.1 = (waitsTo s.sampleCount
        ((List.range s.frames.length).map fun j => frameStart s.rate (j + 1))).1 := by
      simp [waits, hnot]
    have hle : i + 1 ≤ s.waits.1.length := s.length_waits.symm ▸ hi
    rw [s.waitsIn_scribe_eq hcount, startOf_append_of_le hle, hwaits]
    exact startOf_waitsTo s.sampleCount (fun j => frameStart s.rate (j + 1)) hi

/-- A score at half the sample rate whose second frame reaches behind its end, and one at the
sample rate that goes on behind its frames. -/
theorem scribe_accounts_overrun :
    let attack : Frame := ⟨⟨1, 0x20, 12, 2⟩, ⟨0, 0, 0, 1⟩, ⟨0, 0x80, 0, 0⟩, ⟨0, 13, 6, 1⟩⟩
    let held : Frame := ⟨⟨7, 0xF0, 12, 2⟩, ⟨0, 8, 15, 3⟩, ⟨7, 0xFF, 0, 0⟩, ⟨0, 16, 6, 0⟩⟩
    let fast : RawScore := ⟨.ntsc, 22050, 3, [attack, held, Frame.zero]⟩
    let short : RawScore := ⟨.pal, floatOf sampleRate, 5, [attack, attack, held]⟩
    fast.sampleCount ≤ 0xFFFFFFFF ∧ isSampleRate fast.rate = false ∧
      waitTotal fast.scribe = 3 ∧ startOf (waitsIn fast.scribe) 1 = 2 ∧
      startOf (waitsIn fast.scribe) 2 = 3 ∧ startOf (waitsIn fast.scribe) 3 = 3 ∧
      short.sampleCount ≤ 0xFFFFFFFF ∧ isSampleRate short.rate = true ∧
      waitTotal short.scribe = 5 ∧ waitsIn short.scribe = [1, 1, 1, 2] := by
  intro attack held fast short
  have hfast : fast.sampleCount ≤ 0xFFFFFFFF := by decide
  have hshort : short.sampleCount ≤ 0xFFFFFFFF := by decide
  have hrate : isSampleRate fast.rate = false := by decide +kernel
  have hnative : isSampleRate short.rate = true := by decide
  obtain ⟨-, -, -, -, -, htotal, -, hends⟩ := fast.scribe_accounts hfast
  obtain ⟨-, -, -, -, -, hsum, -, -⟩ := short.scribe_accounts hshort
  rw [if_neg (Bool.eq_false_iff.mp hrate)] at htotal
  rw [if_pos hnative] at hsum
  have hend : ∀ i < 3, startOf (waitsIn fast.scribe) (i + 1) =
      (Finset.range (i + 1)).sup fun j => min (frameStart 22050 (j + 1)) 3 := hends hrate
  refine ⟨hfast, hrate, htotal, (hend 0 (by decide)).trans ?_, (hend 1 (by decide)).trans ?_,
    (hend 2 (by decide)).trans ?_, hshort, hnative, hsum, ?_⟩
  · decide +kernel
  · decide +kernel
  · decide +kernel
  · rw [short.waitsIn_scribe_eq hshort]
    decide

end RawScore

end ApuScore

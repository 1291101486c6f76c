import Mathlib.Data.List.Forall2
import ApuScore.Score.Projection
/-
  What blending keeps, and that blending again keeps it all.

  A chord that plays the pitches of a blended frame has three voices for them: a zero among the
  first three uses up a voice and is not heard, and a fourth pitch finds none. This file

  1. says what a blended frame is, the sounding pitches of a list in ascending order, each as
     often as it sounds (`Ascending`), and that a list has only one (`Ascending.unique`);
  2. says what a chord blends to, and what one made from any pitches does (`ascending_melody`,
     `ascending_melody_chordOf`), and so which pitches come back as they are
     (`melody_chordOf_eq_iff`);
  3. concludes both for whole scores (`blend_express`).
-/

namespace ApuScore

/-- The sounding pitches of a list in ascending order, repeats kept. -/
structure Ascending (pitches melody : List UInt8) : Prop where
  ascends : melody.Pairwise (· ≤ ·)
  perm : melody.Perm (pitches.filter (· != 0))

namespace Ascending

variable {pitches melody other : List UInt8}

theorem unique (h : Ascending pitches melody) (hother : Ascending pitches other) :
    melody = other :=
  (h.perm.trans hother.perm.symm).eq_of_pairwise (fun _ _ _ _ => UInt8.le_antisymm) h.ascends
    hother.ascends

theorem sounds (h : Ascending pitches melody) : ∀ p ∈ melody, p ≠ 0 := by
  intro p hp
  exact bne_iff_ne.mp (List.mem_filter.mp (h.perm.mem_iff.mp hp)).2

theorem length_le (h : Ascending pitches melody) : melody.length ≤ pitches.length := by
  rw [h.perm.length_eq]
  exact List.length_filter_le _ _

/-- Nothing is lost or moved the second time. -/
theorem again (h : Ascending pitches melody) : Ascending melody melody := by
  refine ⟨h.ascends, ?_⟩
  rw [List.filter_eq_self.mpr fun p hp => bne_iff_ne.mpr (h.sounds p hp)]

end Ascending

/-! ## Chords -/

theorem ascending_mergeSort (pitches : List UInt8) :
    Ascending pitches ((pitches.filter (· != 0)).mergeSort (fun a b => a ≤ b)) := by
  have htrans : ∀ a b c : UInt8, decide (a ≤ b) = true → decide (b ≤ c) = true →
      decide (a ≤ c) = true := by
    simp only [decide_eq_true_iff]
    exact fun _ _ _ => UInt8.le_trans
  have htotal : ∀ a b : UInt8, (decide (a ≤ b) || decide (b ≤ a)) = true := by
    simp only [Bool.or_eq_true, decide_eq_true_iff]
    exact UInt8.le_total
  have hsorted := List.pairwise_mergeSort htrans htotal (pitches.filter (· != 0))
  exact ⟨hsorted.imp of_decide_eq_true, List.mergeSort_perm _ _⟩

theorem ascending_melody (c : Chord) :
    Ascending [c.pulse1.pitch, c.pulse2.pitch, c.triangle.pitch] c.melody :=
  ascending_mergeSort _

/-- A voice that finds no pitch in a list is as silent as one that finds a zero there. -/
theorem filter_voices (pitches : List UInt8) :
    [pitches.getD 0 0, pitches.getD 1 0, pitches.getD 2 0].filter (· != 0) =
      (pitches.take 3).filter (· != 0) := by
  match pitches with
  | [] => rfl
  | [p] => simp [List.filter_cons]
  | [p, q] => simp [List.filter_cons]
  | p :: q :: r :: rest => rfl

theorem ascending_melody_chordOf (pitches : List UInt8) :
    Ascending (pitches.take 3) (chordOf pitches).melody := by
  have h := ascending_melody (chordOf pitches)
  refine ⟨h.ascends, ?_⟩
  rw [← filter_voices]
  exact h.perm

/-- The lists that come back from a chord as they are have a voice for each pitch. -/
theorem melody_chordOf_eq_iff {pitches : List UInt8} :
    (chordOf pitches).melody = pitches ↔ pitches.length ≤ 3 ∧ Ascending pitches pitches := by
  have hmelody := ascending_melody_chordOf pitches
  constructor
  · intro h
    rw [h] at hmelody
    exact ⟨Nat.le_trans hmelody.length_le (List.length_take_le 3 pitches), hmelody.again⟩
  · rintro ⟨hvoices, hascending⟩
    rw [List.take_of_length_le hvoices] at hmelody
    exact hmelody.unique hascending

theorem melody_chordOf_melody (c : Chord) : (chordOf c.melody).melody = c.melody :=
  melody_chordOf_eq_iff.mpr ⟨(ascending_melody c).length_le, (ascending_melody c).again⟩

/-! ## Scores -/

theorem frames_blend_express (x : BlendedScore) :
    x.express.blend.frames = x.frames.map fun pitches => (chordOf pitches).melody :=
  List.map_map

theorem blend_express_eq_iff {x : BlendedScore} :
    x.express.blend = x ↔ ∀ pitches ∈ x.frames, (chordOf pitches).melody = pitches := by
  have hframes : x.express.blend = x ↔ x.express.blend.frames = x.frames :=
    ⟨congrArg BlendedScore.frames, fun h => congrArg (BlendedScore.mk x.rate x.sampleCount) h⟩
  rw [hframes, frames_blend_express, ← List.map_inj_left, List.map_id']

/-- Blending is a retraction:

1. a blended score that is taken to chords and blended again keeps its rate and its length, and
   each of its frames becomes the sounding pitches among its first three in ascending order;
2. it comes back as it is exactly if every frame has at most three pitches, which all sound and
   ascend;
3. a blended score that was taken from chords has in each frame the sounding pitches of the
   pulses and the triangle in ascending order, and comes back as it is. -/
theorem blend_express :
    (∀ x : BlendedScore,
      x.express.blend.rate = x.rate ∧ x.express.blend.sampleCount = x.sampleCount ∧
      List.Forall₂ (fun pitches melody => Ascending (pitches.take 3) melody)
        x.frames x.express.blend.frames ∧
      (x.express.blend = x ↔
        ∀ pitches ∈ x.frames, pitches.length ≤ 3 ∧ Ascending pitches pitches)) ∧
    ∀ e : ExpressiveScore,
      e.blend.rate = e.rate ∧ e.blend.sampleCount = e.sampleCount ∧
      List.Forall₂
        (fun c melody => Ascending [c.pulse1.pitch, c.pulse2.pitch, c.triangle.pitch] melody)
        e.frames e.blend.frames ∧
      e.blend.express.blend = e.blend := by
  constructor
  · intro x
    refine ⟨rfl, rfl, ?_, ?_⟩
    · rw [frames_blend_express, List.forall₂_map_right_iff, List.forall₂_same]
      exact fun pitches _ => ascending_melody_chordOf pitches
    · simp only [blend_express_eq_iff, melody_chordOf_eq_iff]
  · intro e
    refine ⟨rfl, rfl, ?_, ?_⟩
    · rw [ExpressiveScore.blend, List.forall₂_map_right_iff, List.forall₂_same]
      exact fun c _ => ascending_melody c
    · rw [blend_express_eq_iff, ExpressiveScore.blend, List.forall_mem_map]
      exact fun c _ => melody_chordOf_melody c

example : (chordOf [72, 0, 48, 60]).melody = [48, 72] := by cbv

end ApuScore

import ApuScore.Score.Projection
import ApuScore.Score.Sheet
import ApuScore.Proofs.Scribing
import ApuScore.Proofs.Windows
/-
  Tones that fit the registers of their voices.

  Pitch formulas may give any pitch and any period, but a velocity and a timbre are only
  ever copied, chosen among others or set to a constant. So they fit four and two bits
  wherever a score is taken (`Tone.Fits`). This file proves it for

  1. raw frames and back (`Frame.WellFormed.chord_fits`, `Chord.Fits.frame_fits`);
  2. the window sums of resampling (`fits_summarize`);
  3. projections (`fits_bareTone`, `fits_chordOf`).
-/

namespace ApuScore

/-- The number of timbres of a voice. -/
def Voice.timbres : Voice → Nat
  | .noise => 2
  | _ => 4

structure Tone.Fits (v : Voice) (t : Tone) : Prop where
  velocity : t.velocity.toNat < 16
  timbre : t.timbre.toNat < v.timbres

def Chord.Fits (c : Chord) : Prop := ∀ v, (c.get v).Fits v

theorem Voice.timbres_pos (v : Voice) : 0 < v.timbres := by
  cases v <;> decide

theorem Tone.fits_zero (v : Voice) : Tone.zero.Fits v := ⟨by decide, v.timbres_pos⟩

/-! ## Raw frames -/

theorem Slot.tone_fits (v : Voice) {s : Slot} (hvolume : s.volume.toNat ≤ 15)
    (htimbre : s.timbre.toNat < v.timbres) (pitch : UInt8) : (s.tone pitch).Fits v := by
  refine ⟨?_, htimbre⟩
  rw [tone]
  dsimp only
  split
  · decide
  · exact Nat.lt_succ_of_le hvolume

theorem Frame.WellFormed.chord_fits {limit : Nat} {f : Frame} (h : f.WellFormed limit)
    (clock : Clock) (settings : Settings) : (f.chord clock settings).Fits := by
  intro v
  cases v with
  | pulse1 => exact Slot.tone_fits .pulse1 h.pulse1.volume_le (Nat.lt_succ_of_le h.pulse1.timbre) _
  | pulse2 => exact Slot.tone_fits .pulse2 h.pulse2.volume_le (Nat.lt_succ_of_le h.pulse2.timbre) _
  | triangle =>
    refine Slot.tone_fits .triangle ?_ ?_ _
    · rw [h.triangle.volume]
      decide
    · rw [h.triangle.timbre]
      decide
  | noise => exact Slot.tone_fits .noise h.noise.volume_le (Nat.lt_succ_of_le h.noise.timbre) _

theorem Tone.slot_high_le (t : Tone) (period : Nat) : (t.slot period).high.toNat ≤ 7 := by
  rw [slot, UInt8.toNat_ofNat']
  omega

theorem Chord.Fits.frame_fits {c : Chord} (h : c.Fits) (clock : Clock) : (c.frame clock).Fits where
  pulse1 := ⟨Tone.slot_high_le _ _, Nat.le_of_lt_succ (h .pulse1).velocity,
    Nat.le_of_lt_succ (h .pulse1).timbre⟩
  pulse2 := ⟨Tone.slot_high_le _ _, Nat.le_of_lt_succ (h .pulse2).velocity,
    Nat.le_of_lt_succ (h .pulse2).timbre⟩
  triangle := Tone.slot_high_le _ _
  noise := ⟨Nat.le_of_lt_succ (h .noise).velocity, Nat.le_of_lt_succ (h .noise).timbre⟩

/-! ## Resampling -/

theorem mode_mem (xs : List UInt8) : mode xs ∈ xs ∨ mode xs = 0 := by
  cases xs with
  | nil => exact .inr rfl
  | cons x xs => exact .inl ((commonest_mode (x :: xs)).mem (List.cons_ne_nil x xs))

theorem mode_lt {bound : Nat} {xs : List UInt8} (h : ∀ x ∈ xs, x.toNat < bound) (hpos : 0 < bound) :
    (mode xs).toNat < bound := by
  rcases mode_mem xs with hmem | hzero
  · exact h _ hmem
  · rw [hzero]
    exact hpos

theorem fits_summary {v : Voice} {window : List Tone} (h : ∀ t ∈ window, t.Fits v) :
    (summary window).Fits v := by
  unfold summary
  split
  · refine ⟨(Tone.fits_zero v).velocity, mode_lt ?_ v.timbres_pos⟩
    rw [List.forall_mem_map]
    exact fun t ht => (h t ht).timbre
  · rename_i sounding _
    have hsub : ∀ t ∈ window.filter (fun t => t.pitch != 0), t.Fits v :=
      fun t ht => h t (List.mem_filter.mp ht).1
    refine ⟨mode_lt ?_ (by decide), mode_lt ?_ v.timbres_pos⟩
    · rw [List.forall_mem_map]
      exact fun t ht => (hsub t ht).velocity
    · rw [List.forall_mem_map]
      exact fun t ht => (hsub t ht).timbre

theorem fits_summarize {window : List Chord} (h : ∀ c ∈ window, c.Fits) :
    (summarize window).Fits := by
  intro v
  rw [summarize, Voices.get_ofFn]
  apply fits_summary
  rw [List.forall_mem_map]
  exact fun c hc => h c hc v

/-! ## Projections -/

theorem fits_bareTone (v : Voice) (pitch : UInt8) : (bareTone v pitch).Fits v := by
  refine ⟨?_, v.timbres_pos⟩
  rw [bareTone]
  dsimp only
  split <;> decide

theorem fits_chordOf (pitches : List UInt8) : (chordOf pitches).Fits := by
  intro v
  cases v with
  | pulse1 => exact fits_bareTone .pulse1 _
  | pulse2 => exact fits_bareTone .pulse2 _
  | triangle => exact fits_bareTone .triangle _
  | noise => exact Tone.fits_zero .noise

end ApuScore

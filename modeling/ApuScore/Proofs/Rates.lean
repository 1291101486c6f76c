import ApuScore.RoundTrip
import ApuScore.Proofs.Cycling
import ApuScore.Proofs.Sheets
/-
  Scores on the way through a form.

  A score fits if its tones fit their voices and, at the sample rate, it has one frame for
  each sample (`ExpressiveScore.Fits`). This file shows that a score fits

  1. when it is taken from a replayed score (`RawScore.Native.express`);
  2. when it is brought to a given rate, which is never refused (`Fits.atRate`): a positive
     rate that is not above the sample rate is finite (`isFinite_of_between`);
  3. when it comes back from a projection or from a sheet (`keeps_separate`, `keeps_blend`,
     `keeps_sheet`).

  Its length in samples never changes.
-/

namespace ApuScore

/-! ## Given rates -/

theorem isFinite_of_between {low r high : Float} (hlow : low < r) (hle : r ≤ high)
    (hhigh : high.isFinite = true) : r.isFinite = true := by
  simp only [LT.lt, Float.lt, decide_eq_true_eq] at hlow
  simp only [LE.le, Float.le, decide_eq_true_eq] at hle
  rw [Float.isFinite, Float.Model.isFinite] at hhigh ⊢
  rw [Float.Model.lt] at hlow
  rw [Float.Model.le] at hle
  generalize low.toModel.unpack = x at hlow
  generalize r.toModel.unpack = y at *
  generalize high.toModel.unpack = z at *
  cases y with
  | zero => rfl
  | finite => rfl
  | notANumber => cases z <;> cases hle
  | infinity sign =>
    cases sign with
    | positive =>
      -- nothing finite is above it
      cases z with
      | zero => cases hle
      | finite => cases hle
      | infinity => cases hhigh
      | notANumber => cases hhigh
    | negative =>
      -- nothing is below it
      cases x with
      | infinity sign => cases sign <;> cases hlow
      | _ => cases hlow

/-- One frame per sample, or a positive rate that is not above the sample rate. -/
def FrameRate.Given : FrameRate → Prop
  | .native => True
  | .fixed hz => 0.0 < hz ∧ hz ≤ 44100.0
  | .estimated => False

def Form.Given : Form → Prop
  | .expressive rate => rate.Given
  | .separated rate => rate.Given
  | .blended rate => rate.Given
  | .sheet rate => rate.Given
  | _ => True

theorem isSampleRate_sampleRate : isSampleRate (floatOf sampleRate) = true := by
  decide

/-! ## Fitting scores -/

/-- The tones fit their voices, and a score at the sample rate has one frame for each
sample. -/
structure ExpressiveScore.Fits (s : ExpressiveScore) : Prop where
  chords : ∀ c ∈ s.frames, c.Fits
  native : isSampleRate s.rate = true → s.frames.length = s.sampleCount

/-- A replayed score is taken to one of the same length that fits. -/
theorem RawScore.Native.express {s : RawScore} (h : s.Native)
    (hwell : ∀ f ∈ s.frames, f.WellFormed 0x7FF) (settings : Settings) :
    ∃ t, s.express settings = .ok t ∧ t.rate = floatOf sampleRate ∧
      t.sampleCount = s.sampleCount ∧ t.Fits := by
  refine ⟨⟨s.rate, s.sampleCount, s.frames.map (Frame.chord s.clock settings)⟩, ?_, h.rate, rfl,
    ?_, ?_⟩
  · rw [RawScore.express, requireSampleRate, h.rate, if_pos isSampleRate_sampleRate]
    rfl
  · rw [List.forall_mem_map]
    exact fun f hf => (hwell f hf).chord_fits s.clock settings
  · intro _
    rw [List.length_map, h.count]

namespace ExpressiveScore.Fits

variable {s : ExpressiveScore} (h : s.Fits)
include h

theorem resample {rate : Float} (hrate : isSampleRate rate = false) : (s.resample rate).Fits := by
  constructor
  · intro c hc
    obtain ⟨i, -, rfl⟩ := List.mem_map.mp hc
    apply fits_summarize
    intro c hc
    rw [stretch, Array.toList_extract] at hc
    exact h.chords c (List.mem_of_mem_drop (List.mem_of_mem_take hc))
  · intro hnative
    rw [show (s.resample rate).rate = rate from rfl, hrate] at hnative
    cases hnative

theorem atRate (hsample : s.rate = floatOf sampleRate) {rate : FrameRate} {settings : Settings}
    (hrate : rate.Given) (hsettings : settings.check = .ok ()) :
    ∃ t, s.atRate rate settings = .ok t ∧ t.Fits ∧ t.sampleCount = s.sampleCount := by
  cases rate with
  | native => exact ⟨s, rfl, h, rfl⟩
  | estimated => cases hrate
  | fixed hz =>
    obtain ⟨hpos, hle⟩ := hrate
    have hfinite := isFinite_of_between hpos hle (by decide +kernel)
    have hdown : s.atRate (.fixed hz) settings =
        if isSampleRate hz then .ok s else .ok (s.resample hz) := by
      simp only [ExpressiveScore.atRate, downsample, requireSampleRate, hsample,
        isSampleRate_sampleRate, hsettings, hfinite, hpos, liftProtocol, bind, Except.bind, if_true,
        decide_true, Bool.and_self]
    rw [hdown]
    split
    · exact ⟨s, rfl, h, rfl⟩
    · rename_i hnot
      exact ⟨s.resample hz, rfl, h.resample (Bool.eq_false_iff.mpr hnot), rfl⟩

theorem toRaw (clock : Clock) : ∀ f ∈ (s.toRaw clock).frames, f.Fits := by
  intro f hf
  obtain ⟨c, hc, rfl⟩ := List.mem_map.mp hf
  exact (h.chords c hc).frame_fits clock

end ExpressiveScore.Fits

/-! ## Projections -/

/-- A fitting score comes back from the projection as one of the same length that fits. -/
def Keeps (project : ExpressiveScore → Except ProtocolError ExpressiveScore) : Prop :=
  ∀ s : ExpressiveScore, s.Fits →
    ∃ t, project s = .ok t ∧ t.Fits ∧ t.sampleCount = s.sampleCount

theorem keeps_separate : Keeps fun s => .ok s.separate.express := by
  intro s h
  refine ⟨_, rfl, ⟨?_, ?_⟩, rfl⟩
  · intro c hc v
    obtain ⟨f, -, rfl⟩ := List.mem_map.mp hc
    rw [Voices.get_ofFn]
    exact fits_bareTone v (f.get v)
  · intro hnative
    simp only [SeparatedScore.express, ExpressiveScore.separate, List.length_map]
    exact h.native hnative

theorem keeps_blend : Keeps fun s => .ok s.blend.express := by
  intro s h
  refine ⟨_, rfl, ⟨?_, ?_⟩, rfl⟩
  · intro c hc
    obtain ⟨pitches, -, rfl⟩ := List.mem_map.mp hc
    exact fits_chordOf pitches
  · intro hnative
    simp only [BlendedScore.express, ExpressiveScore.blend, List.length_map]
    exact h.native hnative

theorem keeps_sheet : Keeps fun s => s.sheet.express := by
  intro s h
  obtain ⟨t, ht, hrate, hcount, hlength, hfits⟩ := (fits_sheet h.chords).express
  refine ⟨t, ht, ⟨hfits, ?_⟩, hcount⟩
  intro hnative
  rw [hrate] at hnative
  rw [hlength, hcount]
  exact h.native hnative

end ApuScore

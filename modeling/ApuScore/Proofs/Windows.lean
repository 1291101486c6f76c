import ApuScore.Score.Resampling
import ApuScore.Proofs.Timeline
/-
  What resampling makes of a window.

  A frame of a resampled score sums up the samples of its window, voice by voice and part by
  part, by the commonest value. This file

  1. says what the commonest value is (`Commonest`): no byte occurs more often, and none that
     occurs as often is smaller; there is one for every list (`Commonest.unique`);
  2. follows the running best through a list of candidates (`not_beats_foldl`) and concludes
     that `mode` finds the commonest value (`commonest_mode`), the one that a scan of all 256
     bytes in ascending order finds that only moves on to a byte that occurs more often
     (`mode_eq_scan`);
  3. sums up the tones of a window, sounding or silent (`sumsUp_summary`);
  4. shows which scores are resampled and what the frames are then (`downsample_commonest`).
-/

namespace ApuScore

/-- No byte occurs more often in a list, and none that occurs as often is smaller. -/
structure Commonest (xs : List UInt8) (x : UInt8) : Prop where
  count_le : ∀ y, xs.count y ≤ xs.count x
  le_of_count : ∀ y, xs.count y = xs.count x → x ≤ y

theorem Commonest.unique {xs : List UInt8} {x y : UInt8} (hx : Commonest xs x)
    (hy : Commonest xs y) : x = y := by
  have hcount : xs.count x = xs.count y := Nat.le_antisymm (hy.count_le x) (hx.count_le y)
  exact UInt8.le_antisymm (hx.le_of_count y hcount.symm) (hy.le_of_count x hcount)

/-! ## The running best -/

section

variable {xs : List UInt8} {x y z : UInt8}

theorem beats_iff :
    beats xs x y = true ↔ xs.count y < xs.count x ∨ xs.count y = xs.count x ∧ x < y := by
  rw [beats, Bool.or_eq_true, Bool.and_eq_true, decide_eq_true_iff, decide_eq_true_iff,
    beq_iff_eq]

theorem not_beats_iff :
    beats xs x y = false ↔ xs.count x ≤ xs.count y ∧ (xs.count x = xs.count y → y ≤ x) := by
  rw [← Bool.not_eq_true, beats_iff, not_or, not_and, Nat.not_lt, UInt8.not_lt, eq_comm]

theorem commonest_iff : Commonest xs x ↔ ∀ y, beats xs y x = false := by
  simp only [not_beats_iff, forall_and]
  exact ⟨fun h => ⟨h.count_le, h.le_of_count⟩, fun h => ⟨h.1, h.2⟩⟩

theorem not_beats_self : beats xs x x = false :=
  not_beats_iff.mpr ⟨Nat.le_refl _, fun _ => UInt8.le_refl x⟩

theorem not_beats_trans (hxy : beats xs x y = false) (hyz : beats xs y z = false) :
    beats xs x z = false := by
  rw [not_beats_iff] at *
  refine ⟨Nat.le_trans hxy.1 hyz.1, fun hcount => ?_⟩
  -- the counts are equal all along, so both ties were decided by size
  have hx : xs.count x = xs.count y := by omega
  have hy : xs.count y = xs.count z := by omega
  exact UInt8.le_trans (hyz.2 hy) (hxy.2 hx)

theorem not_beats_of_beats (h : beats xs x y = true) : beats xs y x = false := by
  rw [beats_iff] at h
  rw [not_beats_iff]
  rcases h with hmore | ⟨htie, hless⟩
  · exact ⟨Nat.le_of_lt hmore, fun hcount => absurd hcount (Nat.ne_of_lt hmore)⟩
  · exact ⟨Nat.le_of_eq htie, fun _ => UInt8.le_of_lt hless⟩

/-- What a running best passes over, or starts from, does not beat what it ends with. -/
theorem not_beats_foldl (candidates : List UInt8) (best : UInt8) :
    ∀ y ∈ best :: candidates,
      beats xs y (candidates.foldl (fun best x => if beats xs x best then x else best) best) =
        false := by
  induction candidates generalizing best with
  | nil =>
    intro y hy
    rw [List.mem_singleton.mp hy]
    exact not_beats_self
  | cons x candidates ih =>
    rw [List.foldl_cons]
    have hnext := ih (if beats xs x best then x else best)
    have hkept := hnext _ List.mem_cons_self
    -- neither the old best nor the candidate beats the better of the two
    have hbetter : beats xs best (if beats xs x best then x else best) = false ∧
        beats xs x (if beats xs x best then x else best) = false := by
      split
      · rename_i hbeats
        exact ⟨not_beats_of_beats hbeats, not_beats_self⟩
      · rename_i hbeats
        exact ⟨not_beats_self, Bool.not_eq_true _ ▸ hbeats⟩
    intro y hy
    rcases List.mem_cons.mp hy with rfl | hy
    · exact not_beats_trans hbetter.1 hkept
    · rcases List.mem_cons.mp hy with rfl | hy
      · exact not_beats_trans hbetter.2 hkept
      · exact hnext y (List.mem_cons_of_mem _ hy)

end

theorem commonest_nil : Commonest [] 0 :=
  ⟨fun _ => Nat.le_refl 0, fun _ _ => UInt8.zero_le⟩

/-- The values of a list are candidates enough: a byte that does not occur beats nothing. -/
theorem commonest_mode (xs : List UInt8) : Commonest xs (mode xs) := by
  cases xs with
  | nil => exact commonest_nil
  | cons x xs =>
    have hrun : ∀ y ∈ x :: (x :: xs).eraseDups, beats (x :: xs) y (mode (x :: xs)) = false :=
      not_beats_foldl _ x
    have hpresent : 0 < (x :: xs).count x := List.count_pos_iff.mpr List.mem_cons_self
    have hmost := (not_beats_iff.mp (hrun x List.mem_cons_self)).1
    rw [commonest_iff]
    intro y
    by_cases hy : y ∈ x :: xs
    · exact hrun y (List.mem_cons_of_mem _ (List.mem_eraseDups.mpr hy))
    · have habsent : (x :: xs).count y = 0 := List.count_eq_zero.mpr hy
      exact not_beats_iff.mpr ⟨by omega, fun hcount => by omega⟩

theorem Commonest.mem {xs : List UInt8} {x : UInt8} (h : Commonest xs x) (hne : xs ≠ []) :
    x ∈ xs := by
  obtain ⟨y, hy⟩ := List.exists_mem_of_ne_nil xs hne
  exact List.count_pos_iff.mp (Nat.lt_of_lt_of_le (List.count_pos_iff.mpr hy) (h.count_le y))

/-- Among candidates that ascend, a tie never goes to the later one, so counts alone decide. -/
theorem foldl_count_eq {xs candidates : List UInt8} {best : UInt8}
    (hascends : (best :: candidates).Pairwise (· ≤ ·)) :
    candidates.foldl (fun best x => if xs.count best < xs.count x then x else best) best =
      candidates.foldl (fun best x => if beats xs x best then x else best) best := by
  induction candidates generalizing best with
  | nil => rfl
  | cons x candidates ih =>
    have hle : best ≤ x := List.rel_of_pairwise_cons hascends List.mem_cons_self
    have hbeats : beats xs x best = true ↔ xs.count best < xs.count x := by
      rw [beats_iff]
      refine or_iff_left fun htie => ?_
      exact absurd htie.2 (UInt8.not_lt.mpr hle)
    simp only [List.foldl_cons, hbeats]
    apply ih
    split
    · exact hascends.of_cons
    · exact hascends.sublist ((List.sublist_cons_self x candidates).cons_cons best)

def allBytes : List UInt8 := (List.finRange 256).map UInt8.ofFin

theorem mem_allBytes (x : UInt8) : x ∈ allBytes :=
  List.mem_map.mpr ⟨x.toFin, List.mem_finRange _, rfl⟩

theorem pairwise_allBytes : (0 :: allBytes).Pairwise (· ≤ ·) := by
  rw [List.pairwise_cons]
  refine ⟨fun _ _ => UInt8.zero_le, ?_⟩
  rw [allBytes, List.pairwise_map]
  exact (List.pairwise_lt_finRange 256).imp fun hlt => Nat.le_of_lt hlt

/-- The commonest value is found by a scan of all bytes in ascending order that starts at zero
and moves on only to a byte that occurs more often than the best so far. -/
theorem mode_eq_scan (xs : List UInt8) :
    mode xs =
      allBytes.foldl (fun best x => if xs.count best < xs.count x then x else best) 0 := by
  apply (commonest_mode xs).unique
  rw [foldl_count_eq pairwise_allBytes, commonest_iff]
  exact fun y => not_beats_foldl allBytes 0 y (List.mem_cons_of_mem 0 (mem_allBytes y))

/-! ## Tones -/

/-- A tone that sums up the tones of a window. If any of them sounds, each part is the commonest
among those that sound, and the pitch is one of theirs; if none does, there is no pitch and no
velocity, and the timbre is the commonest of all. -/
structure Tone.SumsUp (window : List Tone) (t : Tone) : Prop where
  sounding : (∃ x ∈ window, x.pitch ≠ 0) →
    Commonest ((window.filter (·.pitch != 0)).map Tone.pitch) t.pitch ∧
    Commonest ((window.filter (·.pitch != 0)).map Tone.velocity) t.velocity ∧
    Commonest ((window.filter (·.pitch != 0)).map Tone.timbre) t.timbre ∧
    t.pitch ≠ 0 ∧ ∃ x ∈ window, x.pitch = t.pitch
  silent : (∀ x ∈ window, x.pitch = 0) →
    t.pitch = 0 ∧ t.velocity = 0 ∧ Commonest (window.map Tone.timbre) t.timbre ∧
    (window = [] → t.timbre = 0)

theorem sumsUp_summary (window : List Tone) : Tone.SumsUp window (summary window) := by
  have hnil : window.filter (·.pitch != 0) = [] ↔ ∀ x ∈ window, x.pitch = 0 := by
    simp only [List.filter_eq_nil_iff, bne_iff_ne, ne_eq, Decidable.not_not]
  constructor
  · rintro ⟨x, hx, hpitch⟩
    have hne : window.filter (·.pitch != 0) ≠ [] := fun h => hpitch (hnil.mp h x hx)
    have hpitches := commonest_mode ((window.filter (·.pitch != 0)).map Tone.pitch)
    obtain ⟨y, hy, hmode⟩ := List.mem_map.mp (hpitches.mem (by rwa [ne_eq, List.map_eq_nil_iff]))
    obtain ⟨hwindow, hsounds⟩ := List.mem_filter.mp hy
    have hsummary : summary window =
        ⟨mode ((window.filter (·.pitch != 0)).map Tone.pitch),
          mode ((window.filter (·.pitch != 0)).map Tone.velocity),
          mode ((window.filter (·.pitch != 0)).map Tone.timbre)⟩ := by
      unfold summary
      split
      · rename_i h
        exact absurd h hne
      · rfl
    rw [hsummary]
    refine ⟨hpitches, commonest_mode _, commonest_mode _, ?_, y, hwindow, hmode⟩
    rw [← hmode]
    exact bne_iff_ne.mp hsounds
  · intro hsilent
    have hsummary : summary window = { Tone.zero with timbre := mode (window.map Tone.timbre) } := by
      rw [summary, hnil.mpr hsilent]
    rw [hsummary]
    refine ⟨rfl, rfl, commonest_mode _, ?_⟩
    rintro rfl
    rfl

/-! ## Frames -/

theorem stretch_eq (frames : List Chord) (lo hi : Nat) :
    stretch frames.toArray lo hi =
      (frames.take (min hi frames.length)).drop (min lo frames.length) := by
  rw [stretch, Array.toList_extract, List.extract_eq_take_drop, ← List.drop_take,
    ← List.take_eq_take_min]
  rcases Nat.le_total lo frames.length with hlo | hlo
  · rw [Nat.min_eq_left hlo]
  · have hlength : (frames.take hi).length ≤ frames.length := List.length_take_le' hi frames
    rw [Nat.min_eq_right hlo, List.drop_of_length_le (Nat.le_trans hlength hlo),
      List.drop_of_length_le hlength]

theorem liftProtocol_eq_ok {α : Type} {x : Except ProtocolError α} {a : α} :
    liftProtocol x = .ok a ↔ x = .ok a := by
  cases x with
  | ok b => rw [liftProtocol, Except.ok.injEq, Except.ok.injEq]
  | error e => exact ⟨fun h => (nomatch h), fun h => (nomatch h)⟩

namespace ExpressiveScore

variable {s t : ExpressiveScore} {rate : Float} {settings : Settings}

/-- Of the rates that are not the sample rate, the finite ones above zero are taken. -/
theorem downsample_eq_ok (hother : isSampleRate rate = false) :
    s.downsample (some rate) settings = .ok t ↔
      (isSampleRate s.rate = true ∧ settings.check = .ok () ∧ rate.isFinite = true ∧
        0.0 < rate) ∧ s.resample rate = t := by
  simp only [downsample, bind_eq_ok, liftProtocol_eq_ok, requireSampleRate, admit_eq_ok, hother,
    Bool.false_eq_true, if_false, Bool.and_eq_true, decide_eq_true_iff, Except.ok.injEq]
  constructor
  · rintro ⟨_, ⟨hnative, -⟩, _, hcheck, ⟨hfinite, hpos⟩, hresample⟩
    exact ⟨⟨hnative, hcheck, hfinite, hpos⟩, hresample⟩
  · rintro ⟨⟨hnative, hcheck, hfinite, hpos⟩, hresample⟩
    exact ⟨(), ⟨hnative, trivial⟩, (), hcheck, ⟨hfinite, hpos⟩, hresample⟩

/-- The samples that frame `i` of a resampled score covers. -/
def window (s : ExpressiveScore) (rate : Float) (i : Nat) : List Chord :=
  (s.frames.take (min (frameStart rate (i + 1)) s.frames.length)).drop
    (min (frameStart rate i) s.frames.length)

theorem getElem?_resample {i : Nat} {c : Chord} (h : (s.resample rate).frames[i]? = some c) :
    c = summarize (s.window rate i) := by
  rw [resample, List.getElem?_map, Option.map_eq_some_iff] at h
  obtain ⟨j, hj, rfl⟩ := h
  obtain ⟨hlt, rfl⟩ := List.getElem?_eq_some_iff.mp hj
  rw [List.getElem_range, stretch_eq, window]

end ExpressiveScore

/-- At a rate other than the sample rate:

1. a score is brought down exactly when it is at the sample rate itself, the settings are in
   order and the rate is finite and above zero;
2. it has then that rate, as many frames as fit its length, and in every frame and on every
   voice the tone that sums up what the voice plays in the samples that the frame covers. -/
theorem downsample_commonest {rate : Float} (hother : isSampleRate rate = false)
    (s : ExpressiveScore) (settings : Settings) :
    ((∃ t, s.downsample (some rate) settings = .ok t) ↔
      isSampleRate s.rate = true ∧ settings.check = .ok () ∧ rate.isFinite = true ∧
        0.0 < rate) ∧
    ∀ t, s.downsample (some rate) settings = .ok t →
      t.rate = rate ∧ t.sampleCount = s.sampleCount ∧
      t.frames.length = countBelow (floatOf s.sampleCount * rate / floatOf sampleRate) ∧
      ∀ i c, t.frames[i]? = some c → ∀ v,
        Tone.SumsUp ((s.window rate i).map fun d => d.get v) (c.get v) := by
  constructor
  · constructor
    · rintro ⟨t, h⟩
      exact ((ExpressiveScore.downsample_eq_ok hother).mp h).1
    · intro h
      exact ⟨s.resample rate, (ExpressiveScore.downsample_eq_ok hother).mpr ⟨h, rfl⟩⟩
  · intro t h
    obtain ⟨-, rfl⟩ := (ExpressiveScore.downsample_eq_ok hother).mp h
    refine ⟨rfl, rfl, by rw [ExpressiveScore.resample, List.length_map, List.length_range], ?_⟩
    intro i c hc v
    rw [ExpressiveScore.getElem?_resample hc, summarize, Voices.get_ofFn]
    exact sumsUp_summary _

/-- Ten samples in two frames of five. In the first all counts but those of the timbre tie, and
the silent sample has no part in them; in the second nothing sounds. -/
theorem downsample_commonest_ties :
    let played : List Tone :=
      [⟨62, 15, 2⟩, ⟨60, 10, 1⟩, ⟨0, 7, 3⟩, ⟨62, 9, 1⟩, ⟨60, 12, 0⟩,
        ⟨0, 4, 3⟩, ⟨0, 0, 1⟩, ⟨0, 0, 3⟩, ⟨0, 0, 1⟩, ⟨0, 4, 0⟩]
    let s : ExpressiveScore :=
      ⟨44100.0, 10, played.map fun t => ⟨t, Tone.zero, Tone.zero, Tone.zero⟩⟩
    isSampleRate 8820.0 = false ∧
    ∃ t, s.downsample (some 8820.0) {} = .ok t ∧
      t.frames.map Voices.pulse1 = [⟨60, 9, 1⟩, ⟨0, 0, 1⟩] ∧
      Tone.SumsUp (played.take 5) ⟨60, 9, 1⟩ ∧ Tone.SumsUp (played.drop 5) ⟨0, 0, 1⟩ := by
  intro played s
  have hother : isSampleRate 8820.0 = false := by decide +kernel
  have hnative : isSampleRate s.rate = true := by decide
  have ht : s.downsample (some 8820.0) {} = .ok (s.resample 8820.0) :=
    (ExpressiveScore.downsample_eq_ok hother).mpr
      ⟨⟨hnative, rfl, by decide +kernel, by decide +kernel⟩, rfl⟩
  obtain ⟨-, hframes⟩ := downsample_commonest hother s {}
  obtain ⟨-, -, -, hsums⟩ := hframes _ ht
  have hwindows : (s.window 8820.0 0).map (fun c => c.get .pulse1) = played.take 5 ∧
      (s.window 8820.0 1).map (fun c => c.get .pulse1) = played.drop 5 := by
    decide +kernel
  refine ⟨hother, s.resample 8820.0, ht, by decide +kernel, ?_, ?_⟩
  · rw [← hwindows.1]
    exact hsums 0 ⟨⟨60, 9, 1⟩, Tone.zero, Tone.zero, Tone.zero⟩ (by decide +kernel) .pulse1
  · rw [← hwindows.2]
    exact hsums 1 ⟨⟨0, 0, 1⟩, Tone.zero, Tone.zero, Tone.zero⟩ (by decide +kernel) .pulse1

end ApuScore

import ApuScore.Proofs.Voicing
import ApuScore.Proofs.Spans
/-
  A scribed score plays itself.

  `Apu.Tracks` says that the chip holds a frame at a sample: every voice holds its
  slot, the sequencer runs untouched, and the triangle's linear counter is full
  exactly if a quarter frame fired behind the sample `first` at which the triangle
  was first set. A sample keeps it (`Tracks.step`), the writes that lead to the
  next frame carry it over (`Tracks.follow`), and the opening writes start it
  (`tracks_opening`); so the chip tracks a whole score (`tracks_score`).
-/

namespace ApuScore

/-! ## The writes of a frame -/

/-- The write concerns one voice only. -/
def ParamWrite.Solely (v : Voice) (w : ParamWrite) : Prop := ∀ u, w.aims u = decide (u = v)

theorem solely_place (v : Voice) (param : Param) (value : UInt8) (atom : Nat) :
    (ParamWrite.place v.channel param value atom).Solely v := by
  intro u
  cases v <;> cases u <;> rfl

theorem solely_enableWrite (v : Voice) (on : Bool) : (enableWrite v on).Solely v := by
  intro u
  cases v <;> cases u <;> rfl

theorem taken_enableWrite (v : Voice) (on : Bool) : (enableWrite v on).taken = true := by
  cases v <;> cases on <;> rfl

section
variable {P : ParamWrite → Prop}

theorem forall_gateWrites {v : Voice} {before after : Bool} (h : P (enableWrite v after)) :
    ∀ w ∈ gateWrites v before after, P w := by
  intro w hw
  unfold gateWrites at hw
  split at hw
  · cases hw
  · rw [List.mem_singleton.mp hw]
    exact h

theorem forall_whenNeeded {needed : Bool} {writes : List ParamWrite}
    (h : needed = true → ∀ w ∈ writes, P w) : ∀ w ∈ whenNeeded needed writes, P w := by
  cases needed with
  | false => intro w hw; cases hw
  | true => exact h rfl

theorem forall_whenNeeded_single {needed : Bool} {w : ParamWrite} (h : P w) :
    ∀ w' ∈ whenNeeded needed [w], P w' :=
  forall_whenNeeded fun _ => List.forall_mem_singleton.mpr h

theorem forall_highWrites {c : Channel} {high : UInt8} (hhigh : P (.place c .timerHigh high 0))
    (hload : P (.place c .lengthLoad 0 0)) : ∀ w ∈ highWrites c high, P w :=
  List.forall_mem_cons.mpr ⟨hhigh, List.forall_mem_singleton.mpr hload⟩

theorem forall_pulseWrites {v : Voice} {before after : Slot}
    (hgate : P (enableWrite v (after.period != 0)))
    (hduty : P (.place v.channel .duty after.timbre 0))
    (hvolume : P (.place v.channel .volume after.volume 0))
    (hlow : P (.place v.channel .timerLow after.low 0))
    (hhigh : P (.place v.channel .timerHigh after.high 0))
    (hload : P (.place v.channel .lengthLoad 0 0)) : ∀ w ∈ pulseWrites v before after, P w := by
  simp only [pulseWrites, List.forall_mem_append]
  exact ⟨⟨⟨⟨forall_gateWrites hgate, forall_whenNeeded_single hduty⟩,
    forall_whenNeeded_single hvolume⟩, forall_whenNeeded_single hlow⟩,
    forall_whenNeeded fun _ => forall_highWrites hhigh hload⟩

theorem forall_triangleWrites {before after : Slot}
    (hgate : P (enableWrite .triangle (after.period != 0)))
    (hlow : P (.place .triangle .timerLow after.low 0))
    (hhigh : P (.place .triangle .timerHigh after.high 0))
    (hload : P (.place .triangle .lengthLoad 0 0)) : ∀ w ∈ triangleWrites before after, P w := by
  simp only [triangleWrites, List.forall_mem_append]
  exact ⟨forall_gateWrites hgate,
    forall_whenNeeded fun _ => List.forall_mem_cons.mpr ⟨hlow, forall_highWrites hhigh hload⟩⟩

/-- What holds of each kind of noise write holds of all of them; a period is only
written for a noise that sounds. -/
theorem forall_noiseWrites {before after : Slot}
    (hgate : P (enableWrite .noise (after.low != 0)))
    (hvolume : P (.place .noise .volume after.volume 0))
    (hloop : P (.place .noise .noiseLoop after.timbre 0))
    (hperiod : after.low ≠ 0 → P (.place .noise .noisePeriod (noisePeriodOf after.low) 0))
    (hload : P (.place .noise .lengthLoad 0 0)) : ∀ w ∈ noiseWrites before after, P w := by
  simp only [noiseWrites, List.forall_mem_append]
  refine ⟨⟨⟨forall_gateWrites hgate, forall_whenNeeded_single hvolume⟩,
    forall_whenNeeded_single hloop⟩, forall_whenNeeded fun hneeded => ?_⟩
  rw [Bool.and_eq_true, bne_iff_ne] at hneeded
  exact List.forall_mem_cons.mpr ⟨hperiod hneeded.1, List.forall_mem_singleton.mpr hload⟩

end

structure Slot.FitsPulse (s : Slot) : Prop where
  high : s.high.toNat ≤ 7
  volume : s.volume.toNat ≤ 15
  timbre : s.timbre.toNat ≤ 3

/-- A slot whose volume and loop flag fit the registers of the noise; its period is cut to
fit. -/
structure Slot.FitsNoise (s : Slot) : Prop where
  volume : s.volume.toNat ≤ 15
  timbre : s.timbre.toNat ≤ 1

structure Frame.Fits (f : Frame) : Prop where
  pulse1 : f.pulse1.FitsPulse
  pulse2 : f.pulse2.FitsPulse
  triangle : f.triangle.high.toNat ≤ 7
  noise : f.noise.FitsNoise

theorem Frame.WellFormed.fits {limit : Nat} {f : Frame} (h : f.WellFormed limit)
    (hlimit : limit ≤ 0x7FF := by decide) : f.Fits where
  pulse1 := ⟨h.pulse1.high_le hlimit, h.pulse1.volume_le, h.pulse1.timbre⟩
  pulse2 := ⟨h.pulse2.high_le hlimit, h.pulse2.volume_le, h.pulse2.timbre⟩
  triangle := h.triangle.high
  noise := ⟨h.noise.volume_le, h.noise.timbre⟩

theorem taken_pulseWrites {v : Voice} (hv : v = .pulse1 ∨ v = .pulse2) {before after : Slot}
    (h : after.FitsPulse) : ∀ w ∈ pulseWrites v before after, w.taken = true := by
  have hduty : after.timbre.toNat < 4 := Nat.lt_succ_of_le h.timbre
  have hvolume : after.volume.toNat < 16 := Nat.lt_succ_of_le h.volume
  have hlow : after.low.toNat < 256 := after.low.toNat_lt
  have hhigh : after.high.toNat < 8 := Nat.lt_succ_of_le h.high
  rcases hv with rfl | rfl <;>
    exact forall_pulseWrites (taken_enableWrite _ _) (decide_eq_true hduty)
      (decide_eq_true hvolume) (decide_eq_true hlow) (decide_eq_true hhigh) rfl

theorem taken_triangleWrites {before after : Slot} (h : after.high.toNat ≤ 7) :
    ∀ w ∈ triangleWrites before after, w.taken = true := by
  have hlow : after.low.toNat < 256 := after.low.toNat_lt
  have hhigh : after.high.toNat < 8 := Nat.lt_succ_of_le h
  exact forall_triangleWrites (taken_enableWrite _ _) (decide_eq_true hlow)
    (decide_eq_true hhigh) rfl

theorem noisePeriodOf_lt {low : UInt8} (h : low ≠ 0) : (noisePeriodOf low).toNat < 16 := by
  have hpos : 0 < low.toNat := Nat.pos_of_ne_zero fun hzero => h (UInt8.toNat_inj.mp hzero)
  rw [noisePeriodOf]
  split
  · -- a period from 1 to 16 is written as 15 to 0
    rename_i hle
    rw [UInt8.toNat_sub_of_le _ _ hle]
    show 16 - low.toNat < 16
    omega
  · decide

theorem taken_noiseWrites {before after : Slot} (h : after.FitsNoise) :
    ∀ w ∈ noiseWrites before after, w.taken = true := by
  have hvolume : after.volume.toNat < 16 := Nat.lt_succ_of_le h.volume
  have hloop : after.timbre.toNat < 2 := Nat.lt_succ_of_le h.timbre
  exact forall_noiseWrites (taken_enableWrite _ _) (decide_eq_true hvolume)
    (decide_eq_true hloop) (fun hne => decide_eq_true (noisePeriodOf_lt hne)) rfl

theorem taken_frameWrites {before after : Frame} (h : after.Fits) :
    ∀ w ∈ frameWrites before after, w.taken = true := by
  simp only [frameWrites, List.forall_mem_append]
  exact ⟨⟨⟨taken_pulseWrites (.inl rfl) h.pulse1, taken_pulseWrites (.inr rfl) h.pulse2⟩,
    taken_triangleWrites h.triangle⟩, taken_noiseWrites h.noise⟩

theorem writesOf_append (v : Voice) (front rest : List ParamWrite) :
    writesOf v (front ++ rest) = writesOf v front ++ writesOf v rest :=
  List.filter_append ..

theorem writesOf_solely {v : Voice} {writes : List ParamWrite} (h : ∀ w ∈ writes, w.Solely v)
    (u : Voice) : writesOf u writes = if u = v then writes else [] := by
  unfold writesOf
  split
  · rename_i heq
    exact List.filter_eq_self.mpr fun w hw => by rw [h w hw u, decide_eq_true heq]
  · rename_i hne
    exact List.filter_eq_nil_iff.mpr fun w hw => by
      rw [h w hw u, decide_eq_false hne]; exact Bool.false_ne_true

theorem solely_pulseWrites (v : Voice) (before after : Slot) :
    ∀ w ∈ pulseWrites v before after, w.Solely v :=
  forall_pulseWrites (solely_enableWrite v _) (solely_place v _ _ _) (solely_place v _ _ _)
    (solely_place v _ _ _) (solely_place v _ _ _) (solely_place v _ _ _)

theorem solely_triangleWrites (before after : Slot) :
    ∀ w ∈ triangleWrites before after, w.Solely .triangle :=
  forall_triangleWrites (solely_enableWrite _ _) (solely_place .triangle _ _ _)
    (solely_place .triangle _ _ _) (solely_place .triangle _ _ _)

theorem solely_noiseWrites (before after : Slot) :
    ∀ w ∈ noiseWrites before after, w.Solely .noise :=
  forall_noiseWrites (solely_enableWrite _ _) (solely_place .noise _ _ _)
    (solely_place .noise _ _ _) (fun _ => solely_place .noise _ _ _) (solely_place .noise _ _ _)

theorem writesOf_frameWrites (before after : Frame) :
    writesOf .pulse1 (frameWrites before after) =
      pulseWrites .pulse1 before.pulse1 after.pulse1 ∧
    writesOf .pulse2 (frameWrites before after) =
      pulseWrites .pulse2 before.pulse2 after.pulse2 ∧
    writesOf .triangle (frameWrites before after) =
      triangleWrites before.triangle after.triangle ∧
    writesOf .noise (frameWrites before after) = noiseWrites before.noise after.noise := by
  simp only [frameWrites, writesOf_append, writesOf_solely (solely_pulseWrites _ _ _),
    writesOf_solely (solely_triangleWrites _ _), writesOf_solely (solely_noiseWrites _ _),
    reduceCtorEq, if_true, if_false, List.nil_append, List.append_nil, and_self]

theorem ParamWrite.Solely.hear_sequencer {v : Voice} {w : ParamWrite} (h : w.Solely v)
    (s : Sequencer) : s.hear w = s := by
  have haims : w.aims v = true := by rw [h v, decide_eq_true rfl]
  have hchannel : w.channel ≠ .frameCounter := by
    intro hc
    rw [ParamWrite.aims, hc] at haims
    cases v <;> cases haims
  rw [Sequencer.hear, if_neg fun hmode => hchannel hmode.1]

theorem sequencer_frameWrites (before after : Frame) (a : Apu) :
    (a.setAll (frameWrites before after)).sequencer = a.sequencer := by
  have hstill : ∀ {v : Voice} {writes : List ParamWrite}, (∀ w ∈ writes, w.Solely v) →
      ∀ s : Sequencer, writes.foldl Sequencer.hear s = s := by
    intro v writes hsolely s
    induction writes with
    | nil => rfl
    | cons w writes ih =>
      rw [List.forall_mem_cons] at hsolely
      rw [List.foldl_cons, hsolely.1.hear_sequencer]
      exact ih hsolely.2
  rw [Apu.sequencer_setAll, frameWrites, List.foldl_append, List.foldl_append, List.foldl_append,
    hstill (solely_pulseWrites _ _ _), hstill (solely_pulseWrites _ _ _),
    hstill (solely_triangleWrites _ _), hstill (solely_noiseWrites _ _)]

/-! ## Quarter frames -/

/-- The sequencer behind `n` samples without a mode write. -/
def Clock.sequencerAt (c : Clock) : Nat → Sequencer
  | 0 => { region := c.region }
  | n + 1 => (c.sequencerAt n).advance

/-- Whether a quarter frame fires at sample `n` if no mode is written. -/
def Clock.quarterAt (c : Clock) (n : Nat) : Bool := (c.sequencerAt n).tick.quarter

/-- Whether a quarter frame fires at a sample behind `first` and not behind `last`. -/
def Clock.quarterWithin (c : Clock) (first last : Nat) : Bool :=
  (List.range (last + 1)).any fun q => first < q && c.quarterAt q

namespace Clock

theorem quarterWithin_iff {c : Clock} {first last : Nat} :
    c.quarterWithin first last = true ↔ ∃ q, first < q ∧ q ≤ last ∧ c.quarterAt q = true := by
  rw [quarterWithin, List.any_eq_true]
  constructor
  · intro h
    obtain ⟨q, hq, h⟩ := h
    rw [Bool.and_eq_true, decide_eq_true_iff] at h
    exact ⟨q, h.1, Nat.le_of_lt_succ (List.mem_range.mp hq), h.2⟩
  · intro h
    obtain ⟨q, hfirst, hlast, h⟩ := h
    refine ⟨q, List.mem_range.mpr (Nat.lt_succ_of_le hlast), ?_⟩
    rw [Bool.and_eq_true, decide_eq_true_iff]
    exact ⟨hfirst, h⟩

theorem quarterWithin_succ (c : Clock) (first last : Nat) :
    c.quarterWithin first (last + 1) =
      (c.quarterWithin first last || (decide (first ≤ last) && c.quarterAt (last + 1))) := by
  rw [quarterWithin, List.range_succ, List.any_append, quarterWithin, List.any_cons,
    List.any_nil, Bool.or_false]
  congr 2
  exact decide_eq_decide.mpr Nat.lt_succ_iff

theorem quarterWithin_of_le (c : Clock) {first last : Nat} (h : last ≤ first) :
    c.quarterWithin first last = false := by
  rw [Bool.eq_false_iff, ne_eq, quarterWithin_iff]
  intro h
  obtain ⟨q, hfirst, hlast, -⟩ := h
  omega

end Clock

/-! ## The chip behind the writes of a frame -/

/-- The chip holds frame `f` at sample `t` of a run in which the triangle is first
set at sample `first`. Until then the triangle is silent; from then on every
quarter frame fills its linear counter. -/
structure Apu.Tracks (clock : Clock) (first t : Nat) (f : Frame) (a : Apu) : Prop where
  pulse1 : a.pulse1.Holds f.pulse1
  pulse2 : a.pulse2.Holds f.pulse2
  triangle : a.triangle.Holds f.triangle
  noise : a.noise.Holds f.noise
  sequencer : a.sequencer = clock.sequencerAt (t + 1)
  past : a.triangle.reload = true → first ≤ t
  ahead : a.triangle.reload = false → f.triangle.period = 0 ∧ t ≤ first
  linear : a.triangle.linear = if clock.quarterWithin first t then 127 else 0

theorem triangle_frameWrites (before after : Frame) (a : Apu) :
    (a.setAll (frameWrites before after)).triangle =
      (triangleWrites before.triangle after.triangle).foldl Triangle.hear a.triangle := by
  rw [Apu.triangle_setAll, (writesOf_frameWrites before after).2.2.1]

theorem reload_frameWrites (before after : Frame) (a : Apu) :
    (a.setAll (frameWrites before after)).triangle.reload =
      (a.triangle.reload || after.triangle.period != before.triangle.period) := by
  rw [triangle_frameWrites, Triangle.foldl_triangleWrites]

/-- What is left of a frame behind the scribe, once the triangle sounds. -/
def Frame.scribed (f : Frame) : Frame :=
  { f with pulse1 := f.pulse1.scribed, pulse2 := f.pulse2.scribed }

theorem Frame.WellFormed.scribed_eq {f : Frame} (h : f.WellFormed 2032) : f.scribed = f := by
  rw [scribed, h.pulse1.scribed_eq, h.pulse2.scribed_eq]

namespace Apu.Tracks

variable {clock : Clock} {first t : Nat} {f : Frame} {a : Apu}

theorem step (h : a.Tracks clock first t f)
    (hahead : a.triangle.reload = false → t + 1 ≤ first) :
    a.step.Tracks clock first (t + 1) f := by
  have htick : a.nextTick.quarter = clock.quarterAt (t + 1) := by
    rw [nextTick, h.sequencer]
    rfl
  have htriangle : a.step.triangle = { a.triangle with
      linear := if clock.quarterAt (t + 1) then
        (if a.triangle.reload then 127 else a.triangle.linear - 1) else a.triangle.linear } := by
    show a.triangle.tick a.nextTick = _
    rw [h.triangle.tick_eq, htick]
  have hsequencer : a.step.sequencer = clock.sequencerAt (t + 1 + 1) := by
    show a.sequencer.advance = _
    rw [h.sequencer]
    rfl
  refine ⟨h.pulse1.tick _, h.pulse2.tick _, h.triangle.tick _, h.noise.tick _, hsequencer,
    ?_, ?_, ?_⟩
  · rw [htriangle]
    intro hreload
    exact Nat.le_succ_of_le (h.past hreload)
  · rw [htriangle]
    intro hreload
    exact ⟨(h.ahead hreload).1, hahead hreload⟩
  · rw [htriangle]
    show (if clock.quarterAt (t + 1) then
      (if a.triangle.reload then 127 else a.triangle.linear - 1) else a.triangle.linear) = _
    cases hreload : a.triangle.reload with
    | true =>
      rw [Clock.quarterWithin_succ, decide_eq_true (h.past hreload), Bool.true_and, h.linear]
      cases clock.quarterAt (t + 1) with
      | true => simp only [if_true, Bool.or_true]
      | false => simp only [Bool.false_eq_true, if_false, Bool.or_false]
    | false =>
      -- the triangle was never set, and its counter runs dry at zero
      have hle := hahead hreload
      rw [clock.quarterWithin_of_le hle, h.linear, clock.quarterWithin_of_le (h.ahead hreload).2]
      simp only [Bool.false_eq_true, if_false, Nat.zero_sub, ite_self]

theorem step_reload (h : a.Tracks clock first t f) :
    a.step.triangle.reload = a.triangle.reload := by
  show (a.triangle.tick a.nextTick).reload = _
  rw [h.triangle.tick_eq]

theorem follow {limit : Nat} {before after : Frame} (h : a.Tracks clock first t before)
    (hbefore : before.WellFormed limit) (hafter : after.WellFormed limit)
    (hfirst : a.triangle.reload = false → after.triangle.period ≠ 0 → first = t)
    (hlimit : limit ≤ 0x7FF := by decide) :
    (a.setAll (frameWrites before after)).Tracks clock first t after := by
  obtain ⟨hpulse1, hpulse2, -, hnoise⟩ := writesOf_frameWrites before after
  have hreload := reload_frameWrites before after a
  have hlinear : (a.setAll (frameWrites before after)).triangle.linear = a.triangle.linear := by
    rw [triangle_frameWrites, Triangle.foldl_triangleWrites]
  refine ⟨?_, ?_, ?_, ?_, ?_, ?_, ?_, ?_⟩
  · rw [pulse1_setAll, hpulse1]
    exact h.pulse1.follow hbefore.pulse1 hafter.pulse1 _ hlimit
  · rw [pulse2_setAll, hpulse2]
    exact h.pulse2.follow hbefore.pulse2 hafter.pulse2 _ hlimit
  · rw [triangle_frameWrites]
    exact h.triangle.follow hafter.triangle
  · rw [noise_setAll, hnoise]
    exact h.noise.follow hbefore.noise hafter.noise
  · rw [sequencer_frameWrites, h.sequencer]
  · rw [hreload]
    cases hwas : a.triangle.reload with
    | true => exact fun _ => h.past hwas
    | false =>
      -- a change from silence is the first note of the triangle
      intro hchanged
      rw [Bool.false_or, bne_iff_ne, (h.ahead hwas).1] at hchanged
      exact Nat.le_of_eq (hfirst hwas hchanged)
  · rw [hreload]
    intro hsame
    rw [Bool.or_eq_false_iff, bne_eq_false_iff_eq] at hsame
    obtain ⟨hperiod, hle⟩ := h.ahead hsame.1
    exact ⟨hsame.2.trans hperiod, hle⟩
  · rw [hlinear, h.linear]

/-- What the chip shows while it holds a frame. -/
theorem frame_eq {limit : Nat} (h : a.Tracks clock first t f) (hf : f.WellFormed limit) :
    a.frame = if clock.quarterWithin first t then f.scribed
      else { f.scribed with triangle := Slot.zero } := by
  have hlinear := h.linear
  rw [Apu.frame, h.pulse1.slot_eq hf.pulse1, h.pulse2.slot_eq hf.pulse2, h.noise.slot hf.noise]
  cases hfilled : clock.quarterWithin first t with
  | true =>
    rw [hfilled, if_pos rfl] at hlinear
    rw [if_pos rfl, h.triangle.slot hf.triangle (by rw [hlinear]; decide)]
    rfl
  | false =>
    rw [hfilled, if_neg Bool.false_ne_true] at hlinear
    rw [if_neg Bool.false_ne_true, Triangle.slot_of_linear_eq_zero hlinear]
    rfl

theorem frame (h : a.Tracks clock first t f) (hf : f.WellFormed 2032) :
    a.frame = if clock.quarterWithin first t then f else { f with triangle := Slot.zero } := by
  rw [h.frame_eq hf, hf.scribed_eq]

theorem idle (h : a.Tracks clock first t f) (n : Nat)
    (hahead : a.triangle.reload = false → t + n ≤ first) :
    (∀ (k : Nat) (b : Apu), (played a (List.replicate n []))[k]? = some b →
      b.Tracks clock first (t + (k + 1)) f) ∧
    (playedTo a (List.replicate n [])).Tracks clock first (t + n) f ∧
    (playedTo a (List.replicate n [])).triangle.reload = a.triangle.reload := by
  induction n generalizing a t with
  | zero =>
    refine ⟨?_, h, rfl⟩
    intro k b hb
    cases hb
  | succ n ih =>
    have hstep : a.step.Tracks clock first (t + 1) f := by
      apply h.step
      intro hreload
      have hle := hahead hreload
      omega
    have hrest := ih hstep fun hreload => by
      have hle := hahead (h.step_reload ▸ hreload)
      omega
    rw [List.replicate_succ, played_cons, setAll_nil]
    refine ⟨?_, ?_, hrest.2.2.trans h.step_reload⟩
    · intro k b hb
      cases k with
      | zero =>
        cases hb
        exact hstep
      | succ k =>
        have hk := hrest.1 k b hb
        rwa [Nat.add_assoc, Nat.add_comm 1] at hk
    · have hlast := hrest.2.1
      rwa [Nat.add_assoc, Nat.add_comm 1] at hlast

end Apu.Tracks

/-! ## The chip behind the spans of a score -/

/-- The chip tracks every span of a score from where it starts. -/
theorem tracks_spans {limit : Nat} {clock : Clock} {first : Nat} {spans : List (Frame × Nat)}
    {a : Apu} {pending : List ParamWrite} {before : Frame} {t : Nat}
    (h : (a.step.setAll pending).Tracks clock first t before)
    (hbefore : before.WellFormed limit) (hspans : ∀ span ∈ spans, span.1.WellFormed limit)
    (honset : (a.step.setAll pending).triangle.reload = false → first = t + onset spans)
    {i n k : Nat} {f : Frame} {b : Apu} (hspan : spans[i]? = some (f, n)) (hk : k < n)
    (hb : (played a (batches pending (spanSteps before spans)))[
      startOf (spans.map Prod.snd) i + k]? = some b) (hlimit : limit ≤ 0x7FF := by decide) :
    b.Tracks clock first (t + (startOf (spans.map Prod.snd) i + k)) f := by
  induction spans generalizing a pending before t i with
  | nil => cases hspan
  | cons span rest ih =>
    obtain ⟨g, m⟩ := span
    rw [List.forall_mem_cons] at hspans
    have hnow : (a.step.setAll (pending ++ frameWrites before g)).Tracks clock first t g := by
      rw [Apu.setAll_append]
      refine h.follow hbefore hspans.1 ?_ hlimit
      intro hreload hperiod
      have hsets : g.setsTriangle = true := bne_iff_ne.mpr hperiod
      rw [honset hreload, onset, if_pos hsets, Nat.add_zero]
    -- a triangle that this frame leaves unset is first set by a later one
    have hlater : (a.step.setAll (pending ++ frameWrites before g)).triangle.reload = false →
        first = t + m + onset rest := by
      intro hreload
      have hperiod := (hnow.ahead hreload).1
      rw [Apu.setAll_append, reload_frameWrites, Bool.or_eq_false_iff] at hreload
      have hsilent : g.setsTriangle = false := bne_eq_false_iff_eq.mpr hperiod
      rw [honset hreload.1, onset, hsilent, if_neg Bool.false_ne_true, Nat.add_assoc]
    rw [spanSteps, batches_acts] at hb
    cases m with
    | zero =>
      -- no sample passes, and the writes stay in hand for the next span
      cases i with
      | zero =>
        cases hspan
        cases hk
      | succ i =>
        rw [List.map_cons, startOf_succ, Nat.zero_add] at hb ⊢
        exact ih hnow hspans.1 hspans.2 hlater hspan hb
    | succ m =>
      rw [batches, played_cons, played_append] at hb
      have hahead : (a.step.setAll (pending ++ frameWrites before g)).triangle.reload = false →
          t + m + 1 ≤ first := by
        intro hreload
        rw [hlater hreload]
        exact Nat.le_add_right _ _
      have hidle := hnow.idle m fun hreload => Nat.le_of_succ_le (hahead hreload)
      cases i with
      | zero =>
        -- the first sample takes the writes, the others only step
        cases hspan
        rw [startOf_zero, Nat.zero_add] at hb ⊢
        cases k with
        | zero =>
          cases hb
          exact hnow
        | succ k =>
          rw [List.getElem?_cons_succ, List.getElem?_append_left] at hb
          · exact hidle.1 k b hb
          · rw [length_played, List.length_replicate]
            omega
      | succ i =>
        rw [List.map_cons, startOf_succ] at hb ⊢
        have hindex : m + 1 + startOf (rest.map Prod.snd) i + k =
            m + (startOf (rest.map Prod.snd) i + k) + 1 := by omega
        rw [hindex, List.getElem?_cons_succ, List.getElem?_append_right, length_played,
          List.length_replicate, Nat.add_sub_cancel_left] at hb
        · have hnext : ((playedTo (a.step.setAll (pending ++ frameWrites before g))
              (List.replicate m [])).step.setAll []).Tracks clock first (t + (m + 1)) g :=
            hidle.2.1.step fun hreload => hahead (hidle.2.2.symm.trans hreload)
          have hgoal := ih hnext hspans.1 hspans.2 (fun hreload => hlater
            ((hidle.2.1.step_reload.trans hidle.2.2).symm.trans hreload)) hspan hb
          rwa [Nat.add_assoc, ← Nat.add_assoc (m + 1)] at hgoal
        · rw [length_played, List.length_replicate]
          omega

def openedPulse (onesComplement : Bool) : Pulse :=
  { onesComplement := onesComplement, volume := { constant := true }, sweep := { shift := 7 }
    length := { enabled := false, halt := true } }

/-- The chip at the first sample, behind the opening writes. -/
def Apu.opened (clock : Clock) : Apu where
  clock := clock
  pulse1 := openedPulse true
  pulse2 := openedPulse false
  triangle := { reloadValue := 127, length := { enabled := false, halt := true } }
  noise := { volume := { constant := true }, length := { enabled := false, halt := true } }
  sequencer := clock.sequencerAt 1

theorem Apu.setAll_opening (clock : Clock) :
    (Apu.new clock).step.setAll opening = Apu.opened clock := by
  cases clock <;> rfl

theorem openedPulse_at (onesComplement : Bool) :
    (openedPulse onesComplement).At { enabled := false, halt := true } 0 0 0 :=
  ⟨⟨rfl, rfl, rfl, rfl, by cases onesComplement <;> decide⟩, rfl, rfl, rfl, rfl⟩

theorem holds_shut : LengthCounter.Holds false { enabled := false, halt := true } :=
  ⟨rfl, rfl, by decide⟩

/-- Power-on and the opening writes leave every voice silent and plain. -/
theorem tracks_opening (clock : Clock) (first : Nat) :
    ((Apu.new clock).step.setAll opening).Tracks clock first 0 Frame.zero ∧
      ((Apu.new clock).step.setAll opening).triangle.reload = false := by
  have hzero : Slot.zero.period = 0 := by decide
  have hlength :
      LengthCounter.Holds (Slot.zero.period != 0) { enabled := false, halt := true } := by
    rw [hzero]
    exact holds_shut
  have hpulse : ∀ ones : Bool, (openedPulse ones).Holds Slot.zero := by
    intro ones
    have hat := openedPulse_at ones
    exact { hat with length := hlength, level := fun _ => rfl, timer := hzero.symm }
  rw [Apu.setAll_opening]
  refine ⟨⟨hpulse true, hpulse false, ⟨hlength, rfl, hzero.symm⟩, ?_, rfl, ?_, ?_, ?_⟩, rfl⟩
  · exact ⟨rfl, holds_shut, fun _ => rfl, rfl, fun h => absurd rfl h⟩
  · intro h
    cases h
  · exact fun _ => ⟨hzero, Nat.zero_le first⟩
  · rw [clock.quarterWithin_of_le (Nat.zero_le first)]
    rfl

theorem wellFormed_zero {limit : Nat} : Frame.WellFormed limit Frame.zero :=
  ⟨⟨.inl ⟨rfl, rfl⟩, by decide⟩, ⟨.inl ⟨rfl, rfl⟩, by decide⟩, ⟨by decide, rfl, rfl⟩,
    ⟨rfl, .inl ⟨rfl, rfl⟩, by decide⟩⟩

theorem taken_spans {before : Frame} {spans : List (Frame × Nat)}
    (h : ∀ span ∈ spans, span.1.Fits) :
    ∀ w ∈ writesIn (spanSteps before spans), w.taken = true := by
  induction spans generalizing before with
  | nil =>
    intro w hw
    cases hw
  | cons span rest ih =>
    obtain ⟨f, n⟩ := span
    rw [List.forall_mem_cons] at h
    rw [spanSteps, writesIn_append, writesIn_acts, writesIn_wait, List.forall_mem_append]
    exact ⟨taken_frameWrites h.1, ih h.2⟩

theorem taken_spanSteps {limit : Nat} {before : Frame} {spans : List (Frame × Nat)}
    (hspans : ∀ span ∈ spans, span.1.WellFormed limit) (hlimit : limit ≤ 0x7FF := by decide) :
    ∀ w ∈ writesIn (spanSteps before spans), w.taken = true :=
  taken_spans fun span hspan => (hspans span hspan).fits hlimit

theorem taken_score {s : RawScore} (h : ∀ f ∈ s.frames, f.Fits) :
    ∀ w ∈ writesIn (opening.map .act ++ s.frameSteps), w.taken = true := by
  have hspans := RawScore.forall_spans h (wellFormed_zero.fits (Nat.zero_le 0x7FF))
  rw [s.frameSteps_eq, writesIn_append, writesIn_acts, List.forall_mem_append]
  exact ⟨by decide, taken_spans hspans⟩

theorem taken_scribe {limit : Nat} {s : RawScore} (h : ∀ f ∈ s.frames, f.WellFormed limit)
    (hlimit : limit ≤ 0x7FF := by decide) :
    ∀ w ∈ writesIn (opening.map .act ++ s.frameSteps), w.taken = true :=
  taken_score fun f hf => (h f hf).fits hlimit

theorem tracks_score {limit : Nat} {s : RawScore} (h : ∀ f ∈ s.frames, f.WellFormed limit)
    {i n k : Nat}
    {f : Frame} {b : Apu} (hspan : s.spans[i]? = some (f, n)) (hk : k < n)
    (hb : (played (Apu.new s.clock) (batches [] (opening.map .act ++ s.frameSteps)))[
      startOf (waitsIn s.scribe) i + k]? = some b) (hlimit : limit ≤ 0x7FF := by decide) :
    b.Tracks s.clock (onset s.spans) (startOf (waitsIn s.scribe) i + k) f := by
  rw [batches_acts, s.frameSteps_eq] at hb
  rw [s.waitsIn_scribe] at hb ⊢
  have hopening := (tracks_opening s.clock (onset s.spans)).1
  have hspans := RawScore.forall_spans h wellFormed_zero
  have htracks := tracks_spans hopening wellFormed_zero hspans
    (fun _ => (Nat.zero_add _).symm) hspan hk hb hlimit
  rwa [Nat.zero_add] at htracks

theorem triangle_eq_zero {s : RawScore} (h : ∀ f ∈ s.frames, f.WellFormed 2032)
    (hset : ¬ ∃ f ∈ s.frames, f.setsTriangle) (i : Nat) :
    (s.frameAt i).triangle = Slot.zero := by
  have hwell := RawScore.forall_frameAt h wellFormed_zero i
  have hperiod : (s.frameAt i).triangle.period = 0 := by
    apply RawScore.forall_frameAt (P := fun f => f.triangle.period = 0)
    · intro f hf
      apply Decidable.byContradiction
      intro hne
      exact hset ⟨f, hf, bne_iff_ne.mpr hne⟩
    · decide
  rw [Slot.eq_silent hperiod hwell.triangle.volume, hwell.triangle.timbre]
  rfl

/-- A score of well-formed frames is scribed to a log that is replayed, and what the
log plays behind a frame is that frame: at each sample of the wait behind it, and
of the wait behind all frames, the voices show the frame's slots. Only the triangle
stays silent until a quarter frame has fired behind the sample at which it is first
set. -/
theorem replay_scribe (s : RawScore) (h : ∀ f ∈ s.frames, f.WellFormed 2032) :
    ∃ played, replay s.scribe = .ok played ∧
      played.frames.length = waitTotal s.scribe ∧
      (s.frames.length ≤ (waitsIn s.scribe).length ∧
        (waitsIn s.scribe).length ≤ s.frames.length + 1) ∧
      ∀ i n k, (waitsIn s.scribe)[i]? = some n → k < n →
        let t := startOf (waitsIn s.scribe) i + k
        played.frames[t]? = some
          (if s.clock.quarterWithin s.triangleOnset t then s.frameAt i
            else { s.frameAt i with triangle := Slot.zero }) := by
  let t : Timeline ParamWrite := ⟨s.clock, opening.map .act ++ s.frameSteps⟩
  have hspans : ∀ span ∈ s.spans, span.1.WellFormed 2032 := RawScore.forall_spans h wellFormed_zero
  have htaken : ∀ w ∈ writesIn t.steps, w.taken = true := by
    show ∀ w ∈ writesIn (opening.map .act ++ s.frameSteps), w.taken = true
    rw [s.frameSteps_eq, writesIn_append, writesIn_acts, List.forall_mem_append]
    exact ⟨by decide, taken_spanSteps hspans⟩
  have hreplay := replay_eq_ok.mpr ⟨t, rfl, htaken, rfl⟩
  refine ⟨_, hreplay, length_frames hreplay, s.length_waitsIn_scribe, ?_⟩
  intro i n k hn hk
  dsimp only
  have hlt : startOf (waitsIn s.scribe) i + k <
      (played (Apu.new s.clock) (batches [] t.steps)).length := by
    have hlength := length_frames hreplay
    rw [List.length_map] at hlength
    rw [hlength, waitTotal_eq]
    exact startOf_add_lt hn hk
  obtain ⟨b, hb⟩ : ∃ b, (played (Apu.new s.clock) (batches [] t.steps))[
      startOf (waitsIn s.scribe) i + k]? = some b := ⟨_, List.getElem?_eq_getElem hlt⟩
  rw [List.getElem?_map, hb, Option.map_some]
  obtain ⟨⟨f, m⟩, hspan, rfl⟩ : ∃ span, s.spans[i]? = some span ∧ span.2 = n := by
    rw [s.waitsIn_scribe, List.getElem?_map, Option.map_eq_some_iff] at hn
    exact hn
  have hframe := RawScore.fst_of_spans hspan
  subst hframe
  have hwell := RawScore.forall_frameAt h wellFormed_zero i
  rw [(tracks_score h hspan hk hb).frame hwell]
  by_cases hset : ∃ f ∈ s.frames, f.setsTriangle
  · rw [RawScore.onset_spans hset]
  · -- a triangle that is never set is silent on either side of the condition
    have hsame : { s.frameAt i with triangle := Slot.zero } = s.frameAt i := by
      rw [← triangle_eq_zero h hset i]
    rw [hsame, ite_self, ite_self]

/-- A note on three voices that stops, with a change of duty in silence: 1500 samples, of
which the tenth comes before the first quarter frame. -/
theorem replay_scribe_note :
    let attack : Frame := ⟨⟨1, 0x20, 12, 2⟩, ⟨0, 0, 0, 1⟩, ⟨0, 0x80, 0, 0⟩, ⟨0, 13, 6, 1⟩⟩
    let held : Frame := ⟨⟨7, 0xF0, 12, 2⟩, ⟨0, 8, 15, 3⟩, ⟨7, 0xFF, 0, 0⟩, ⟨0, 16, 6, 0⟩⟩
    let release : Frame := ⟨⟨0, 0, 0, 3⟩, ⟨0, 0, 0, 1⟩, ⟨0, 0, 0, 0⟩, ⟨0, 0, 0, 1⟩⟩
    let s : RawScore :=
      { clock := .ntsc, rate := 100, sampleCount := 1500, frames := [attack, held, release] }
    ∃ played, replay s.scribe = .ok played ∧ played.frames.length = 1500 ∧
      played.frames[10]? = some { attack with triangle := Slot.zero } ∧
      played.frames[600]? = some held ∧ played.frames[1499]? = some release := by
  intro attack held release s
  have hwell : ∀ f ∈ s.frames, f.WellFormed 2032 := by
    intro f hf
    simp only [s, List.mem_cons, List.not_mem_nil, or_false] at hf
    rcases hf with rfl | rfl | rfl
    · exact ⟨⟨.inr (by decide), by decide⟩, ⟨.inl (by decide), by decide⟩,
        ⟨by decide, rfl, rfl⟩, ⟨rfl, .inr (by decide), by decide⟩⟩
    · exact ⟨⟨.inr (by decide), by decide⟩, ⟨.inr (by decide), by decide⟩,
        ⟨by decide, rfl, rfl⟩, ⟨rfl, .inr (by decide), by decide⟩⟩
    · exact ⟨⟨.inl (by decide), by decide⟩, ⟨.inl (by decide), by decide⟩,
        ⟨by decide, rfl, rfl⟩, ⟨rfl, .inl (by decide), by decide⟩⟩
  have hwaits : waitsIn s.scribe = [441, 441, 441, 177] := by decide +kernel
  have honset : s.triangleOnset = 0 := by decide +kernel
  obtain ⟨played, hplayed, hlength, -, hframes⟩ := replay_scribe s hwell
  rw [waitTotal_eq, hwaits] at hlength
  rw [hwaits, honset] at hframes
  have hearly : played.frames[10]? =
      some (if s.clock.quarterWithin 0 10 then attack
        else { attack with triangle := Slot.zero }) :=
    hframes 0 441 10 rfl (by decide)
  have hheld : played.frames[600]? =
      some (if s.clock.quarterWithin 0 600 then held else { held with triangle := Slot.zero }) :=
    hframes 1 441 159 rfl (by decide)
  have hlast : played.frames[1499]? =
      some (if s.clock.quarterWithin 0 1499 then release
        else { release with triangle := Slot.zero }) :=
    hframes 3 177 176 rfl (by decide)
  rw [if_neg (by decide +kernel)] at hearly
  rw [if_pos (by decide +kernel)] at hheld hlast
  exact ⟨played, hplayed, hlength, hearly, hheld, hlast⟩

end ApuScore

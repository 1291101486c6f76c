import ApuScore.Proofs.Bounds
import ApuScore.Proofs.Schedule
/-
  What every reachable state of the chip keeps, and what every replay shows.

  The reachable states are those that samples and accepted writes lead to from
  power-on, in any order. `Apu.Bounded` holds at power-on and is kept by a sample
  and by an accepted write, so it holds of all of them. From it follow that no
  arithmetic of the units leaves its width (`Apu.NoWrap`) and that every frame has
  one of the shapes a score allows (`Frame.WellFormed`). The count of steps alone grows
  without bound; a chip whose count wraps shows the same (`frames_playedWrapped`).
-/

namespace ApuScore

/-- The states that samples and accepted writes lead to from power-on. -/
inductive Reachable (clock : Clock) : Apu → Prop where
  | new : Reachable clock (Apu.new clock)
  | step {a : Apu} : Reachable clock a → Reachable clock a.step
  | write {a b : Apu} {c : Channel} {p : Param} {value : UInt8} :
    Reachable clock a → a.write c p value = .ok b → Reachable clock b

structure Apu.Bounded (a : Apu) : Prop where
  pulse1 : a.pulse1.Bounded
  pulse2 : a.pulse2.Bounded
  triangle : a.triangle.Bounded
  noise : a.noise.Bounded
  sequencer : a.sequencer.Bounded

namespace Apu.Bounded

theorem new (clock : Clock) : (Apu.new clock).Bounded := by
  have hvolume : VolumeUnit.Bounded {} := ⟨by decide, by decide, by decide⟩
  have hsweep : Sweep.Bounded {} :=
    ⟨by decide, by decide, by decide, by decide, by decide, by decide⟩
  have hpulse : ∀ ones : Bool, Pulse.Bounded { onesComplement := ones } := fun _ =>
    ⟨Nat.zero_le 3, Nat.zero_le _, hvolume, hsweep⟩
  exact ⟨hpulse true, hpulse false, ⟨Nat.zero_le _, Nat.zero_le 127, Nat.zero_le _⟩,
    ⟨Nat.zero_le 15, hvolume⟩, ⟨Nat.zero_le _⟩⟩

variable {a : Apu} (h : a.Bounded)
include h

theorem step : a.step.Bounded :=
  ⟨h.pulse1.tick _, h.pulse2.tick _, h.triangle.tick _, h.noise.tick _, h.sequencer.advance⟩

theorem enable (p : Param) (on : Bool) : (a.enable p on).Bounded := by
  cases p with
  | enablePulse1 => exact { h with pulse1 := h.pulse1.gate _ }
  | enablePulse2 => exact { h with pulse2 := h.pulse2.gate _ }
  | enableTriangle => exact { h with triangle := h.triangle.gate _ }
  | enableNoise => exact { h with noise := h.noise.gate _ }
  | _ => exact h

theorem set {c : Channel} {p : Param} {value : UInt8} (htaken : c.takes p value = true) :
    (a.set c p value).Bounded := by
  cases c with
  | pulse1 => exact { h with pulse1 := h.pulse1.write htaken }
  | pulse2 => exact { h with pulse2 := h.pulse2.write htaken }
  | triangle => exact { h with triangle := h.triangle.write htaken }
  | noise => exact { h with noise := h.noise.write htaken }
  | dmc => exact h
  | status => exact h.enable p _
  | frameCounter =>
    unfold Apu.set
    dsimp only
    split
    · exact { h with sequencer := Sequencer.bounded_select _ _ }
    · exact h

end Apu.Bounded

theorem Reachable.bounded {clock : Clock} {a : Apu} (h : Reachable clock a) : a.Bounded := by
  induction h with
  | new => exact Apu.Bounded.new clock
  | step _ ih => exact ih.step
  | write _ hwrite ih =>
    obtain ⟨htaken, rfl⟩ := Apu.write_eq_ok.mp hwrite
    exact ih.set htaken

theorem Reachable.setAll {clock : Clock} {a : Apu} (h : Reachable clock a)
    {writes : List ParamWrite} (htaken : ∀ w ∈ writes, w.taken) :
    Reachable clock (a.setAll writes) := by
  induction writes generalizing a with
  | nil => exact h
  | cons w writes ih =>
    rw [Apu.setAll_cons]
    apply ih
    · exact h.write (Apu.write_eq_ok.mpr ⟨htaken w List.mem_cons_self, rfl⟩)
    · exact fun w hw => htaken w (List.mem_cons_of_mem _ hw)

theorem Reachable.played {clock : Clock} {a : Apu} (h : Reachable clock a)
    {runs : List (List ParamWrite)} (htaken : ∀ writes ∈ runs, ∀ w ∈ writes, w.taken) :
    ∀ b ∈ played a runs, Reachable clock b := by
  induction runs generalizing a with
  | nil =>
    intro b hb
    cases hb
  | cons writes runs ih =>
    have hfirst : Reachable clock (a.step.setAll writes) :=
      h.step.setAll (htaken writes List.mem_cons_self)
    intro b hb
    rcases List.mem_cons.mp hb with rfl | hb
    · exact hfirst
    · exact ih hfirst (fun l hl => htaken l (List.mem_cons_of_mem _ hl)) b hb

/-! ## No arithmetic leaves its width -/

/-- Counting up the divider, a byte, does not wrap. -/
def Envelope.NoWrap (e : Envelope) : Prop := (e.divider + 1) % 256 = e.divider + 1

/-- The shift is below the width of the adder, and the period fits 16 bits where the
sweep moves it, its upper part a byte. -/
structure Pulse.NoWrap (p : Pulse) : Prop where
  divider : p.volume.envelope.NoWrap
  shift : p.sweep.shift % 32 = p.sweep.shift
  glide : p.glide.timer < 0x10000
  high : p.timer / 256 < 256

/-- The period that a frame shows, 16 less the register, is not below zero. -/
structure Noise.NoWrap (n : Noise) : Prop where
  divider : n.volume.envelope.NoWrap
  shown : (16 - n.period).toNat + n.period.toNat = 16

def Sequencer.NoWrap (s : Sequencer) : Prop := s.phase + s.rate < 0x100000000

/-- No arithmetic of the next sample or of its frame leaves its width. The sequencer's
count of steps is not part of it: only its parity is read, and that is the same if the
count wraps (`frames_playedWrapped`). -/
structure Apu.NoWrap (a : Apu) : Prop where
  pulse1 : a.pulse1.NoWrap
  pulse2 : a.pulse2.NoWrap
  triangle : a.triangle.timer / 256 < 256
  noise : a.noise.NoWrap
  sequencer : a.sequencer.NoWrap

theorem Envelope.Bounded.noWrap {e : Envelope} (h : e.Bounded) : e.NoWrap := by
  have hdivider := h.divider
  unfold Envelope.NoWrap
  omega

theorem Pulse.Bounded.noWrap {p : Pulse} (h : p.Bounded) : p.NoWrap := by
  have hshift := h.sweep.shift
  have hglide := h.glide.timer
  have htimer := h.timer
  exact ⟨h.volume.envelope.noWrap, by omega, by omega, by omega⟩

theorem Noise.toNat_shown {n : Noise} (h : n.Bounded) :
    (16 - n.period).toNat = 16 - n.period.toNat := by
  have hle : n.period ≤ 16 := by
    rw [UInt8.le_iff_toNat_le]
    exact Nat.le_trans h.period (by decide)
  rw [UInt8.toNat_sub_of_le _ _ hle]
  rfl

theorem Noise.Bounded.noWrap {n : Noise} (h : n.Bounded) : n.NoWrap := by
  have hperiod := h.period
  exact ⟨h.volume.envelope.noWrap, by rw [Noise.toNat_shown h]; omega⟩

theorem Sequencer.Bounded.noWrap {s : Sequencer} (h : s.Bounded) : s.NoWrap := by
  have hphase : s.phase ≤ 44100 := h.phase
  have hrate := s.rate_le
  unfold Sequencer.NoWrap
  omega

theorem Apu.Bounded.noWrap {a : Apu} (h : a.Bounded) : a.NoWrap := by
  have htimer := h.triangle.timer
  exact ⟨h.pulse1.noWrap, h.pulse2.noWrap, by omega, h.noise.noWrap, h.sequencer.noWrap⟩

/-! ## A count of steps that wraps -/

/-- The sequencer with its count of steps cut to 32 bits. -/
def Sequencer.wrap (s : Sequencer) : Sequencer := { s with steps := s.steps % 0x100000000 }

/-- The count is read for its parity only. -/
theorem Sequencer.tick_wrap (s : Sequencer) : s.wrap.tick = s.tick := by
  have hparity : s.steps % 0x100000000 % 2 = s.steps % 2 := by omega
  show Tick.mk _ (s.selected || (s.steps? && s.steps % 0x100000000 % 2 == 1)) = s.tick
  rw [hparity]
  rfl

theorem Sequencer.wrap_advance_wrap (s : Sequencer) : s.wrap.advance.wrap = s.advance.wrap := by
  have hstep : s.wrap.steps? = s.steps? := rfl
  unfold Sequencer.advance
  rw [hstep]
  split
  · have hcount : (s.steps % 0x100000000 + 1) % 0x100000000 = (s.steps + 1) % 0x100000000 := by
      omega
    exact congrArg (fun count => ({ s with
      phase := s.phase + s.rate - sampleRate, steps := count, selected := false } : Sequencer))
      hcount
  · exact congrArg (fun count => ({ s with
      phase := s.phase + s.rate, steps := count, selected := false } : Sequencer))
      (Nat.mod_mod s.steps 0x100000000)

def Apu.wrap (a : Apu) : Apu := { a with sequencer := a.sequencer.wrap }

theorem Apu.wrap_step_wrap (a : Apu) : a.wrap.step.wrap = a.step.wrap := by
  have htick : a.wrap.nextTick = a.nextTick := a.sequencer.tick_wrap
  unfold Apu.step
  rw [htick]
  simp only [Apu.wrap, Sequencer.wrap_advance_wrap]

theorem Apu.wrap_set (a : Apu) (c : Channel) (p : Param) (value : UInt8) :
    a.wrap.set c p value = (a.set c p value).wrap := by
  cases c with
  | status => cases p <;> rfl
  | frameCounter =>
    by_cases hmode : p = .frameMode
    · subst hmode
      rfl
    · simp only [Apu.set, hmode, if_false]
  | _ => rfl

theorem Apu.wrap_setAll (a : Apu) (writes : List ParamWrite) :
    a.wrap.setAll writes = (a.setAll writes).wrap := by
  induction writes generalizing a with
  | nil => rfl
  | cons w writes ih => rw [Apu.setAll_cons, Apu.setAll_cons, Apu.wrap_set, ih]

/-- The states of a chip whose count of steps has 32 bits, at the samples that take the
given writes. -/
def playedWrapped : Apu → List (List ParamWrite) → List Apu
  | _, [] => []
  | a, writes :: rest =>
    a.step.wrap.setAll writes :: playedWrapped (a.step.wrap.setAll writes) rest

theorem playedWrapped_wrap (a : Apu) (runs : List (List ParamWrite)) :
    playedWrapped a.wrap runs = (played a runs).map Apu.wrap := by
  induction runs generalizing a with
  | nil => rfl
  | cons writes runs ih =>
    rw [playedWrapped, Apu.wrap_step_wrap, Apu.wrap_setAll, ih, played_cons, List.map_cons]

/-- Such a chip shows the same frames for any number of samples. -/
theorem frames_playedWrapped (clock : Clock) (runs : List (List ParamWrite)) :
    (playedWrapped (Apu.new clock) runs).map Apu.frame =
      (played (Apu.new clock) runs).map Apu.frame := by
  have hnew : (Apu.new clock).wrap = Apu.new clock := rfl
  rw [← hnew, playedWrapped_wrap, List.map_map, hnew]
  rfl

/-! ## The shapes of slots -/

/-- A period from 8 to `limit` at a volume from 1 to 15, or silence. -/
structure Slot.IsPulse (limit : Nat) (s : Slot) : Prop where
  sounds : s.period = 0 ∧ s.volume = 0 ∨
    8 ≤ s.period ∧ s.period ≤ limit ∧ 1 ≤ s.volume.toNat ∧ s.volume.toNat ≤ 15
  timbre : s.timbre.toNat ≤ 3

/-- A period of eleven bits and nothing else. -/
structure Slot.IsTriangle (s : Slot) : Prop where
  high : s.high.toNat ≤ 7
  volume : s.volume = 0
  timbre : s.timbre = 0

/-- A period from 1 to 16 at a volume from 1 to 15, or silence. -/
structure Slot.IsNoise (s : Slot) : Prop where
  high : s.high = 0
  sounds : s.low = 0 ∧ s.volume = 0 ∨
    1 ≤ s.low.toNat ∧ s.low.toNat ≤ 16 ∧ 1 ≤ s.volume.toNat ∧ s.volume.toNat ≤ 15
  timbre : s.timbre.toNat ≤ 1

/-- A frame whose slots have the shapes of their voices, with pulse periods up to
`limit`. -/
structure Frame.WellFormed (limit : Nat) (f : Frame) : Prop where
  pulse1 : f.pulse1.IsPulse limit
  pulse2 : f.pulse2.IsPulse limit
  triangle : f.triangle.IsTriangle
  noise : f.noise.IsNoise

theorem Pulse.audible?_eq_some {p : Pulse} {volume : UInt8} :
    p.audible? = some volume ↔
      p.length.count ≠ 0 ∧ 0 < p.volume.output ∧ p.inRange = true ∧ p.volume.output = volume := by
  unfold audible?
  split
  · rename_i hcount
    simp only [reduceCtorEq, hcount, ne_eq, not_true_eq_false, false_and]
  · rename_i hcount
    by_cases hsounds : 0 < p.volume.output ∧ p.inRange = true
    · rw [if_pos hsounds, Option.some_inj]
      exact ⟨fun h => ⟨hcount, hsounds.1, hsounds.2, h⟩, fun h => h.2.2.2⟩
    · rw [if_neg hsounds]
      exact ⟨fun h => (nomatch h), fun h => absurd ⟨h.2.1, h.2.2.1⟩ hsounds⟩

theorem Noise.audible?_eq_some {n : Noise} {volume : UInt8} :
    n.audible? = some volume ↔
      n.length.count ≠ 0 ∧ 0 < n.volume.output ∧ n.volume.output = volume := by
  unfold audible?
  split
  · rename_i hcount
    simp only [reduceCtorEq, hcount, ne_eq, not_true_eq_false, false_and]
  · rename_i hcount
    by_cases hsounds : 0 < n.volume.output
    · rw [if_pos hsounds, Option.some_inj]
      exact ⟨fun h => ⟨hcount, hsounds, h⟩, fun h => h.2.2⟩
    · rw [if_neg hsounds]
      exact ⟨fun h => (nomatch h), fun h => absurd h.2.1 hsounds⟩

theorem Slot.period_silent (timbre : UInt8) :
    Slot.period { Slot.zero with timbre := timbre } = 0 := by
  show (0 : UInt8).toNat * 256 + (0 : UInt8).toNat = 0
  decide

theorem period_bytes {timer : Nat} (h : timer ≤ 0x7FF) (volume timbre : UInt8) :
    Slot.period ⟨UInt8.ofNat (timer / 256), UInt8.ofNat (timer % 256), volume, timbre⟩ =
      timer := by
  simp only [Slot.period, UInt8.toNat_ofNat']
  omega

theorem Pulse.Bounded.slot {p : Pulse} (h : p.Bounded) : p.slot.IsPulse 0x7FF := by
  unfold Pulse.slot
  cases haudible : p.audible? with
  | none => exact ⟨.inl ⟨Slot.period_silent p.duty, rfl⟩, h.duty⟩
  | some volume =>
    obtain ⟨-, hpos, hrange, rfl⟩ := Pulse.audible?_eq_some.mp haudible
    rw [Pulse.inRange, Bool.and_eq_true, decide_eq_true_iff] at hrange
    refine ⟨.inr ?_, h.duty⟩
    dsimp only
    rw [period_bytes h.timer]
    exact ⟨hrange.1, h.timer, hpos, h.volume.output_le⟩

theorem Triangle.Bounded.slot {t : Triangle} (h : t.Bounded) : t.slot.IsTriangle := by
  have htimer := h.timer
  unfold Triangle.slot
  split
  · refine ⟨?_, rfl, rfl⟩
    rw [UInt8.toNat_ofNat']
    omega
  · exact ⟨Nat.zero_le 7, rfl, rfl⟩

theorem Noise.Bounded.slot {n : Noise} (h : n.Bounded) : n.slot.IsNoise := by
  have htimbre : (if n.looping then 1 else 0 : UInt8).toNat ≤ 1 := by split <;> decide
  have hperiod := h.period
  unfold Noise.slot
  cases haudible : n.audible? with
  | none => exact ⟨rfl, .inl ⟨rfl, rfl⟩, htimbre⟩
  | some volume =>
    obtain ⟨-, hpos, rfl⟩ := Noise.audible?_eq_some.mp haudible
    refine ⟨rfl, .inr ?_, htimbre⟩
    dsimp only
    rw [Noise.toNat_shown h]
    exact ⟨by omega, by omega, hpos, h.volume.output_le⟩

theorem Apu.Bounded.frame {a : Apu} (h : a.Bounded) : a.frame.WellFormed 0x7FF :=
  ⟨h.pulse1.slot, h.pulse2.slot, h.triangle.slot, h.noise.slot⟩

/-- Every reachable state is in bounds, and no arithmetic leaves its width there; and
every log that is replayed gives one well-formed frame for each sample it waits. -/
theorem reachable_bounded :
    (∀ (clock : Clock) (a : Apu), Reachable clock a → a.Bounded ∧ a.NoWrap) ∧
    ∀ (log : ParamLog) (s : RawScore), replay log = .ok s →
      s.frames.length = waitTotal log ∧ s.sampleCount = waitTotal log ∧
        ∀ f ∈ s.frames, f.WellFormed 0x7FF := by
  refine ⟨fun clock a h => ⟨h.bounded, h.bounded.noWrap⟩, ?_⟩
  intro log s h
  refine ⟨length_frames h, ?_⟩
  obtain ⟨t, rfl, htaken, rfl⟩ := replay_eq_ok.mp h
  refine ⟨t.waitTotal_toEvents.symm, ?_⟩
  intro f hf
  obtain ⟨a, ha, rfl⟩ := List.mem_map.mp hf
  exact (Reachable.new.played (writesIn_taken_iff.mp htaken).1 a ha).bounded.frame

/-- A pulse that its sweep has just moved, and the log of a short note. -/
theorem reachable_bounded_glide :
    (∃ a, Reachable .pal a ∧ a.pulse1.timer = 895 ∧ a.Bounded ∧ a.NoWrap) ∧
    ∃ s, replay [.clock .ntsc, .act (.place .pulse1 .timerHigh 7 0),
        .act (.place .pulse1 .constantVolume 1 0), .act (.place .pulse1 .volume 9 0),
        .act (.place .pulse1 .lengthLoad 0 0), .wait 2, .wait 0, .wait 1] = .ok s ∧
      s.frames.length = 3 ∧ s.sampleCount = 3 ∧ ∀ f ∈ s.frames, f.WellFormed 0x7FF := by
  constructor
  · let writes : List ParamWrite :=
      [.place .pulse1 .timerHigh 7 0, .place .pulse1 .sweepShift 1 0,
        .place .pulse1 .sweepNegate 1 0, .place .pulse1 .sweepEnable 1 0,
        .place .frameCounter .frameMode 0 0]
    have hreach : Reachable .pal ((Apu.new .pal).setAll writes) :=
      Reachable.new.setAll (by decide)
    exact ⟨_, hreach.step, by decide, reachable_bounded.1 _ _ hreach.step⟩
  · let t : Timeline ParamWrite := ⟨.ntsc, [.act (.place .pulse1 .timerHigh 7 0),
      .act (.place .pulse1 .constantVolume 1 0), .act (.place .pulse1 .volume 9 0),
      .act (.place .pulse1 .lengthLoad 0 0), .wait 2, .wait 0, .wait 1]⟩
    have hreplay := replay_eq_ok.mpr ⟨t, rfl, by decide, rfl⟩
    exact ⟨_, hreplay, reachable_bounded.2 _ _ hreplay⟩

end ApuScore

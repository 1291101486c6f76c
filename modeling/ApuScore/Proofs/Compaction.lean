import ApuScore.Proofs.Repeats
/-
  Replaying a log that was pruned and regrouped.

  The chip that hears all writes runs beside the one that hears the kept ones. A voice
  sounds alike on both (`Voice.Alike`) as long as every write that is left out leaves it
  as it was (`inertFrom`, `shown_keptSteps`). For the triangle and the noise that is so
  in every log. A pulse's sweep acts behind the log's back; `steadyFrom` checks on the
  log alone that nothing is left out which it could have made to matter
  (`inertFrom_of_steady`).
-/

namespace ApuScore

/-- What concerns a voice from outside its channel is its enable. -/
theorem ParamWrite.enables_of_aims {v : Voice} {w : ParamWrite} (h : w.aims v = true)
    (hother : w.channel ≠ v.channel) : w.channel = .status ∧ w.param = v.enable := by
  rw [aims, Bool.or_eq_true, beq_iff_eq, Bool.and_eq_true, beq_iff_eq, beq_iff_eq] at h
  exact h.resolve_left hother

section
variable {s : Values} {w : ParamWrite} (h : kept s w = false) {v : Voice}
include h

/-- A write to a voice that is left out repeats what was written last. -/
theorem not_kept_own (hown : w.channel = v.channel) :
    s.get v.channel w.param = w.value ∧ w.param ≠ .lengthLoad := by
  rcases not_kept h with ⟨hsame, hacting⟩ | hignored
  · refine ⟨hown ▸ hsame, ?_⟩
    intro hload
    rw [hown, hload, acting, v.voice?_channel] at hacting
    cases hacting
  · have hvoice := v.voice?_channel
    rw [← hown] at hvoice
    rcases ignored_eq_true hignored with ⟨hc, -⟩ | ⟨hc, -⟩ <;> rw [hc] at hvoice <;> cases hvoice

theorem not_kept_other (hother : w.channel ≠ v.channel) : w.aims v = false := by
  rw [← Bool.not_eq_true]
  intro haims
  obtain ⟨hstatus, henable⟩ := ParamWrite.enables_of_aims haims hother
  rcases not_kept h with ⟨-, hacting⟩ | hignored
  · rw [hstatus, henable] at hacting
    cases v <;> cases hacting
  · rw [hstatus, henable] at hignored
    cases v <;> cases hignored

theorem not_kept_mode (q : Sequencer) : q.hear w = q := by
  rw [Sequencer.hear, if_neg]
  intro hmode
  rcases not_kept h with ⟨-, hacting⟩ | hignored
  · rw [hmode.1, hmode.2] at hacting
    cases hacting
  · rw [hmode.1, hmode.2] at hignored
    cases hignored

end

/-! ## Two chips -/

/-- The voice sounds the same on both chips, now and later. -/
def Voice.Alike (v : Voice) (a b : Apu) : Prop :=
  match v with
  | .pulse1 => a.pulse1.Alike b.pulse1
  | .pulse2 => a.pulse2.Alike b.pulse2
  | .triangle => b.triangle = a.triangle
  | .noise => b.noise = a.noise

/-- The sequencers agree as well, so the voice hears the same ticks. -/
structure Voice.Agree (v : Voice) (a b : Apu) : Prop where
  sequencer : b.sequencer = a.sequencer
  voice : v.Alike a b

namespace Voice

theorem Alike.symm {v : Voice} {a b : Apu} (h : v.Alike a b) : v.Alike b a := by
  cases v with
  | pulse1 | pulse2 => exact Pulse.Alike.symm h
  | triangle | noise => exact Eq.symm h

theorem Alike.trans {v : Voice} {a b c : Apu} (h : v.Alike a b) (h' : v.Alike b c) :
    v.Alike a c := by
  cases v with
  | pulse1 | pulse2 => exact Pulse.Alike.trans h h'
  | triangle | noise => exact Eq.trans h' h

theorem alike_of_not_aims {v : Voice} {w : ParamWrite} (h : w.aims v = false) {a : Apu} :
    v.Alike a (a.set w.channel w.param w.value) := by
  rw [Apu.set_eq]
  cases v with
  | pulse1 | pulse2 =>
    simp only [Voice.Alike, h, Bool.false_eq_true, if_false]
    exact Pulse.Alike.refl _
  | triangle | noise => simp only [Voice.Alike, h, Bool.false_eq_true, if_false]

namespace Agree

theorem refl (v : Voice) (a : Apu) : v.Agree a a := by
  refine ⟨rfl, ?_⟩
  cases v with
  | pulse1 | pulse2 => exact Pulse.Alike.refl _
  | triangle | noise => rfl

variable {v : Voice} {a b : Apu} (h : v.Agree a b)
include h

theorem shown : b.frame.get v = a.frame.get v := by
  have hvoice := h.voice
  cases v with
  | pulse1 | pulse2 => exact Pulse.Alike.slot_eq hvoice
  | triangle => exact congrArg Triangle.slot hvoice
  | noise => exact congrArg Noise.slot hvoice

theorem step : v.Agree a.step b.step := by
  have hvoice := h.voice
  have htick : b.nextTick = a.nextTick := by rw [Apu.nextTick, Apu.nextTick, h.sequencer]
  refine ⟨congrArg Sequencer.advance h.sequencer, ?_⟩
  cases v with
  | pulse1 =>
    show (a.pulse1.tick a.nextTick).Alike (b.pulse1.tick b.nextTick)
    rw [htick]
    exact hvoice.tick _
  | pulse2 =>
    show (a.pulse2.tick a.nextTick).Alike (b.pulse2.tick b.nextTick)
    rw [htick]
    exact hvoice.tick _
  | triangle =>
    show b.triangle.tick b.nextTick = a.triangle.tick a.nextTick
    rw [htick, show b.triangle = a.triangle from hvoice]
  | noise =>
    show b.noise.tick b.nextTick = a.noise.tick a.nextTick
    rw [htick, show b.noise = a.noise from hvoice]

theorem hear (w : ParamWrite) :
    v.Agree (a.set w.channel w.param w.value) (b.set w.channel w.param w.value) := by
  have hvoice := h.voice
  rw [Apu.set_eq, Apu.set_eq]
  refine ⟨congrArg (Sequencer.hear · w) h.sequencer, ?_⟩
  cases v with
  | pulse1 =>
    show Pulse.Alike (if _ then _ else _) (if _ then _ else _)
    split
    · exact Pulse.Alike.hear hvoice w
    · exact hvoice
  | pulse2 =>
    show Pulse.Alike (if _ then _ else _) (if _ then _ else _)
    split
    · exact Pulse.Alike.hear hvoice w
    · exact hvoice
  | triangle => simp only [Voice.Alike, show b.triangle = a.triangle from hvoice]
  | noise => simp only [Voice.Alike, show b.noise = a.noise from hvoice]

/-- A write that only the first chip hears, and that leaves the voice as it was. -/
theorem skip {s : Values} {w : ParamWrite} (hkept : kept s w = false)
    (hinert : v.Alike a (a.set w.channel w.param w.value)) :
    v.Agree (a.set w.channel w.param w.value) b := by
  refine ⟨?_, hinert.symm.trans h.voice⟩
  rw [Apu.set_eq]
  exact h.sequencer.trans (not_kept_mode hkept a.sequencer).symm

end Agree

end Voice

/-- Whether every write that pruning leaves out leaves the voice of a chip as it was,
over the values written so far. -/
def inertFrom (v : Voice) (s : Values) (a : Apu) : List (Step ParamWrite) → Prop
  | [] => True
  | .wait n :: rest => inertFrom v s (playedTo a (List.replicate n [])) rest
  | .act w :: rest =>
    (kept s w = true ∨ v.Alike a (a.set w.channel w.param w.value)) ∧
      inertFrom v (s.behind w) (a.set w.channel w.param w.value) rest

/-- Writes that leave a voice as it was are not missed. -/
theorem shown_keptSteps {v : Voice} {steps : List (Step ParamWrite)} {s : Values} {a b : Apu}
    {pending heard : List ParamWrite} (hinert : inertFrom v s (a.step.setAll pending) steps)
    (h : v.Agree (a.step.setAll pending) (b.step.setAll heard)) :
    (played b (batches heard (keptSteps s steps))).map (fun a => a.frame.get v) =
      (played a (batches pending steps)).map fun a => a.frame.get v := by
  induction steps generalizing s a b pending heard with
  | nil => rfl
  | cons step rest ih =>
    cases step with
    | wait n =>
      cases n with
      | zero => exact ih hinert h
      | succ n =>
        have hstep : ∀ a b, v.Agree a b → v.Agree a.step b.step := fun _ _ => Voice.Agree.step
        have hshown : ∀ a b, v.Agree a b → b.frame.get v = a.frame.get v :=
          fun _ _ => Voice.Agree.shown
        rw [keptSteps]
        refine played_wait hstep hshown h n ?_
        intro hlast
        -- the sample behind the wait takes the writes that follow
        rw [inertFrom, List.replicate_succ', playedTo_append] at hinert
        exact ih hinert hlast.step
    | act w =>
      obtain ⟨hleft, hrest⟩ := hinert
      have happend : ∀ (a : Apu) (front : List ParamWrite),
          a.setAll (front ++ [w]) = (a.setAll front).set w.channel w.param w.value :=
        fun a front => a.setAll_append front [w]
      rw [← happend] at hleft hrest
      rw [keptSteps, batches]
      cases hkept : kept s w with
      | true =>
        have hboth := h.hear w
        rw [← happend, ← happend] at hboth
        exact ih hrest hboth
      | false =>
        rw [hkept, or_iff_right Bool.false_ne_true, happend] at hleft
        have honly := h.skip hkept hleft
        rw [← happend] at honly
        exact ih hrest honly

/-! ## One chip -/

def Voice.Recalls (v : Voice) (m : Memory) (d : Drift) (a : Apu) : Prop :=
  match v with
  | .pulse1 => a.pulse1.Recalls m d
  | .pulse2 => a.pulse2.Recalls m d
  | .triangle => a.triangle.Recalls m
  | .noise => a.noise.Recalls m

namespace Voice.Recalls

variable {v : Voice} {m : Memory} {d : Drift} {a : Apu} (h : v.Recalls m d a)
include h

theorem step : v.Recalls m d a.step := by
  cases v with
  | pulse1 | pulse2 => exact Pulse.Recalls.tick h _
  | triangle => exact Triangle.Recalls.tick h _
  | noise => exact Noise.Recalls.tick h _

theorem idle (n : Nat) : v.Recalls m d (playedTo a (List.replicate n [])) := by
  induction n generalizing a with
  | zero => exact h
  | succ n ih => exact ih h.step

theorem write (param : Param) (value : UInt8) :
    v.Recalls (m.set param value) (d.after m param value) (a.set v.channel param value) := by
  cases v with
  | pulse1 | pulse2 => exact Pulse.Recalls.write h param value
  | triangle => exact Triangle.Recalls.write h param value
  | noise => exact Noise.Recalls.write h param value

theorem repeats {param : Param} (hload : param ≠ .lengthLoad) (hallows : d.allows param = true) :
    v.Alike a (a.set v.channel param (m param)) := by
  cases v with
  | pulse1 | pulse2 => exact Pulse.Recalls.repeats h hload hallows
  | triangle => exact Triangle.Recalls.repeats h hload
  | noise => exact Noise.Recalls.repeats h hload

theorem hear_other {w : ParamWrite} (hother : w.channel ≠ v.channel) :
    v.Recalls m d (a.set w.channel w.param w.value) := by
  rw [Apu.set_eq]
  by_cases haims : w.aims v = true
  · have hgate := (ParamWrite.enables_of_aims haims hother).1
    cases v with
    | pulse1 | pulse2 =>
      simp only [Voice.Recalls, haims, if_true, Pulse.hear, hgate]
      exact Pulse.Recalls.gate h w
    | triangle =>
      simp only [Voice.Recalls, haims, if_true, Triangle.hear, hgate]
      exact Triangle.Recalls.gate h w
    | noise =>
      simp only [Voice.Recalls, haims, if_true, Noise.hear, hgate]
      exact Noise.Recalls.gate h w
  · cases v <;> simp only [Voice.Recalls, haims, if_false, Bool.false_eq_true] <;> exact h

end Voice.Recalls

theorem Values.get_initial (v : Voice) : Values.initial.get v.channel = fun _ => 0 := by
  funext param
  cases v <;> rfl

theorem Voice.Recalls.new (v : Voice) (clock : Clock) :
    v.Recalls (Values.initial.get v.channel) {} (Apu.new clock) := by
  have hzero : (0 : Nat) / 256 = (0 : UInt8).toNat % 8 := by decide
  have hpulse : ∀ ones : Bool, Pulse.Recalls (fun _ => 0) {} { onesComplement := ones } :=
    fun _ => ⟨rfl, rfl, rfl, rfl, rfl, rfl, rfl, rfl, Nat.zero_le _, fun _ => rfl,
      fun _ => hzero, fun _ => rfl, fun hon => nomatch hon⟩
  rw [Values.get_initial]
  cases v with
  | pulse1 => exact hpulse true
  | pulse2 => exact hpulse false
  | triangle => exact ⟨rfl, rfl, Nat.zero_le _, rfl, hzero⟩
  | noise => exact ⟨rfl, rfl, rfl, rfl, rfl⟩

/-- The drift of a voice behind a write to any channel. -/
def driftBehind (v : Voice) (s : Values) (d : Drift) (w : ParamWrite) : Drift :=
  if w.channel = v.channel then d.after (s.get v.channel) w.param w.value else d

/-- Whether no write to the voice is left out that could act on it, over the values
written so far and the drift that they leave. -/
def steadyFrom (v : Voice) (s : Values) (d : Drift) : List (Step ParamWrite) → Bool
  | [] => true
  | .wait _ :: rest => steadyFrom v s d rest
  | .act w :: rest =>
    (kept s w || w.channel != v.channel || d.allows w.param) &&
      steadyFrom v (s.behind w) (driftBehind v s d w) rest

theorem get_behind (s : Values) (w : ParamWrite) (c : Channel) :
    (s.behind w).get c =
      if w.channel = c then Memory.set (s.get c) w.param w.value else s.get c := by
  funext p
  rw [Values.behind, Values.get_set]
  by_cases hc : w.channel = c
  · simp [hc, Memory.set]
  · simp [hc]

theorem Voice.Recalls.behind {v : Voice} {s : Values} {d : Drift} {a : Apu}
    (h : v.Recalls (s.get v.channel) d a) (w : ParamWrite) :
    v.Recalls ((s.behind w).get v.channel) (driftBehind v s d w)
      (a.set w.channel w.param w.value) := by
  rw [get_behind, driftBehind]
  by_cases hown : w.channel = v.channel
  · have hwrite := h.write w.param w.value
    rw [if_pos hown, if_pos hown]
    rwa [← hown] at hwrite ⊢
  · rw [if_neg hown, if_neg hown]
    exact h.hear_other hown

theorem inertFrom_of_steady {v : Voice} {steps : List (Step ParamWrite)} {s : Values} {d : Drift}
    {a : Apu} (hsteady : steadyFrom v s d steps = true) (h : v.Recalls (s.get v.channel) d a) :
    inertFrom v s a steps := by
  induction steps generalizing s d a with
  | nil => trivial
  | cons step rest ih =>
    cases step with
    | wait n => exact ih hsteady (h.idle n)
    | act w =>
      rw [steadyFrom, Bool.and_eq_true] at hsteady
      refine ⟨?_, ih hsteady.2 (h.behind w)⟩
      cases hkept : kept s w with
      | true => exact .inl rfl
      | false =>
        right
        -- left out on its own channel, a write says again what the voice recalls
        by_cases hown : w.channel = v.channel
        · obtain ⟨hvalue, hload⟩ := not_kept_own hkept hown
          have hallows := hsteady.1
          rw [hkept, bne_eq_false_iff_eq.mpr hown, Bool.false_or, Bool.false_or] at hallows
          rw [← hvalue, hown]
          exact h.repeats hload hallows
        · exact Voice.alike_of_not_aims (not_kept_other hkept hown)

theorem steadyFrom_of_no_sweep {v : Voice} (hv : v = .triangle ∨ v = .noise)
    {steps : List (Step ParamWrite)} (h : ∀ w ∈ writesIn steps, w.taken = true) (s : Values) :
    steadyFrom v s {} steps = true := by
  -- only a parameter of the sweep leaves anything open
  have hnone : ∀ (m : Memory) (param : Param) (value : UInt8),
      v.channel.takes param value = true → Drift.after m param value {} = {} := by
    intro m param value htakes
    cases param with
    | sweepEnable | sweepNegate | sweepShift => rcases hv with rfl | rfl <;> cases htakes
    | timerLow | timerHigh => exact ite_self _
    | _ => rfl
  have hallows : ∀ param, Drift.allows {} param = true := by
    intro param
    cases param <;> rfl
  induction steps generalizing s with
  | nil => rfl
  | cons step rest ih =>
    cases step with
    | wait n => exact ih h s
    | act w =>
      obtain ⟨htaken, hrest⟩ := List.forall_mem_cons.mp
        (show ∀ x ∈ w :: writesIn rest, x.taken = true from h)
      have hdrift : driftBehind v s {} w = {} := by
        rw [driftBehind]
        split
        · rename_i hown
          rw [ParamWrite.taken, hown] at htaken
          exact hnone _ _ _ htaken
        · rfl
      rw [steadyFrom, hdrift, ih hrest, hallows, Bool.or_true]
      rfl

theorem frames_ext {xs ys : List Frame}
    (h : ∀ v : Voice, xs.map (·.get v) = ys.map (·.get v)) : xs = ys := by
  apply List.ext_getElem?
  intro i
  have hcolumn : ∀ v : Voice, (xs[i]?).map (·.get v) = (ys[i]?).map (·.get v) := by
    intro v
    rw [← List.getElem?_map, ← List.getElem?_map, h v]
  cases hx : xs[i]? with
  | none =>
    cases hy : ys[i]? with
    | none => rfl
    | some y =>
      have hnone := hcolumn .noise
      rw [hx, hy] at hnone
      cases hnone
  | some x =>
    cases hy : ys[i]? with
    | none =>
      have hnone := hcolumn .noise
      rw [hx, hy] at hnone
      cases hnone
    | some y =>
      refine congrArg some (Voices.ext_get fun v => ?_)
      have hslot := hcolumn v
      rw [hx, hy] at hslot
      exact Option.some.inj hslot

/-- Whether every write that pruning leaves out of the log leaves the voice as it was. -/
def ParamLog.Inert (v : Voice) (clock : Clock) (log : ParamLog) : Prop :=
  inertFrom v Values.initial (Apu.new clock).step (log.filterMap Event.step?)

/-- Whether no write to the voice is left out of the log that could act on it. -/
def ParamLog.steady (v : Voice) (log : ParamLog) : Bool :=
  steadyFrom v Values.initial {} (log.filterMap Event.step?)

theorem ParamLog.inert_of_steady {v : Voice} {log : ParamLog} (h : log.steady v = true)
    (clock : Clock) : log.Inert v clock :=
  inertFrom_of_steady h (Voice.Recalls.new v clock).step

/-- A log that is replayed is pruned and regrouped, and the result is replayed to a score
of the same clock and length, with the same triangle and noise. A pulse plays the same in
it if every write to it that is left out would leave it as it was; so it does if the log
repeats no period byte and no sweep enable while the sweep may have moved the period or
left its target behind. -/
theorem replay_regroup_prune (log : ParamLog) (s : RawScore) (h : replay log = .ok s) :
    ∃ changes params again, prune log = .ok changes ∧ regroup changes = .ok params ∧
      replay params = .ok again ∧ again.clock = s.clock ∧ again.sampleCount = s.sampleCount ∧
      again.frames.length = s.frames.length ∧
      (∀ v : Voice, v = .triangle ∨ v = .noise ∨ log.steady v = true ∨ log.Inert v s.clock →
        again.frames.map (·.get v) = s.frames.map (·.get v)) ∧
      (log.Inert .pulse1 s.clock → log.Inert .pulse2 s.clock → again = s) := by
  obtain ⟨t, rfl, htaken, rfl⟩ := replay_eq_ok.mp h
  obtain ⟨changes, params, hchanges, hparams, hagain⟩ := replay_regroup_prune_eq htaken
  have hsteps : t.toEvents.filterMap Event.step? = t.steps := filterMap_step? t.steps
  -- the scores are compared one voice at a time
  have hcolumn : ∀ v : Voice, v = .triangle ∨ v = .noise ∨ ParamLog.steady v t.toEvents = true ∨
      ParamLog.Inert v t.clock t.toEvents →
      ((played (Apu.new t.clock) (batches [] (keptSteps Values.initial t.steps))).map
          Apu.frame).map (·.get v) =
        ((played (Apu.new t.clock) (batches [] t.steps)).map Apu.frame).map (·.get v) := by
    intro v hv
    have hnosweep : v = .triangle ∨ v = .noise → ParamLog.Inert v t.clock t.toEvents := by
      intro hv
      apply ParamLog.inert_of_steady
      rw [ParamLog.steady, hsteps]
      exact steadyFrom_of_no_sweep hv htaken _
    have hinert : ParamLog.Inert v t.clock t.toEvents := by
      rcases hv with hv | hv | hv | hv
      · exact hnosweep (.inl hv)
      · exact hnosweep (.inr hv)
      · exact ParamLog.inert_of_steady hv t.clock
      · exact hv
    rw [ParamLog.Inert, hsteps] at hinert
    rw [List.map_map, List.map_map]
    exact shown_keptSteps hinert (Voice.Agree.refl v _)
  refine ⟨changes, params, _, hchanges, hparams, hagain, rfl, rfl, ?_, hcolumn, ?_⟩
  · rw [List.length_map, List.length_map, length_played, length_played, length_batches,
      length_batches, totalSamples_keptSteps]
  · intro hpulse1 hpulse2
    congr 1
    apply frames_ext
    intro v
    apply hcolumn
    cases v with
    | pulse1 => exact .inr (.inr (.inr hpulse1))
    | pulse2 => exact .inr (.inr (.inr hpulse2))
    | triangle => exact .inl rfl
    | noise => exact .inr (.inl rfl)

/-- A note whose sweep is switched off again: three writes that follow are left out. -/
theorem replay_regroup_prune_held :
    let log : ParamLog := [.clock .pal, .act (.place .pulse1 .constantVolume 1 0),
      .act (.place .pulse1 .volume 9 0), .act (.place .pulse1 .timerHigh 3 0),
      .act (.place .pulse1 .lengthLoad 0 0), .act (.place .pulse1 .sweepEnable 1 0),
      .act (.place .pulse1 .sweepShift 1 0), .act (.place .frameCounter .frameMode 0 0), .wait 2,
      .act (.place .pulse1 .sweepEnable 0 0), .act (.place .pulse1 .timerLow 0x41 0),
      .act (.place .pulse1 .timerHigh 1 0), .wait 1, .act (.place .pulse1 .sweepEnable 0 0),
      .act (.place .pulse1 .timerLow 0x41 0), .act (.place .pulse1 .timerHigh 1 0), .wait 1]
    ∃ s changes params, replay log = .ok s ∧ prune log = .ok changes ∧
      changes.length + 3 = log.length ∧ regroup changes = .ok params ∧ replay params = .ok s := by
  intro log
  obtain ⟨s, hs⟩ : ∃ s, replay log = .ok s :=
    ⟨_, replay_eq_ok.mpr ⟨⟨.pal, log.filterMap Event.step?⟩, rfl, by decide, rfl⟩⟩
  obtain ⟨changes, params, again, hchanges, hparams, hagain, -, -, -, -, hsame⟩ :=
    replay_regroup_prune log s hs
  have hlength : (prune log).toOption.map (fun changes => changes.length + 3) =
      some log.length := by
    decide
  rw [hchanges] at hlength
  rw [hsame (ParamLog.inert_of_steady (by decide) _) (ParamLog.inert_of_steady (by decide) _)]
    at hagain
  exact ⟨s, changes, params, hs, hchanges, Option.some.inj hlength, hparams, hagain⟩

/-- A note under a sweep whose high bits are set again: the write is left out, and the
note stays where the sweep has moved it. -/
theorem replay_regroup_prune_moved :
    let raw : RegisterLog := [.clock .ntsc, .act (.write 0x00 0x3F), .act (.write 0x02 0x00),
      .act (.write 0x03 0x02), .act (.write 0x01 0x81), .act (.write 0x17 0x00), .wait 2,
      .act (.write 0x03 0x02), .wait 1]
    let periods : Except ProtocolError RawScore → Option (List Nat) := fun s =>
      s.toOption.map fun s => s.frames.map fun f => f.pulse1.period
    periods (disassemble raw >>= replay) = some [0x200, 0x300, 0x200] ∧
      periods (disassemble raw >>= prune >>= regroup >>= replay) =
        some [0x200, 0x300, 0x300] := by
  decide +kernel

end ApuScore

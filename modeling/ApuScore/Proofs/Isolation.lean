import ApuScore.Proofs.Compaction
/-
  Voices do not interfere.

  What reaches a voice are the writes to its own channel, to its enable and to the frame
  mode, which moves the sequencer that clocks all voices. This file

  1. takes writes out of a log (`Event.keeps`) and shows that the samples then take what is
     left of their writes (`batches_filter`);
  2. carries the agreement of a voice on two chips (`Voice.Agree`) through writes that do
     not reach it and so through whole runs (`Voice.Agree.setAll_filter`, `shown_filter`);
  3. concludes that logs with the same waits and the same writes that reach a voice show
     the same column for it, and that any other writes may be taken out
     (`column_eq_of_reaches`).
-/

namespace ApuScore

/-- Whether a write reaches the voice: it goes to the voice's channel, to its enable or to
the frame mode. -/
def ParamWrite.reaches (v : Voice) (w : ParamWrite) : Bool :=
  w.aims v || (w.channel == .frameCounter && w.param == .frameMode)

def RawScore.column (s : RawScore) (v : Voice) : List Slot := s.frames.map fun f => f.get v

/-! ## Logs without some of their actions -/

section keeps

variable {α : Type}

/-- Whether an event stays when only the actions in `p` do. -/
def Event.keeps (p : α → Bool) : Event α → Bool
  | .act a => p a
  | _ => true

def Step.keeps (p : α → Bool) : Step α → Bool
  | .act a => p a
  | .wait _ => true

theorem filter_toEvents (p : α → Bool) (t : Timeline α) :
    t.toEvents.filter (Event.keeps p) =
      Timeline.toEvents ⟨t.clock, t.steps.filter (Step.keeps p)⟩ := by
  have hkeeps : Event.keeps p ∘ Step.toEvent = Step.keeps p := by
    funext step
    cases step <;> rfl
  show .clock t.clock :: (t.steps.map Step.toEvent).filter (Event.keeps p) = _
  rw [List.filter_map, hkeeps]
  rfl

theorem totalSamples_filter (p : α → Bool) (steps : List (Step α)) :
    totalSamples (steps.filter (Step.keeps p)) = totalSamples steps := by
  induction steps with
  | nil => rfl
  | cons step rest ih =>
    cases step with
    | wait n =>
      rw [List.filter_cons_of_pos rfl, totalSamples_cons, totalSamples_cons, ih]
    | act a =>
      rw [List.filter_cons, totalSamples_cons, Step.samples, Nat.zero_add]
      split
      · rw [totalSamples_cons, Step.samples, Nat.zero_add, ih]
      · exact ih

end keeps

theorem writesIn_filter (p : ParamWrite → Bool) (steps : List (Step ParamWrite)) :
    writesIn (steps.filter (Step.keeps p)) = (writesIn steps).filter p := by
  rw [writesIn, writesIn, List.filterMap_filter, List.filter_filterMap]
  congr 1
  funext step
  cases step with
  | wait n => rfl
  | act w => cases h : p w <;> simp [Step.keeps, Option.filter, h]

/-- The samples take what is left of their writes. -/
theorem batches_filter (p : ParamWrite → Bool) (pending : List ParamWrite)
    (steps : List (Step ParamWrite)) :
    batches (pending.filter p) (steps.filter (Step.keeps p)) =
      (batches pending steps).map (List.filter p) := by
  induction pending, steps using batches.induct with
  | case1 pending => rfl
  | case2 pending w rest ih =>
    rw [List.filter_append] at ih
    rw [batches, ← ih, List.filter_cons]
    cases h : p w <;> simp [Step.keeps, h, batches]
  | case3 pending rest ih => exact ih
  | case4 pending n rest ih =>
    rw [List.filter_cons_of_pos rfl, batches, batches, List.map_cons, List.map_append,
      List.map_replicate, ← ih]
    rfl

/-! ## What does not reach a voice -/

theorem Sequencer.hear_of_not_reaches {v : Voice} {w : ParamWrite} (h : w.reaches v = false)
    (q : Sequencer) : q.hear w = q := by
  rw [ParamWrite.reaches, Bool.or_eq_false_iff] at h
  rw [hear, if_neg]
  intro hmode
  rw [hmode.1, hmode.2] at h
  cases h.2

namespace Voice.Agree

variable {v : Voice} {a b : Apu} (h : v.Agree a b)
include h

theorem skip_unreached {w : ParamWrite} (hw : w.reaches v = false) :
    v.Agree (a.set w.channel w.param w.value) b := by
  constructor
  · rw [Apu.set_eq]
    exact h.sequencer.trans (Sequencer.hear_of_not_reaches hw a.sequencer).symm
  · rw [ParamWrite.reaches, Bool.or_eq_false_iff] at hw
    exact (alike_of_not_aims hw.1).symm.trans h.voice

theorem setAll_filter (writes : List ParamWrite) :
    v.Agree (a.setAll writes) (b.setAll (writes.filter (·.reaches v))) := by
  induction writes generalizing a b with
  | nil => exact h
  | cons w writes ih =>
    cases hw : w.reaches v with
    | true =>
      rw [List.filter_cons_of_pos hw]
      exact ih (h.hear w)
    | false =>
      rw [List.filter_cons_of_neg (Bool.eq_false_iff.mp hw)]
      exact ih (h.skip_unreached hw)

theorem shown_filter (runs : List (List ParamWrite)) :
    (played b (runs.map (List.filter (·.reaches v)))).map (fun a => a.frame.get v) =
      (played a runs).map fun a => a.frame.get v := by
  induction runs generalizing a b with
  | nil => rfl
  | cons writes runs ih =>
    have hnext := h.step.setAll_filter writes
    rw [List.map_cons, played_cons, played_cons, List.map_cons, List.map_cons, ih hnext,
      hnext.shown]

end Voice.Agree

theorem column_toEvents {t : Timeline ParamWrite} {s : RawScore} (h : replay t.toEvents = .ok s)
    (v : Voice) :
    s.column v = (played (Apu.new t.clock)
      (batches [] (t.steps.filter (Step.keeps (·.reaches v))))).map fun a => a.frame.get v := by
  obtain ⟨u, hu, -, rfl⟩ := replay_eq_ok.mp h
  obtain rfl := Timeline.toEvents_inj.mp hu
  have hbatches := batches_filter (·.reaches v) [] t.steps
  rw [List.filter_nil] at hbatches
  rw [hbatches, (Voice.Agree.refl v _).shown_filter, RawScore.column, List.map_map]
  rfl

theorem sampleCount_toEvents {t : Timeline ParamWrite} {s : RawScore}
    (h : replay t.toEvents = .ok s) :
    s.frames.length = totalSamples t.steps ∧ s.sampleCount = totalSamples t.steps := by
  have hlength := length_frames h
  obtain ⟨u, hu, -, rfl⟩ := replay_eq_ok.mp h
  obtain rfl := Timeline.toEvents_inj.mp hu
  rw [t.waitTotal_toEvents] at hlength
  exact ⟨hlength, rfl⟩

/-- The scores are as long as each other, and the voice plays the same in both. -/
structure RawScore.SameFor (v : Voice) (s s' : RawScore) : Prop where
  frames : s'.frames.length = s.frames.length
  samples : s'.sampleCount = s.sampleCount
  column : s'.column v = s.column v

theorem sameFor_of_filter_eq {v : Voice} {log other : ParamLog} {s s' : RawScore}
    (h : replay log = .ok s) (h' : replay other = .ok s')
    (hsame : log.filter (Event.keeps (·.reaches v)) = other.filter (Event.keeps (·.reaches v))) :
    s.SameFor v s' := by
  obtain ⟨t, rfl, -⟩ := replay_eq_ok.mp h
  obtain ⟨u, rfl, -⟩ := replay_eq_ok.mp h'
  rw [filter_toEvents, filter_toEvents, Timeline.toEvents_inj, Timeline.mk.injEq] at hsame
  obtain ⟨hclock, hsteps⟩ := hsame
  have htotal : totalSamples u.steps = totalSamples t.steps := by
    rw [← totalSamples_filter (·.reaches v) u.steps, ← hsteps, totalSamples_filter]
  obtain ⟨hframes, hsamples⟩ := sampleCount_toEvents h
  obtain ⟨hframes', hsamples'⟩ := sampleCount_toEvents h'
  exact ⟨by rw [hframes, hframes', htotal], by rw [hsamples, hsamples', htotal],
    by rw [column_toEvents h, column_toEvents h', hclock, hsteps]⟩

theorem exists_replay_filter {log : ParamLog} {s : RawScore} (h : replay log = .ok s)
    (p : ParamWrite → Bool) : ∃ s', replay (log.filter (Event.keeps p)) = .ok s' := by
  obtain ⟨t, rfl, htaken, -⟩ := replay_eq_ok.mp h
  refine ⟨_, replay_eq_ok.mpr ⟨_, filter_toEvents p t, ?_, rfl⟩⟩
  rw [writesIn_filter]
  exact fun w hw => htaken w (List.mem_filter.mp hw).1

/-- Logs that are the same once only the writes that reach a voice are left play that voice
alike. So any writes that do not reach it may be taken out of a log: it is still replayed,
and the voice plays as before. -/
theorem column_eq_of_reaches (v : Voice) :
    (∀ (log other : ParamLog) (s s' : RawScore), replay log = .ok s → replay other = .ok s' →
      log.filter (Event.keeps (·.reaches v)) = other.filter (Event.keeps (·.reaches v)) →
      s.SameFor v s') ∧
    ∀ (log : ParamLog) (s : RawScore) (p : ParamWrite → Bool), replay log = .ok s →
      (∀ w : ParamWrite, w.reaches v = true → p w = true) →
      ∃ s', replay (log.filter (Event.keeps p)) = .ok s' ∧ s.SameFor v s' := by
  refine ⟨fun _ _ _ _ h h' hsame => sameFor_of_filter_eq h h' hsame, ?_⟩
  intro log s p h hp
  obtain ⟨s', h'⟩ := exists_replay_filter h p
  refine ⟨s', h', sameFor_of_filter_eq h h' ?_⟩
  -- what reaches the voice is not taken out
  rw [List.filter_filter]
  refine List.filter_congr fun e _ => ?_
  cases e with
  | act w => cases hw : w.reaches v <;> simp [Event.keeps, hw, hp w]
  | clock rate => rfl
  | wait n => rfl

/-- The noise among writes to a pulse, to the sample channel and to both control registers;
then with some of those altered; and without the sample channel. -/
theorem column_eq_of_reaches_crowded :
    ∃ log s s' s'', replay log = .ok s ∧
      replay [.clock .ntsc, .act (.place .noise .volume 9 0),
        .act (.place .status .enableDmc 1 1), .act (.place .pulse1 .sweepEnable 1 2), .wait 2,
        .act (.place .noise .constantVolume 1 0), .act (.place .frameCounter .frameMode 1 0),
        .act (.place .noise .lengthLoad 3 1), .wait 400] = .ok s' ∧
      replay (log.filter (Event.keeps fun w => w.channel != .dmc)) = .ok s'' ∧
      s.SameFor .noise s' ∧ s.SameFor .noise s'' := by
  let t : Timeline ParamWrite := ⟨.ntsc, [.act (.place .noise .volume 9 0),
    .act (.place .dmc .dmcFrequency 3 0), .act (.place .pulse1 .timerHigh 2 0), .wait 2,
    .act (.place .noise .constantVolume 1 0), .act (.place .status .enablePulse1 0 0),
    .act (.place .frameCounter .frameIrqInhibit 1 0), .act (.place .frameCounter .frameMode 1 0),
    .act (.place .noise .lengthLoad 3 1), .wait 400]⟩
  let u : Timeline ParamWrite := ⟨.ntsc, [.act (.place .noise .volume 9 0),
    .act (.place .status .enableDmc 1 1), .act (.place .pulse1 .sweepEnable 1 2), .wait 2,
    .act (.place .noise .constantVolume 1 0), .act (.place .frameCounter .frameMode 1 0),
    .act (.place .noise .lengthLoad 3 1), .wait 400]⟩
  have hlog := replay_eq_ok.mpr ⟨t, rfl, by decide, rfl⟩
  have hother := replay_eq_ok.mpr ⟨u, rfl, by decide, rfl⟩
  have hdmc : ∀ w : ParamWrite, w.reaches .noise = true → (w.channel != .dmc) = true := by
    intro w hw
    obtain ⟨c, p, value, atom, offset⟩ := w
    cases c with
    | dmc => cases hw
    | _ => rfl
  have hsame := (column_eq_of_reaches .noise).1 _ _ _ _ hlog hother (by decide)
  obtain ⟨s'', hrest, hless⟩ := (column_eq_of_reaches .noise).2 _ _ _ hlog hdmc
  exact ⟨_, _, _, _, hlog, hother, hrest, hsame, hless⟩

end ApuScore

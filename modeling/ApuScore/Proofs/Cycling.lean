import ApuScore.Proofs.Acceptance
import ApuScore.Proofs.Codec
import ApuScore.Proofs.FirstRun
import ApuScore.RoundTrip
/-
  Traces that are cycled through the raw score.

  A trace that comes back from its raw score is a scribed score, assembled, written
  and read again. Reading joins waits, which no replay hears
  (`replay_disassemble_joinWaits`); assembling is heard by no voice
  (`played_physical`); so what is left is what the scribe brings back
  (`frames_scribe`). A replayed score is at the sample rate, where span `t` is
  sample `t` (`spans_native`). `roundTrip_raw` puts the stages together.
-/

namespace ApuScore

/-! ## Joined waits -/

/-- The steps name the same writes for every sample, whatever is in hand. -/
def SameBatches (steps other : List (Step ParamWrite)) : Prop :=
  ∀ pending, batches pending steps = batches pending other

namespace SameBatches

variable {steps other : List (Step ParamWrite)}

theorem append (h : SameBatches steps other) (front : List (Step ParamWrite)) :
    SameBatches (front ++ steps) (front ++ other) := by
  induction front with
  | nil => exact h
  | cons s front ih =>
    intro pending
    cases s with
    | act w => exact ih (pending ++ [w])
    | wait n =>
      cases n with
      | zero => exact ih pending
      | succ n => simp only [List.cons_append, batches, ih []]

theorem wait_wait (m n : Nat) (rest : List (Step ParamWrite)) :
    SameBatches (.wait (m + n) :: rest) (.wait m :: .wait n :: rest) := by
  intro pending
  cases m with
  | zero => rw [Nat.zero_add, batches.eq_3]
  | succ m =>
    cases n with
    | zero => simp only [batches]
    | succ n =>
      -- the second wait's first sample takes no writes, like those behind the first one's
      have hnone : List.replicate (m + 1 + n) ([] : List ParamWrite) =
          List.replicate m [] ++ [] :: List.replicate n [] := by
        rw [← List.replicate_succ, List.replicate_append_replicate]
        congr 1
        omega
      calc batches pending (.wait (m + 1 + (n + 1)) :: rest)
          = pending :: (List.replicate (m + 1 + n) [] ++ batches [] rest) := rfl
        _ = pending :: (List.replicate m [] ++ [] :: (List.replicate n [] ++ batches [] rest)) := by
            rw [hnone, List.append_assoc, List.cons_append]
        _ = batches pending (.wait (m + 1) :: .wait (n + 1) :: rest) := rfl

end SameBatches

/-- The writes that steps make, without atoms and offsets. -/
def bareSteps (steps : List (Step RegisterOp)) : List (Step ParamWrite) :=
  (steps.flatMap changesOf).map (Step.mapAct Change.bare)

theorem bareSteps_append (front rest : List (Step RegisterOp)) :
    bareSteps (front ++ rest) = bareSteps front ++ bareSteps rest := by
  rw [bareSteps, List.flatMap_append, List.map_append, bareSteps, bareSteps]

theorem bareSteps_cons (s : Step RegisterOp) (rest : List (Step RegisterOp)) :
    bareSteps (s :: rest) = bareSteps [s] ++ bareSteps rest :=
  bareSteps_append [s] rest

theorem sameBatches_joinWaits (steps : List (Step RegisterOp)) :
    SameBatches (bareSteps (Trace.joinWaits steps)) (bareSteps steps) := by
  induction steps with
  | nil => exact fun _ => rfl
  | cons s rest ih =>
    have hrest := ih.append (bareSteps [s])
    rw [← bareSteps_cons, ← bareSteps_cons] at hrest
    intro pending
    rw [← hrest pending, Trace.joinWaits_cons]
    generalize Trace.joinWaits rest = joined
    unfold Trace.joinWait
    split
    · rename_i m n tail
      exact SameBatches.wait_wait m n (bareSteps tail) pending
    · rfl

theorem played_disassembled {steps : List (Step RegisterOp)} {out : List (Step ParamWrite)}
    (h : disassembleFrom {} [] steps = .ok out) (a : Apu) :
    played a (batches [] out) = played a (batches [] (bareSteps steps)) := by
  rw [← played_steps_bare, map_bare, map_change_disassembleFrom h, bareSteps]

theorem totalSamples_changesOf (s : Step RegisterOp) :
    totalSamples (changesOf s) = s.samples := by
  cases s with
  | wait n => exact Nat.add_zero n
  | act op =>
    cases op with
    | data kind payload => rfl
    | write register value =>
      rw [changesOf]
      split
      · rfl
      · rename_i c offset _
        have hacts := totalSamples_acts ((registerFields register).map fun f =>
          (⟨c, f.param, f.extract value⟩ : Change))
        rwa [List.map_map] at hacts

theorem totalSamples_flatMap_changesOf (steps : List (Step RegisterOp)) :
    totalSamples (steps.flatMap changesOf) = totalSamples steps := by
  induction steps with
  | nil => rfl
  | cons s rest ih =>
    rw [List.flatMap_cons, totalSamples_append, totalSamples_changesOf, ih, totalSamples_cons]

theorem totalSamples_disassembled {steps : List (Step RegisterOp)} {out : List (Step ParamWrite)}
    (h : disassembleFrom {} [] steps = .ok out) : totalSamples out = totalSamples steps := by
  rw [← totalSamples_mapAct ParamWrite.change, map_change_disassembleFrom h,
    totalSamples_flatMap_changesOf]

theorem known_joinWaits {steps : List (Step RegisterOp)} (h : ∀ s ∈ steps, s.Known) :
    ∀ s ∈ Trace.joinWaits steps, s.Known := by
  induction steps with
  | nil => exact h
  | cons s rest ih =>
    rw [List.forall_mem_cons] at h
    have hrest := ih h.2
    rw [Trace.joinWaits_cons]
    generalize Trace.joinWaits rest = joined at hrest
    unfold Trace.joinWait
    split
    · rw [List.forall_mem_cons] at hrest ⊢
      exact ⟨Step.known_wait _, hrest.2⟩
    · exact List.forall_mem_cons.mpr ⟨h.1, hrest⟩

theorem replay_disassemble_joinWaits {t : Timeline RegisterOp} {params : ParamLog}
    {s : RawScore} (hparams : disassemble t.toEvents = .ok params)
    (hreplay : replay params = .ok s) :
    ∃ joined, disassemble (Timeline.toEvents ⟨t.clock, Trace.joinWaits t.steps⟩) = .ok joined ∧
      replay joined = .ok s := by
  obtain ⟨t, out, ht, hout, rfl⟩ := disassemble_eq_ok.mp hparams
  cases Timeline.toEvents_inj.mp ht
  obtain ⟨t, hlog, -, rfl⟩ := replay_eq_ok.mp hreplay
  cases Timeline.toEvents_inj.mp hlog
  have hknown := disassembleFrom_isOk_iff.mp ⟨out, hout⟩
  obtain ⟨joined, hjoined⟩ := disassembleFrom_isOk_iff.mpr (known_joinWaits hknown)
  refine ⟨_, disassemble_eq_ok.mpr ⟨_, joined, rfl, hjoined, rfl⟩,
    replay_eq_ok.mpr ⟨_, rfl, taken_disassembled hjoined, ?_⟩⟩
  have htotal : totalSamples joined = totalSamples out := by
    rw [totalSamples_disassembled hjoined, Trace.totalSamples_joinWaits,
      totalSamples_disassembled hout]
  dsimp only
  rw [htotal, played_disassembled hjoined, played_disassembled hout, sameBatches_joinWaits]

/-! ## Scores at the sample rate -/

namespace RawScore

/-- One frame for each sample. -/
structure Native (s : RawScore) : Prop where
  rate : s.rate = floatOf sampleRate
  count : s.sampleCount = s.frames.length

/-- The frames as the scribe brings them back at the sample rate: the triangle waits
for a quarter frame behind the sample where it is first set. -/
def cycled (s : RawScore) : List Frame :=
  s.frames.mapIdx fun t f =>
    if s.clock.quarterWithin (s.frames.findIdx Frame.setsTriangle) t then f.scribed
    else { f.scribed with triangle := Slot.zero }

namespace Native

variable {s : RawScore} (h : s.Native)
include h

theorem spans_eq : s.spans = s.frames.map fun f => (f, 1) := by
  have hwaits : s.waits = (List.replicate s.frames.length 1, s.frames.length) := by
    rw [waits, h.rate]
    exact if_pos (by decide)
  have hzip : ∀ frames : List Frame,
      frames.zip (List.replicate frames.length 1) = frames.map fun f => (f, 1) := by
    intro frames
    induction frames with
    | nil => rfl
    | cons f rest ih => simp [List.replicate_succ, ih]
  simp only [spans, hwaits, h.count, List.map_replicate, Nat.lt_irrefl, if_false, List.append_nil]
  exact hzip s.frames

theorem waitsIn_eq : waitsIn s.scribe = List.replicate s.frames.length 1 := by
  rw [s.waitsIn_scribe, h.spans_eq, List.map_map]
  exact List.map_const'

theorem onset_eq : onset s.spans = s.frames.findIdx Frame.setsTriangle := by
  rw [h.spans_eq]
  generalize s.frames = frames
  induction frames with
  | nil => rfl
  | cons f rest ih =>
    rw [List.map_cons, onset, ih, List.findIdx_cons]
    cases f.setsTriangle <;> simp [Nat.add_comm]

end Native

end RawScore

theorem startOf_ones {n i : Nat} (h : i ≤ n) : startOf (List.replicate n 1) i = i := by
  induction n generalizing i with
  | zero => simp [startOf, Nat.le_zero.mp h]
  | succ n ih =>
    cases i with
    | zero => rfl
    | succ i => rw [List.replicate_succ, startOf_succ, ih (by omega), Nat.add_comm]

namespace RawScore.Native

variable {s : RawScore} (h : s.Native)
include h

theorem totalSamples_eq : totalSamples (opening.map .act ++ s.frameSteps) = s.frames.length := by
  have htotal := waitTotal_eq s.scribe
  rw [h.waitsIn_eq, List.length_replicate, startOf_ones (Nat.le_refl _)] at htotal
  rw [← htotal, scribe, Timeline.waitTotal_toEvents]

theorem played_scribe (hwell : ∀ f ∈ s.frames, f.WellFormed 0x7FF) :
    (played (Apu.new s.clock) (batches [] (opening.map .act ++ s.frameSteps))).map Apu.frame =
      s.cycled := by
  generalize hstates : played (Apu.new s.clock) (batches [] (opening.map .act ++ s.frameSteps)) =
    states
  have hlength : states.length = s.frames.length := by
    rw [← hstates, length_played, length_batches, h.totalSamples_eq]
  apply List.ext_getElem?
  intro t
  rw [List.getElem?_map, cycled, List.getElem?_mapIdx]
  by_cases ht : t < s.frames.length
  · obtain ⟨f, hf⟩ : ∃ f, s.frames[t]? = some f := ⟨_, List.getElem?_eq_getElem ht⟩
    obtain ⟨a, ha⟩ : ∃ a, states[t]? = some a := ⟨_, List.getElem?_eq_getElem (hlength ▸ ht)⟩
    have hspan : s.spans[t]? = some (f, 1) := by rw [h.spans_eq, List.getElem?_map, hf]; rfl
    -- span `t` is sample `t`
    have hstart : startOf (waitsIn s.scribe) t = t := by
      rw [h.waitsIn_eq, startOf_ones (Nat.le_of_lt ht)]
    have htracks := tracks_score (k := 0) (b := a) hwell hspan Nat.zero_lt_one
      (by rw [hstart, hstates]; exact ha)
    rw [hstart, Nat.add_zero, h.onset_eq] at htracks
    rw [ha, hf, Option.map_some, Option.map_some,
      htracks.frame_eq (hwell f (List.mem_of_getElem? hf))]
  · have hle := Nat.not_lt.mp ht
    rw [List.getElem?_eq_none hle, List.getElem?_eq_none (hlength ▸ hle)]
    rfl

end RawScore.Native

theorem native_replay {log : ParamLog} {s : RawScore} (h : replay log = .ok s) :
    s.Native ∧ s.sampleCount = waitTotal log ∧ ∀ f ∈ s.frames, f.WellFormed 0x7FF := by
  have hlength := length_frames h
  obtain ⟨t, rfl, htaken, rfl⟩ := replay_eq_ok.mp h
  rw [t.waitTotal_toEvents] at hlength ⊢
  refine ⟨⟨rfl, hlength.symm⟩, rfl, ?_⟩
  intro f hf
  obtain ⟨a, ha, rfl⟩ := List.mem_map.mp hf
  exact (Reachable.new.played (writesIn_taken_iff.mp htaken).1 a ha).bounded.frame

/-! ## The whole way -/

theorem waitTotal_disassemble {log : RegisterLog} {params : ParamLog}
    (h : disassemble log = .ok params) : waitTotal params = waitTotal log := by
  obtain ⟨t, out, rfl, hout, rfl⟩ := disassemble_eq_ok.mp h
  rw [Timeline.waitTotal_toEvents, Timeline.waitTotal_toEvents, totalSamples_disassembled hout]

/-- A replayed score is scribed, assembled, taken apart again and replayed. -/
theorem replay_again {s : RawScore} (h : s.Native) (hwell : ∀ f ∈ s.frames, f.WellFormed 0x7FF) :
    ∃ raw params, assemble s.scribe = .ok raw ∧ disassemble raw = .ok params ∧
      replay params = .ok { s with frames := s.cycled } := by
  have htaken := taken_scribe hwell
  obtain ⟨raw, params, hraw, hparams, hreplay⟩ := replay_disassemble_assemble
    (t := ⟨s.clock, opening.map .act ++ s.frameSteps⟩) fun w hw =>
      ⟨placed_scribe s w hw, htaken w hw⟩
  rw [played_physical htaken, h.played_scribe hwell, h.totalSamples_eq, ← h.count, ← h.rate]
    at hreplay
  exact ⟨raw, params, hraw, hparams, hreplay⟩

def Trace.play (bytes : Bytes) : Except Error RawScore := do
  let log ← liftFormat (decode bytes)
  let params ← liftProtocol (disassemble log)
  liftProtocol (replay params)

theorem Trace.play_eq_ok {bytes : Bytes} {log : RegisterLog} {params : ParamLog} {s : RawScore}
    (hlog : decode bytes = .ok log) (hparams : disassemble log = .ok params)
    (hreplay : replay params = .ok s) : play bytes = .ok s := by
  simp only [play, hlog, hparams, hreplay, liftFormat, liftProtocol, bind, Except.bind]

theorem plays_again {s : RawScore} (h : s.Native) (hwell : ∀ f ∈ s.frames, f.WellFormed 0x7FF)
    (hcount : s.sampleCount ≤ 0xFFFFFFFF) :
    ∃ raw bytes, assemble s.scribe = .ok raw ∧ Trace.encode raw = .ok bytes ∧
      (bytes.length ≤ 0x100000003 →
        Trace.play bytes = .ok { s with frames := s.cycled }) := by
  obtain ⟨raw, params, hraw, hparams, hreplay⟩ := replay_again h hwell
  obtain ⟨t, steps, rfl, hsteps, -⟩ := disassemble_eq_ok.mp hparams
  -- the trace declares the samples of the score
  have htotal : totalSamples t.steps ≤ 0xFFFFFFFF := by
    have hsamples := (native_replay hreplay).2.1
    rw [waitTotal_disassemble hparams, Timeline.waitTotal_toEvents] at hsamples
    rw [← hsamples]
    exact hcount
  obtain ⟨bytes, hbytes⟩ := Trace.ofTimeline_isOk_iff.mpr htotal
  refine ⟨_, bytes, hraw, Trace.encode_eq_ok.mpr ⟨t, rfl, hbytes⟩, ?_⟩
  intro hlength
  obtain ⟨joined, hjoined, hagain⟩ := replay_disassemble_joinWaits hparams hreplay
  exact Trace.play_eq_ok (Trace.decode_ofTimeline hbytes hlength) hjoined hagain

/-- A trace that is read and taken apart plays a score, and the trace that comes back
from that score plays one of the same length with the same pulses and noise at every
sample, but for pulse periods above 2032: those come back mute. -/
theorem roundTrip_raw (bytes : Bytes) (settings : Settings) (log : RegisterLog)
    (params : ParamLog) (hlog : Trace.decode bytes = .ok log)
    (hparams : disassemble log = .ok params) :
    ∃ s out, replay params = .ok s ∧ roundTrip bytes .raw settings = .ok out ∧
      (out.length ≤ 0x100000003 → ∃ again, Trace.play out = .ok again ∧
        again.sampleCount = s.sampleCount ∧ again.frames.length = s.frames.length ∧
        ∀ (t : Nat) (f : Frame), s.frames[t]? = some f → ∃ g, again.frames[t]? = some g ∧
          g.pulse1 = f.pulse1.scribed ∧ g.pulse2 = f.pulse2.scribed ∧ g.noise = f.noise) := by
  obtain ⟨s, hs⟩ : ∃ s, replay params = .ok s := by
    obtain ⟨t, out, -, hout, rfl⟩ := disassemble_eq_ok.mp hparams
    exact ⟨_, replay_eq_ok.mpr ⟨_, rfl, taken_disassembled hout, rfl⟩⟩
  obtain ⟨hnative, hsamples, hwell⟩ := native_replay hs
  -- the trace declares its samples in 32 bits, so the one that comes back can as well
  have hcount : s.sampleCount ≤ 0xFFFFFFFF := by
    obtain ⟨clock, steps, rest, htrace, rfl⟩ := Trace.decode_eq_ok.mp hlog
    rw [hsamples, waitTotal_disassemble hparams, Timeline.waitTotal_toEvents,
      Trace.totalSamples_joinWaits, htrace.total]
    exact Trace.value_le _ rfl bytes
  obtain ⟨raw, out, hraw, hout, hplays⟩ := plays_again hnative hwell hcount
  refine ⟨s, out, hs, ?_, ?_⟩
  · simp only [roundTrip, Form.through, hlog, hparams, hs, hraw, liftFormat, liftProtocol, bind,
      Except.bind, Except.map]
    exact hout
  · intro hlength
    refine ⟨_, hplays hlength, rfl, List.length_mapIdx, ?_⟩
    intro t f hf
    refine ⟨_, by rw [RawScore.cycled, List.getElem?_mapIdx, hf]; rfl, ?_⟩
    split <;> exact ⟨rfl, rfl, rfl⟩

/-- A note that its sweep moves up, beside a noise. -/
theorem roundTrip_raw_glide :
    let steps : List (Step RegisterOp) := [.act (.write 0x00 0xBF), .act (.write 0x01 0x81),
      .act (.write 0x03 0x02), .act (.write 0x0C 0x3A), .act (.write 0x0E 0x85),
      .act (.write 0x0F 0x08), .wait 1, .act (.write 0x17 0x00), .wait 2]
    let bytes := Trace.headerBytes .ntsc 3 (Trace.headerSize + (Trace.body steps).length) ++
      Trace.body steps
    ∃ s out again, Trace.play bytes = .ok s ∧ roundTrip bytes .raw {} = .ok out ∧
      Trace.play out = .ok again ∧ again.frames.length = s.frames.length ∧
      (s.frames.map fun f => f.pulse1.period) = [0x200, 0x200, 0x300] ∧
      ∀ (t : Nat) (f : Frame), s.frames[t]? = some f → ∃ g, again.frames[t]? = some g ∧
        g.pulse1 = f.pulse1.scribed ∧ g.pulse2 = f.pulse2.scribed ∧ g.noise = f.noise := by
  intro steps bytes
  have hlog : Trace.decode bytes = .ok (Timeline.toEvents ⟨.ntsc, Trace.joinWaits steps⟩) :=
    Trace.decode_ofTimeline (show Trace.ofTimeline ⟨.ntsc, steps⟩ = .ok bytes from rfl)
      (by decide +kernel)
  obtain ⟨params, hparams⟩ :
      ∃ params, disassemble (Timeline.toEvents ⟨.ntsc, Trace.joinWaits steps⟩) = .ok params :=
    ⟨_, rfl⟩
  obtain ⟨s, out, hs, hout, hagain⟩ := roundTrip_raw bytes {} _ params hlog hparams
  have hsmall : (roundTrip bytes .raw {}).toOption.all (fun out => out.length ≤ 0x100000003) := by
    decide +kernel
  have hperiods : (Trace.play bytes).toOption.map (fun s => s.frames.map fun f => f.pulse1.period) =
      some [0x200, 0x200, 0x300] := by
    decide +kernel
  have hplay := Trace.play_eq_ok hlog hparams hs
  rw [hout] at hsmall
  rw [hplay] at hperiods
  obtain ⟨again, hplays, -, hlength, hvoices⟩ := hagain (of_decide_eq_true hsmall)
  exact ⟨s, out, again, hplay, hout, hplays, hlength, Option.some.inj hperiods, hvoices⟩

/-- The lowest note a pulse can hold does not come back. -/
theorem roundTrip_raw_mute :
    let steps : List (Step RegisterOp) := [.act (.write 0x00 0x3F), .act (.write 0x01 0x08),
      .act (.write 0x02 0xFF), .act (.write 0x03 0x07), .wait 1]
    let bytes := Trace.headerBytes .ntsc 1 (Trace.headerSize + (Trace.body steps).length) ++
      Trace.body steps
    let periods : Except Error RawScore → Option (List Nat) := fun s =>
      s.toOption.map fun s => s.frames.map fun f => f.pulse1.period
    (roundTrip bytes .raw {}).toOption.any (fun out => out.length ≤ 0x100000003) = true ∧
      periods (Trace.play bytes) = some [0x7FF] ∧
      periods (roundTrip bytes .raw {} >>= Trace.play) = some [0] := by
  decide +kernel

end ApuScore

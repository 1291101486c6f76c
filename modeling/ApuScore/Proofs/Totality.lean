import ApuScore.Proofs.Regrouping
import ApuScore.Proofs.Lengths
import ApuScore.Proofs.Rates
/-
  Every round trip of a good trace succeeds and keeps its duration.

  What passes between the stages is a parameter log that is sound: it waits a certain
  number of samples, and its writes are accepted where the layout has them
  (`ParamLog.Sound`). This file shows that

  1. a log that is taken apart is sound (`sound_disassemble`), and so is the log of a score
     whose frames fit the registers (`sound_scribe`);
  2. every form takes a sound log to one that waits as long (`Form.sound_through`);
  3. a sound log is assembled and written as a trace whose commands wait that long
     (`ParamLog.Sound.assemble`);

  and puts it together in `roundTrip_lasts`.
-/

namespace ApuScore

/-! ## Written traces -/

/-- The commands of the trace wait `n` samples up to its end marker. -/
def Trace.Lasts (bytes : Bytes) (n : Nat) : Prop :=
  ∃ steps rest, CommandStream
    (bytes.drop (Header.startOf (HeaderField.dataOffset.value bytes))) steps rest ∧
      totalSamples steps = n

namespace Trace

theorem Lasts.unique {bytes : Bytes} {m n : Nat} (hm : Lasts bytes m) (hn : Lasts bytes n) :
    m = n := by
  obtain ⟨steps, rest, hsteps, rfl⟩ := hm
  obtain ⟨other, rest', hother, rfl⟩ := hn
  -- the reader finds one list of steps
  have hread : stepsFrom 0 0 [] _ = .ok steps := stepsFrom_eq_ok.mpr ⟨rest, hsteps⟩
  rw [stepsFrom_eq_ok.mpr ⟨rest', hother⟩] at hread
  rw [Except.ok.inj hread]

theorem value_headerBytes (clock : Clock) (total len : Nat) (rest : Bytes) (f : HeaderField) :
    f.value (headerBytes clock total len ++ rest) =
      Bytes.ofLe (Bytes.le f.size (f.written clock total len)) := by
  have hfits : f.offset + f.size ≤ (headerBytes clock total len).length := by
    rw [length_headerBytes]
    cases f <;> decide
  have hsize : f.size ≤ ((headerBytes clock total len).drop f.offset).length := by
    rw [List.length_drop]
    omega
  rw [HeaderField.value, List.drop_append_of_le_length (Nat.le_of_add_right_le hfits),
    List.take_append_of_le_length hsize, headerBytes_field]

theorem startOf_headerBytes (clock : Clock) (total len : Nat) (rest : Bytes) :
    Header.startOf (HeaderField.dataOffset.value (headerBytes clock total len ++ rest)) =
      headerSize := by
  rw [value_headerBytes]
  show Header.startOf (Bytes.ofLe (Bytes.le 4 (headerSize - 0x34))) = headerSize
  decide

theorem lasts_ofTimeline {t : Timeline RegisterOp} (htotal : totalSamples t.steps ≤ 0xFFFFFFFF)
    (hsteps : ∀ s ∈ t.steps, s.Writable) :
    ∃ bytes, ofTimeline t = .ok bytes ∧ Lasts bytes (totalSamples t.steps) := by
  refine ⟨_, if_pos htotal, t.steps.flatMap Step.pieces, [], ?_,
    totalSamples_flatMap_pieces t.steps⟩
  rw [startOf_headerBytes, List.drop_left' (length_headerBytes _ _ _)]
  exact stream_body hsteps

theorem lasts_encode_decode {bytes : Bytes} {log : RegisterLog} (h : decode bytes = .ok log) :
    ∃ out, encode log = .ok out ∧ Lasts out (HeaderField.totalSamples.value bytes) := by
  obtain ⟨clock, steps, rest, htrace, rfl⟩ := decode_eq_ok.mp h
  have htotal := totalSamples_joinWaits steps
  rw [htrace.total] at htotal
  have hwritable : ∀ s ∈ joinWaits steps, s.Writable := by
    intro s hs
    cases s with
    | wait n => trivial
    | act op => exact htrace.stream.writable _ (act_mem_joinWaits.mp hs)
  obtain ⟨out, hout, hlasts⟩ := lasts_ofTimeline (t := ⟨clock, joinWaits steps⟩)
    (by rw [htotal]; exact value_le _ rfl bytes) hwritable
  rw [htotal] at hlasts
  exact ⟨out, encode_eq_ok.mpr ⟨_, rfl, hout⟩, hlasts⟩

end Trace

/-! ## Sound logs -/

/-- The log waits `n` samples, and its writes are accepted where the layout has them. -/
def ParamLog.Sound (log : ParamLog) (n : Nat) : Prop :=
  ∃ t : Timeline ParamWrite, log = t.toEvents ∧ totalSamples t.steps = n ∧
    ∀ w ∈ writesIn t.steps, w.Placed ∧ w.taken = true

theorem sound_disassemble {log : RegisterLog} {params : ParamLog}
    (h : disassemble log = .ok params) : params.Sound (waitTotal log) := by
  obtain ⟨t, out, rfl, hout, rfl⟩ := disassemble_eq_ok.mp h
  refine ⟨⟨t.clock, out⟩, rfl, ?_, placed_disassembled hout⟩
  rw [totalSamples_disassembled hout, Timeline.waitTotal_toEvents]

theorem sound_scribe {s : RawScore} (hfits : ∀ f ∈ s.frames, f.Fits)
    (hnative : isSampleRate s.rate = true → s.frames.length = s.sampleCount)
    (hcount : s.sampleCount ≤ 0xFFFFFFFF) : s.scribe.Sound s.sampleCount := by
  refine ⟨_, rfl, ?_, fun w hw => ⟨placed_scribe s w hw, taken_score hfits w hw⟩⟩
  rw [s.totalSamples_scribe hcount]
  split
  · rename_i hrate
    rw [hnative hrate, Nat.max_self]
  · rfl

theorem writable_assembleFrom {steps : List (Step ParamWrite)} {r r' : Registers}
    {run : List PendingWrite} {found : List (List (Step RegisterOp))}
    {raw : List (Step RegisterOp)} (hfound : ∀ part ∈ found, ∀ s ∈ part, s.Writable)
    (h : assembleFrom r run found steps = (r', .ok raw)) : ∀ s ∈ raw, s.Writable := by
  have hclosed : ∀ run : List PendingWrite, ∀ s ∈ closeRun run, s.Writable := by
    intro run
    rw [closeRun, List.forall_mem_map]
    exact fun _ _ => trivial
  induction steps generalizing r run found with
  | nil =>
    cases h
    intro s hs
    obtain ⟨part, hpart, hs⟩ := List.mem_flatten.mp hs
    exact List.forall_mem_cons.mpr ⟨hclosed run, hfound⟩ part (List.mem_reverse.mp hpart) s hs
  | cons step rest ih =>
    cases step with
    | wait n =>
      refine ih (List.forall_mem_cons.mpr ⟨?_, hfound⟩) h
      rw [List.forall_mem_append]
      exact ⟨hclosed run, by simp [Step.Writable]⟩
    | act w =>
      rw [assembleFrom] at h
      split at h
      · cases h
      · exact ih hfound h

namespace ParamLog.Sound

variable {log : ParamLog} {n : Nat} (h : log.Sound n)
include h

theorem assemble (hn : n ≤ 0xFFFFFFFF) :
    ∃ raw out, ApuScore.assemble log = .ok raw ∧ Trace.encode raw = .ok out ∧
      Trace.Lasts out n := by
  obtain ⟨t, rfl, rfl, hwrites⟩ := h
  obtain ⟨r, raw, hraw, -, hchanges⟩ := assembleFrom_physical hwrites Registers.zero owned_nil
  have htotal : totalSamples raw = totalSamples t.steps := by
    rw [← totalSamples_flatMap_changesOf, hchanges, totalSamples_mapAct, totalSamples_physical]
  obtain ⟨out, hout, hlasts⟩ := Trace.lasts_ofTimeline (t := ⟨t.clock, raw⟩)
    (by rw [htotal]; exact hn) (writable_assembleFrom (by simp) hraw)
  rw [htotal] at hlasts
  refine ⟨_, out, ?_, Trace.encode_eq_ok.mpr ⟨_, rfl, hout⟩, hlasts⟩
  simp only [ApuScore.assemble, assembleOver, Timeline.ofEvents_toEvents, hraw]
  rfl

theorem replay : ∃ s, ApuScore.replay log = .ok s ∧ s.sampleCount = n := by
  obtain ⟨t, rfl, rfl, hwrites⟩ := h
  exact ⟨_, replay_eq_ok.mpr ⟨t, rfl, fun w hw => (hwrites w hw).2, rfl⟩, rfl⟩

theorem regroup_prune : ∃ again, (prune log >>= regroup) = .ok again ∧ again.Sound n := by
  obtain ⟨t, rfl, rfl, hwrites⟩ := h
  have htaken : ∀ w ∈ writesIn (keptSteps Values.initial t.steps), w.taken = true :=
    fun w hw => (hwrites w (writesIn_keptSteps _ _ w hw)).2
  refine ⟨_, ?_, ⟨t.clock, regrouped {} (keptSteps Values.initial t.steps)⟩, rfl, ?_,
    placed_regrouped {} htaken⟩
  · rw [prune_toEvents]
    exact regroup_toEvents t.clock htaken
  · rw [totalSamples_regrouped, totalSamples_keptSteps]

theorem scribe_replay (hn : n ≤ 0xFFFFFFFF) :
    ∃ again, (ApuScore.replay log).map RawScore.scribe = .ok again ∧ again.Sound n := by
  obtain ⟨s, hs, rfl⟩ := h.replay
  obtain ⟨hnative, -, hwell⟩ := native_replay hs
  refine ⟨s.scribe, by rw [hs]; rfl, sound_scribe (fun f hf => (hwell f hf).fits) ?_ hn⟩
  exact fun _ => hnative.count.symm

/-- A sound log is taken through its expressive score, at a given rate and through a
projection that keeps scores fitting, to a sound log. -/
theorem throughExpressive (hn : n ≤ 0xFFFFFFFF) {rate : FrameRate} {settings : Settings}
    (hrate : rate.Given) (hsettings : settings.check = .ok ())
    {project : ExpressiveScore → Except ProtocolError ExpressiveScore} (hproject : Keeps project) :
    ∃ again, ApuScore.throughExpressive log rate settings project = .ok again ∧
      again.Sound n := by
  obtain ⟨s, hs, hcount⟩ := h.replay
  obtain ⟨hnative, -, hwell⟩ := native_replay hs
  obtain ⟨e, he, hsample, hcountE, hfitsE⟩ := hnative.express hwell settings
  obtain ⟨f, hf, hfitsF, hcountF⟩ := hfitsE.atRate hsample hrate hsettings
  obtain ⟨g, hg, hfitsG, hcountG⟩ := hproject f hfitsF
  have hsame : (g.toRaw s.clock).sampleCount = n := by
    rw [← hcount, ← hcountE, ← hcountF, ← hcountG]
    rfl
  refine ⟨(g.toRaw s.clock).scribe, ?_, ?_⟩
  · simp only [ApuScore.throughExpressive, hs, he, hf, hg, liftProtocol, bind, Except.bind]
    rfl
  · rw [← hsame] at hn ⊢
    refine sound_scribe (hfitsG.toRaw s.clock) ?_ hn
    intro hsampled
    rw [ExpressiveScore.toRaw, List.length_map]
    exact hfitsG.native hsampled

end ParamLog.Sound

/-! ## The whole way -/

theorem liftProtocol_ok {α : Type} (a : α) :
    liftProtocol (.ok a : Except ProtocolError α) = .ok a := rfl

/-- Every form at a given rate takes a sound log to one that waits as long. -/
theorem Form.sound_through {log : ParamLog} {n : Nat} (h : log.Sound n) (hn : n ≤ 0xFFFFFFFF)
    {form : Form} {settings : Settings} (hform : form.Given)
    (hsettings : settings.check = .ok ()) :
    ∃ again, form.through settings log = .ok again ∧ again.Sound n := by
  cases form with
  | registers => exact ⟨log, rfl, h⟩
  | params => exact ⟨log, rfl, h⟩
  | changes =>
    obtain ⟨again, hagain, hsound⟩ := h.regroup_prune
    exact ⟨again, by rw [Form.through, hagain, liftProtocol_ok], hsound⟩
  | raw =>
    obtain ⟨again, hagain, hsound⟩ := h.scribe_replay hn
    exact ⟨again, by rw [Form.through, hagain, liftProtocol_ok], hsound⟩
  | expressive rate => exact h.throughExpressive hn hform hsettings fun s hs => ⟨s, rfl, hs, rfl⟩
  | separated rate => exact h.throughExpressive hn hform hsettings keeps_separate
  | blended rate => exact h.throughExpressive hn hform hsettings keeps_blend
  | sheet rate => exact h.throughExpressive hn hform hsettings keeps_sheet

/-- A trace that is read and taken apart comes back from every form, at one frame per
sample or a given rate up to the sample rate and under all settings that pass their
check, and the waits of the trace that comes back add up to the declared total of the
first. -/
theorem roundTrip_lasts {bytes : Bytes} {log : RegisterLog} {params : ParamLog} {form : Form}
    {settings : Settings} (hlog : Trace.decode bytes = .ok log)
    (hparams : disassemble log = .ok params) (hform : form.Given)
    (hsettings : settings.check = .ok ()) :
    ∃ out, roundTrip bytes form settings = .ok out ∧
      Trace.Lasts out (HeaderField.totalSamples.value bytes) := by
  have htotal := Trace.waitTotal_decode hlog
  have hcount : waitTotal log ≤ 0xFFFFFFFF := htotal ▸ Trace.value_le _ rfl bytes
  obtain ⟨again, hagain, hsound⟩ := Form.sound_through (sound_disassemble hparams) hcount hform
    hsettings
  obtain ⟨raw, out, hraw, hout, hlasts⟩ := hsound.assemble hcount
  rw [htotal] at hlasts
  by_cases hregisters : form = .registers
  · obtain ⟨out, hout, hlasts⟩ := Trace.lasts_encode_decode hlog
    refine ⟨out, ?_, hlasts⟩
    simp only [hregisters, roundTrip, hlog, liftFormat, bind, Except.bind]
    exact hout
  · refine ⟨out, ?_, hlasts⟩
    cases form with
    | registers => exact absurd rfl hregisters
    | _ =>
      simp only [roundTrip, hlog, hparams, hagain, hraw, liftFormat, liftProtocol, bind,
        Except.bind]
      exact hout

/-- A short tune with a data block, taken to a sheet of 60 frames per second, where its
1500 samples make two frames and a rest. -/
theorem roundTrip_lasts_sheet :
    let steps : List (Step RegisterOp) := [.act (.data 0x07 [0x66, 0xB4]),
      .act (.write 0x15 0x0F), .act (.write 0x00 0xBF), .act (.write 0x02 0xFD),
      .act (.write 0x03 0x08), .wait 700, .act (.write 0x0C 0x3A), .act (.write 0x0E 0x85),
      .act (.write 0x0F 0x08), .wait 300, .act (.write 0x02 0x7E), .wait 500]
    let bytes := Trace.headerBytes .ntsc 1500 (Trace.headerSize + (Trace.body steps).length) ++
      Trace.body steps
    let settings : Settings := { midiLow := 33, midiHigh := 96 }
    let form : Form := .sheet (.fixed 60.0)
    (Trace.decode bytes).isOk = true ∧ form.Given ∧ settings.check = .ok () ∧
      ∃ out, roundTrip bytes form settings = .ok out ∧ Trace.Lasts out 1500 := by
  intro steps bytes settings form
  have hlog : Trace.decode bytes = .ok (Timeline.toEvents ⟨.ntsc, Trace.joinWaits steps⟩) :=
    Trace.decode_ofTimeline (show Trace.ofTimeline ⟨.ntsc, steps⟩ = .ok bytes from rfl)
      (by decide +kernel)
  obtain ⟨params, hparams⟩ :
      ∃ params, disassemble (Timeline.toEvents ⟨.ntsc, Trace.joinWaits steps⟩) = .ok params :=
    ⟨_, rfl⟩
  have hform : form.Given :=
    ⟨show (0.0 : Float) < 60.0 by decide +kernel, show (60.0 : Float) ≤ 44100.0 by decide +kernel⟩
  have hsettings : settings.check = .ok () :=
    show Settings.check { midiLow := 33, midiHigh := 96 } = .ok () from rfl
  refine ⟨by rw [hlog]; rfl, hform, hsettings, ?_⟩
  exact roundTrip_lasts hlog hparams hform hsettings

end ApuScore

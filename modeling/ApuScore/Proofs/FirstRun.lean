import ApuScore.Proofs.Mirroring
/-
  A scribed score plays the same through its register writes.

  The first run, where the opening and the first frame share the channel enables, puts
  the two chips side by side (`mirrored_first`), and every later run keeps them there;
  so both play the same score (`played_physical`).
-/

namespace ApuScore

/-! ## The first run -/

def Voice.openKeys : Voice → List WriteKey
  | .pulse1 => [⟨.pulse1, 0, 1⟩, ⟨.pulse1, 1, 2⟩]
  | .pulse2 => [⟨.pulse2, 0, 3⟩, ⟨.pulse2, 1, 4⟩]
  | .triangle => [⟨.triangle, 0, 5⟩]
  | .noise => [⟨.noise, 0, 6⟩]

/-- The keys of the opening writes. -/
def openKeys : List WriteKey := statusKey :: Voice.all.flatMap Voice.openKeys

/-- The register file behind the opening writes. -/
@[irreducible] def openFile : Registers := (gather (Registers.zero, []) opening).1

theorem heard_done {v : Voice} {old : Registers} {keys : List WriteKey}
    (h : ∀ k ∈ keys, k.atom ≠ 0) (r r' : Registers) : heard v old r keys = heard v old r' keys := by
  induction keys with
  | nil => rfl
  | cons k keys ih =>
    rw [List.forall_mem_cons] at h
    have hlay : lay old r k = lay old r' k := by rw [lay, lay, if_neg h.1, if_neg h.1]
    rw [heard, heard, List.flatMap_cons, List.flatMap_cons, hlay]
    exact congrArg (_ ++ ·) (ih h.2)

theorem gather_opening :
    gather (Registers.zero, []) opening = (openFile, openKeys.map (lay openFile openFile)) := by
  have hrun : (gather (Registers.zero, []) opening).2 =
      openKeys.map (lay openFile openFile) := by
    unfold openFile
    decide +kernel
  exact Prod.ext (by rw [openFile]) hrun

theorem mirrors_opening : openFile.Mirrors Frame.zero where
  enable v := by cases v <;> (unfold Registers.Enables; decide +kernel)
  pulse1 := by constructor <;> decide +kernel
  pulse2 := by constructor <;> decide +kernel
  triangle := by constructor <;> decide +kernel
  noise := by constructor <;> decide +kernel

theorem owned_openKeys : ∀ k ∈ openKeys, k.Owned := by
  unfold WriteKey.Owned
  decide +kernel

theorem nodup_openKeys : openKeys.Nodup := by decide +kernel

/-- The writes that the physical run of the opening and the first frame stands for. -/
def firstWrites (f : Frame) : List ParamWrite :=
  (gather (Registers.zero, []) (opening ++ frameWrites Frame.zero f)).2.flatMap
    PendingWrite.writes

/-- In the first run a voice hears its enable, as the first frame leaves it, then its
opening registers and then those of the frame. -/
theorem writesOf_firstWrites {f : Frame}
    (htaken : ∀ w ∈ frameWrites Frame.zero f, w.taken = true) (v : Voice) :
    writesOf v (firstWrites f) =
      enableWrite v (v.sounds f) :: heard v openFile openFile v.openKeys ++
        heard v openFile (openFile.settle Frame.zero f)
          (((v.sets Frame.zero f).map ParamWrite.key).foldl touchKey []) := by
  obtain ⟨m, n, -, hheard⟩ :=
    writesOf_gather htaken v openFile openFile openKeys owned_openKeys nodup_openKeys
  have hkeys : openKeys.filter (WriteKey.concerns v) = statusKey :: v.openKeys := by
    cases v <;> decide +kernel
  have hdone : ∀ k ∈ v.openKeys, k.atom ≠ 0 := by cases v <;> decide
  -- the frame writes under atom 0, the opening registers under atoms of their own
  have hfresh : ∀ k ∈ (v.sets Frame.zero f).map ParamWrite.key, k ∉ statusKey :: v.openKeys := by
    intro k hk hmem
    rcases List.mem_cons.mp hmem with rfl | hopen
    · exact statusKey_notMem_sets v Frame.zero f hk
    · obtain ⟨w, hw, rfl⟩ := List.mem_map.mp hk
      exact hdone _ hopen (forall_sets v Frame.zero f w hw).2
  have hown := foldl_touchKey_append hfresh []
  rw [List.append_nil] at hown
  have hstatus : (openFile.settle Frame.zero f).Enables v (v.sounds f) :=
    (mirrors_opening.enable v).settle htaken openFile v
  rw [firstWrites, gather_append, gather_opening, hheard, hkeys,
    List.foldl_append, List.foldl_append, foldl_touchKey_replicate m List.mem_cons_self, hown,
    foldl_touchKey_replicate n (List.mem_append_left _ List.mem_cons_self), heard_append,
    ← List.singleton_append, heard_append, heard_status hstatus,
    heard_done hdone _ openFile]
  rfl

theorem holds_opened : LengthCounter.Holds (Slot.zero.period != 0)
    { enabled := false, halt := true } := by
  rw [show (Slot.zero.period != 0) = false by decide]
  exact holds_shut

theorem regate_opened (on : Bool) :
    LengthCounter.regate (Slot.zero.period != 0) on { enabled := false, halt := true } =
      { enabled := on, halt := true } := by
  rw [show (Slot.zero.period != 0) = false by decide]
  cases on <;> rfl

theorem Pulse.mirrored_first {f : Frame} (htaken : ∀ w ∈ frameWrites Frame.zero f, w.taken = true)
    {v : Voice} (hv : v = .pulse1 ∨ v = .pulse2) {s : Slot}
    (hsets : v.sets Frame.zero f = pulseSets v Slot.zero s)
    (hsounds : v.sounds f = (s.period != 0)) (onesComplement : Bool) :
    Pulse.Mirrored v (openFile.settle Frame.zero f) s
      ((pulseWrites v Slot.zero s).foldl Pulse.hear (openedPulse onesComplement))
      ((writesOf v (firstWrites f)).foldl Pulse.hear { onesComplement := onesComplement }) := by
  have hopen : openFile.MirrorsPulse v.channel Slot.zero := by
    rcases hv with rfl | rfl
    · exact mirrors_opening.pulse1
    · exact mirrors_opening.pulse2
  have hvolume : openFile.value v.channel .volume = 0 := by
    rcases hv with rfl | rfl <;> decide +kernel
  have hlevel := volume_settle htaken hsets openFile
  -- the enable stands in front of the opening registers, as the first frame sets it
  have hheard : ∀ on : Bool, (enableWrite v on :: heard v openFile openFile v.openKeys).foldl
      Pulse.hear { onesComplement := onesComplement } =
      { openedPulse onesComplement with
        sweep := { shift := 7, reload := true }
        length := { enabled := on, halt := true } } := by
    intro on
    rcases hv with rfl | rfl <;> cases onesComplement <;> cases on <;> decide +kernel
  have hat : ∀ on : Bool, Pulse.At { enabled := on, halt := true } Slot.zero.timbre
      (openFile.value v.channel .volume) Slot.zero.period
      { openedPulse onesComplement with
        sweep := { shift := 7, reload := true }
        length := { enabled := on, halt := true } } := by
    intro on
    rw [hvolume]
    have hplain := openedPulse_at onesComplement
    exact { hplain with
      off := rfl
      upward := rfl
      shift := rfl
      target := hplain.target
      length := rfl }
  have hopened : (openedPulse onesComplement).At { enabled := false, halt := true }
      Slot.zero.timbre (openFile.value v.channel .volume) Slot.zero.period := by
    rw [hvolume]
    exact openedPulse_at onesComplement
  refine hopened.mirrored hv holds_opened hopen (hopen.settle htaken hsets) hlevel ?_
  rw [regate_opened, writesOf_firstWrites htaken, List.foldl_append, hheard, hsets, hsounds]
  exact (hat (s.period != 0)).heard_own hv (hopen.settle htaken hsets) (by decide) hlevel rfl

theorem Noise.mirrored_first {f : Frame}
    (htaken : ∀ w ∈ frameWrites Frame.zero f, w.taken = true) (clock : Clock) :
    Noise.Mirrored (openFile.settle Frame.zero f) f.noise
      ((noiseWrites Slot.zero f.noise).foldl Noise.hear (Apu.opened clock).noise)
      ((writesOf .noise (firstWrites f)).foldl Noise.hear {}) := by
  have hopen := mirrors_opening.noise
  have hvolume : openFile.value .noise .volume = 0 := by decide +kernel
  have hperiod : openFile.value .noise .noisePeriod = 0 := by decide +kernel
  obtain ⟨hlevel', hperiod'⟩ := noise_settle htaken openFile
  have hheard : ∀ on : Bool,
      (enableWrite .noise on :: heard .noise openFile openFile Voice.noise.openKeys).foldl
        Noise.hear {} =
      { volume := { constant := true }, length := { enabled := on, halt := true } } := by
    intro on
    cases on <;> decide +kernel
  have hat : ∀ c : LengthCounter, Noise.At c (openFile.value .noise .volume)
      (Slot.zero.timbre != 0) (openFile.value .noise .noisePeriod)
      { volume := { constant := true }, length := c } := by
    intro c
    rw [hvolume, hperiod]
    exact ⟨rfl, rfl, rfl, rfl, rfl⟩
  have hzero : (Slot.zero.low != 0) = (Slot.zero.period != 0) := by decide
  have hshut : LengthCounter.Holds (Slot.zero.low != 0) { enabled := false, halt := true } := by
    rw [hzero]
    exact holds_opened
  refine (hat { enabled := false, halt := true }).mirrored hshut hlevel' hperiod' ?_
  rw [hzero, regate_opened, writesOf_firstWrites htaken, List.foldl_append, hheard]
  exact (hat { enabled := f.noise.low != 0, halt := true }).heard_own (hopen.settle htaken) hlevel'
    hperiod' rfl

theorem Triangle.foldl_firstWrites {f : Frame}
    (htaken : ∀ w ∈ frameWrites Frame.zero f, w.taken = true) (clock : Clock) :
    (writesOf .triangle (firstWrites f)).foldl Triangle.hear {} =
      (triangleWrites Slot.zero f.triangle).foldl Triangle.hear (Apu.opened clock).triangle := by
  have hheard : ∀ on : Bool,
      (enableWrite .triangle on :: heard .triangle openFile openFile
        Voice.triangle.openKeys).foldl Triangle.hear {} =
      { reloadValue := 127, length := { enabled := on, halt := true } } := by
    intro on
    cases on <;> decide +kernel
  rw [foldl_triangleWrites, writesOf_firstWrites htaken, List.foldl_append, hheard,
    show (Apu.opened clock).triangle.length = { enabled := false, halt := true } from rfl,
    regate_opened]
  exact heard_own _ (mirrors_opening.triangle.settle htaken)

theorem mirrored_first {f : Frame} (htaken : ∀ w ∈ frameWrites Frame.zero f, w.taken = true)
    (clock : Clock) :
    Apu.Mirrored (openFile.settle Frame.zero f) f
      ((Apu.new clock).step.setAll (opening ++ frameWrites Frame.zero f))
      ((Apu.new clock).step.setAll (firstWrites f)) := by
  obtain ⟨hpulse1, hpulse2, -, hnoise⟩ := writesOf_frameWrites Frame.zero f
  have hmirrors := mirrors_opening
  have hloads : (Slot.zero.period != 0) = false → (f.triangle.period != 0) = true →
      (f.triangle.period != Slot.zero.period) = true := by
    intro hshut hopen
    rw [bne_eq_false_iff_eq.mp hshut]
    exact hopen
  rw [Apu.setAll_append, Apu.setAll_opening]
  refine ⟨hmirrors.settle htaken, ?_, ?_, ?_, ?_, ?_, ?_⟩
  · rw [Apu.pulse1_setAll, Apu.pulse1_setAll, hpulse1,
      show (Apu.new clock).step.pulse1 = { onesComplement := true } by cases clock <;> rfl]
    exact Pulse.mirrored_first htaken (.inl rfl) rfl rfl true
  · rw [Apu.pulse2_setAll, Apu.pulse2_setAll, hpulse2,
      show (Apu.new clock).step.pulse2 = { onesComplement := false } by cases clock <;> rfl]
    exact Pulse.mirrored_first htaken (.inr rfl) rfl rfl false
  · rw [triangle_frameWrites, Triangle.foldl_triangleWrites]
    exact holds_opened.follow hloads
  · rw [triangle_frameWrites, Apu.triangle_setAll,
      show (Apu.new clock).step.triangle = {} by cases clock <;> rfl]
    exact Triangle.foldl_firstWrites htaken clock
  · rw [Apu.noise_setAll, Apu.noise_setAll, hnoise,
      show (Apu.new clock).step.noise = {} by cases clock <;> rfl]
    exact Noise.mirrored_first htaken clock
  · have hchannel : ∀ w ∈ firstWrites f, w.channel ≠ .frameCounter := by
      rw [firstWrites, gather_append, gather_opening]
      exact channel_gather htaken openFile openFile openKeys owned_openKeys nodup_openKeys
        (by decide)
    rw [sequencer_frameWrites, sequencer_setAll_of_channel hchannel]
    cases clock <;> rfl

/-! ## Whole scores -/

/-- Chips that hold a frame alike show the same through a wait, if they do behind it. -/
theorem Apu.Mirrored.wait {r : Registers} {f : Frame} {steps other : List (Step ParamWrite)}
    (hrest : ∀ (a b : Apu) (pending heard : List ParamWrite),
      Apu.Mirrored r f (a.step.setAll pending) (b.step.setAll heard) →
        (played b (batches heard other)).map Apu.frame =
          (played a (batches pending steps)).map Apu.frame)
    {a b : Apu} {pending heard : List ParamWrite}
    (h : Apu.Mirrored r f (a.step.setAll pending) (b.step.setAll heard)) (n : Nat) :
    (played b (batches heard (.wait n :: other))).map Apu.frame =
      (played a (batches pending (.wait n :: steps))).map Apu.frame := by
  have hstep : ∀ a b, Apu.Mirrored r f a b → Apu.Mirrored r f a.step b.step := fun _ _ => step
  have hshown : ∀ a b, Apu.Mirrored r f a b → b.frame = a.frame := fun _ _ => frame
  cases n with
  | zero => exact hrest a b pending heard h
  | succ n =>
    exact played_wait hstep hshown h n fun hlast => hrest _ _ [] [] (hstep _ _ hlast)

theorem physical_run (s : Registers × List PendingWrite) (writes : List ParamWrite) (n : Nat)
    (rest : List (Step ParamWrite)) :
    physical s.1 s.2 (writes.map .act ++ .wait n :: rest) =
      ((gather s writes).2.flatMap PendingWrite.writes).map .act ++
        .wait n :: physical (gather s writes).1 [] rest := by
  rw [physical_acts, physical]

/-- Chips that hold a frame alike show the same through all spans behind it. -/
theorem mirrored_spans {spans : List (Frame × Nat)} {r : Registers} {f : Frame} {a b : Apu}
    {pending other : List ParamWrite}
    (htaken : ∀ w ∈ writesIn (spanSteps f spans), w.taken = true)
    (h : Apu.Mirrored r f (a.step.setAll pending) (b.step.setAll other)) :
    (played b (batches other (physical r [] (spanSteps f spans)))).map Apu.frame =
      (played a (batches pending (spanSteps f spans))).map Apu.frame := by
  induction spans generalizing r f a b pending other with
  | nil => rfl
  | cons span rest ih =>
    obtain ⟨g, n⟩ := span
    rw [spanSteps, writesIn_append, writesIn_acts, writesIn_wait, List.forall_mem_append] at htaken
    have hfollow := h.follow htaken.1
    rw [← Apu.setAll_append, ← Apu.setAll_append] at hfollow
    have hfile : (gather (r, []) (frameWrites f g)).1 = r.settle f g := gather_fst _ _
    rw [spanSteps, physical_run (r, []), hfile, batches_acts, batches_acts]
    exact Apu.Mirrored.wait (fun _ _ _ _ hnext => ih htaken.2 hnext) hfollow n

theorem played_physical {s : RawScore}
    (htaken : ∀ w ∈ writesIn (opening.map .act ++ s.frameSteps), w.taken = true) :
    (played (Apu.new s.clock) (batches []
        (physical Registers.zero [] (opening.map .act ++ s.frameSteps)))).map Apu.frame =
      (played (Apu.new s.clock) (batches [] (opening.map .act ++ s.frameSteps))).map
        Apu.frame := by
  rw [s.frameSteps_eq] at htaken ⊢
  generalize s.spans = spans at htaken ⊢
  cases spans with
  | nil =>
    -- no wait and no sample
    have hacts : ∀ writes : List ParamWrite, batches [] (writes.map .act) = [] := by
      intro writes
      rw [← List.append_nil (writes.map _), batches_acts]
      rfl
    have hphysical := physical_acts (Registers.zero, []) opening []
    rw [List.append_nil] at hphysical
    rw [show spanSteps Frame.zero [] = [] from rfl, List.append_nil, hphysical, physical, hacts,
      hacts]
  | cons span rest =>
    obtain ⟨f, n⟩ := span
    rw [writesIn_append, spanSteps, writesIn_append, writesIn_acts, writesIn_acts, writesIn_wait,
      List.forall_mem_append, List.forall_mem_append] at htaken
    obtain ⟨-, hframe, hrest⟩ := htaken
    have hfile : (gather (Registers.zero, []) (opening ++ frameWrites Frame.zero f)).1 =
        openFile.settle Frame.zero f := by
      rw [gather_append, gather_opening, gather_fst]
      rfl
    rw [spanSteps, ← List.append_assoc, ← List.map_append, physical_run (Registers.zero, []),
      hfile, batches_acts, batches_acts, List.nil_append, List.nil_append]
    -- the first run stands for the opening too; every later one for its own frame
    exact Apu.Mirrored.wait (fun _ _ _ _ hnext => mirrored_spans hrest hnext)
      (mirrored_first hframe s.clock) n

theorem placed_scribe (s : RawScore) :
    ∀ w ∈ writesIn (opening.map .act ++ s.frameSteps), w.Placed := by
  have hspans : ∀ (spans : List (Frame × Nat)) (before : Frame),
      ∀ w ∈ writesIn (spanSteps before spans), w.Placed := by
    intro spans
    induction spans with
    | nil => intro before w hw; cases hw
    | cons span rest ih =>
      intro before
      rw [spanSteps, writesIn_append, writesIn_acts, writesIn_wait, List.forall_mem_append]
      exact ⟨fun w hw => (placed_frameWrites before span.1 w hw).1, ih span.1⟩
  have hopening : ∀ w ∈ opening, w.Placed := by
    unfold ParamWrite.Placed
    decide
  rw [s.frameSteps_eq, writesIn_append, writesIn_acts, List.forall_mem_append]
  exact ⟨hopening, hspans _ _⟩

/-- The register log of a scribed score is taken apart again and replayed as what the
scribed log plays: all four voices, at every sample. -/
theorem replay_assemble_scribe (s played : RawScore) (h : replay s.scribe = .ok played) :
    ∃ raw params, assemble s.scribe = .ok raw ∧ disassemble raw = .ok params ∧
      replay params = .ok played := by
  obtain ⟨t, hlog, htaken, rfl⟩ := replay_eq_ok.mp h
  -- the replay reads back the timeline that was scribed
  have ht : t = ⟨s.clock, opening.map .act ++ s.frameSteps⟩ := by
    have hread : Timeline.ofEvents s.scribe = .ok t := Timeline.ofEvents_eq_ok.mpr hlog
    rw [RawScore.scribe, Timeline.ofEvents_toEvents] at hread
    exact (Except.ok.inj hread).symm
  subst ht
  obtain ⟨raw, params, hraw, hparams, hreplay⟩ := replay_disassemble_assemble
    (t := ⟨s.clock, opening.map .act ++ s.frameSteps⟩) fun w hw =>
      ⟨placed_scribe s w hw, htaken w hw⟩
  rw [played_physical htaken] at hreplay
  exact ⟨raw, params, hraw, hparams, hreplay⟩

/-- Two frames on one sample, where the second shuts a pulse that the first opened and
leaves the noise alone. -/
theorem replay_assemble_scribe_cut :
    let s : RawScore :=
      { clock := .pal, rate := 88200, sampleCount := 2
        frames := [⟨⟨1, 0x20, 12, 2⟩, ⟨0, 0, 0, 1⟩, ⟨7, 0x80, 0, 0⟩, ⟨0, 13, 6, 1⟩⟩,
          ⟨⟨0, 0, 0, 2⟩, ⟨0, 8, 15, 3⟩, ⟨7, 0xFF, 0, 0⟩, ⟨0, 13, 6, 1⟩⟩,
          ⟨⟨7, 0xFF, 1, 3⟩, ⟨0, 0, 0, 1⟩, ⟨0, 0, 0, 0⟩, ⟨0, 0, 0, 1⟩⟩] }
    ∃ played raw params, replay s.scribe = .ok played ∧ assemble s.scribe = .ok raw ∧
      disassemble raw = .ok params ∧ replay params = .ok played := by
  intro s
  have hwell : ∀ f ∈ s.frames, f.WellFormed 0x7FF := by
    intro f hf
    simp only [s, List.mem_cons, List.not_mem_nil, or_false] at hf
    rcases hf with rfl | rfl | rfl
    · exact ⟨⟨.inr (by decide), by decide⟩, ⟨.inl (by decide), by decide⟩,
        ⟨by decide, rfl, rfl⟩, ⟨rfl, .inr (by decide), by decide⟩⟩
    · exact ⟨⟨.inl (by decide), by decide⟩, ⟨.inr (by decide), by decide⟩,
        ⟨by decide, rfl, rfl⟩, ⟨rfl, .inr (by decide), by decide⟩⟩
    · exact ⟨⟨.inr (by decide), by decide⟩, ⟨.inl (by decide), by decide⟩,
        ⟨by decide, rfl, rfl⟩, ⟨rfl, .inl (by decide), by decide⟩⟩
  have hreplay := replay_eq_ok.mpr ⟨⟨s.clock, opening.map .act ++ s.frameSteps⟩, rfl,
    taken_scribe hwell, rfl⟩
  obtain ⟨raw, params, hraw, hparams, hagain⟩ := replay_assemble_scribe s _ hreplay
  exact ⟨_, raw, params, hreplay, hraw, hparams, hagain⟩

end ApuScore

import ApuScore.Proofs.Canonical
import ApuScore.Proofs.Cycling
/-
  Excerpts of a trace.

  A trace that is read has its waits joined, and steps between which no waits touch are
  read back as they are written (`joinWaits_of_isChain`). A window keeps that, as it leaves
  out steps at both ends only, and it waits no longer than the trace does. So every excerpt
  is written and read back as its window.

  The samples of the steps in front take the same writes whatever follows
  (`batches_append`), and a sample of the chip depends on no later one. So an excerpt from
  the start plays the beginning of what the trace plays (`played_isPrefix`). Its last writes,
  behind the last wait that is kept, reach no sample. `decode_excerpt` has both parts.
-/

namespace ApuScore

/-! ## Windows -/

namespace Trace

theorem joinWaits_of_isChain {steps : List (Step RegisterOp)} (h : steps.IsChain Apart) :
    joinWaits steps = steps := by
  induction steps with
  | nil => rfl
  | cons s rest ih =>
    rw [joinWaits_cons, ih h.of_cons]
    cases s with
    | act op => rfl
    | wait m =>
      cases rest with
      | nil => rfl
      | cons next tail =>
        cases next with
        | act op => rfl
        | wait n =>
          rcases h.rel with hwait | hwait
          · cases hwait
          · cases hwait

end Trace

section

variable {α : Type}

theorem totalSamples_le_of_sublist {window steps : List (Step α)} (h : window.Sublist steps) :
    totalSamples window ≤ totalSamples steps := by
  induction h with
  | slnil => exact Nat.le_refl _
  | cons s _ ih => exact Nat.le_trans ih (Nat.le_add_left _ _)
  | cons_cons s _ ih => exact Nat.add_le_add_left ih _

/-- The timeline of `count` steps behind the first `start`. -/
def Timeline.window (t : Timeline α) (count start : Nat) : Timeline α :=
  { t with steps := (t.steps.drop start).take count }

theorem Timeline.toEvents_window (t : Timeline α) (count start : Nat) :
    (t.window count start).toEvents =
      .clock t.clock :: ((t.steps.map Step.toEvent).drop start).take count := by
  rw [toEvents, window, List.map_take, List.map_drop]

theorem Timeline.window_isInfix (t : Timeline α) (count start : Nat) :
    (t.window count start).steps <:+: t.steps :=
  (List.take_prefix count _).isInfix.trans (List.drop_suffix start t.steps).isInfix

end

namespace Trace

/-- Steps that do not touch and fit the declared total are read back as they are, and so
is every window of them. -/
theorem decode_window {t : Timeline RegisterOp} (hapart : t.steps.IsChain Apart)
    (htotal : totalSamples t.steps ≤ 0xFFFFFFFF) (count start : Nat) :
    ∃ out, encode (t.window count start).toEvents = .ok out ∧
      (out.length ≤ 0x100000003 → decode out = .ok (t.window count start).toEvents) := by
  have hwindow := t.window_isInfix count start
  obtain ⟨out, hout⟩ := ofTimeline_isOk_iff.mpr
    (Nat.le_trans (totalSamples_le_of_sublist hwindow.sublist) htotal)
  refine ⟨out, encode_eq_ok.mpr ⟨_, rfl, hout⟩, ?_⟩
  intro hlen
  rw [decode_ofTimeline hout hlen, joinWaits_of_isChain ( List.IsChain.infix hapart hwindow)]

end Trace

/-! ## Cut loose -/

theorem batches_append (pending : List ParamWrite) (front rest : List (Step ParamWrite)) :
    batches pending (front ++ rest) =
      batches pending front ++ batches (leftover pending front) rest := by
  induction pending, front using batches.induct with
  | case1 pending => rfl
  | case2 pending w front ih => rw [List.cons_append, batches, ih, batches, leftover]
  | case3 pending front ih => rw [List.cons_append, batches, ih, batches, leftover]
  | case4 pending n front ih =>
    rw [List.cons_append, batches, ih, batches, leftover, List.cons_append, List.append_assoc]

/-- What the chip plays depends on nothing that comes later. -/
theorem played_isPrefix (a : Apu) (front rest : List (Step ParamWrite)) :
    played a (batches [] front) <+: played a (batches [] (front ++ rest)) := by
  rw [batches_append, played_append]
  exact List.prefix_append _ _

theorem replay_disassembled {steps : List (Step RegisterOp)} {out : List (Step ParamWrite)}
    (h : disassembleFrom {} [] steps = .ok out) (clock : Clock) :
    replay (Timeline.toEvents ⟨clock, out⟩) = .ok
      { clock := clock, rate := floatOf sampleRate, sampleCount := totalSamples steps
        frames := (played (Apu.new clock) (batches [] (bareSteps steps))).map Apu.frame } := by
  refine replay_eq_ok.mpr ⟨_, rfl, taken_disassembled h, ?_⟩
  rw [totalSamples_disassembled h, played_disassembled h]

/-- The first steps of a log that is taken apart are taken apart as well, and they play
the beginning of what the log plays. -/
theorem replay_window {t : Timeline RegisterOp} {params : ParamLog}
    (h : disassemble t.toEvents = .ok params) (count : Nat) :
    ∃ whole kept cut, replay params = .ok whole ∧
      disassemble (t.window count 0).toEvents = .ok kept ∧ replay kept = .ok cut ∧
      cut.frames <+: whole.frames ∧ cut.frames.length = waitTotal (t.window count 0).toEvents := by
  obtain ⟨t, out, ht, hout, rfl⟩ := disassemble_eq_ok.mp h
  cases Timeline.toEvents_inj.mp ht
  have hknown := disassembleFrom_isOk_iff.mp ⟨out, hout⟩
  have hmem : ∀ s ∈ (t.window count 0).steps, s ∈ t.steps := (t.window_isInfix count 0).subset
  obtain ⟨kept, hkept⟩ := disassembleFrom_isOk_iff.mpr fun s hs => hknown s (hmem s hs)
  have hreplay := replay_disassembled hkept t.clock
  have hparams : disassemble (t.window count 0).toEvents =
      .ok (Timeline.toEvents ⟨t.clock, kept⟩) :=
    disassemble_eq_ok.mpr ⟨_, kept, rfl, hkept, rfl⟩
  refine ⟨_, _, _, replay_disassembled hout t.clock, hparams, hreplay, ?_, ?_⟩
  · -- the steps are those of the window and those behind it
    have hsplit : bareSteps t.steps =
        bareSteps (t.window count 0).steps ++ bareSteps (t.steps.drop count) := by
      rw [← bareSteps_append, Timeline.window, List.drop_zero, List.take_append_drop]
    dsimp only
    rw [hsplit]
    exact (played_isPrefix _ _ _).map Apu.frame
  · rw [length_frames hreplay, waitTotal_disassemble hparams]

/-! ## Excerpts -/

namespace Trace

theorem excerpt_of_decode {bytes : Bytes} {t : Timeline RegisterOp}
    (h : decode bytes = .ok t.toEvents) (count start : Nat) :
    excerpt bytes count start = encode (t.window count start).toEvents := by
  rw [excerpt, h, Timeline.toEvents_window]
  rfl

/-- Every trace that is read can be cut down to any window of its events, and the excerpt
is read as the clock and that window. From the start, the excerpt plays the beginning of
what the trace plays, one frame for each sample that is kept. -/
theorem decode_excerpt (bytes : Bytes) (clock : Clock) (events : RegisterLog)
    (h : decode bytes = .ok (.clock clock :: events)) (count start : Nat) :
    ∃ out, excerpt bytes count start = .ok out ∧
      (out.length ≤ 0x100000003 →
        decode out = .ok (.clock clock :: (events.drop start).take count)) ∧
      (start = 0 → ∀ params, disassemble (.clock clock :: events) = .ok params →
        ∃ whole kept cut, play bytes = .ok whole ∧
          disassemble (.clock clock :: events.take count) = .ok kept ∧ replay kept = .ok cut ∧
          (out.length ≤ 0x100000003 → play out = .ok cut) ∧
          cut.frames <+: whole.frames ∧
          cut.frames.length = waitTotal (events.take count)) := by
  obtain ⟨k, steps, rest, hwell, hlog⟩ := decode_eq_ok.mp h
  obtain ⟨rfl, rfl⟩ : clock = k ∧ events = (joinWaits steps).map Step.toEvent := by
    cases hlog
    exact ⟨rfl, rfl⟩
  set t : Timeline RegisterOp := ⟨clock, joinWaits steps⟩ with ht
  have htotal : totalSamples t.steps ≤ 0xFFFFFFFF := by
    rw [ht, totalSamples_joinWaits, hwell.total]
    exact value_le _ rfl bytes
  have hevents := t.toEvents_window count
  obtain ⟨out, hout, hread⟩ := decode_window (isChain_joinWaits steps) htotal count start
  refine ⟨out, (excerpt_of_decode h count start).trans hout, ?_, ?_⟩
  · intro hlen
    rw [hread hlen, hevents]
  · rintro rfl params hparams
    obtain ⟨whole, kept, cut, hwhole, hkept, hcut, hfront, hlength⟩ :=
      replay_window (t := t) hparams count
    have hplay := fun hlen => play_eq_ok (hread hlen) hkept hcut
    rw [hevents 0, List.drop_zero] at hkept hlength
    exact ⟨whole, kept, cut, play_eq_ok h hparams hwhole, hkept, hcut, hplay, hfront,
      hlength.trans (Nat.zero_add _)⟩

/-- A trace with an empty wait between its writes, cut in front of a wait: the write that
mutes the pulse is kept and reaches no sample. A window from the middle is read back as well. -/
theorem decode_excerpt_loose :
    let steps : List (Step RegisterOp) := [.act (.write 0x15 0x0F), .wait 0,
      .act (.write 0x00 0xBF), .act (.write 0x02 0x34), .act (.write 0x03 0x01), .wait 2,
      .act (.write 0x15 0x00), .wait 70000]
    let log := Timeline.toEvents ⟨.ntsc, steps⟩
    let bytes := headerBytes .ntsc 70002 (headerSize + (body steps).length) ++ body steps
    (∃ out whole cut, excerpt bytes 7 0 = .ok out ∧ decode out = .ok (log.take 8) ∧
      play bytes = .ok whole ∧ play out = .ok cut ∧ cut.frames <+: whole.frames ∧
      cut.frames.length = 2) ∧
    ∃ out, excerpt bytes 9 6 = .ok out ∧
      decode out = .ok [.clock .ntsc, .act (.write 0x15 0x00), .wait 70000] := by
  intro steps log bytes
  have hwritten : ofTimeline ⟨.ntsc, steps⟩ = .ok bytes := rfl
  have hread : decode bytes = .ok log := by
    rw [decode_ofTimeline hwritten (by decide +kernel)]
    rfl
  obtain ⟨params, hparams⟩ : ∃ params, disassemble log = .ok params := ⟨_, rfl⟩
  have hsmall : ∀ count start, (count = 7 ∧ start = 0) ∨ (count = 9 ∧ start = 6) →
      (excerpt bytes count start).toOption.all (fun out => out.length ≤ 0x100000003) := by
    rintro _ _ (⟨rfl, rfl⟩ | ⟨rfl, rfl⟩) <;> decide +kernel
  obtain ⟨out, hout, hdecode, haudio⟩ := decode_excerpt bytes .ntsc _ hread 7 0
  obtain ⟨middle, hmiddle, hagain, -⟩ := decode_excerpt bytes .ntsc _ hread 9 6
  obtain ⟨whole, -, cut, hwhole, -, -, hcut, hfront, hlength⟩ := haudio rfl params hparams
  have hlen := hsmall 7 0 (.inl ⟨rfl, rfl⟩)
  have hlen' := hsmall 9 6 (.inr ⟨rfl, rfl⟩)
  rw [hout] at hlen
  rw [hmiddle] at hlen'
  have hfits := of_decide_eq_true hlen
  exact ⟨⟨out, whole, cut, hout, hdecode hfits, hwhole, hcut hfits, hfront, hlength⟩,
    middle, hmiddle, hagain (of_decide_eq_true hlen')⟩

end Trace

end ApuScore

import ApuScore.Proofs.Dates
/-
  What replay and assembly refuse.

  A parameter log is refused for its clocks or for a write. This file

  1. says which fault the clocks of a log have, if any (`ClockFault`, `ofEvents_eq_error`);
  2. says what a whole log is refused for, and which writes stand in front of the fault
     (`ParamLog.Faulty`);
  3. follows an assembly up to the first write that is refused: the register file holds the
     writes before it (`assembleFrom_eq`);
  4. concludes that replay and assembly accept the same logs and refuse the others for the
     same reason, as long as no write names a wrong offset (`refused_alike`).
-/

namespace ApuScore

variable {α : Type}

/-! ## Clocks -/

/-- What is wrong with the clocks of a log: there is none in front, or there is another one
behind it. The first of those counts. -/
inductive ClockFault (log : List (Event α)) : ProtocolError → Prop
  | missing (h : clockAt? log 0 = none) : ClockFault log .missingClock
  | misplaced {rate other : Clock} {i : Nat} (hfront : clockAt? log 0 = some rate)
      (hsecond : clockAt? log (i + 1) = some other)
      (hbetween : ∀ j < i, clockAt? log (j + 1) = none) :
      ClockFault log (.misplacedClock (i + 1))

theorem findIdx?_clock_eq_some {rest : List (Event α)} {i : Nat} :
    rest.findIdx? (fun e => e.step?.isNone) = some i ↔
      (∃ rate, clockAt? rest i = some rate) ∧ ∀ j < i, clockAt? rest j = none := by
  have hclock : ∀ (j : Nat) (h : j < rest.length), clockAt? rest j = rest[j].clock? := by
    intro j h
    rw [clockAt?, List.getElem?_eq_getElem h, Option.bind_some]
  simp only [List.findIdx?_eq_some_iff_getElem, isNone_step?]
  constructor
  · rintro ⟨h, hat, hbefore⟩
    refine ⟨Option.isSome_iff_exists.mp (hclock i h ▸ hat), fun j hj => ?_⟩
    rw [hclock j (Nat.lt_trans hj h)]
    simpa using hbefore j hj
  · rintro ⟨⟨rate, hat⟩, hbefore⟩
    obtain ⟨e, he, -⟩ := Option.bind_eq_some_iff.mp hat
    have h : i < rest.length := (List.getElem?_eq_some_iff.mp he).1
    refine ⟨h, ?_, fun j hj => ?_⟩
    · rw [← hclock i h, hat]
      rfl
    · rw [← hclock j (Nat.lt_trans hj h), hbefore j hj]
      decide

theorem ofEvents_eq_error {log : List (Event α)} {e : ProtocolError} :
    Timeline.ofEvents log = .error e ↔ ClockFault log e := by
  constructor
  · intro h
    cases hfront : clockAt? log 0 with
    | none =>
      rw [ofEvents_of_clockAt?_none hfront] at h
      cases h
      exact .missing hfront
    | some rate =>
      obtain ⟨rest, rfl⟩ := exists_of_clockAt?_some hfront
      rw [Timeline.ofEvents] at h
      cases hfind : rest.findIdx? (fun e => e.step?.isNone) with
      | none =>
        rw [hfind] at h
        cases h
      | some i =>
        rw [hfind] at h
        cases h
        obtain ⟨⟨other, hsecond⟩, hbetween⟩ := findIdx?_clock_eq_some.mp hfind
        exact .misplaced hfront hsecond hbetween
  · intro h
    cases h with
    | missing hfront => exact ofEvents_of_clockAt?_none hfront
    | @misplaced rate other i hfront hsecond hbetween =>
      obtain ⟨rest, rfl⟩ := exists_of_clockAt?_some hfront
      have hfind : rest.findIdx? (fun e => e.step?.isNone) = some i :=
        findIdx?_clock_eq_some.mpr ⟨⟨other, hsecond⟩, hbetween⟩
      rw [Timeline.ofEvents, hfind]

/-! ## Writes -/

/-- The write names the offset that the layout gives to its parameter, if there is one. -/
def ParamWrite.Aligned (w : ParamWrite) : Prop :=
  ∀ offset ∈ w.channel.offset? w.param, w.offset = offset

instance (w : ParamWrite) : Decidable w.Aligned :=
  decidable_of_iff ((w.channel.offset? w.param).all (w.offset == ·) = true)
    (by cases h : w.channel.offset? w.param <;> simp [ParamWrite.Aligned, h])

/-- What a log is refused for, behind the writes `done`: its clocks, or else the first write
whose channel lacks the parameter or whose value does not fit. -/
inductive ParamLog.Faulty (log : ParamLog) : List ParamWrite → ProtocolError → Prop
  | clocks {e : ProtocolError} (h : ClockFault log e) : Faulty log [] e
  | write {t : Timeline ParamWrite} {done rest : List ParamWrite} {w : ParamWrite}
      {e : ProtocolError} (hlog : log = t.toEvents) (hwrites : writesIn t.steps = done ++ w :: rest)
      (hdone : ∀ x ∈ done, x.fault? = none) (hfault : w.fault? = some e) : Faulty log done e

theorem ParamWrite.taken_iff {w : ParamWrite} : w.taken = true ↔ w.fault? = none :=
  Channel.takes_iff

theorem ParamWrite.not_taken {w : ParamWrite} {e : ProtocolError} (h : w.fault? = some e) :
    ¬ w.taken = true := by
  rw [taken_iff, h]
  exact Option.some_ne_none e

theorem ParamWrite.Aligned.placed {w : ParamWrite} (h : w.Aligned) (htaken : w.taken = true) :
    w.Placed := by
  obtain ⟨offset, hoffset⟩ := exists_offset htaken
  rw [Placed, hoffset, h offset hoffset]

/-- An aligned write is assembled unless the chip refuses it, and then for the same reason. -/
theorem ParamWrite.Aligned.assemble_eq {w : ParamWrite} (h : w.Aligned) (r : Registers) :
    w.assemble r = unlessFault w.fault? (r.put w, (r.put w).entry w.key) := by
  cases hfault : w.fault? with
  | none =>
    have htaken := taken_iff.mpr hfault
    exact ApuScore.assemble_eq (h.placed htaken) htaken
  | some e =>
    unfold fault? Channel.fault? at hfault
    unfold assemble
    cases hfind : w.channel.find? w.param with
    | none =>
      rw [hfind] at hfault
      rw [← Option.some.inj hfault]
      rfl
    | some place =>
      obtain ⟨offset, field⟩ := place
      rw [hfind] at hfault
      have hoffset : w.offset = offset := h offset (by rw [Channel.offset?, hfind]; rfl)
      dsimp only at hfault ⊢
      rw [if_neg (not_not_intro hoffset.symm)]
      split at hfault
      · cases hfault
      · rename_i hrange
        rw [if_neg hrange, ← Option.some.inj hfault]
        rfl

/-- Assembly merges the writes into the file up to the first one that is refused, and fails
there if there is one. -/
theorem assembleFrom_eq {steps : List (Step ParamWrite)}
    (h : ∀ w ∈ writesIn steps, w.Aligned) (r : Registers) (run : List PendingWrite)
    (found : List (List (Step RegisterOp))) :
    ∃ raw, assembleFrom r run found steps =
      (((writesIn steps).takeWhile ParamWrite.taken).foldl Registers.put r,
        unlessFault (firstFault? (writesIn steps)) raw) := by
  induction steps generalizing r run found with
  | nil => exact ⟨_, rfl⟩
  | cons step rest ih =>
    cases step with
    | wait n => exact ih h r [] _
    | act w =>
      obtain ⟨hw, hrest⟩ := List.forall_mem_cons.mp
        (show ∀ x ∈ w :: writesIn rest, x.Aligned from h)
      rw [assembleFrom, hw.assemble_eq]
      show ∃ raw, _ = (((w :: writesIn rest).takeWhile ParamWrite.taken).foldl Registers.put r,
        unlessFault (firstFault? (w :: writesIn rest)) raw)
      rw [firstFault?_cons]
      cases hfault : w.fault? with
      | none =>
        obtain ⟨raw, hraw⟩ := ih hrest (r.put w) (merge ((r.put w).entry w.key) run) found
        refine ⟨raw, ?_⟩
        rw [List.takeWhile_cons_of_pos (ParamWrite.taken_iff.mpr hfault), List.foldl_cons,
          Option.none_or, ← hraw]
        rfl
      | some e =>
        refine ⟨[], ?_⟩
        rw [List.takeWhile_cons_of_neg (ParamWrite.not_taken hfault)]
        rfl

theorem firstFault?_eq_some {writes : List ParamWrite} {e : ProtocolError} :
    firstFault? writes = some e ↔ ∃ done w rest, writes = done ++ w :: rest ∧
      (∀ x ∈ done, x.fault? = none) ∧ w.fault? = some e := by
  rw [firstFault?, List.findSome?_eq_some_iff]
  constructor
  · rintro ⟨done, w, rest, hwrites, hfault, hdone⟩
    exact ⟨done, w, rest, hwrites, hdone, hfault⟩
  · rintro ⟨done, w, rest, hwrites, hdone, hfault⟩
    exact ⟨done, w, rest, hwrites, hfault, hdone⟩

theorem takeWhile_taken {done rest : List ParamWrite} {w : ParamWrite} {e : ProtocolError}
    (hdone : ∀ x ∈ done, x.fault? = none) (hfault : w.fault? = some e) :
    (done ++ w :: rest).takeWhile ParamWrite.taken = done := by
  rw [List.takeWhile_append_of_pos fun x hx => ParamWrite.taken_iff.mpr (hdone x hx),
    List.takeWhile_cons_of_neg (ParamWrite.not_taken hfault), List.append_nil]

/-! ## Logs -/

theorem assembleOver_toEvents {t : Timeline ParamWrite} (h : ∀ w ∈ writesIn t.steps, w.Aligned)
    (r : Registers) : ∃ raw, assembleOver r t.toEvents =
      (((writesIn t.steps).takeWhile ParamWrite.taken).foldl Registers.put r,
        unlessFault (firstFault? (writesIn t.steps)) raw) := by
  obtain ⟨raw, hraw⟩ := assembleFrom_eq h r [] []
  refine ⟨Timeline.toEvents ⟨t.clock, raw⟩, ?_⟩
  rw [assembleOver, Timeline.ofEvents_toEvents]
  dsimp only
  rw [hraw]
  cases firstFault? (writesIn t.steps) <;> rfl

theorem ParamLog.faulty_or (log : ParamLog) : (∃ done e, log.Faulty done e) ∨
    ∃ t : Timeline ParamWrite, log = t.toEvents ∧ firstFault? (writesIn t.steps) = none := by
  cases ht : Timeline.ofEvents log with
  | error e => exact .inl ⟨[], e, .clocks (ofEvents_eq_error.mp ht)⟩
  | ok t =>
    have hlog := Timeline.eq_toEvents ht
    cases hfault : firstFault? (writesIn t.steps) with
    | none => exact .inr ⟨t, hlog, hfault⟩
    | some e =>
      obtain ⟨done, w, rest, hwrites, hdone, hw⟩ := firstFault?_eq_some.mp hfault
      exact .inl ⟨done, e, .write hlog hwrites hdone hw⟩

/-- Logs whose writes name no wrong offset are accepted by replay and assembly alike, or
refused by both for the same reason: a log that is faulty for its fault, with the writes in
front of it merged into the register file, and every other log not at all. -/
theorem refused_alike (r : Registers) (log : ParamLog) (h : ∀ w, .act w ∈ log → w.Aligned) :
    (∀ done e, log.Faulty done e →
      replay log = .error e ∧ assembleOver r log = (done.foldl Registers.put r, .error e)) ∧
    ((∀ done e, ¬ log.Faulty done e) →
      ∃ s r' raw, replay log = .ok s ∧ assembleOver r log = (r', .ok raw)) ∧
    ∀ e, replay log = .error e ↔ (assembleOver r log).2 = .error e := by
  have haligned : ∀ t : Timeline ParamWrite, log = t.toEvents →
      ∀ w ∈ writesIn t.steps, w.Aligned := by
    intro t hlog w hw
    apply h
    rw [hlog]
    exact List.mem_cons_of_mem _ (List.mem_map_of_mem (mem_writesIn.mp hw))
  have hfaulty : ∀ done e, log.Faulty done e →
      replay log = .error e ∧ assembleOver r log = (done.foldl Registers.put r, .error e) := by
    intro done e hfault
    cases hfault with
    | clocks hclocks =>
      have ht := ofEvents_eq_error.mpr hclocks
      exact ⟨by rw [replay, ht]; rfl, by rw [assembleOver, ht]; rfl⟩
    | @write t _ rest w _ hlog hwrites hdone hw =>
      have hfirst := firstFault?_eq_some.mpr ⟨done, w, rest, hwrites, hdone, hw⟩
      obtain ⟨raw, hraw⟩ := assembleOver_toEvents (haligned t hlog) r
      rw [hlog, replay_toEvents, hraw, hfirst, hwrites, takeWhile_taken hdone hw]
      exact ⟨rfl, rfl⟩
  have hsound : ∀ t : Timeline ParamWrite, log = t.toEvents →
      firstFault? (writesIn t.steps) = none →
      ∃ s r' raw, replay log = .ok s ∧ assembleOver r log = (r', .ok raw) := by
    intro t hlog hnone
    obtain ⟨raw, hraw⟩ := assembleOver_toEvents (haligned t hlog) r
    rw [hlog, replay_toEvents, hraw, hnone]
    exact ⟨_, _, _, rfl, rfl⟩
  rcases log.faulty_or with ⟨done, e, hfault⟩ | ⟨t, hlog, hnone⟩
  · obtain ⟨hreplay, hassemble⟩ := hfaulty done e hfault
    refine ⟨hfaulty, fun hno => absurd hfault (hno done e), fun e' => ?_⟩
    rw [hreplay, hassemble]
    exact ⟨fun h => by cases h; rfl, fun h => by cases h; rfl⟩
  · obtain ⟨s, r', raw, hreplay, hassemble⟩ := hsound t hlog hnone
    refine ⟨hfaulty, fun _ => ⟨s, r', raw, hreplay, hassemble⟩, fun e' => ?_⟩
    rw [hreplay, hassemble]
    exact ⟨fun h => (by cases h), fun h => (by cases h)⟩

/-- A write that is left over in front of a zero wait, and one behind it to a parameter that
its channel lacks: its offset does not matter, and the write that does not fit comes too late
to be the reason. -/
theorem refused_alike_unknown :
    let log : ParamLog := [.clock .pal, .act ⟨.noise, .volume, 5, 0, 0⟩, .wait 0,
      .act ⟨.pulse1, .duty, 2, 3, 0⟩, .act ⟨.triangle, .volume, 1, 0, 9⟩, .wait 4,
      .act ⟨.noise, .volume, 77, 0, 0⟩]
    (∀ w, .act w ∈ log → w.Aligned) ∧ replay log = .error (.unknownParam .triangle .volume) ∧
      assembleOver (Registers.ofBytes [0x3F, 0x08]) log =
        (Registers.ofBytes [0xBF, 0x08, 0, 0, 0, 0, 0, 0, 0, 0, 0, 0, 0x05],
          .error (.unknownParam .triangle .volume)) := by
  intro log
  have haligned : ∀ w, .act w ∈ log → w.Aligned := by
    intro w hw
    simp only [log, List.mem_cons, List.not_mem_nil, Event.act.injEq, reduceCtorEq, false_or,
      or_false] at hw
    rcases hw with rfl | rfl | rfl | rfl <;> decide
  have hfaulty : log.Faulty [⟨.noise, .volume, 5, 0, 0⟩, ⟨.pulse1, .duty, 2, 3, 0⟩]
      (.unknownParam .triangle .volume) :=
    .write (t := ⟨.pal, log.filterMap Event.step?⟩) rfl rfl (by simp; decide) rfl
  obtain ⟨hreplay, hassemble⟩ :=
    (refused_alike (Registers.ofBytes [0x3F, 0x08]) log haligned).1 _ _ hfaulty
  refine ⟨haligned, hreplay, hassemble.trans (Prod.ext ?_ rfl)⟩
  decide

end ApuScore

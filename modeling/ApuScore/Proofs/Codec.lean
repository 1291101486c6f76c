import ApuScore.Proofs.Commands
/-
  Reading undoes writing.

  `HeaderField.written` says what a fresh header holds in every field, and
  `read_headerBytes` that it is read back, so a written header passes its check
  (`check_written`). With the commands read back that gives `decode_ofTimeline`:
  reading what was written gives the log with its runs of waits joined, and nothing
  else about it changes.
-/

namespace ApuScore

/-- What a fresh header of a trace of `len` bytes holds in a field. -/
def HeaderField.written (clock : Clock) (total len : Nat) : HeaderField → Nat
  | .ident => Bytes.ofLe identTag
  | .eofOffset => len - HeaderField.eofOffset.offset
  | .version => supportedVersion
  | .totalSamples => total
  | .dataOffset => Trace.headerSize - HeaderField.dataOffset.offset
  | .nesApuClock => clock.hz
  | _ => 0

namespace Trace

@[simp] theorem length_headerBytes (clock : Clock) (total len : Nat) :
    (headerBytes clock total len).length = headerSize := by
  simp only [headerBytes, List.length_append, Bytes.length_le, List.length_replicate, identTag,
    List.length_cons, List.length_nil, headerSize]

theorem hz_lt (clock : Clock) : clock.hz < clockFlagUnit := by
  cases clock <;> decide

theorem headerBytes_field (clock : Clock) (total len : Nat) (f : HeaderField) :
    ((headerBytes clock total len).drop f.offset).take f.size =
      Bytes.le f.size (f.written clock total len) := by
  cases f with
  | ident =>
    show identTag = Bytes.le 4 (Bytes.ofLe identTag)
    decide
  | eofOffset | version | totalSamples | dataOffset | nesApuClock => rfl
  | _ => simp only [HeaderField.written, Bytes.le_zero]; rfl

theorem read_headerBytes (clock : Clock) {total len : Nat} (htotal : total ≤ 0xFFFFFFFF)
    (hlen : len - 4 ≤ 0xFFFFFFFF) (f : HeaderField) (rest : Bytes) :
    f.read (headerBytes clock total len ++ rest) = .ok (f.written clock total len) := by
  have hfits : f.offset + f.size ≤ (headerBytes clock total len).length := by
    rw [length_headerBytes]; cases f <;> decide
  have hvalue : f.written clock total len < 1 <<< (8 * f.size) := by
    have hclock : clock.hz < 1 <<< (8 * 4) := Nat.lt_of_lt_of_le (hz_lt clock) (by decide)
    cases f with
    | eofOffset => exact Nat.lt_succ_of_le hlen
    | totalSamples => exact Nat.lt_succ_of_le htotal
    | nesApuClock => exact hclock
    | _ => simp only [HeaderField.written]; decide
  rw [HeaderField.read, readNumber, readWindow, Bytes.window_append rest hfits,
    headerBytes_field]
  simp only [Except.map, Bytes.ofLe_le hvalue]

def freshHeader (clock : Clock) (total len : Nat) : Header where
  eofOffset := len - 4
  version := supportedVersion
  gd3Offset := 0
  totalSamples := total
  loopOffset := 0
  loopSamples := 0
  rate := 0
  dataStart := headerSize
  apuClock := clock.hz

theorem read_header (clock : Clock) {total len : Nat} (htotal : total ≤ 0xFFFFFFFF)
    (hlen : len - 4 ≤ 0xFFFFFFFF) (rest : Bytes) :
    Header.read (headerBytes clock total len ++ rest) = .ok (freshHeader clock total len) := by
  have htag : readWindow HeaderField.ident.name 0 4 (headerBytes clock total len ++ rest) =
      .ok identTag := by
    rw [readWindow, Bytes.window_append rest (by rw [length_headerBytes]; decide)]
    rfl
  have hfield := fun f => read_headerBytes clock htotal hlen f rest
  simp only [Header.read, htag, Header.checkTag, if_true, hfield, bind, Except.bind]
  rfl

theorem check_written (clock : Clock) (total : Nat) {len : Nat} (hlen : 4 ≤ len) :
    (freshHeader clock total len).check len = .ok clock := by
  have heof : len - 4 + HeaderField.eofOffset.offset = len := Nat.sub_add_cancel hlen
  have hhz : clock.hz % clockFlagUnit = clock.hz := Nat.mod_eq_of_lt (hz_lt clock)
  simp only [Header.check, freshHeader, heof, Header.clockFlags, Header.clockHz, hhz,
    Nat.sub_self, ne_eq, not_true_eq_false, if_false, Clock.ofHz?_hz]

theorem decode_ofTimeline {t : Timeline RegisterOp} {bytes : Bytes}
    (h : ofTimeline t = .ok bytes) (hlen : bytes.length ≤ 0x100000003) :
    decode bytes = .ok (Timeline.toEvents ⟨t.clock, joinWaits t.steps⟩) := by
  by_cases htotal : totalSamples t.steps ≤ 0xFFFFFFFF
  · rw [ofTimeline, if_pos htotal] at h
    cases h
    generalize hsize : headerSize + (body t.steps).length = len at hlen ⊢
    have hheader : headerSize = 0xC0 := rfl
    have hlength : (headerBytes t.clock (totalSamples t.steps) len ++ body t.steps).length =
        len := by
      rw [List.length_append, length_headerBytes, hsize]
    rw [hlength] at hlen
    have hdrop : (headerBytes t.clock (totalSamples t.steps) len ++ body t.steps).drop headerSize =
        body t.steps :=
      List.drop_left' (length_headerBytes _ _ _)
    have hsteps := stepsFrom_body t.steps headerSize (by omega)
    have hread := read_header t.clock htotal (show len - 4 ≤ 0xFFFFFFFF by omega) (body t.steps)
    have hcheck := check_written t.clock (totalSamples t.steps) (show 4 ≤ len by omega)
    have hcap : (joinWaits t.steps).map capWait = joinWaits t.steps :=
      map_capWait (by rw [totalSamples_joinWaits]; exact htotal)
    have hstart : (freshHeader t.clock (totalSamples t.steps) len).dataStart = headerSize := rfl
    simp only [decode, hread, hlength, bind, Except.bind, hcheck, hstart, hdrop, hsteps,
      totalSamples_flatMap_pieces, joinWaits_pieces, hcap]
    simp only [checkTotal, freshHeader, if_true]
    rfl
  · rw [ofTimeline, if_neg htotal] at h
    cases h

theorem ofTimeline_isOk_iff {t : Timeline RegisterOp} :
    (∃ bytes, ofTimeline t = .ok bytes) ↔ totalSamples t.steps ≤ 0xFFFFFFFF := by
  by_cases htotal : totalSamples t.steps ≤ 0xFFFFFFFF
  · simp only [ofTimeline, htotal, if_true, Except.ok.injEq, exists_eq', iff_self]
  · simp only [ofTimeline, htotal, if_false, reduceCtorEq, exists_false, iff_self]

theorem encode_eq_ok {log : RegisterLog} {bytes : Bytes} :
    encode log = .ok bytes ↔
      ∃ t : Timeline RegisterOp, log = t.toEvents ∧ ofTimeline t = .ok bytes := by
  constructor
  · intro h
    cases ht : Timeline.ofEvents log with
    | error e =>
      simp only [encode, ht] at h
      cases h
    | ok t =>
      simp only [encode, ht, liftProtocol, bind, Except.bind] at h
      cases hbytes : ofTimeline t with
      | error e => rw [hbytes] at h; cases h
      | ok out =>
        rw [hbytes] at h
        cases h
        exact ⟨t, Timeline.eq_toEvents ht, hbytes⟩
  · intro h
    obtain ⟨t, rfl, ht⟩ := h
    simp only [encode, Timeline.ofEvents_toEvents, liftProtocol, bind, Except.bind, ht, liftFormat]

/-- Exactly the logs with a clock in front, no other clock and a total wait below
2³² are written, and a trace of at most 2³² + 3 bytes that was written is read
back as its log with every maximal run of waits joined into one. -/
theorem decode_encode (log : RegisterLog) :
    ((∃ bytes, encode log = .ok bytes) ↔
      ∃ clock rest, log = .clock clock :: rest ∧ (∀ e ∈ rest, e.isClock = false) ∧
        waitTotal rest ≤ 0xFFFFFFFF) ∧
    ∀ bytes, encode log = .ok bytes → bytes.length ≤ 0x100000003 →
      decode bytes = .ok (mergeWaits log) := by
  refine ⟨⟨?_, ?_⟩, ?_⟩
  · intro h
    obtain ⟨bytes, h⟩ := h
    obtain ⟨t, rfl, ht⟩ := encode_eq_ok.mp h
    have htotal := ofTimeline_isOk_iff.mp ⟨bytes, ht⟩
    exact ⟨t.clock, _, rfl, isClock_toEvent t.steps, by rw [waitTotal_steps]; exact htotal⟩
  · intro h
    obtain ⟨clock, rest, rfl, hrest, htotal⟩ := h
    obtain ⟨steps, rfl⟩ := exists_steps hrest
    rw [waitTotal_steps] at htotal
    let t : Timeline RegisterOp := ⟨clock, steps⟩
    obtain ⟨bytes, hbytes⟩ := ofTimeline_isOk_iff.mpr (show totalSamples t.steps ≤ _ from htotal)
    exact ⟨bytes, encode_eq_ok.mpr ⟨t, rfl, hbytes⟩⟩
  · intro bytes h hlen
    obtain ⟨t, rfl, ht⟩ := encode_eq_ok.mp h
    rw [mergeWaits_toEvents]
    exact decode_ofTimeline ht hlen

/-- A log whose data block is made of opcodes, with zero waits, touching waits and a
wait that takes two commands. -/
theorem decode_encode_opcodes :
    let log : RegisterLog := [.clock .pal, .wait 0, .act (.data 0x66 [0x66, 0x61, 0xB4, 0x67]),
      .wait 70000, .wait 5, .act (.write 0x15 0x66), .wait 65535]
    ∃ bytes, encode log = .ok bytes ∧ bytes.length ≤ 0x100000003 ∧
      decode bytes = .ok [.clock .pal, .wait 0, .act (.data 0x66 [0x66, 0x61, 0xB4, 0x67]),
        .wait 70005, .act (.write 0x15 0x66), .wait 65535] := by
  intro log
  have hmerge : mergeWaits log = [.clock .pal, .wait 0,
      .act (.data 0x66 [0x66, 0x61, 0xB4, 0x67]), .wait 70005, .act (.write 0x15 0x66),
      .wait 65535] := by
    simp only [log, mergeWaits, Event.isWait, List.takeWhile, List.dropWhile,
      waitTotal_cons, waitTotal_nil, Event.samples]
  obtain ⟨bytes, hbytes⟩ := (decode_encode log).1.mpr
    ⟨.pal, _, rfl, by decide, by decide⟩
  have hlen : bytes.length ≤ 0x100000003 := by
    cases hbytes
    show (headerBytes _ _ _ ++ body _).length ≤ _
    rw [List.length_append, length_headerBytes]
    decide
  refine ⟨bytes, hbytes, hlen, ?_⟩
  rw [← hmerge]
  exact (decode_encode log).2 bytes hbytes hlen

end Trace

end ApuScore

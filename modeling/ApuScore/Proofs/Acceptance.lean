import ApuScore.Proofs.Bytes
import ApuScore.Proofs.Waits
import ApuScore.Proofs.Grammar
/-
  The traces that are read, and what they are read as.

  `Trace.WellFormed bytes clock steps rest` says what a trace is without a reader: a
  tag, header fields with the values that are supported, a command stream where the
  data offset points, and a declared total that the waits add up to. A trace is read
  exactly if it is well formed, and then its log is the clock and the steps with
  touching waits joined (`decode_eq_ok`). What lies behind the end marker does not
  count (`WellFormed.replace`), and the command loop ends on every byte string
  (`scan_ends`).
-/

namespace ApuScore

/-! ## The header -/

/-- The value that lies where the field is. -/
def HeaderField.value (f : HeaderField) (bytes : Bytes) : Nat :=
  Bytes.ofLe ((bytes.drop f.offset).take f.size)

theorem readWindow_eq_ok {what : String} {off len : Nat} {bytes w : Bytes} :
    readWindow what off len bytes = .ok w ↔
      off + len ≤ bytes.length ∧ w = (bytes.drop off).take len := by
  unfold readWindow Bytes.window
  by_cases h : off + len ≤ bytes.length
  · simp only [h, if_true, Except.ok.injEq, true_and]
    exact eq_comm
  · simp only [h, if_false, reduceCtorEq, false_and]

theorem HeaderField.read_eq_ok {f : HeaderField} {bytes : Bytes} {n : Nat} :
    f.read bytes = .ok n ↔ f.offset + f.size ≤ bytes.length ∧ n = f.value bytes := by
  unfold HeaderField.read readNumber
  constructor
  · intro h
    cases hw : readWindow f.name f.offset f.size bytes with
    | error e =>
      rw [hw] at h
      cases h
    | ok w =>
      rw [hw] at h
      cases h
      obtain ⟨hle, rfl⟩ := readWindow_eq_ok.mp hw
      exact ⟨hle, rfl⟩
  · intro h
    obtain ⟨hle, rfl⟩ := h
    rw [readWindow_eq_ok.mpr ⟨hle, rfl⟩]
    rfl

theorem Clock.ofHz?_eq_some {n : Nat} {c : Clock} : ofHz? n = some c ↔ n = c.hz := by
  constructor
  · intro h
    unfold ofHz? at h
    split at h
    · cases h; assumption
    split at h
    · cases h; assumption
    split at h
    · cases h; assumption
    · cases h
  · intro h
    rw [h, ofHz?_hz]

namespace Header

/-- The header whose fields lie in `bytes`. -/
def within (bytes : Bytes) : Header where
  eofOffset := HeaderField.eofOffset.value bytes
  version := HeaderField.version.value bytes
  gd3Offset := HeaderField.gd3Offset.value bytes
  totalSamples := HeaderField.totalSamples.value bytes
  loopOffset := HeaderField.loopOffset.value bytes
  loopSamples := HeaderField.loopSamples.value bytes
  rate := HeaderField.rate.value bytes
  dataStart := startOf (HeaderField.dataOffset.value bytes)
  apuClock := HeaderField.nesApuClock.value bytes

theorem read_eq_ok {bytes : Bytes} {h : Header} :
    read bytes = .ok h ↔ bytes.take 4 = identTag ∧ 0x88 ≤ bytes.length ∧ h = within bytes := by
  unfold read
  simp only [bind_eq_ok, readWindow_eq_ok, HeaderField.read_eq_ok, checkTag, admit_eq_ok]
  constructor
  · intro hread
    obtain ⟨tag, ⟨-, rfl⟩, _, ⟨htag, -⟩, _, ⟨-, rfl⟩, _, ⟨-, rfl⟩, _, ⟨-, rfl⟩, _, ⟨-, rfl⟩, _,
      ⟨-, rfl⟩, _, ⟨-, rfl⟩, _, ⟨-, rfl⟩, _, ⟨-, rfl⟩, _, ⟨hclock, rfl⟩, hout⟩ := hread
    cases hout
    exact ⟨htag, hclock, rfl⟩
  · intro hread
    obtain ⟨htag, hlen, rfl⟩ := hread
    have hfits : ∀ f : HeaderField, f.offset + f.size ≤ bytes.length := by
      intro f
      refine Nat.le_trans ?_ hlen
      cases f <;> decide
    exact ⟨_, ⟨Nat.le_trans (by decide) hlen, rfl⟩, (), ⟨htag, trivial⟩, _, ⟨hfits _, rfl⟩, _,
      ⟨hfits _, rfl⟩, _, ⟨hfits _, rfl⟩, _, ⟨hfits _, rfl⟩, _, ⟨hfits _, rfl⟩, _,
      ⟨hfits _, rfl⟩, _, ⟨hfits _, rfl⟩, _, ⟨hfits _, rfl⟩, _, ⟨hfits _, rfl⟩, rfl⟩

/-- The clock field with flag bits is no clock rate. -/
theorem check_eq_ok {h : Header} {len : Nat} {clock : Clock} :
    h.check len = .ok clock ↔
      h.eofOffset + 4 = len ∧ h.version = 0x161 ∧ h.rate = 0 ∧ h.apuClock = clock.hz := by
  have hhz : clock.hz < clockFlagUnit := by cases clock <;> decide
  unfold check
  dsimp only
  rw [refuse_eq_ok, refuse_eq_ok, refuse_eq_ok, refuse_eq_ok]
  simp only [HeaderField.offset, supportedVersion, clockFlags, ne_eq, Decidable.not_not]
  constructor
  · intro hfields
    obtain ⟨heof, hversion, hrate, hflags, hknown⟩ := hfields
    split at hknown
    · rename_i c hc
      cases hknown
      have hclock : h.apuClock % clockFlagUnit = clock.hz := Clock.ofHz?_eq_some.mp hc
      have hle := Nat.mod_le h.apuClock clockFlagUnit
      exact ⟨heof, hversion, hrate, by omega⟩
    · cases hknown
  · intro hfields
    obtain ⟨heof, hversion, hrate, hclock⟩ := hfields
    have hmod : h.apuClock % clockFlagUnit = h.apuClock := by
      rw [hclock, Nat.mod_eq_of_lt hhz]
    refine ⟨heof, hversion, hrate, by rw [hmod, Nat.sub_self], ?_⟩
    rw [clockHz, hmod, hclock, Clock.ofHz?_hz]

end Header

namespace Trace

/-! ## Well-formed traces -/

/-- `bytes` are a trace under `clock` that says `steps` and has `rest` behind its end
marker. -/
structure WellFormed (bytes : Bytes) (clock : Clock) (steps : List (Step RegisterOp))
    (rest : Bytes) : Prop where
  tag : bytes.take 4 = identTag
  fields : 0x88 ≤ bytes.length
  eof : HeaderField.eofOffset.value bytes + 4 = bytes.length
  version : HeaderField.version.value bytes = 0x161
  rate : HeaderField.rate.value bytes = 0
  clock : HeaderField.nesApuClock.value bytes = clock.hz
  stream : CommandStream (bytes.drop (Header.startOf (HeaderField.dataOffset.value bytes)))
    steps rest
  total : totalSamples steps = HeaderField.totalSamples.value bytes

theorem value_le (f : HeaderField) (hf : f.size = 4) (bytes : Bytes) :
    f.value bytes ≤ 0xFFFFFFFF := by
  have hlength : ((bytes.drop f.offset).take f.size).length ≤ 4 := by
    rw [← hf]
    exact List.length_take_le _ _
  exact Nat.le_of_lt_succ (Bytes.ofLe_lt hlength)

/-- A trace is read exactly if it is well formed, as its clock and its steps with
touching waits joined. No joined wait is cut, as none passes the declared total. -/
theorem decode_eq_ok {bytes : Bytes} {log : RegisterLog} :
    decode bytes = .ok log ↔ ∃ clock steps rest, WellFormed bytes clock steps rest ∧
      log = Timeline.toEvents ⟨clock, joinWaits steps⟩ := by
  have hcap : ∀ steps, totalSamples steps = HeaderField.totalSamples.value bytes →
      (joinWaits steps).map capWait = joinWaits steps := by
    intro steps htotal
    apply map_capWait
    rw [totalSamples_joinWaits, htotal]
    exact value_le _ rfl bytes
  unfold decode
  simp only [bind_eq_ok, Header.read_eq_ok, Header.check_eq_ok, stepsFrom_eq_ok, checkTotal,
    admit_eq_ok]
  constructor
  · intro h
    obtain ⟨_, ⟨htag, hlen, rfl⟩, clock, ⟨heof, hversion, hrate, hclock⟩, steps,
      ⟨rest, hstream⟩, _, ⟨htotal, -⟩, hout⟩ := h
    rw [hcap steps htotal] at hout
    cases hout
    exact ⟨clock, steps, rest, ⟨htag, hlen, heof, hversion, hrate, hclock, hstream, htotal⟩, rfl⟩
  · intro h
    obtain ⟨clock, steps, rest, hwell, rfl⟩ := h
    refine ⟨_, ⟨hwell.tag, hwell.fields, rfl⟩, clock,
      ⟨hwell.eof, hwell.version, hwell.rate, hwell.clock⟩, steps, ⟨rest, hwell.stream⟩, (),
      ⟨hwell.total, trivial⟩, ?_⟩
    rw [hcap steps hwell.total]
    rfl

theorem waitTotal_decode {bytes : Bytes} {log : RegisterLog} (h : decode bytes = .ok log) :
    waitTotal log = HeaderField.totalSamples.value bytes := by
  obtain ⟨clock, steps, rest, hwell, rfl⟩ := decode_eq_ok.mp h
  rw [Timeline.waitTotal_toEvents, totalSamples_joinWaits, hwell.total]

/-! ## Behind the end marker -/

/-- A stream is what lies in front of its rest, whatever the rest is. -/
theorem CommandStream.split {bytes rest : Bytes} {steps : List (Step RegisterOp)}
    (h : CommandStream bytes steps rest) :
    ∃ front, front ≠ [] ∧ bytes = front ++ rest ∧
      ∀ other, CommandStream (front ++ other) steps other := by
  induction h with
  | stop rest => exact ⟨[0x66], List.cons_ne_nil _ _, rfl, .stop⟩
  | @step front _ s steps rest hform _ ih =>
    obtain ⟨tail, hne, rfl, hother⟩ := ih
    refine ⟨front ++ tail, ?_, (List.append_assoc _ _ _).symm, ?_⟩
    · intro hnil
      exact hne (List.append_eq_nil_iff.mp hnil).2
    · intro other
      rw [List.append_assoc]
      exact .step hform (hother other)

theorem take_drop_congr {bytes other : Bytes} {stop off len : Nat}
    (h : ∀ i < stop, other[i]? = bytes[i]?) (hle : off + len ≤ stop) :
    (other.drop off).take len = (bytes.drop off).take len := by
  apply List.ext_getElem?
  intro i
  simp only [List.getElem?_take, List.getElem?_drop]
  split
  · exact h _ (by omega)
  · rfl

/-- Other bytes behind the end marker, outside the header, leave a trace well formed
with the same steps. -/
theorem WellFormed.replace {bytes other rest : Bytes} {clock : Clock}
    {steps : List (Step RegisterOp)} (h : WellFormed bytes clock steps rest)
    (hlength : other.length = bytes.length)
    (hsame : ∀ i, i < 0x88 ∨ i < bytes.length - rest.length → other[i]? = bytes[i]?) :
    ∃ rest', WellFormed other clock steps rest' := by
  have hheader : ∀ i < 0x88, other[i]? = bytes[i]? := fun i hi => hsame i (.inl hi)
  have hvalue : ∀ f : HeaderField, f.value other = f.value bytes := by
    intro f
    rw [HeaderField.value, take_drop_congr hheader (by cases f <;> decide)]
    rfl
  have htag : other.take 4 = bytes.take 4 :=
    take_drop_congr hheader (show 0 + 4 ≤ 0x88 by decide)
  have hstream := h.stream
  generalize hstart : Header.startOf (HeaderField.dataOffset.value bytes) = start at hstream
  obtain ⟨front, hne, hbytes, hother⟩ := CommandStream.split hstream
  -- the commands end where the rest begins
  have hstop : start + front.length = bytes.length - rest.length := by
    have hlen := congrArg List.length hbytes
    have hpos := List.length_pos_iff.mpr hne
    rw [List.length_drop, List.length_append] at hlen
    omega
  have hfront : (other.drop start).take front.length = front := by
    rw [take_drop_congr (fun i hi => hsame i (.inr hi)) (Nat.le_of_eq hstop), hbytes,
      List.take_left]
  have hstreamOther : CommandStream
      (other.drop (Header.startOf (HeaderField.dataOffset.value other))) steps
      ((other.drop start).drop front.length) := by
    have hjoin := hother ((other.drop start).drop front.length)
    have hsplit := List.take_append_drop front.length (other.drop start)
    rw [hfront] at hsplit
    rw [hsplit] at hjoin
    rwa [hvalue, hstart]
  exact ⟨_,
    { tag := htag.trans h.tag
      fields := hlength ▸ h.fields
      eof := by rw [hvalue, hlength, h.eof]
      version := by rw [hvalue, h.version]
      rate := by rw [hvalue, h.rate]
      clock := by rw [hvalue, h.clock]
      stream := hstreamOther
      total := by rw [hvalue, h.total] }⟩

/-! ## The command loop -/

/-- The loop that reads commands: at an offset, with the steps found so far, latest
first; or ended. -/
inductive Scan where
  | reading (off : Nat) (found : List (Step RegisterOp))
  | ended (result : Except FormatError (List (Step RegisterOp)))

/-- The loop behind one more command. -/
def Scan.next (bytes : Bytes) : Scan → Scan
  | .ended result => .ended result
  | .reading off found =>
    match Command.read off (bytes.drop off) with
    | .error e => .ended (.error e)
    | .ok (.stop, _) => .ended (.ok found.reverse)
    | .ok (.step s, len) => .reading (off + len) (s :: found)

/-- The loop behind `n` more commands. -/
def Scan.after (bytes : Bytes) : Nat → Scan → Scan
  | 0, scan => scan
  | n + 1, scan => Scan.after bytes n (scan.next bytes)

/-- From every offset of every byte string the loop ends, behind at most one command
for each byte that is left and one more, with what the reader gives. -/
theorem scan_ends (bytes : Bytes) (off : Nat) (found : List (Step RegisterOp)) :
    ∃ n ≤ bytes.length - off + 1, Scan.after bytes n (.reading off found) =
      .ended (stepsFrom off 0 found (bytes.drop off)) := by
  induction hleft : bytes.length - off using Nat.strongRecOn generalizing off found with
  | ind left ih =>
    rcases stepsFrom_cases off found (bytes.drop off) with
      ⟨e, hread, herr⟩ | ⟨len, hread, hstop⟩ | ⟨front, rest, s, hbytes, hform, hread, hnext⟩
    · exact ⟨1, by omega, by simp only [Scan.after, Scan.next, hread, herr]⟩
    · exact ⟨1, by omega, by simp only [Scan.after, Scan.next, hread, hstop]⟩
    · -- a command takes at least one of the bytes that are left, and no other
      have hpos := hform.length_pos
      have hlen := congrArg List.length hbytes
      rw [List.length_drop, List.length_append] at hlen
      have hrest : bytes.drop (off + front.length) = rest := by
        rw [← List.drop_drop, hbytes, List.drop_left]
      obtain ⟨n, hn, hafter⟩ := ih (bytes.length - (off + front.length)) (by omega)
        (off + front.length) (s :: found) rfl
      refine ⟨n + 1, by omega, ?_⟩
      rw [Scan.after, Scan.next, hread, hnext, ← hrest]
      exact hafter

/-- Exactly the well-formed traces are read, each as the log of its clock and its steps
with every maximal run of waits replaced by one wait of their sum; the waits then add
up to the declared total. Bytes behind the end marker and outside the header do not
change the log, and the loop over the commands ends wherever it starts. -/
theorem decode_wellFormed (bytes : Bytes) :
    (∀ log, decode bytes = .ok log ↔ ∃ clock steps rest, WellFormed bytes clock steps rest ∧
      log = mergeWaits (Timeline.toEvents ⟨clock, steps⟩)) ∧
    (∀ log, decode bytes = .ok log → waitTotal log = HeaderField.totalSamples.value bytes) ∧
    (∀ clock steps rest other, WellFormed bytes clock steps rest →
      other.length = bytes.length →
      (∀ i, i < 0x88 ∨ i < bytes.length - rest.length → other[i]? = bytes[i]?) →
      decode other = decode bytes) ∧
    ∀ off, ∃ n ≤ bytes.length + 1, Scan.after bytes n (.reading off []) =
      .ended (stepsFrom off 0 [] (bytes.drop off)) := by
  refine ⟨?_, fun log => waitTotal_decode, ?_, ?_⟩
  · intro log
    simp only [decode_eq_ok, mergeWaits_toEvents]
  · intro clock steps rest other h hlength hsame
    obtain ⟨rest', hother⟩ := h.replace hlength hsame
    rw [decode_eq_ok.mpr ⟨clock, steps, rest, h, rfl⟩,
      decode_eq_ok.mpr ⟨clock, steps, rest', hother, rfl⟩]
  · intro off
    obtain ⟨n, hn, hafter⟩ := scan_ends bytes off []
    exact ⟨n, by omega, hafter⟩

/-- A trace whose commands start inside the header: the clock field is payload of a data
block. Its junk behind the end marker can be changed. -/
theorem decode_wellFormed_overlap :
    let payload : Bytes := List.replicate 61 0xB4 ++ [0x4D, 0x4F, 0x1B, 0x00]
    let front : Bytes := identTag ++ [0x8C, 0, 0, 0, 0x61, 1, 0, 0] ++ List.replicate 12 0 ++
      [7, 0, 0, 0] ++ List.replicate 36 0 ++ [0x67, 0x66, 0x00, 0x41, 0, 0, 0] ++ payload ++
      [0x74, 0x71, 0x66]
    let junk : Bytes := [0x61, 0xFF, 0xFF, 0x66, 0]
    WellFormed (front ++ junk) .ntsc [.act (.data 0x00 payload), .wait 5, .wait 2] junk ∧
    decode (front ++ junk) = .ok [.clock .ntsc, .act (.data 0x00 payload), .wait 7] ∧
    decode (front ++ [1, 2, 3, 4, 5]) = decode (front ++ junk) := by
  intro payload front junk
  have hlen : front.length = 139 := by decide +kernel
  have hcommands : (front ++ junk).drop
      (Header.startOf (HeaderField.dataOffset.value (front ++ junk))) =
      0x67 :: 0x66 :: 0x00 :: ([0x41, 0, 0, 0] ++ payload) ++ ([0x74] ++ ([0x71] ++
        0x66 :: junk)) := by decide +kernel
  have hwell : WellFormed (front ++ junk) .ntsc
      [.act (.data 0x00 payload), .wait 5, .wait 2] junk :=
    { tag := by decide +kernel
      fields := by decide +kernel
      eof := by decide +kernel
      version := by decide +kernel
      rate := by decide +kernel
      clock := by decide +kernel
      stream := by
        rw [hcommands]
        exact .step (.data 0x00 rfl (by decide +kernel)) (.step (.short (by decide))
          (.step (.short (by decide)) (.stop junk)))
      total := by decide +kernel }
  let steps : List (Step RegisterOp) := [.act (.data 0x00 payload), .wait 5, .wait 2]
  have hmerge : mergeWaits (Timeline.toEvents ⟨.ntsc, steps⟩) =
      [.clock .ntsc, .act (.data 0x00 payload), .wait 7] := by
    rw [mergeWaits_toEvents]
    rfl
  refine ⟨hwell, ?_, ?_⟩
  · exact ((decode_wellFormed _).1 _).mpr ⟨_, _, _, hwell, hmerge.symm⟩
  · apply (decode_wellFormed _).2.2.1 _ _ _ _ hwell
    · rw [List.length_append, List.length_append]
      rfl
    · intro i hi
      have hlt : i < front.length := by
        rw [List.length_append] at hi
        omega
      rw [List.getElem?_append_left hlt, List.getElem?_append_left hlt]

end Trace

end ApuScore

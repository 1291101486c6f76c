import ApuScore.Proofs.Acceptance
import ApuScore.Proofs.Bytes
import ApuScore.Proofs.Dumps
/-
  A cleaned dump is a trace of what stays.

  Cleaning edits header fields in place and cuts commands out behind the header. This
  file

  1. states edits of header fields as a list (`editFields`) and reads every field of an
     edited header (`value_editFields_of_mem`, `value_editFields_of_notMem`);
  2. shows that cutting the stretches of a dump leaves the commands that stay, with what
     lies before and behind the commands (`cutOut_image`);
  3. puts both together: a dump that is cleaned, with its commands behind the header, is what
     leads it and a string of commands (`exists_leads`), and such a dump is cleaned to the
     edited header and the commands that stay (`Leads.clean_eq`);
  4. concludes that the cleaned bytes are a trace of the steps that are left
     (`Leads.wellFormed`, `decode_clean`).
-/

namespace ApuScore

/-! ## Edits of the header -/

/-- `bytes` with 32-bit numbers written where the fields are. -/
def editFields (edits : List (HeaderField × Nat)) (bytes : Bytes) : Bytes :=
  edits.foldl (fun b e => Bytes.patch e.1.offset (Bytes.le 4 e.2) b) bytes

namespace HeaderField

theorem fits (f : HeaderField) {bytes : Bytes} (h : 0x88 ≤ bytes.length) (n : Nat) :
    f.offset + (Bytes.le 4 n).length ≤ bytes.length := by
  rw [Bytes.length_le]
  refine Nat.le_trans ?_ h
  cases f <;> decide

theorem apart {f g : HeaderField} (hf : f.size = 4) (hne : f ≠ g) :
    f.offset + 4 ≤ g.offset ∨ g.offset + 4 ≤ f.offset := by
  cases f <;> cases g <;> simp_all [offset, size]

theorem value_patch_self {f : HeaderField} (hf : f.size = 4) {n : Nat} (hn : n ≤ 0xFFFFFFFF)
    {bytes : Bytes} (h : 0x88 ≤ bytes.length) :
    f.value (Bytes.patch f.offset (Bytes.le 4 n) bytes) = n := by
  have hwindow := Bytes.window_patch_self (f.fits h n)
  rw [Bytes.length_le] at hwindow
  rw [value, hf, hwindow, Bytes.ofLe_le (Nat.lt_succ_of_le hn)]

theorem window_patch_of_ne {f g : HeaderField} (hf : f.size = 4) (hne : f ≠ g) (n : Nat)
    {bytes : Bytes} (h : 0x88 ≤ bytes.length) :
    ((Bytes.patch g.offset (Bytes.le 4 n) bytes).drop f.offset).take f.size =
      (bytes.drop f.offset).take f.size := by
  apply Bytes.window_patch_of_disjoint (g.fits h n)
  rw [hf, Bytes.length_le]
  exact apart hf hne

end HeaderField

section edits

variable {edits : List (HeaderField × Nat)} {bytes : Bytes}

theorem editFields_cons (e : HeaderField × Nat) (edits : List (HeaderField × Nat))
    (bytes : Bytes) : editFields (e :: edits) bytes =
      editFields edits (Bytes.patch e.1.offset (Bytes.le 4 e.2) bytes) := rfl

theorem length_editFields (h : 0x88 ≤ bytes.length) :
    (editFields edits bytes).length = bytes.length := by
  induction edits generalizing bytes with
  | nil => rfl
  | cons e edits ih =>
    have hlen := Bytes.length_patch (e.1.fits h e.2)
    rw [editFields_cons, ih (by omega), hlen]

theorem editFields_append (rest : Bytes) (h : 0x88 ≤ bytes.length) :
    editFields edits (bytes ++ rest) = editFields edits bytes ++ rest := by
  induction edits generalizing bytes with
  | nil => rfl
  | cons e edits ih =>
    have hlen := Bytes.length_patch (e.1.fits h e.2)
    rw [editFields_cons, Bytes.patch_append rest (e.1.fits h e.2), ih (by omega),
      editFields_cons]

theorem window_editFields_of_notMem {f : HeaderField} (hf : f.size = 4)
    (hnot : f ∉ edits.map Prod.fst) (h : 0x88 ≤ bytes.length) :
    ((editFields edits bytes).drop f.offset).take f.size =
      (bytes.drop f.offset).take f.size := by
  induction edits generalizing bytes with
  | nil => rfl
  | cons e edits ih =>
    rw [List.map_cons, List.mem_cons, not_or] at hnot
    have hlen := Bytes.length_patch (e.1.fits h e.2)
    rw [editFields_cons, ih hnot.2 (by omega), HeaderField.window_patch_of_ne hf hnot.1 e.2 h]

theorem value_editFields_of_notMem {f : HeaderField} (hf : f.size = 4)
    (hnot : f ∉ edits.map Prod.fst) (h : 0x88 ≤ bytes.length) :
    f.value (editFields edits bytes) = f.value bytes :=
  congrArg Bytes.ofLe (window_editFields_of_notMem hf hnot h)

theorem value_editFields_of_mem {f : HeaderField} {n : Nat} (hf : f.size = 4)
    (hn : n ≤ 0xFFFFFFFF) (hmem : (f, n) ∈ edits) (hnodup : (edits.map Prod.fst).Nodup)
    (h : 0x88 ≤ bytes.length) : f.value (editFields edits bytes) = n := by
  induction edits generalizing bytes with
  | nil => cases hmem
  | cons e edits ih =>
    rw [List.map_cons, List.nodup_cons] at hnodup
    have hlen := Bytes.length_patch (e.1.fits h e.2)
    rw [editFields_cons]
    rcases List.mem_cons.mp hmem with rfl | hmem
    · rw [value_editFields_of_notMem hf hnodup.1 (by omega), HeaderField.value_patch_self hf hn h]
    · exact ih hmem hnodup.2 (by omega)

end edits

theorem HeaderField.value_append (f : HeaderField) {bytes : Bytes} (rest : Bytes)
    (h : 0x88 ≤ bytes.length) : f.value (bytes ++ rest) = f.value bytes := by
  have hfits : f.offset + f.size ≤ bytes.length := by
    refine Nat.le_trans ?_ h
    cases f <;> decide
  rw [value, value, List.drop_append_of_le_length (by omega),
    List.take_append_of_le_length (by rw [List.length_drop]; omega)]

namespace Trace

/-! ## Commands taken out -/

def goneBytes (o : CleaningOptions) (parts : List DumpPart) : Nat :=
  (dumpImage (parts.filter fun p => !p.stays o)).length

theorem foldr_stretches (o : CleaningOptions) (off : Nat) (parts : List DumpPart) :
    (stretches o off parts).foldr (fun s total => s.len + total) 0 = goneBytes o parts := by
  induction parts generalizing off with
  | nil => rfl
  | cons p parts ih =>
    by_cases hstays : p.stays o <;> simp [stretches, hstays, ih, goneBytes]

theorem length_kept_add_goneBytes (o : CleaningOptions) (parts : List DumpPart) :
    (dumpImage (parts.filter (DumpPart.stays o))).length + goneBytes o parts =
      (dumpImage parts).length := by
  induction parts with
  | nil => rfl
  | cons p parts ih =>
    rw [goneBytes] at ih
    by_cases hstays : p.stays o <;> simp [goneBytes, hstays] <;> omega

theorem length_stretches (o : CleaningOptions) (off : Nat) (parts : List DumpPart) :
    (stretches o off parts).length = (parts.filter fun p => !p.stays o).length := by
  induction parts generalizing off with
  | nil => rfl
  | cons p parts ih => by_cases hstays : p.stays o <;> simp [stretches, hstays, ih]

/-- `front` are the bytes at `off` in front of the commands that are cut already or
stay. -/
theorem piecesFrom_image (o : CleaningOptions) (off : Nat) (front tail : Bytes)
    (found : List Bytes) (parts : List DumpPart) :
    (piecesFrom off (front ++ (dumpImage parts ++ tail)) found
      (stretches o (off + front.length) parts)).flatten =
      found.reverse.flatten ++ (front ++
        (dumpImage (parts.filter (DumpPart.stays o)) ++ tail)) := by
  induction parts generalizing off front found with
  | nil => simp [stretches, piecesFrom]
  | cons p parts ih =>
    by_cases hstays : p.stays o
    · have hnext := ih off (front ++ p.bytes) found
      simpa [stretches, hstays, Nat.add_assoc] using hnext
    · have hnext := ih (off + front.length + p.bytes.length) [] (front :: found)
      simp [stretches, hstays, piecesFrom, ← List.drop_drop] at hnext ⊢
      exact hnext

/-- Cutting leaves what lies before the commands, the commands that stay and what lies
behind the commands. -/
theorem cutOut_image (o : CleaningOptions) {off : Nat} {front : Bytes} (tail : Bytes)
    (parts : List DumpPart) (hfront : front.length = off) :
    cutOut (stretches o off parts) (front ++ (dumpImage parts ++ tail)) =
      front ++ (dumpImage (parts.filter (DumpPart.stays o)) ++ tail) := by
  subst hfront
  have hpieces := piecesFrom_image o 0 front tail [] parts
  rw [Nat.zero_add] at hpieces
  rw [cutOut, hpieces]
  rfl

/-! ## Cleaned bytes -/

/-- The header fields that are cleared. -/
def clearEdits (header : Header) : List (HeaderField × Nat) :=
  [(.loopOffset, 0), (.loopSamples, 0), (.rate, 0), (.volume, 0), (.nesApuClock, header.clockHz)]

/-- The offsets that move when the dump loses `gone` bytes. -/
def moveEdits (header : Header) (gone : Nat) : List (HeaderField × Nat) :=
  (.eofOffset, moveBack header.eofOffset gone) ::
    if header.gd3Offset = 0 then [] else [(.gd3Offset, moveBack header.gd3Offset gone)]

def cleanEdits (header : Header) (gone : Nat) : List (HeaderField × Nat) :=
  clearEdits header ++ moveEdits header gone

theorem nodup_cleanEdits (header : Header) (gone : Nat) :
    ((cleanEdits header gone).map Prod.fst).Nodup := by
  unfold cleanEdits clearEdits moveEdits
  split <;> simp

theorem notMem_cleanEdits (header : Header) (gone : Nat) {f : HeaderField}
    (hf : f = .ident ∨ f = .version ∨ f = .totalSamples ∨ f = .dataOffset) :
    f ∉ (cleanEdits header gone).map Prod.fst := by
  unfold cleanEdits clearEdits moveEdits
  rcases hf with rfl | rfl | rfl | rfl <;> split <;> simp

theorem clean_eq_ok {o : CleaningOptions} {bytes : Bytes} {out : Bytes × Nat} :
    clean o bytes = .ok out ↔ bytes.take 4 = identTag ∧ 0x88 ≤ bytes.length ∧
      ∃ ss, stretchesFrom o (Header.within bytes).dataStart 0 []
          (bytes.drop (Header.within bytes).dataStart) = .ok ss ∧
        out = (editFields (moveEdits (Header.within bytes)
            (ss.foldr (fun s total => s.len + total) 0))
          (cutOut ss (editFields (clearEdits (Header.within bytes)) bytes)), ss.length) := by
  have hmove : ∀ (header : Header) (gone : Nat) (cut : Bytes),
      editFields (moveEdits header gone) cut =
        let moved := Bytes.patch HeaderField.eofOffset.offset
          (Bytes.le 4 (moveBack header.eofOffset gone)) cut
        if header.gd3Offset = 0 then moved
        else Bytes.patch HeaderField.gd3Offset.offset
          (Bytes.le 4 (moveBack header.gd3Offset gone)) moved := by
    intro header gone cut
    by_cases hgd3 : header.gd3Offset = 0 <;> simp [moveEdits, editFields, hgd3]
  unfold clean
  simp only [bind_eq_ok, Header.read_eq_ok, hmove]
  constructor
  · intro h
    obtain ⟨_, ⟨htag, hlen, rfl⟩, ss, hscan, hout⟩ := h
    exact ⟨htag, hlen, ss, hscan, (Except.ok.inj hout).symm⟩
  · intro h
    obtain ⟨htag, hlen, ss, hscan, rfl⟩ := h
    exact ⟨_, ⟨htag, hlen, rfl⟩, ss, hscan, rfl⟩

/-! ## Headers of dumps -/

theorem moveBack_le (offset count : Nat) : moveBack offset count ≤ 0xFFFFFFFF := by
  unfold moveBack
  omega

theorem moveBack_of_le {offset count : Nat} (hcount : count ≤ offset)
    (hoffset : offset ≤ 0xFFFFFFFF) : moveBack offset count = offset - count := by
  unfold moveBack
  omega

/-- The header of a dump, once the dump has lost `gone` bytes. -/
def cleanedHead (front : Bytes) (gone : Nat) : Bytes :=
  editFields (cleanEdits (Header.within front) gone) front

/-- `front` is what lies in front of the commands of a dump. -/
structure Leads (front : Bytes) : Prop where
  tag : front.take 4 = identTag
  fits : 0x88 ≤ front.length
  start : Header.startOf (HeaderField.dataOffset.value front) = front.length

namespace Leads

variable {front : Bytes} (h : Leads front)
include h

theorem within_append (rest : Bytes) : Header.within (front ++ rest) = Header.within front := by
  simp only [Header.within, HeaderField.value_append _ rest h.fits]

theorem length_cleanedHead (gone : Nat) : (cleanedHead front gone).length = front.length :=
  length_editFields h.fits

theorem value_of_mem {f : HeaderField} {gone n : Nat} (hf : f.size = 4) (hn : n ≤ 0xFFFFFFFF)
    (hmem : (f, n) ∈ cleanEdits (Header.within front) gone) :
    f.value (cleanedHead front gone) = n :=
  value_editFields_of_mem hf hn hmem (nodup_cleanEdits _ _) h.fits

theorem value_cleanedHead {f : HeaderField} (hf : f.size = 4)
    (hread : f = .ident ∨ f = .version ∨ f = .totalSamples ∨ f = .dataOffset) (gone : Nat) :
    f.value (cleanedHead front gone) = f.value front :=
  value_editFields_of_notMem hf (notMem_cleanEdits _ _ hread) h.fits

theorem eofOffset_cleanedHead (gone : Nat) :
    HeaderField.eofOffset.value (cleanedHead front gone) =
      moveBack (HeaderField.eofOffset.value front) gone :=
  h.value_of_mem rfl (moveBack_le _ _) (by simp [cleanEdits, moveEdits, Header.within])

theorem nesApuClock_cleanedHead (gone : Nat) :
    HeaderField.nesApuClock.value (cleanedHead front gone) =
      HeaderField.nesApuClock.value front % clockFlagUnit := by
  refine h.value_of_mem rfl ?_ (by simp [cleanEdits, clearEdits, Header.clockHz, Header.within])
  rw [clockFlagUnit]
  omega

theorem cleaned (gone : Nat) : Leads (cleanedHead front gone) where
  tag := by
    have hident : HeaderField.ident ∉ (cleanEdits (Header.within front) gone).map Prod.fst :=
      notMem_cleanEdits _ _ (.inl rfl)
    rw [← h.tag]
    exact window_editFields_of_notMem rfl hident h.fits
  fits := by
    rw [h.length_cleanedHead]
    exact h.fits
  start := by rw [h.value_cleanedHead rfl (by simp), h.start, h.length_cleanedHead]

/-- The edits stay in front of the commands, so they are made before or after the cut. -/
theorem editFields_cutOut (o : CleaningOptions) (gone : Nat) (parts : List DumpPart)
    (tail : Bytes) :
    editFields (moveEdits (Header.within front) gone)
      (cutOut (stretches o front.length parts) (editFields (clearEdits (Header.within front))
        (front ++ (dumpImage parts ++ tail)))) =
      cleanedHead front gone ++ (dumpImage (parts.filter (DumpPart.stays o)) ++ tail) := by
  have hlen : (editFields (clearEdits (Header.within front)) front).length = front.length :=
    length_editFields h.fits
  have hfits := h.fits
  rw [editFields_append _ hfits, cutOut_image o tail parts hlen, editFields_append _ (by omega),
    cleanedHead, cleanEdits, editFields, editFields, editFields, List.foldl_append]

/-- The header is edited, and the commands that go are counted and left out. -/
theorem clean_eq (o : CleaningOptions) (parts : List DumpPart) (rest : Bytes) :
    clean o (front ++ (dumpImage parts ++ 0x66 :: rest)) =
      .ok (cleanedHead front (goneBytes o parts) ++
          (dumpImage (parts.filter (DumpPart.stays o)) ++ 0x66 :: rest),
        (parts.filter fun p => !p.stays o).length) := by
  have hfits := h.fits
  have hstart : (Header.within front).dataStart = front.length := h.start
  rw [clean_eq_ok, h.within_append, hstart, List.drop_left]
  refine ⟨?_, ?_, stretches o front.length parts,
    stretchesFrom_eq_ok.mpr ⟨parts, rest, rfl, rfl⟩, ?_⟩
  · rw [List.take_append_of_le_length (by omega), h.tag]
  · rw [List.length_append]
    omega
  · rw [foldr_stretches, length_stretches, h.editFields_cutOut]

end Leads

/-- A dump that is cleaned, with its commands behind the header, is what leads it and then its
commands up to an end marker. -/
theorem exists_leads {o : CleaningOptions} {bytes : Bytes} {out : Bytes × Nat}
    (hclean : clean o bytes = .ok out)
    (hstart : 0x88 ≤ Header.startOf (HeaderField.dataOffset.value bytes)) :
    ∃ front parts rest, Leads front ∧ bytes = front ++ (dumpImage parts ++ 0x66 :: rest) := by
  obtain ⟨htag, -, _, hscan, -⟩ := clean_eq_ok.mp hclean
  obtain ⟨parts, rest, hdrop, -⟩ := stretchesFrom_eq_ok.mp hscan
  generalize hat : Header.startOf (HeaderField.dataOffset.value bytes) = start at hstart
  have hdata : (Header.within bytes).dataStart = start := hat
  rw [hdata] at hdrop
  have hsplit : bytes = bytes.take start ++ (dumpImage parts ++ 0x66 :: rest) := by
    rw [← hdrop, List.take_append_drop]
  have hfront : (bytes.take start).length = start := by
    have hpos := congrArg List.length hdrop
    rw [List.length_drop, List.length_append, List.length_cons] at hpos
    rw [List.length_take]
    omega
  have hfits : 0x88 ≤ (bytes.take start).length := hfront.symm ▸ hstart
  have hvalue := HeaderField.dataOffset.value_append (dumpImage parts ++ 0x66 :: rest) hfits
  rw [← hsplit] at hvalue
  refine ⟨bytes.take start, parts, rest, ⟨?_, hfits, ?_⟩, hsplit⟩
  · rw [List.take_take, Nat.min_eq_left (by omega), htag]
  · rw [← hvalue, hat, hfront]

/-- The edited header of a dump that has lost its bytes is the header of a trace, given
the stream behind it. -/
theorem Leads.wellFormed {front body rest : Bytes} {gone : Nat} {clock : Clock}
    {steps : List (Step RegisterOp)} (h : Leads front)
    (hversion : HeaderField.version.value front = 0x161)
    (hclock : HeaderField.nesApuClock.value front % 0x40000000 = clock.hz)
    (heof : HeaderField.eofOffset.value front + 4 = front.length + body.length + gone)
    (hstream : CommandStream body steps rest)
    (htotal : totalSamples steps = HeaderField.totalSamples.value front) :
    WellFormed (cleanedHead front gone ++ body) clock steps rest := by
  have hfront := h.fits
  have hfits := (h.cleaned gone).fits
  have hvalue : ∀ f : HeaderField,
      f.value (cleanedHead front gone ++ body) = f.value (cleanedHead front gone) :=
    fun f => f.value_append body hfits
  exact
    { tag := by rw [List.take_append_of_le_length (by omega), (h.cleaned gone).tag]
      fields := by rw [List.length_append]; omega
      eof := by
        rw [hvalue, h.eofOffset_cleanedHead, moveBack_of_le (by omega) (value_le _ rfl front),
          List.length_append, h.length_cleanedHead]
        omega
      version := by rw [hvalue, h.value_cleanedHead rfl (by simp), hversion]
      rate := by
        rw [hvalue]
        exact h.value_of_mem rfl (by decide) (by simp [cleanEdits, clearEdits])
      clock := by rw [hvalue, h.nesApuClock_cleanedHead, clockFlagUnit, hclock]
      stream := by
        rw [hvalue, (h.cleaned gone).start, List.drop_left]
        exact hstream
      total := by rw [hvalue, h.value_cleanedHead rfl (by simp), htotal] }

theorem act_mem_stepsLeft {o : CleaningOptions} {parts : List DumpPart} {op : RegisterOp}
    (h : Step.act op ∈ stepsLeft o parts) :
    ∃ register value, op = .write register value ∧ o.keeps register = true := by
  obtain ⟨p, -, hp⟩ := List.mem_filterMap.mp h
  cases hentry : p.entry with
  | write register value =>
    simp only [hentry, DumpEntry.step?, Option.ite_none_right_eq_some] at hp
    obtain ⟨hkeeps, hop⟩ := hp
    cases hop
    exact ⟨register, value, rfl, hkeeps⟩
  | _ => simp [hentry, DumpEntry.step?] at hp

/-- A dump with a supported version and clock and a right length, whose commands start
behind the header, holds one string of commands up to its end marker. Cleaning takes
the commands out that do not stay, counts them, and leaves the rest of the dump behind
the marker. If the waits add up to the declared total, the cleaned bytes are read: as the
clock without its flag bits, all waits and the kept writes in their order, with touching
waits joined, and nothing else. -/
theorem decode_clean {o : CleaningOptions} {bytes cleaned : Bytes} {count : Nat} {clock : Clock}
    (hclean : clean o bytes = .ok (cleaned, count))
    (hstart : 0x88 ≤ Header.startOf (HeaderField.dataOffset.value bytes))
    (heof : HeaderField.eofOffset.value bytes + 4 = bytes.length)
    (hversion : HeaderField.version.value bytes = 0x161)
    (hclock : HeaderField.nesApuClock.value bytes % 0x40000000 = clock.hz) :
    ∃ parts rest,
      bytes.drop (Header.startOf (HeaderField.dataOffset.value bytes)) =
        dumpImage parts ++ 0x66 :: rest ∧
      (∀ parts' rest', bytes.drop (Header.startOf (HeaderField.dataOffset.value bytes)) =
        dumpImage parts' ++ 0x66 :: rest' → parts' = parts ∧ rest' = rest) ∧
      count = (parts.filter fun p => !p.stays o).length ∧
      cleaned.drop (Header.startOf (HeaderField.dataOffset.value bytes)) =
        dumpImage (parts.filter (DumpPart.stays o)) ++ 0x66 :: rest ∧
      (dumpSamples parts = HeaderField.totalSamples.value bytes →
        decode cleaned = .ok (mergeWaits (Timeline.toEvents ⟨clock, stepsLeft o parts⟩)) ∧
        ∀ op, Event.act op ∈ mergeWaits (Timeline.toEvents ⟨clock, stepsLeft o parts⟩) →
          ∃ register value, op = .write register value ∧ o.keeps register = true) := by
  obtain ⟨front, parts, rest, hleads, rfl⟩ := exists_leads hclean hstart
  have hvalue : ∀ f : HeaderField,
      f.value (front ++ (dumpImage parts ++ 0x66 :: rest)) = f.value front :=
    fun f => f.value_append _ hleads.fits
  simp only [hvalue, hleads.start] at heof hversion hclock ⊢
  rw [hleads.clean_eq] at hclean
  cases hclean
  refine ⟨parts, rest, List.drop_left, ?_, rfl, ?_, ?_⟩
  · intro parts' rest' h
    rw [List.drop_left] at h
    obtain ⟨rfl, rfl⟩ := dumpImage_inj h
    exact ⟨rfl, rfl⟩
  · exact List.drop_left' (hleads.length_cleanedHead _)
  · intro htotal
    have heofFront : HeaderField.eofOffset.value front + 4 = front.length +
        (dumpImage (parts.filter (DumpPart.stays o)) ++ 0x66 :: rest).length +
        goneBytes o parts := by
      have hkept := length_kept_add_goneBytes o parts
      simp only [List.length_append, List.length_cons] at *
      omega
    have hwell := hleads.wellFormed hversion hclock heofFront (commandStream_kept o parts rest)
      (by rw [totalSamples_stepsLeft, htotal])
    refine ⟨decode_eq_ok.mpr ⟨clock, _, rest, hwell, mergeWaits_toEvents _⟩, ?_⟩
    intro op hop
    rw [mergeWaits_toEvents, Timeline.toEvents] at hop
    obtain ⟨s, hs, hevent⟩ : ∃ s ∈ joinWaits (stepsLeft o parts), s.toEvent = .act op := by
      simpa using hop
    cases s with
    | wait n => cases hevent
    | act a =>
      cases hevent
      exact act_mem_stepsLeft (act_mem_joinWaits.mp hs)

/-- A dump with loop, rate and volume fields, a flag bit in its clock, a tag, writes to
two expansion chips, a data block and a write to the sample channel between two waits. -/
theorem decode_clean_mixed :
    let tail : Bytes := [0x47, 0x64, 0x33, 0x20]
    let dump : Bytes := identTag ++ [0xA7, 0, 0, 0, 0x61, 1, 0, 0] ++ List.replicate 8 0 ++
      [0x93, 0, 0, 0, 0xE2, 2, 0, 0, 0x40, 0, 0, 0, 0x10, 0, 0, 0, 60, 0, 0, 0] ++
      List.replicate 12 0 ++ [0x54, 0, 0, 0] ++ List.replicate 68 0 ++ [7, 0, 1, 2] ++
      List.replicate 4 0 ++ [0x4D, 0x4F, 0x1B, 0x40] ++
      [0xA0, 7, 0x38, 0xB4, 0x15, 0x0F, 0x61, 2, 0, 0xB4, 0x10, 0x0F, 0x62, 0x67, 0x66, 0, 3, 0,
        0, 0, 0x66, 0xB4, 0x66, 0x54, 1, 2, 0xB4, 0, 0x3F, 0x70, 0x66] ++ tail
    let cleaned : Bytes := identTag ++ [0x94, 0, 0, 0, 0x61, 1, 0, 0] ++ List.replicate 8 0 ++
      [0x80, 0, 0, 0, 0xE2, 2, 0, 0] ++ List.replicate 24 0 ++ [0x54, 0, 0, 0] ++
      List.replicate 76 0 ++ [0x4D, 0x4F, 0x1B, 0] ++
      [0xB4, 0x15, 0x0F, 0x61, 2, 0, 0x62, 0xB4, 0, 0x3F, 0x70, 0x66] ++ tail
    clean {} dump = .ok (cleaned, 4) ∧
      decode cleaned = .ok [.clock .ntsc, .act (.write 0x15 0x0F), .wait 737,
        .act (.write 0 0x3F), .wait 1] := by
  intro tail dump cleaned
  let found : List DumpPart :=
    [⟨_, _, .expansion (.inr rfl) 7 0x38⟩, ⟨_, _, .write 0x15 0x0F⟩,
      ⟨_, _, .wait (.wait (show [2, 0].length = 2 from rfl))⟩, ⟨_, _, .write 0x10 0x0F⟩,
      ⟨_, _, .wait .frame60⟩,
      ⟨_, _, .block 0x66 0 (show [3, 0, 0, 0].length = 4 from rfl)
        (show [0x66, 0xB4, 0x66].length = Bytes.ofLe [3, 0, 0, 0] from rfl)⟩,
      ⟨_, _, .expansion (.inl rfl) 1 2⟩, ⟨_, _, .write 0 0x3F⟩,
      ⟨[0x70], _, .wait (.short (by decide))⟩]
  have hstart : 0x88 ≤ Header.startOf (HeaderField.dataOffset.value dump) := by decide +kernel
  have hleads : Leads (dump.take 0x88) :=
    ⟨by decide +kernel, by decide +kernel, by decide +kernel⟩
  have hdump : dump = dump.take 0x88 ++ (dumpImage found ++ 0x66 :: tail) := by decide +kernel
  have hclean : clean {} dump = .ok (cleaned, 4) := by
    rw [hdump, hleads.clean_eq]
    exact congrArg Except.ok (by decide +kernel)
  refine ⟨hclean, ?_⟩
  have hclock : HeaderField.nesApuClock.value dump % 0x40000000 = Clock.ntsc.hz := by
    decide +kernel
  obtain ⟨parts, rest, -, hunique, -, -, hdecode⟩ := decode_clean hclean hstart
    (by decide +kernel) (by decide +kernel) hclock
  obtain ⟨rfl, rfl⟩ := hunique found tail (by decide +kernel)
  rw [(hdecode (by decide +kernel)).1, mergeWaits_toEvents]
  rfl

end Trace

end ApuScore

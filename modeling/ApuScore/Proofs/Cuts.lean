import ApuScore.Proofs.Cleaning
/-
  Cleaning stays within the dump.

  Cleaning writes header fields, cuts the dump around the commands that go, and writes two
  header fields again into what is left; it compares none of these places with a length. This
  file

  1. defines slices and writes that have no result outside their string (`Bytes.slice?`,
     `Bytes.write?`), and cleaning as it is made of them (`clean?`);
  2. shows that the stretches that go lie one behind the other between the start of the
     commands and the end marker (`Laid`, `laid_stretches`);
  3. shows that such stretches are cut out by slices within the dump (`cutOut?_eq`), and how
     long the rest is (`length_cutOut`);
  4. concludes that no dump and no options lead cleaning out of bounds (`clean_within`).

  The commands may start within the header, and a command that goes may take header fields
  with it. The fields that are written behind the cut lie before any start of commands.
-/

namespace ApuScore

/-! ## Slices and writes that may fail -/

namespace Bytes

/-- The bytes from `start` up to `stop`, if these are places of the string in order. -/
def slice? (start stop : Nat) (bytes : Bytes) : Option Bytes :=
  if start ≤ stop ∧ stop ≤ bytes.length then some ((bytes.drop start).take (stop - start))
  else none

/-- `bytes` with `fresh` written over the bytes from `off` on, if the string has all of them. -/
def write? (off : Nat) (fresh bytes : Bytes) : Option Bytes :=
  if off + fresh.length ≤ bytes.length then some (patch off fresh bytes) else none

end Bytes

/-- `bytes` with 32-bit numbers written where the fields are, if the string has all of them. -/
def writeFields? (edits : List (HeaderField × Nat)) (bytes : Bytes) : Option Bytes :=
  edits.foldlM (fun b e => Bytes.write? e.1.offset (Bytes.le 4 e.2) b) bytes

def Stretch.total (ss : List Stretch) : Nat := ss.foldr (fun s total => s.len + total) 0

theorem Stretch.total_cons (s : Stretch) (ss : List Stretch) :
    Stretch.total (s :: ss) = s.len + Stretch.total ss := rfl

def Stretch.stop (s : Stretch) : Nat := s.start + s.len

namespace Trace

/-- The bytes from `cursor` on without the stretches, if every slice between them lies within the
string. -/
def cutOut? (cursor : Nat) (bytes : Bytes) : List Stretch → Option Bytes
  | [] => Bytes.slice? cursor bytes.length bytes
  | s :: rest => do
    let front ← Bytes.slice? cursor s.start bytes
    let back ← cutOut? s.stop bytes rest
    return front ++ back

/-- Cleaning, with no result if a slice or a write leaves the string it is made on. -/
def clean? (o : CleaningOptions) (bytes : Bytes) : Option (Except FormatError (Bytes × Nat)) :=
  match Header.read bytes with
  | .error e => some (.error e)
  | .ok header => do
    let cleared ← writeFields? (clearEdits header) bytes
    match stretchesFrom o header.dataStart 0 [] (bytes.drop header.dataStart) with
    | .error e => some (.error e)
    | .ok ss => do
      let cut ← cutOut? 0 cleared ss
      let cleaned ← writeFields? (moveEdits header (Stretch.total ss)) cut
      return .ok (cleaned, ss.length)

end Trace

section edits

variable {edits : List (HeaderField × Nat)} {bytes : Bytes}

theorem writeFields?_eq (h : ∀ e ∈ edits, e.1.offset + 4 ≤ bytes.length) :
    writeFields? edits bytes = some (editFields edits bytes) ∧
      (editFields edits bytes).length = bytes.length := by
  induction edits generalizing bytes with
  | nil => exact ⟨rfl, rfl⟩
  | cons e edits ih =>
    rw [List.forall_mem_cons] at h
    have hfits : e.1.offset + (Bytes.le 4 e.2).length ≤ bytes.length := by
      rw [Bytes.length_le]
      exact h.1
    have hlen := Bytes.length_patch hfits
    obtain ⟨hwrite, hlength⟩ := ih (hlen.symm ▸ h.2)
    rw [writeFields?, List.foldlM_cons, Bytes.write?, if_pos hfits]
    exact ⟨hwrite, hlength.trans hlen⟩

end edits

/-! ## Where the stretches lie -/

/-- Stretches that are not empty and lie one behind the other between two places. -/
inductive Laid : Nat → Nat → List Stretch → Prop where
  | nil {lo hi : Nat} (h : lo ≤ hi) : Laid lo hi []
  | cons {lo hi : Nat} {s : Stretch} {rest : List Stretch} (hstart : lo ≤ s.start)
    (hlen : 0 < s.len) (hrest : Laid s.stop hi rest) : Laid lo hi (s :: rest)

namespace Laid

variable {lo hi : Nat} {ss : List Stretch}

theorem widen {lo' hi' : Nat} (h : Laid lo hi ss) (hlo : lo' ≤ lo) (hhi : hi ≤ hi') :
    Laid lo' hi' ss := by
  induction h generalizing lo' with
  | nil h => exact .nil (Nat.le_trans hlo (Nat.le_trans h hhi))
  | cons hstart hlen _ ih => exact .cons (Nat.le_trans hlo hstart) hlen (ih (Nat.le_refl _) hhi)

theorem total_le (h : Laid lo hi ss) : lo + Stretch.total ss ≤ hi := by
  induction h with
  | nil h => exact h
  | cons hstart _ _ ih =>
    rw [Stretch.stop] at ih
    rw [Stretch.total_cons]
    omega

theorem bounds (h : Laid lo hi ss) {s : Stretch} (hs : s ∈ ss) :
    lo ≤ s.start ∧ s.stop ≤ hi := by
  induction h with
  | nil => cases hs
  | @cons lo hi t rest hstart _ hrest ih =>
    have hle : t.start ≤ t.stop := Nat.le_add_right _ _
    rcases List.mem_cons.mp hs with rfl | hs
    · have htotal := hrest.total_le
      exact ⟨hstart, by omega⟩
    · obtain ⟨hlo, hhi⟩ := ih hs
      exact ⟨by omega, hhi⟩

theorem pairwise (h : Laid lo hi ss) : ss.Pairwise fun s t => s.stop ≤ t.start := by
  induction h with
  | nil => exact .nil
  | cons _ _ hrest ih => exact .cons (fun t ht => (hrest.bounds ht).1) ih

end Laid

namespace Trace

theorem laid_stretches (o : CleaningOptions) (off : Nat) (parts : List DumpPart) :
    Laid off (off + (dumpImage parts).length) (stretches o off parts) := by
  induction parts generalizing off with
  | nil => exact .nil (Nat.le_add_right _ _)
  | cons p parts ih =>
    have hrest := ih (off + p.bytes.length)
    rw [dumpImage_cons, List.length_append, ← Nat.add_assoc, stretches]
    split
    · exact hrest.widen (Nat.le_add_right _ _) (Nat.le_refl _)
    · exact .cons (Nat.le_refl _) p.length_pos hrest

/-- What the scanner finds lies between the start of the commands and the end marker, which lies
within the dump. -/
theorem laid_of_stretchesFrom {o : CleaningOptions} {start : Nat} {bytes : Bytes}
    {ss : List Stretch} (h : stretchesFrom o start 0 [] (bytes.drop start) = .ok ss) :
    ∃ stop, stop < bytes.length ∧ Laid start stop ss := by
  obtain ⟨parts, rest, hdrop, rfl⟩ := stretchesFrom_eq_ok.mp h
  refine ⟨_, ?_, laid_stretches o start parts⟩
  have hlen := congrArg List.length hdrop
  rw [List.length_drop, List.length_append, List.length_cons] at hlen
  omega

/-! ## Cutting -/

theorem flatten_piecesFrom (off : Nat) (bytes : Bytes) (found : List Bytes) (ss : List Stretch) :
    (piecesFrom off bytes found ss).flatten =
      found.reverse.flatten ++ (piecesFrom off bytes [] ss).flatten := by
  induction ss generalizing off bytes found with
  | nil => simp [piecesFrom]
  | cons s ss ih =>
    rw [piecesFrom, piecesFrom, ih, ih _ _ [_]]
    simp

/-- Behind a place, cutting keeps the bytes up to the next stretch and goes on behind it. -/
theorem cut_cons (off : Nat) (bytes : Bytes) (s : Stretch) (ss : List Stretch)
    (h : off ≤ s.start) :
    (piecesFrom off (bytes.drop off) [] (s :: ss)).flatten =
      (bytes.drop off).take (s.start - off) ++
        (piecesFrom s.stop (bytes.drop s.stop) [] ss).flatten := by
  have hstop : off + (s.start - off + s.len) = s.stop := by
    rw [Stretch.stop]
    omega
  rw [piecesFrom, flatten_piecesFrom, List.drop_drop, hstop]
  simp [Stretch.stop]

theorem cutOut?_eq {bytes : Bytes} {lo : Nat} {ss : List Stretch} (h : Laid lo bytes.length ss) :
    cutOut? lo bytes ss = some (piecesFrom lo (bytes.drop lo) [] ss).flatten := by
  generalize hhi : bytes.length = hi at h
  induction h with
  | @nil lo hi hle =>
    subst hhi
    have hall : (bytes.drop lo).take (bytes.length - lo) = bytes.drop lo :=
      List.take_of_length_le (by simp)
    rw [cutOut?, Bytes.slice?, if_pos ⟨hle, Nat.le_refl _⟩, hall]
    simp [piecesFrom]
  | @cons lo hi s rest hstart _ hrest ih =>
    have hwithin : s.start ≤ bytes.length := by
      have htotal := hrest.total_le
      rw [Stretch.stop] at htotal
      omega
    rw [cutOut?, Bytes.slice?, if_pos ⟨hstart, hwithin⟩, ih hhi, cut_cons lo bytes s rest hstart]
    rfl

theorem length_cut {bytes : Bytes} {lo : Nat} {ss : List Stretch} (h : Laid lo bytes.length ss) :
    lo + (piecesFrom lo (bytes.drop lo) [] ss).flatten.length + Stretch.total ss =
      bytes.length := by
  generalize hhi : bytes.length = hi at h
  induction h with
  | @nil lo hi hle =>
    have htotal : Stretch.total [] = 0 := rfl
    simp only [piecesFrom, List.reverse_cons, List.reverse_nil, List.nil_append,
      List.flatten_singleton, List.length_drop]
    omega
  | @cons lo hi s rest hstart _ hrest ih =>
    have hstop : s.stop = s.start + s.len := rfl
    have hle := hrest.total_le
    have hbehind := ih hhi
    rw [cut_cons lo bytes s rest hstart, List.length_append, List.length_take, List.length_drop,
      Stretch.total_cons]
    omega

theorem length_cutOut {bytes : Bytes} {ss : List Stretch} (h : Laid 0 bytes.length ss) :
    (cutOut ss bytes).length + Stretch.total ss = bytes.length := by
  have hlen := length_cut h
  rw [Nat.zero_add] at hlen
  exact hlen

/-! ## Cleaning -/

theorem le_startOf (dataOffset : Nat) : 0x35 ≤ Header.startOf dataOffset := by
  rw [Header.startOf, HeaderField.offset]
  split <;> omega

/-- The fields that move lie before the commands, so a cut leaves them. -/
theorem moves_within {bytes cut : Bytes} (h : (Header.within bytes).dataStart ≤ cut.length)
    (gone : Nat) :
    writeFields? (moveEdits (Header.within bytes) gone) cut =
        some (editFields (moveEdits (Header.within bytes) gone) cut) ∧
      (editFields (moveEdits (Header.within bytes) gone) cut).length = cut.length := by
  have hlen : 0x35 ≤ cut.length := Nat.le_trans (le_startOf _) h
  have heof : HeaderField.eofOffset.offset + 4 ≤ cut.length := Nat.le_trans (by decide) hlen
  have hgd3 : HeaderField.gd3Offset.offset + 4 ≤ cut.length := Nat.le_trans (by decide) hlen
  apply writeFields?_eq
  unfold moveEdits
  split <;> simp [heof, hgd3]

section

variable {o : CleaningOptions} {bytes : Bytes} {ss : List Stretch}
  (hlen : 0x88 ≤ bytes.length)
  (hscan : stretchesFrom o (Header.within bytes).dataStart 0 []
    (bytes.drop (Header.within bytes).dataStart) = .ok ss)
include hlen hscan

theorem cut_within :
    let cleared := editFields (clearEdits (Header.within bytes)) bytes
    cutOut? 0 cleared ss = some (cutOut ss cleared) ∧
      (cutOut ss cleared).length + Stretch.total ss = bytes.length ∧
      (Header.within bytes).dataStart ≤ (cutOut ss cleared).length := by
  intro cleared
  have hcleared : cleared.length = bytes.length := length_editFields hlen
  obtain ⟨stop, hstop, hlaid⟩ := laid_of_stretchesFrom hscan
  have hwhole : Laid 0 cleared.length ss := hlaid.widen (Nat.zero_le _) (by omega)
  have hlength := length_cutOut hwhole
  have htotal := hlaid.total_le
  exact ⟨cutOut?_eq hwhole, by omega, by omega⟩

end

/-- For every string of bytes and all options, cleaning has a result, and none of its slices and
writes leaves the string it is made on. What it takes out lies in ascending order, apart, behind
the fields that are written last and before the end of the dump, and the cleaned dump is shorter
by just these bytes. -/
theorem clean_within (o : CleaningOptions) (bytes : Bytes) :
    clean? o bytes = some (clean o bytes) ∧
    ∀ cleaned count, clean o bytes = .ok (cleaned, count) →
      ∃ ss, stretchesFrom o (Header.within bytes).dataStart 0 []
          (bytes.drop (Header.within bytes).dataStart) = .ok ss ∧ ss.length = count ∧
        ss.Pairwise (fun s t => s.stop ≤ t.start) ∧
        (∀ s ∈ ss, 0x35 ≤ s.start ∧ s.stop < bytes.length) ∧
        Stretch.total ss ≤ bytes.length ∧ cleaned.length = bytes.length - Stretch.total ss := by
  constructor
  · cases hread : Header.read bytes with
    | error e => simp [clean?, clean, hread, bind, Except.bind]
    | ok header =>
      obtain ⟨htag, hlen, rfl⟩ := Header.read_eq_ok.mp hread
      have hfits : ∀ e ∈ clearEdits (Header.within bytes), e.1.offset + 4 ≤ bytes.length :=
        fun e _ => e.1.fits hlen e.2
      obtain ⟨hclear, -⟩ := writeFields?_eq hfits
      cases hscan : stretchesFrom o (Header.within bytes).dataStart 0 []
          (bytes.drop (Header.within bytes).dataStart) with
      | error e => simp [clean?, clean, hread, hclear, hscan, bind, Except.bind]
      | ok ss =>
        have hclean := clean_eq_ok.mpr ⟨htag, hlen, ss, hscan, rfl⟩
        obtain ⟨hcut, -, hstart⟩ := cut_within hlen hscan
        obtain ⟨hmove, -⟩ := moves_within hstart (Stretch.total ss)
        rw [hclean]
        simp only [clean?, hread, hclear, hscan, hcut, hmove, bind, Option.bind]
        rfl
  · intro cleaned count hclean
    obtain ⟨-, hlen, ss, hscan, hout⟩ := clean_eq_ok.mp hclean
    obtain ⟨rfl, rfl⟩ := Prod.mk.inj hout
    obtain ⟨-, hlength, hstart⟩ := cut_within hlen hscan
    obtain ⟨stop, hstop, hlaid⟩ := laid_of_stretchesFrom hscan
    obtain ⟨-, hmoved⟩ := moves_within hstart (Stretch.total ss)
    refine ⟨ss, hscan, rfl, hlaid.pairwise, ?_, by omega, hmoved.trans (by omega)⟩
    intro s hs
    obtain ⟨hlo, hhi⟩ := hlaid.bounds hs
    exact ⟨Nat.le_trans (le_startOf _) hlo, Nat.lt_of_le_of_lt hhi hstop⟩

/-- Commands that start within the header: a data block takes the volume and the clock with it.
The same block cut off at the greatest length it can declare, and commands that start behind the
dump, are refused. -/
theorem clean_within_overlap :
    let head : Bytes := identTag ++ [0x8D, 0, 0, 0, 0x61, 1, 0, 0] ++ List.replicate 8 0 ++
      [0x7C, 0, 0, 0] ++ List.replicate 28 0
    let block : Bytes := List.replicate 0x51 0 ++ [0x66]
    let dump : Bytes := head ++ [4, 0, 0, 0, 0x67, 0x66, 0, 0x51, 0, 0, 0] ++ block
    let long : Bytes := head ++ [4, 0, 0, 0, 0x67, 0x66, 0, 0xFF, 0xFF, 0xFF, 0xFF] ++ block
    let past : Bytes := head ++ [0x60, 0, 0, 0, 0x67, 0x66, 0, 0x51, 0, 0, 0] ++ block
    (∃ cleaned, clean {} dump = .ok (cleaned, 1) ∧ clean? {} dump = some (.ok (cleaned, 1)) ∧
      dump.length = 0x91 ∧ cleaned.length = 0x39) ∧
    clean? {} long = some (.error (.outOfRange "command" 0x10000003E 1 0)) ∧
    clean? {} past = some (.error (.outOfRange "command" 0x94 1 0)) := by
  intro head block dump long past
  have hcount : (clean {} dump).toOption.map Prod.snd = some 1 := by decide +kernel
  obtain ⟨⟨cleaned, _⟩, hsome, rfl⟩ := Option.map_eq_some_iff.mp hcount
  have hclean := toOption_eq_some.mp hsome
  have hlong : clean {} long = .error (.outOfRange "command" 0x10000003E 1 0) := by cbv
  have hpast : clean {} past = .error (.outOfRange "command" 0x94 1 0) := by
    set_option maxRecDepth 1000 in cbv
  obtain ⟨hdump, hcleaned⟩ := clean_within {} dump
  obtain ⟨ss, hscan, -, -, -, -, hlength⟩ := hcleaned cleaned 1 hclean
  have hfound : (stretchesFrom {} (Header.within dump).dataStart 0 []
      (dump.drop (Header.within dump).dataStart)).toOption = some [⟨0x38, 0x58⟩] := by
    decide +kernel
  rw [hscan] at hfound
  obtain rfl := Option.some.inj hfound
  refine ⟨⟨cleaned, hclean, by rw [hdump, hclean], rfl, hlength⟩, ?_, ?_⟩
  · rw [(clean_within {} long).1, hlong]
  · rw [(clean_within {} past).1, hpast]

end Trace

end ApuScore

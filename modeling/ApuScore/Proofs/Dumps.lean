import ApuScore.Proofs.Grammar
import ApuScore.Trace.Cleaning
/-
  The grammar of dumps, and the scanner as its parser.

  A dump is a trace before it is cleaned: beside waits and writes it has writes to
  expansion chips and data blocks, whose marker byte nobody looks at. This file

  1. says what the commands of a dump are (`DumpForm`), and what a string of them is
     (`dumpImage`), whatever the cleaning options;
  2. proves that a string has one reading (`dumpImage_inj`): the length of a command
     depends on its own bytes only;
  3. proves that the scanner that cleaning uses finds exactly those commands and
     reports the places of the ones that go (`stretchesFrom_eq_ok`);
  4. proves that a command that stays is a command of a trace, with the same bytes
     and the same meaning (`commandStream_kept`), so the two scanners agree.
-/

namespace ApuScore

/-- What a command of a dump says. -/
inductive DumpEntry where
  | wait (n : Nat)
  | write (register value : UInt8)
  | expansion
  | block
  deriving DecidableEq, Repr

/-- `bytes` are a command of a dump, and `e` is what it says. -/
inductive DumpForm : Bytes → DumpEntry → Prop where
  | wait {bytes : Bytes} {n : Nat} (h : CommandForm bytes (.wait n)) : DumpForm bytes (.wait n)
  | write (register value : UInt8) : DumpForm [0xB4, register, value] (.write register value)
  | expansion {op : UInt8} (h : op = 0x54 ∨ op = 0xA0) (port value : UInt8) :
    DumpForm [op, port, value] .expansion
  | block (mark kind : UInt8) {size payload : Bytes} (hsize : size.length = 4)
    (hpayload : payload.length = Bytes.ofLe size) :
    DumpForm (0x67 :: mark :: kind :: (size ++ payload)) .block

/-- What a command with the first byte `op` and the rest `args` has in common with all
that say the same. -/
def DumpEntry.Begins (op : UInt8) (args : Bytes) : DumpEntry → Prop
  | .wait _ => op = 0x61 ∨ op = 0x62 ∨ op = 0x63 ∨ (0x70 ≤ op ∧ op ≤ 0x7F)
  | .write register value => op = 0xB4 ∧ args = [register, value]
  | .expansion => op = 0x54 ∨ op = 0xA0
  | .block => op = 0x67

namespace DumpForm

theorem length_pos {bytes : Bytes} {e : DumpEntry} (h : DumpForm bytes e) :
    0 < bytes.length := by
  cases h with
  | wait h => exact h.length_pos
  | _ => simp

theorem head {op : UInt8} {args : Bytes} {e : DumpEntry} (h : DumpForm (op :: args) e) :
    e.Begins op args := by
  cases h with
  | wait h => cases h <;> simp_all [DumpEntry.Begins]
  | write register value => simp [DumpEntry.Begins]
  | expansion hop => exact hop
  | block => rfl

theorem commandForm {bytes : Bytes} {n : Nat} (h : DumpForm bytes (.wait n)) :
    CommandForm bytes (.wait n) := by
  cases h with
  | wait h => exact h

theorem unique {bytes : Bytes} {e e' : DumpEntry} (h : DumpForm bytes e)
    (h' : DumpForm bytes e') : e = e' := by
  obtain ⟨op, args, rfl⟩ := List.exists_cons_of_length_pos h.length_pos
  have hop := h.head
  have hop' := h'.head
  cases e with
  | wait n =>
    cases e' with
    | wait n' =>
      have hread := Command.read_form h.commandForm 0 []
      rw [Command.read_form h'.commandForm 0 []] at hread
      cases hread
      rfl
    | _ => grind [DumpEntry.Begins]
  | _ => cases e' <;> grind [DumpEntry.Begins]

end DumpForm

/-- A command of a dump, with its bytes. -/
structure DumpPart where
  bytes : Bytes
  entry : DumpEntry
  form : DumpForm bytes entry

def dumpImage (parts : List DumpPart) : Bytes := parts.flatMap DumpPart.bytes

@[simp] theorem dumpImage_nil : dumpImage [] = [] := rfl

@[simp] theorem dumpImage_cons (p : DumpPart) (parts : List DumpPart) :
    dumpImage (p :: parts) = p.bytes ++ dumpImage parts := rfl

namespace DumpEntry

/-- The step that is left of a command once the dump is cleaned. -/
def step? (o : CleaningOptions) : DumpEntry → Option (Step RegisterOp)
  | .wait n => some (.wait n)
  | .write register value =>
    if o.keeps register then some (.act (.write register value)) else none
  | .expansion => none
  | .block => none

def samples : DumpEntry → Nat
  | .wait n => n
  | _ => 0

/-- How the scanner sees a command of `len` bytes. -/
def command (o : CleaningOptions) (len : Nat) (e : DumpEntry) : DumpCommand :=
  if (e.step? o).isSome then .stays len else .goes len

theorem command_inj {o : CleaningOptions} {e e' : DumpEntry} {len len' : Nat}
    (h : e.command o len = e'.command o len') : len = len' := by
  unfold command at h
  split at h <;> split at h <;> cases h <;> rfl

theorem command_ne_stop (o : CleaningOptions) (len : Nat) (e : DumpEntry) :
    e.command o len ≠ .stop := by
  unfold command
  split <;> simp

end DumpEntry

namespace DumpPart

/-- Whether cleaning leaves the command in its place. -/
def stays (o : CleaningOptions) (p : DumpPart) : Bool := (p.entry.step? o).isSome

theorem length_pos (p : DumpPart) : 0 < p.bytes.length := p.form.length_pos

end DumpPart

def dumpSamples (parts : List DumpPart) : Nat :=
  parts.foldr (fun p total => p.entry.samples + total) 0

def stepsLeft (o : CleaningOptions) (parts : List DumpPart) : List (Step RegisterOp) :=
  parts.filterMap fun p => p.entry.step? o

namespace Trace

/-! ## One command -/

/-- A command of a dump is seen by its first byte, whatever follows it. -/
theorem dumpCommand_part (o : CleaningOptions) (p : DumpPart) :
    ∃ op args, p.bytes = op :: args ∧ ∀ off tail,
      dumpCommand o off op (args ++ tail) = .ok (p.entry.command o p.bytes.length) := by
  obtain ⟨bytes, entry, form⟩ := p
  cases form with
  | wait h =>
    cases h with
    | wait hargs =>
      refine ⟨0x61, _, rfl, ?_⟩
      intro off tail
      simp [dumpCommand, DumpEntry.command, DumpEntry.step?, hargs]
    | frame60 => exact ⟨0x62, [], rfl, fun off tail => rfl⟩
    | frame50 => exact ⟨0x63, [], rfl, fun off tail => rfl⟩
    | short hop =>
      rename_i op
      refine ⟨op, [], rfl, ?_⟩
      intro off tail
      -- the opcodes that are tried before lie outside the range
      have hexpansion : ¬(op = 0x54 ∨ op = 0xA0) := by
        rintro (rfl | rfl) <;> revert hop <;> decide
      have hwait : op ≠ 0x61 := by
        rintro rfl
        revert hop
        decide
      simp [dumpCommand, hexpansion, hwait, hop, DumpEntry.command, DumpEntry.step?]
  | write register value =>
    refine ⟨0xB4, [register, value], rfl, ?_⟩
    intro off tail
    have hread : takeWindow "apu_write" (off + 1) 1 (register :: value :: tail) =
        .ok [register] := takeWindow_append "apu_write" (off + 1) [register] (value :: tail)
    simp only [List.cons_append, List.nil_append, dumpCommand, hread, DumpEntry.command,
      DumpEntry.step?]
    by_cases hkeeps : o.keeps register <;> simp [hkeeps, bind, Except.bind, pure, Except.pure]
  | expansion hop port value =>
    rename_i op
    refine ⟨op, [port, value], rfl, ?_⟩
    intro off tail
    simp [dumpCommand, hop, DumpEntry.command, DumpEntry.step?]
  | block mark kind hsize hpayload =>
    rename_i size payload
    refine ⟨0x67, mark :: kind :: (size ++ payload), rfl, ?_⟩
    intro off tail
    have hread : takeWindow "data_block" (off + 3) 4 (size ++ (payload ++ tail)) = .ok size := by
      rw [← hsize]
      exact takeWindow_append "data_block" (off + 3) size (payload ++ tail)
    have hlen : (0x67 :: mark :: kind :: (size ++ payload)).length = 7 + Bytes.ofLe size := by
      simp only [List.length_cons, List.length_append, hsize, hpayload]
      omega
    rw [hlen]
    simp [dumpCommand, hread, DumpEntry.command, DumpEntry.step?, bind, Except.bind, pure,
      Except.pure]

theorem exists_pair {args : Bytes} (h : args.length = 2) : ∃ a b, args = [a, b] := by
  obtain ⟨a, rest, rfl⟩ := List.exists_cons_of_length_eq_add_one h
  obtain ⟨b, rfl⟩ := List.length_eq_one_iff.mp (Nat.succ.inj h)
  exact ⟨a, b, rfl⟩

/-- What a first byte that is accepted begins: the end marker, or a command as soon as
its bytes are all there. -/
theorem dumpCommand_cases {o : CleaningOptions} {off : Nat} {op : UInt8} {rest : Bytes}
    {c : DumpCommand} (h : dumpCommand o off op rest = .ok c) :
    (c = .stop ∧ op = 0x66) ∨
      ∃ len, (c = .stays (len + 1) ∨ c = .goes (len + 1)) ∧
        ∀ args tail, rest = args ++ tail → args.length = len →
          ∃ e, DumpForm (op :: args) e ∧ c = e.command o (len + 1) := by
  rw [dumpCommand] at h
  split at h
  · rename_i hop
    cases h
    refine .inr ⟨2, .inr rfl, ?_⟩
    intro args tail _ hlen
    obtain ⟨port, value, rfl⟩ := exists_pair hlen
    exact ⟨.expansion, .expansion hop port value, rfl⟩
  split at h
  · rename_i hop
    subst hop
    cases h
    exact .inr ⟨2, .inl rfl, fun args tail _ hlen => ⟨_, .wait (.wait hlen), rfl⟩⟩
  split at h
  · rename_i hop
    cases h
    refine .inr ⟨0, .inl rfl, ?_⟩
    intro args tail _ hlen
    obtain rfl := List.length_eq_zero_iff.mp hlen
    rcases hop with rfl | rfl | hop
    · exact ⟨_, .wait .frame60, rfl⟩
    · exact ⟨_, .wait .frame50, rfl⟩
    · exact ⟨_, .wait (.short hop), rfl⟩
  split at h
  · rename_i hop
    cases h
    exact .inl ⟨rfl, hop⟩
  split at h
  · rename_i hop
    subst hop
    obtain ⟨size, hread, hout⟩ := bind_eq_ok.mp h
    obtain ⟨hsize, hpre⟩ := takeWindow_eq_ok.mp hread
    cases hout
    refine .inr ⟨6 + Bytes.ofLe size, .inr (by rw [Nat.add_right_comm]), ?_⟩
    intro args tail hrest hlen
    obtain ⟨mark, args, rfl⟩ := List.exists_cons_of_length_pos (l := args) (by omega)
    rw [List.length_cons] at hlen
    obtain ⟨kind, args, rfl⟩ := List.exists_cons_of_length_pos (l := args) (by omega)
    rw [List.length_cons] at hlen
    subst hrest
    -- the size that was read lies at the head of what is left of the command
    have hhead : size <+: args :=
      List.prefix_of_prefix_length_le hpre (List.prefix_append args tail) (by omega)
    obtain ⟨payload, rfl⟩ := hhead
    rw [List.length_append] at hlen
    exact ⟨.block, .block mark kind hsize (by omega), by rw [Nat.add_right_comm]; rfl⟩
  split at h
  · rename_i hop
    subst hop
    obtain ⟨registers, hread, hout⟩ := bind_eq_ok.mp h
    obtain ⟨hone, hpre⟩ := takeWindow_eq_ok.mp hread
    obtain ⟨register, rfl⟩ := List.length_eq_one_iff.mp hone
    obtain ⟨behind, rfl⟩ := hpre
    simp only [List.headD_cons, pure, Except.pure, Except.ok.injEq] at hout
    refine .inr ⟨2, ?_, ?_⟩
    · rw [← hout]
      by_cases hkeeps : o.keeps register <;> simp [hkeeps]
    · intro args tail hrest hlen
      obtain ⟨register', value, rfl⟩ := exists_pair hlen
      obtain ⟨rfl, -⟩ := List.cons_eq_cons.mp hrest
      refine ⟨.write register value, .write register value, ?_⟩
      rw [← hout]
      simp only [DumpEntry.command, DumpEntry.step?]
      by_cases hkeeps : o.keeps register <;> simp [hkeeps]
  · cases h

/-! ## Commands in a row -/

/-- A string of commands up to an end marker is read in one way. -/
theorem dumpImage_inj {parts parts' : List DumpPart} {rest rest' : Bytes}
    (h : dumpImage parts ++ 0x66 :: rest = dumpImage parts' ++ 0x66 :: rest') :
    parts = parts' ∧ rest = rest' := by
  -- a command never begins with the end marker
  have hmarker : ∀ (p : DumpPart) (front tail : Bytes), p.bytes ++ front ≠ 0x66 :: tail := by
    intro p front tail heq
    obtain ⟨op, args, hbytes, hread⟩ := dumpCommand_part {} p
    rw [hbytes, List.cons_append, List.cons_eq_cons] at heq
    obtain ⟨rfl, -⟩ := heq
    have hstop : dumpCommand {} 0 0x66 (args ++ []) = .ok .stop := rfl
    rw [hread 0 []] at hstop
    cases p.entry.command_ne_stop {} p.bytes.length (Except.ok.inj hstop)
  induction parts generalizing parts' with
  | nil =>
    cases parts' with
    | nil => exact ⟨rfl, (List.cons_eq_cons.mp h).2⟩
    | cons p' parts' =>
      rw [dumpImage_cons, List.append_assoc] at h
      cases hmarker p' _ _ h.symm
  | cons p parts ih =>
    cases parts' with
    | nil =>
      rw [dumpImage_cons, List.append_assoc] at h
      cases hmarker p _ _ h
    | cons p' parts' =>
      simp only [dumpImage_cons, List.append_assoc] at h
      have hlen : p.bytes.length = p'.bytes.length := by
        obtain ⟨op, args, hbytes, hread⟩ := dumpCommand_part {} p
        obtain ⟨op', args', hbytes', hread'⟩ := dumpCommand_part {} p'
        have hcons := h
        rw [hbytes, hbytes', List.cons_append, List.cons_append, List.cons_eq_cons] at hcons
        obtain ⟨rfl, htail⟩ := hcons
        have hsame := hread 0 (dumpImage parts ++ 0x66 :: rest)
        rw [htail, hread' 0 _] at hsame
        exact (DumpEntry.command_inj (Except.ok.inj hsame)).symm
      obtain ⟨hbytes, htail⟩ := List.append_inj h hlen
      obtain ⟨rfl, rfl⟩ := ih htail
      obtain ⟨bytes, e, form⟩ := p
      obtain ⟨bytes', e', form'⟩ := p'
      dsimp only at hbytes
      subst hbytes
      obtain rfl := form.unique form'
      exact ⟨rfl, rfl⟩

/-- Where the commands lie that go, when the first command lies at `off`. -/
def stretches (o : CleaningOptions) (off : Nat) : List DumpPart → List Stretch
  | [] => []
  | p :: parts =>
    let later := stretches o (off + p.bytes.length) parts
    if p.stays o then later else ⟨off, p.bytes.length⟩ :: later

theorem stretchesFrom_skip (o : CleaningOptions) (off : Nat) (found : List Stretch)
    (junk rest : Bytes) :
    stretchesFrom o off junk.length found (junk ++ rest) =
      stretchesFrom o (off + junk.length) 0 found rest := by
  induction junk generalizing off with
  | nil => rfl
  | cons b junk ih =>
    rw [List.length_cons, List.cons_append, stretchesFrom, ih, Nat.add_right_comm, Nat.add_assoc]

/-- A command that is cut off by the end of the bytes is an error. -/
theorem le_length_of_stretchesFrom {o : CleaningOptions} {off skip : Nat}
    {found ss : List Stretch} {bytes : Bytes}
    (h : stretchesFrom o off skip found bytes = .ok ss) : skip ≤ bytes.length := by
  induction bytes generalizing off skip with
  | nil => cases h
  | cons b rest ih =>
    cases skip with
    | zero => exact Nat.zero_le _
    | succ skip => exact Nat.succ_le_succ (ih h)

theorem stretchesFrom_part (o : CleaningOptions) (p : DumpPart) (off : Nat)
    (found : List Stretch) (rest : Bytes) :
    stretchesFrom o off 0 found (p.bytes ++ rest) =
      stretchesFrom o (off + p.bytes.length) 0
        (if p.stays o then found else ⟨off, p.bytes.length⟩ :: found) rest := by
  obtain ⟨op, args, hbytes, hread⟩ := dumpCommand_part o p
  have hnext : ∀ found, stretchesFrom o (off + 1) args.length found (args ++ rest) =
      stretchesFrom o (off + p.bytes.length) 0 found rest := by
    intro found
    rw [stretchesFrom_skip, hbytes, List.length_cons, Nat.add_assoc, Nat.add_comm 1]
  have hargs : p.bytes.length - 1 = args.length := by simp [hbytes]
  rw [show p.bytes ++ rest = op :: (args ++ rest) by rw [hbytes]; rfl, stretchesFrom, hread]
  rw [DumpEntry.command, ← DumpPart.stays]
  by_cases hstays : p.stays o
  · simp only [hstays, if_true, hargs, hnext]
  · simp only [hstays, if_neg Bool.false_ne_true, hargs, hnext]

/-- The scanner finds the commands of a dump up to the end marker, and reports where the
ones lie that go. -/
theorem stretchesFrom_image (o : CleaningOptions) (off : Nat) (found : List Stretch)
    (parts : List DumpPart) (rest : Bytes) :
    stretchesFrom o off 0 found (dumpImage parts ++ 0x66 :: rest) =
      .ok (found.reverse ++ stretches o off parts) := by
  induction parts generalizing off found with
  | nil =>
    rw [stretches, List.append_nil]
    rfl
  | cons p parts ih =>
    rw [dumpImage_cons, List.append_assoc, stretchesFrom_part, ih, stretches]
    by_cases hstays : p.stays o <;> simp [hstays]

theorem stretchesFrom_eq_ok {o : CleaningOptions} {off : Nat} {bytes : Bytes}
    {ss : List Stretch} :
    stretchesFrom o off 0 [] bytes = .ok ss ↔
      ∃ parts rest, bytes = dumpImage parts ++ 0x66 :: rest ∧ ss = stretches o off parts := by
  constructor
  · -- the stretches that are found only pile up, so what is read does not depend on them
    suffices hread : ∀ found, stretchesFrom o off 0 found bytes = .ok ss →
        ∃ parts rest, bytes = dumpImage parts ++ 0x66 :: rest by
      intro h
      obtain ⟨parts, rest, rfl⟩ := hread [] h
      rw [stretchesFrom_image] at h
      cases h
      exact ⟨parts, rest, rfl, rfl⟩
    induction hlen : bytes.length using Nat.strongRecOn generalizing off bytes with
    | ind len ih =>
      intro found h
      cases bytes with
      | nil => cases h
      | cons op rest =>
        rw [stretchesFrom] at h
        -- behind a command the scanner goes on where the command ends
        have hpart : ∀ found c len, dumpCommand o off op rest = .ok c →
            stretchesFrom o (off + 1) len found rest = .ok ss →
            (∀ args tail, rest = args ++ tail → args.length = len →
              ∃ e, DumpForm (op :: args) e ∧ c = e.command o (len + 1)) →
            ∃ parts tail, op :: rest = dumpImage parts ++ 0x66 :: tail := by
          intro found c skip hc hscan hform
          have hskip := le_length_of_stretchesFrom hscan
          have hargs : (rest.take skip).length = skip := by simp [hskip]
          have hsplit : rest.take skip ++ rest.drop skip = rest := List.take_append_drop _ _
          obtain ⟨e, hform, -⟩ := hform _ _ hsplit.symm hargs
          rw [← hsplit] at hscan
          conv at hscan in skip => rw [← hargs]
          rw [stretchesFrom_skip] at hscan
          have hshort : (rest.drop skip).length < len := by
            rw [← hlen, List.length_drop, List.length_cons]
            omega
          obtain ⟨parts, tail, htail⟩ := ih _ hshort rfl _ hscan
          refine ⟨⟨_, e, hform⟩ :: parts, tail, ?_⟩
          rw [dumpImage_cons, List.append_assoc, ← htail, List.cons_append, hsplit]
        cases hc : dumpCommand o off op rest with
        | error e => simp only [hc, reduceCtorEq] at h
        | ok c =>
          simp only [hc] at h
          rcases dumpCommand_cases hc with ⟨rfl, rfl⟩ | ⟨skip, rfl | rfl, hform⟩
          · exact ⟨[], rest, rfl⟩
          · exact hpart _ _ _ hc h hform
          · exact hpart _ _ _ hc h hform
  · intro h
    obtain ⟨parts, rest, rfl, rfl⟩ := h
    exact stretchesFrom_image o off [] parts rest

/-! ## What is left -/

theorem commandStream_kept (o : CleaningOptions) (parts : List DumpPart) (rest : Bytes) :
    CommandStream (dumpImage (parts.filter (DumpPart.stays o)) ++ 0x66 :: rest)
      (stepsLeft o parts) rest := by
  induction parts with
  | nil => exact .stop rest
  | cons p parts ih =>
    cases hstep : p.entry.step? o with
    | none =>
      have hstays : p.stays o = false := by simp [DumpPart.stays, hstep]
      simpa [stepsLeft, hstays, hstep] using ih
    | some s =>
      have hstays : p.stays o = true := by simp [DumpPart.stays, hstep]
      have hform : CommandForm p.bytes s := by
        obtain ⟨bytes, e, form⟩ := p
        cases form with
        | wait h => cases hstep; exact h
        | write register value =>
          simp only [DumpEntry.step?, Option.ite_none_right_eq_some] at hstep
          obtain ⟨-, hs⟩ := hstep
          cases hs
          exact .write register value
        | expansion => cases hstep
        | block => cases hstep
      have hrest := CommandStream.step hform ih
      simpa [stepsLeft, hstays, hstep] using hrest

theorem totalSamples_stepsLeft (o : CleaningOptions) (parts : List DumpPart) :
    totalSamples (stepsLeft o parts) = dumpSamples parts := by
  induction parts with
  | nil => rfl
  | cons p parts ih =>
    have hsamples : dumpSamples (p :: parts) = p.entry.samples + dumpSamples parts := rfl
    rw [hsamples, ← ih, stepsLeft, List.filterMap_cons]
    cases p.entry with
    | wait n => rfl
    | write register value =>
      by_cases hkeeps : o.keeps register <;>
        simp [DumpEntry.step?, hkeeps, DumpEntry.samples, stepsLeft, Step.samples]
    | expansion => exact (Nat.zero_add _).symm
    | block => exact (Nat.zero_add _).symm

end Trace

end ApuScore

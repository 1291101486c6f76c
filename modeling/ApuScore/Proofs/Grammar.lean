import ApuScore.Proofs.Timeline
import ApuScore.Trace.Codec
/-
  The grammar of commands, and the reader as its parser.

  `CommandForm bytes s` says that `bytes` are one command and that it says `s`;
  `CommandStream bytes steps rest` that `bytes` are the commands of `steps`, an end
  marker and then `rest`. Reading one command finds exactly the forms
  (`read_eq_step`), so reading commands finds exactly the streams
  (`stepsFrom_eq_ok`).
-/

namespace ApuScore

/-- `bytes` are a command, and `s` is the step that it says. -/
inductive CommandForm : Bytes → Step RegisterOp → Prop where
  | wait {args : Bytes} (h : args.length = 2) :
    CommandForm (0x61 :: args) (.wait (Bytes.ofLe args))
  | frame60 : CommandForm [0x62] (.wait 735)
  | frame50 : CommandForm [0x63] (.wait 882)
  | short {op : UInt8} (h : 0x70 ≤ op ∧ op ≤ 0x7F) :
    CommandForm [op] (.wait (op.toNat - 0x70 + 1))
  | write (register value : UInt8) :
    CommandForm [0xB4, register, value] (.act (.write register value))
  | data (kind : UInt8) {size payload : Bytes} (hsize : size.length = 4)
    (hpayload : payload.length = Bytes.ofLe size) :
    CommandForm (0x67 :: 0x66 :: kind :: (size ++ payload)) (.act (.data kind payload))

/-- `bytes` are the commands of `steps`, an end marker and `rest`. -/
inductive CommandStream : Bytes → List (Step RegisterOp) → Bytes → Prop where
  | stop (rest : Bytes) : CommandStream (0x66 :: rest) [] rest
  | step {front bytes : Bytes} {s : Step RegisterOp} {steps : List (Step RegisterOp)}
    {rest : Bytes} (h : CommandForm front s) (hrest : CommandStream bytes steps rest) :
    CommandStream (front ++ bytes) (s :: steps) rest

theorem takeWindow_eq_ok {what : String} {off len : Nat} {rest w : Bytes} :
    takeWindow what off len rest = .ok w ↔ w.length = len ∧ w <+: rest := by
  unfold takeWindow
  dsimp only
  constructor
  · intro h
    split at h
    · rename_i hlen
      cases h
      exact ⟨hlen, List.take_prefix len rest⟩
    · cases h
  · intro h
    obtain ⟨rfl, hpre⟩ := h
    rw [← List.prefix_iff_eq_take.mp hpre, if_pos rfl]

theorem takeWindow_append (what : String) (off : Nat) (front rest : Bytes) :
    takeWindow what off front.length (front ++ rest) = .ok front :=
  takeWindow_eq_ok.mpr ⟨rfl, List.prefix_append front rest⟩

namespace Command

theorem readBlock_eq_ok {off : Nat} {rest : Bytes} {c : Command} {len : Nat} :
    readBlock off rest = .ok (c, len) ↔
      ∃ kind size payload tail, size.length = 4 ∧ payload.length = Bytes.ofLe size ∧
        rest = 0x66 :: kind :: (size ++ (payload ++ tail)) ∧
        c = .step (.act (.data kind payload)) ∧ len = 7 + payload.length := by
  unfold readBlock
  simp only [bind_eq_ok, takeWindow_eq_ok, checkMark]
  constructor
  · intro h
    obtain ⟨mark, ⟨-, hmark⟩, _, hcheck, kinds, ⟨hkinds, hkind⟩, size, ⟨hsize, hpre⟩, payload,
      ⟨hpayload, hbody⟩, hout⟩ := h
    split at hcheck
    · rename_i hmark66
      subst hmark66
      cases hout
      obtain ⟨afterMark, rfl⟩ := hmark
      obtain ⟨kind, rfl⟩ := List.length_eq_one_iff.mp hkinds
      obtain ⟨afterKind, hkind⟩ := hkind
      obtain rfl : [kind] ++ afterKind = afterMark := hkind
      obtain ⟨afterSize, hpre⟩ := hpre
      obtain rfl : size ++ afterSize = afterKind := hpre
      have hdrop : ([0x66] ++ ([kind] ++ (size ++ afterSize))).drop 6 = afterSize :=
        List.drop_left' hsize
      rw [hdrop] at hbody
      obtain ⟨tail, rfl⟩ := hbody
      exact ⟨kind, size, payload, tail, hsize, hpayload, rfl, rfl, by rw [hpayload]⟩
    · cases hcheck
  · intro h
    obtain ⟨kind, size, payload, tail, hsize, hpayload, rfl, rfl, rfl⟩ := h
    have hdrop : (0x66 :: kind :: (size ++ (payload ++ tail))).drop 6 = payload ++ tail :=
      List.drop_left' hsize
    refine ⟨[0x66], ⟨rfl, List.prefix_append [0x66] _⟩, (), by rw [if_pos rfl], [kind],
      ⟨rfl, List.prefix_append [kind] _⟩, size, ⟨hsize, List.prefix_append size _⟩, payload,
      ⟨hpayload, ?_⟩, ?_⟩
    · rw [hdrop]
      exact List.prefix_append payload tail
    · rw [hpayload]
      rfl

/-- What a command that is read lies in: the end marker, or a form of its step. -/
theorem read_cases {off : Nat} {bytes : Bytes} {c : Command} {len : Nat}
    (h : read off bytes = .ok (c, len)) :
    (c = .stop ∧ ∃ rest, bytes = 0x66 :: rest ∧ len = 1) ∨
      ∃ s front rest, c = .step s ∧ bytes = front ++ rest ∧ CommandForm front s ∧
        len = front.length := by
  cases bytes with
  | nil => cases h
  | cons op rest =>
    -- one case for each opcode, in the order in which they are tried
    rw [read] at h
    split at h
    · rename_i hop
      subst hop
      obtain ⟨args, hargs, hout⟩ := bind_eq_ok.mp h
      obtain ⟨hlen, tail, rfl⟩ := takeWindow_eq_ok.mp hargs
      cases hout
      exact .inr ⟨_, 0x61 :: args, tail, rfl, rfl, .wait hlen, by rw [List.length_cons, hlen]⟩
    split at h
    · rename_i hop
      subst hop
      cases h
      exact .inr ⟨_, [0x62], rest, rfl, rfl, .frame60, rfl⟩
    split at h
    · rename_i hop
      subst hop
      cases h
      exact .inr ⟨_, [0x63], rest, rfl, rfl, .frame50, rfl⟩
    split at h
    · rename_i hop
      subst hop
      cases h
      exact .inl ⟨rfl, rest, rfl, rfl⟩
    split at h
    · rename_i hop
      subst hop
      obtain ⟨kind, size, payload, tail, hsize, hpayload, rfl, rfl, rfl⟩ := readBlock_eq_ok.mp h
      refine .inr ⟨_, 0x67 :: 0x66 :: kind :: (size ++ payload), tail, rfl, ?_,
        .data kind hsize hpayload, ?_⟩
      · simp only [List.cons_append, List.append_assoc]
      · simp only [List.length_cons, List.length_append, hsize]
        omega
    split at h
    · rename_i hop
      cases h
      exact .inr ⟨_, [op], rest, rfl, rfl, .short hop, rfl⟩
    split at h
    · rename_i hop
      subst hop
      obtain ⟨args, hargs, hout⟩ := bind_eq_ok.mp h
      obtain ⟨hlen, tail, rfl⟩ := takeWindow_eq_ok.mp hargs
      obtain ⟨register, values, rfl⟩ := List.exists_cons_of_length_eq_add_one hlen
      obtain ⟨value, rfl⟩ := List.length_eq_one_iff.mp (Nat.succ.inj hlen)
      cases hout
      exact .inr ⟨_, [0xB4, register, value], tail, rfl, rfl, .write register value, rfl⟩
    · cases h

theorem read_form {front : Bytes} {s : Step RegisterOp} (h : CommandForm front s) (off : Nat)
    (rest : Bytes) : read off (front ++ rest) = .ok (.step s, front.length) := by
  cases h with
  | wait hlen =>
    rename_i args
    have hargs := takeWindow_append "wait" (off + 1) args rest
    rw [hlen] at hargs
    simp only [List.cons_append, read, if_true, hargs, List.length_cons, hlen]
    rfl
  | frame60 => rfl
  | frame50 => rfl
  | short hop =>
    rename_i op
    -- the opcodes that are tried before are all smaller
    have hne : ∀ other : UInt8, other < 0x70 → op ≠ other := by
      intro other hother heq
      subst heq
      exact absurd hop.1 (UInt8.not_le.mpr hother)
    simp only [List.singleton_append, read, hne 0x61 (by decide), hne 0x62 (by decide),
      hne 0x63 (by decide), hne 0x66 (by decide), hne 0x67 (by decide), hop, and_self, if_true,
      if_false, List.length_cons, List.length_nil]
  | write register value =>
    have hargs := takeWindow_append "apu_write" (off + 1) [register, value] rest
    simp only [List.cons_append, List.nil_append, List.length_cons, List.length_nil] at hargs ⊢
    simp only [read, hargs]
    rfl
  | data kind hsize hpayload =>
    rename_i size payload
    have hblock : readBlock off (0x66 :: kind :: (size ++ (payload ++ rest))) =
        .ok (.step (.act (.data kind payload)), 7 + payload.length) :=
      readBlock_eq_ok.mpr ⟨kind, size, payload, rest, hsize, hpayload, rfl, rfl, rfl⟩
    have hlen : (0x67 :: 0x66 :: kind :: (size ++ payload)).length = 7 + payload.length := by
      simp only [List.length_cons, List.length_append, hsize]
      omega
    rw [hlen, ← hblock]
    simp only [List.cons_append, List.append_assoc]
    rfl

theorem read_eq_step {off : Nat} {bytes : Bytes} {s : Step RegisterOp} {len : Nat} :
    read off bytes = .ok (.step s, len) ↔
      ∃ front rest, bytes = front ++ rest ∧ CommandForm front s ∧ len = front.length := by
  constructor
  · intro h
    rcases read_cases h with ⟨hstop, -⟩ | ⟨s', front, rest, hs, hbytes, hform, hlen⟩
    · cases hstop
    · cases hs
      exact ⟨front, rest, hbytes, hform, hlen⟩
  · intro h
    obtain ⟨front, rest, rfl, hform, rfl⟩ := h
    exact read_form hform off rest

theorem read_eq_stop {off : Nat} {bytes : Bytes} {len : Nat} :
    read off bytes = .ok (.stop, len) ↔ ∃ rest, bytes = 0x66 :: rest ∧ len = 1 := by
  constructor
  · intro h
    rcases read_cases h with ⟨-, hend⟩ | ⟨s, front, rest, hstep, -⟩
    · exact hend
    · cases hstep
  · intro h
    obtain ⟨rest, rfl, rfl⟩ := h
    rfl

end Command

theorem CommandForm.length_pos {bytes : Bytes} {s : Step RegisterOp} (h : CommandForm bytes s) :
    0 < bytes.length := by
  cases h <;> exact Nat.succ_pos _

namespace Trace

/-! ## Reading commands -/

theorem stepsFrom_skip (off : Nat) (found : List (Step RegisterOp)) (junk rest : Bytes) :
    stepsFrom off junk.length found (junk ++ rest) =
      stepsFrom (off + junk.length) 0 found rest := by
  induction junk generalizing off with
  | nil => rfl
  | cons b junk ih =>
    rw [List.length_cons, List.cons_append, stepsFrom, ih, Nat.add_right_comm, Nat.add_assoc]

theorem stepsFrom_form {front : Bytes} {s : Step RegisterOp} (h : CommandForm front s)
    (off : Nat) (found : List (Step RegisterOp)) (rest : Bytes) :
    stepsFrom off 0 found (front ++ rest) =
      stepsFrom (off + front.length) 0 (s :: found) rest := by
  have hread := Command.read_form h off rest
  obtain ⟨b, tail, rfl⟩ := List.exists_cons_of_length_pos h.length_pos
  rw [List.cons_append] at hread
  simp only [List.cons_append, stepsFrom, hread, List.length_cons, Nat.add_sub_cancel,
    stepsFrom_skip]
  rw [Nat.add_right_comm, Nat.add_assoc]

theorem stepsFrom_stream {bytes rest : Bytes} {steps : List (Step RegisterOp)}
    (h : CommandStream bytes steps rest) (off : Nat) (found : List (Step RegisterOp)) :
    stepsFrom off 0 found bytes = .ok (found.reverse ++ steps) := by
  induction h generalizing off found with
  | stop rest =>
    rw [List.append_nil]
    rfl
  | step hform _ ih =>
    rw [stepsFrom_form hform, ih, List.reverse_cons, List.append_assoc]
    rfl

/-- Reading is driven by the commands: each is an error, the end or a form, and behind
a form the reader goes on where the form ends. -/
theorem stepsFrom_cases (off : Nat) (found : List (Step RegisterOp)) (bytes : Bytes) :
    (∃ e, Command.read off bytes = .error e ∧ stepsFrom off 0 found bytes = .error e) ∨
    (∃ len, Command.read off bytes = .ok (.stop, len) ∧
      stepsFrom off 0 found bytes = .ok found.reverse) ∨
    ∃ front rest s, bytes = front ++ rest ∧ CommandForm front s ∧
      Command.read off bytes = .ok (.step s, front.length) ∧
      stepsFrom off 0 found bytes = stepsFrom (off + front.length) 0 (s :: found) rest := by
  cases hread : Command.read off bytes with
  | error e =>
    refine .inl ⟨e, rfl, ?_⟩
    cases bytes with
    | nil =>
      cases hread
      rfl
    | cons b rest => simp only [stepsFrom, hread]
  | ok out =>
    obtain ⟨c, len⟩ := out
    cases c with
    | stop =>
      obtain ⟨rest, rfl, rfl⟩ := Command.read_eq_stop.mp hread
      exact .inr (.inl ⟨1, rfl, rfl⟩)
    | step s =>
      obtain ⟨front, rest, rfl, hform, rfl⟩ := Command.read_eq_step.mp hread
      exact .inr (.inr ⟨front, rest, s, rfl, hform, rfl, stepsFrom_form hform off found rest⟩)

/-- Commands are read exactly from their streams, whatever lies behind the end
marker. -/
theorem stepsFrom_eq_ok {off : Nat} {bytes : Bytes} {steps : List (Step RegisterOp)} :
    stepsFrom off 0 [] bytes = .ok steps ↔ ∃ rest, CommandStream bytes steps rest := by
  constructor
  · -- the found steps only pile up in front
    suffices hfound : ∀ found, stepsFrom off 0 found bytes = .ok steps →
        ∃ rest later, CommandStream bytes later rest ∧ steps = found.reverse ++ later by
      intro h
      obtain ⟨rest, later, hstream, rfl⟩ := hfound [] h
      exact ⟨rest, hstream⟩
    induction hlen : bytes.length using Nat.strongRecOn generalizing off bytes with
    | ind len ih =>
      intro found h
      rcases stepsFrom_cases off found bytes with
        ⟨e, -, herr⟩ | ⟨len', hread, hstop⟩ | ⟨front, rest, s, rfl, hform, -, hnext⟩
      · rw [herr] at h
        cases h
      · obtain ⟨rest, rfl, -⟩ := Command.read_eq_stop.mp hread
        rw [hstop] at h
        cases h
        exact ⟨rest, [], .stop rest, (List.append_nil _).symm⟩
      · have hpos := hform.length_pos
        rw [List.length_append] at hlen
        rw [hnext] at h
        obtain ⟨tail, later, hstream, rfl⟩ := ih rest.length (by omega) rfl _ h
        refine ⟨tail, s :: later, .step hform hstream, ?_⟩
        rw [List.reverse_cons, List.append_assoc]
        rfl
  · intro h
    obtain ⟨rest, hstream⟩ := h
    exact stepsFrom_stream hstream off []

end Trace

end ApuScore

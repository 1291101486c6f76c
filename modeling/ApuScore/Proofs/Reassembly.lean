import ApuScore.Proofs.Disassembly
import ApuScore.Log.Assembly
/-
  Assembly undoes disassembly.

  A register byte is taken apart into one write per field and put together over a
  file that holds earlier bytes. Two invariants carry the proof from one step to
  the next. `Buffered` ties the open run to the atoms: every physical write in the
  run has an atom that is past, or is the current one and among its registers, so
  the next physical write gets a key of its own. `Registers.Named` says that the
  file holds no bits outside the fields, so the byte that comes together is the
  written byte masked to its fields.
-/

namespace ApuScore

/-! ## The open run -/

/-- The run's physical writes carry past atoms, or the current one and registers
that it has written. -/
structure Buffered (s : AtomState) (run : List PendingWrite) : Prop where
  past : ∀ p ∈ run, p.key.atom ≤ s.atom
  written : ∀ p ∈ run, p.key.atom = s.atom → (p.key.channel, p.key.offset) ∈ s.written

namespace Buffered

variable {s : AtomState} {run : List PendingWrite}

theorem empty : Buffered {} [] :=
  ⟨fun _ h => (nomatch h), fun _ h => (nomatch h)⟩

theorem touch (h : Buffered s run) (place : Channel × UInt8) : Buffered (s.touch place) run := by
  unfold AtomState.touch
  split
  · -- a new atom: everything in the run is past
    refine ⟨fun p hp => Nat.le_succ_of_le (h.past p hp), ?_⟩
    intro p hp hatom
    have hle := h.past p hp
    simp only at hatom
    omega
  · exact ⟨h.past, fun p hp hatom => List.mem_cons_of_mem _ (h.written p hp hatom)⟩

theorem fresh (h : Buffered s run) (c : Channel) (off : UInt8) :
    ∀ p ∈ run, p.key ≠ ⟨c, off, (s.touch (c, off)).atom⟩ := by
  intro p hp hkey
  have hle := h.past p hp
  unfold AtomState.touch at hkey
  split at hkey
  · rw [hkey] at hle
    simp only at hle
    omega
  · next hnew =>
    have hmem := h.written p hp (by rw [hkey])
    rw [hkey] at hmem
    exact hnew hmem

theorem touch_self (s : AtomState) (place : Channel × UInt8) :
    place ∈ (s.touch place).written := by
  unfold AtomState.touch
  split <;> exact List.mem_cons_self

theorem push (h : Buffered s run) (c : Channel) (off register byte : UInt8) :
    Buffered (s.touch (c, off))
      (run ++ [⟨⟨c, off, (s.touch (c, off)).atom⟩, register, byte⟩]) := by
  have htouch := h.touch (c, off)
  constructor
  · intro p hp
    rcases List.mem_append.mp hp with hrun | hlast
    · exact htouch.past p hrun
    · obtain rfl := List.mem_singleton.mp hlast
      exact Nat.le_refl _
  · intro p hp hatom
    rcases List.mem_append.mp hp with hrun | hlast
    · exact htouch.written p hrun hatom
    · rw [List.mem_singleton.mp hlast]
      exact touch_self s (c, off)

end Buffered

theorem merge_fresh {w : PendingWrite} {run : List PendingWrite}
    (h : ∀ p ∈ run, p.key ≠ w.key) : merge w run = run ++ [w] := by
  induction run with
  | nil => rfl
  | cons p rest ih =>
    rw [merge, if_neg (h p List.mem_cons_self), List.cons_append,
      ih fun q hq => h q (List.mem_cons_of_mem p hq)]

theorem merge_last {run : List PendingWrite} {key : WriteKey} (register old byte : UInt8)
    (h : ∀ p ∈ run, p.key ≠ key) :
    merge ⟨key, register, byte⟩ (run ++ [⟨key, register, old⟩]) =
      run ++ [⟨key, register, byte⟩] := by
  induction run with
  | nil => rw [List.nil_append, merge, if_pos rfl]; rfl
  | cons p rest ih =>
    rw [List.cons_append, merge, if_neg (h p List.mem_cons_self), List.cons_append,
      ih fun q hq => h q (List.mem_cons_of_mem p hq)]

theorem closeRun_append (front rest : List PendingWrite) :
    closeRun (front ++ rest) = closeRun front ++ closeRun rest :=
  List.map_append

/-! ## Assembly step by step -/

/-- What was found before stands in front. -/
theorem assembleFrom_found (r : Registers) (run : List PendingWrite)
    (found : List (List (Step RegisterOp))) (steps : List (Step ParamWrite)) :
    assembleFrom r run found steps =
      ((assembleFrom r run [] steps).1,
        (assembleFrom r run [] steps).2.map (found.reverse.flatten ++ ·)) := by
  induction steps generalizing r run found with
  | nil => simp only [assembleFrom, Except.map, List.reverse_cons, List.reverse_nil,
      List.nil_append, List.flatten_append, List.flatten_cons, List.flatten_nil, List.append_nil]
  | cons step rest ih =>
    cases step with
    | wait n =>
      simp only [assembleFrom]
      rw [ih r [] (_ :: found), ih r [] [_]]
      cases (assembleFrom r [] [] rest).2 with
      | error e => rfl
      | ok tail => simp only [Except.map, List.reverse_cons, List.reverse_nil, List.nil_append,
          List.flatten_append, List.flatten_cons, List.flatten_nil, List.append_nil,
          List.append_assoc]
    | act w =>
      simp only [assembleFrom]
      cases w.assemble r with
      | error e => rfl
      | ok out => exact ih out.1 (merge out.2 run) found

theorem assembleFrom_wait {r r' : Registers} {run : List PendingWrite} {n : Nat}
    {rest : List (Step ParamWrite)} {tail : List (Step RegisterOp)}
    (h : assembleFrom r [] [] rest = (r', .ok tail)) :
    assembleFrom r run [] (.wait n :: rest) = (r', .ok (closeRun run ++ .wait n :: tail)) := by
  rw [assembleFrom, assembleFrom_found, h]
  simp only [Except.map, List.reverse_singleton, List.flatten_cons, List.flatten_nil,
    List.append_nil, List.append_assoc, List.cons_append, List.nil_append]

theorem assembleFrom_wait_eq_ok {r r' : Registers} {run : List PendingWrite} {n : Nat}
    {rest : List (Step ParamWrite)} {raw : List (Step RegisterOp)} :
    assembleFrom r run [] (.wait n :: rest) = (r', .ok raw) ↔
      ∃ tail, assembleFrom r [] [] rest = (r', .ok tail) ∧
        raw = closeRun run ++ .wait n :: tail := by
  constructor
  · intro h
    rw [assembleFrom, assembleFrom_found] at h
    obtain ⟨rfl, hraw⟩ := Prod.mk.inj h
    cases htail : (assembleFrom r [] [] rest).2 with
    | error e =>
      rw [htail] at hraw
      cases hraw
    | ok tail =>
      rw [htail] at hraw
      cases hraw
      refine ⟨tail, Prod.ext rfl htail, ?_⟩
      show [closeRun run ++ [Step.wait n]].reverse.flatten ++ tail = _
      rw [List.reverse_singleton, List.flatten_singleton, List.append_assoc]
      rfl
  · intro h
    obtain ⟨tail, htail, rfl⟩ := h
    exact assembleFrom_wait htail

theorem assembleFrom_act {r r' : Registers} {run : List PendingWrite} {w : ParamWrite}
    {p : PendingWrite} (rest : List (Step ParamWrite)) (h : w.assemble r = .ok (r', p)) :
    assembleFrom r run [] (.act w :: rest) = assembleFrom r' (merge p run) [] rest := by
  simp only [assembleFrom, h]

/-- The write of one field as it was read from `byte`. -/
def fieldWrite (c : Channel) (off byte : UInt8) (atom : Nat) (f : BitField) : ParamWrite :=
  ⟨c, f.param, f.extract byte, atom, off⟩

section
variable {register off : UInt8} {c : Channel}

theorem assemble_fieldWrite (h : Channel.ofRegister? register = some (c, off)) (byte : UInt8)
    (atom : Nat) {f : BitField} (hf : f ∈ registerFields register) {r : Registers} {old : UInt8}
    (hold : r.read? register = some old) :
    (fieldWrite c off byte atom f).assemble r =
      .ok (r.write register (f.insert old (f.extract byte)),
        ⟨⟨c, off, atom⟩, register, f.insert old (f.extract byte)⟩) := by
  have hfind := Channel.find?_eq_some (fieldsAt?_of_ofRegister? h) hf
  have hrange := BitField.extract_lt (registerFields_fit register f hf) byte
  obtain ⟨hbase, -, -⟩ := Channel.ofRegister?_spec h
  simp only [ParamWrite.assemble, fieldWrite, hfind, ne_eq, not_true_eq_false, if_false, hrange,
    if_true, Registers.set, hbase, hold, Option.getD_some]

/-- The fields after the first one work on the last physical write of the run. -/
theorem assembleFrom_fields (h : Channel.ofRegister? register = some (c, off)) (byte : UInt8)
    (atom : Nat) {fields : List BitField} (hsub : ∀ f ∈ fields, f ∈ registerFields register)
    {run : List PendingWrite} (hrun : ∀ p ∈ run, p.key ≠ ⟨c, off, atom⟩) (r : Registers)
    (old : UInt8) (rest : List (Step ParamWrite)) :
    assembleFrom (r.write register old) (run ++ [⟨⟨c, off, atom⟩, register, old⟩]) []
        (fields.map (fun f => .act (fieldWrite c off byte atom f)) ++ rest) =
      assembleFrom (r.write register (fields.foldl (fun b f => f.insert b (f.extract byte)) old))
        (run ++ [⟨⟨c, off, atom⟩, register,
          fields.foldl (fun b f => f.insert b (f.extract byte)) old⟩]) [] rest := by
  induction fields generalizing old with
  | nil => rfl
  | cons f fs ih =>
    obtain ⟨-, hlt, -⟩ := Channel.ofRegister?_spec h
    have hread := Registers.read?_write_self r old hlt
    have hfirst := assemble_fieldWrite h byte atom (hsub f List.mem_cons_self) hread
    rw [List.map_cons, List.cons_append, assembleFrom_act _ hfirst, Registers.write_write,
      merge_last register old _ hrun, ih fun g hg => hsub g (List.mem_cons_of_mem f hg),
      List.foldl_cons]

/-- A byte with at least one field comes together as one physical write. -/
theorem assembleFrom_splitByte (h : Channel.ofRegister? register = some (c, off)) (byte : UInt8)
    (atom : Nat) (hne : registerFields register ≠ []) {run : List PendingWrite}
    (hrun : ∀ p ∈ run, p.key ≠ ⟨c, off, atom⟩) {r : Registers} {old : UInt8}
    (hold : r.read? register = some old)
    (hnamed : old &&& fieldBits (registerFields register) = old) (rest : List (Step ParamWrite)) :
    assembleFrom r run [] ((splitByte c off byte atom).map .act ++ rest) =
      assembleFrom (r.write register (byte &&& fieldBits (registerFields register)))
        (run ++ [⟨⟨c, off, atom⟩, register, byte &&& fieldBits (registerFields register)⟩]) []
        rest := by
  have hsplit : (splitByte c off byte atom).map Step.act =
      (registerFields register).map fun f => .act (fieldWrite c off byte atom f) := by
    rw [splitByte, fieldsAt?_of_ofRegister? h, Option.getD_some, List.map_map]; rfl
  have hfold := foldl_insert (registerFields_fit register) hnamed byte
  have hsub : ∀ f ∈ registerFields register, f ∈ registerFields register := fun _ hf => hf
  rw [hsplit, ← hfold]
  revert hsub
  generalize hfields : registerFields register = fields
  intro hsub
  cases fields with
  | nil => exact absurd hfields hne
  | cons f fs =>
    rw [← hfields] at hsub
    have hfirst := assemble_fieldWrite h byte atom (hsub f (hfields ▸ List.mem_cons_self)) hold
    rw [List.map_cons, List.cons_append, assembleFrom_act _ hfirst, merge_fresh hrun,
      assembleFrom_fields h byte atom
        (fun g hg => hsub g (hfields ▸ List.mem_cons_of_mem f hg)) hrun, List.foldl_cons]

end

/-! ## Whole logs -/

/-- Every owned register holds bits of its fields only. -/
def Registers.Named (r : Registers) : Prop :=
  ∀ register, (Channel.ofRegister? register).isSome →
    ∃ old, r.read? register = some old ∧ old &&& fieldBits (registerFields register) = old

theorem Registers.named_zero : Registers.zero.Named := by
  intro register hsome
  obtain ⟨⟨c, off⟩, hplace⟩ := Option.isSome_iff_exists.mp hsome
  obtain ⟨-, hlt, -⟩ := Channel.ofRegister?_spec hplace
  exact ⟨0, read?_zero hlt, UInt8.zero_and⟩

theorem Registers.Named.write {r : Registers} (h : r.Named) {register : UInt8} (byte : UInt8)
    (hlt : register.toNat < 24) :
    (r.write register (byte &&& fieldBits (registerFields register))).Named := by
  intro other hsome
  by_cases heq : register = other
  · subst heq
    refine ⟨_, read?_write_self r _ hlt, ?_⟩
    rw [UInt8.and_assoc, UInt8.and_self]
  · rw [read?_write_of_ne r _ heq]
    exact h other hsome

/-- The parameter writes of register steps come together as the steps' named part,
behind the open run. -/
theorem assembleFrom_disassembled {s : AtomState} {run : List PendingWrite} {r : Registers}
    {steps : List (Step RegisterOp)} {out : List (Step ParamWrite)} (hrun : Buffered s run)
    (hr : r.Named) (h : disassembleFrom s [] steps = .ok out) :
    ∃ r', assembleFrom r run [] out = (r', .ok (closeRun run ++ namedSteps steps)) := by
  induction steps generalizing s run r out with
  | nil =>
    cases h
    exact ⟨r, rfl⟩
  | cons step rest ih =>
    obtain ⟨s', front, tail, hstep, htail, rfl⟩ := disassembleFrom_cons.mp h
    cases step with
    | wait n =>
      cases hstep
      obtain ⟨r', hr'⟩ := ih Buffered.empty hr htail
      exact ⟨r', assembleFrom_wait hr'⟩
    | act op =>
      cases op with
      | data kind payload =>
        cases hstep
        exact ih hrun hr htail
      | write register value =>
        cases hplace : Channel.ofRegister? register with
        | none => simp only [disassembleStep, hplace, reduceCtorEq] at hstep
        | some place =>
          obtain ⟨c, off⟩ := place
          obtain ⟨-, hlt, -⟩ := Channel.ofRegister?_spec hplace
          obtain ⟨old, hold, hnamed⟩ := hr register (by rw [hplace]; rfl)
          simp only [disassembleStep, hplace, Except.ok.injEq, Prod.mk.injEq] at hstep
          obtain ⟨rfl, rfl⟩ := hstep
          rw [namedSteps, List.filterMap_cons, Step.named?_write]
          by_cases hne : registerFields register = []
          · -- nothing is written, but the register counts as written for the atoms
            have hsplit : splitByte c off value (s.touch (c, off)).atom = [] := by
              rw [splitByte, fieldsAt?_of_ofRegister? hplace, hne]; rfl
            rw [hsplit, if_pos hne]
            exact ih (hrun.touch (c, off)) hr htail
          · obtain ⟨r', hr'⟩ := ih
              (hrun.push c off register (value &&& fieldBits (registerFields register)))
              (hr.write value hlt) htail
            refine ⟨r', ?_⟩
            rw [if_neg hne, assembleFrom_splitByte hplace value _ hne (hrun.fresh c off) hold
              hnamed, hr', closeRun_append, List.append_assoc]
            rfl

/-- A log that disassembles is put together again as its named part: data blocks and
writes to 0x09 and 0x0D are gone, every other byte is masked to the fields of its
register, and waits, order and number of the writes are as before. The result
disassembles to the same waits and the same channels, parameters and values. -/
theorem assemble_disassemble (log : RegisterLog) (params : ParamLog)
    (h : disassemble log = .ok params) :
    assemble params = .ok (namedLog log) ∧
      (∀ register, (Channel.ofRegister? register).isSome →
        (registerFields register = [] ↔ register = 0x09 ∨ register = 0x0D)) ∧
      ∃ again, disassemble (namedLog log) = .ok again ∧
        again.map (Event.mapAct ParamWrite.change) =
          params.map (Event.mapAct ParamWrite.change) := by
  obtain ⟨t, steps, rfl, hsteps, rfl⟩ := disassemble_eq_ok.mp h
  obtain ⟨r, hr⟩ := assembleFrom_disassembled Buffered.empty Registers.named_zero hsteps
  refine ⟨?_, fun _ hsome => registerFields_eq_nil_iff hsome, ?_⟩
  · rw [namedLog_toEvents]
    simp only [assemble, assembleOver, Timeline.ofEvents_toEvents, hr]
    rfl
  · have hknown := known_namedSteps (disassembleFrom_isOk_iff.mp ⟨steps, hsteps⟩)
    obtain ⟨again, hagain⟩ := disassembleFrom_isOk_iff.mpr hknown
    refine ⟨_, disassemble_eq_ok.mpr ⟨_, again, namedLog_toEvents t, hagain, rfl⟩, ?_⟩
    have hchange := map_change_disassembleFrom hagain
    rw [flatMap_changesOf_namedSteps, ← map_change_disassembleFrom hsteps] at hchange
    have hevents : ∀ xs : List (Step ParamWrite),
        (xs.map Step.toEvent).map (Event.mapAct ParamWrite.change) =
          (xs.map (Step.mapAct ParamWrite.change)).map Step.toEvent := by
      intro xs
      rw [List.map_map, List.map_map]
      apply List.map_congr_left
      intro s _
      cases s <;> rfl
    simp only [Timeline.toEvents, List.map_cons, hevents, hchange]

/-- Register 0x0C is written twice around a write to a register without fields, and
the bits that no field covers are lost. -/
theorem assemble_disassemble_repeated :
    ∃ params, disassemble [.clock .ntsc, .act (.write 0x0C 0xFF), .act (.write 0x09 0x55),
        .act (.data 0x00 [0xB4]), .act (.write 0x0C 0x01), .wait 0, .wait 3,
        .act (.write 0x15 0xFF)] = .ok params ∧
      assemble params = .ok [.clock .ntsc, .act (.write 0x0C 0x3F), .act (.write 0x0C 0x01),
        .wait 0, .wait 3, .act (.write 0x15 0x1F)] := by
  refine ⟨_, rfl, ?_⟩
  exact (assemble_disassemble [.clock .ntsc, .act (.write 0x0C 0xFF), .act (.write 0x09 0x55),
    .act (.data 0x00 [0xB4]), .act (.write 0x0C 0x01), .wait 0, .wait 3,
    .act (.write 0x15 0xFF)] _ rfl).1

end ApuScore

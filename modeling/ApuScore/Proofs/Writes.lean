import ApuScore.Score.Replay
import ApuScore.Proofs.Timeline
/-
  Parameter writes on the chip.

  A write is accepted exactly when its channel has the parameter and the value
  fits the field (`Channel.takes`), and then the chip is `set`; so a run of writes
  is accepted exactly when each one is, and then acts as `setAll`. Otherwise it
  fails with the fault of the first write that is refused (`writeAll_eq`). A write
  concerns at most one voice (`ParamWrite.aims`). A voice's state behind a run of
  writes is what it makes of the writes that concern it, in their order.
-/

namespace ApuScore

/-- Whether the channel has the parameter and the value fits its field. -/
def Channel.takes (c : Channel) (p : Param) (value : UInt8) : Bool :=
  match c.find? p with
  | none => false
  | some (_, field) => value.toNat < field.range

/-- Whether the chip accepts the write. -/
def ParamWrite.taken (w : ParamWrite) : Bool := w.channel.takes w.param w.value

/-! ## Faults -/

/-- Why the chip refuses a value for a parameter, if it does. -/
def Channel.fault? (c : Channel) (p : Param) (value : UInt8) : Option ProtocolError :=
  match c.find? p with
  | none => some (.unknownParam c p)
  | some (_, field) =>
    if value.toNat < field.range then none else some (.valueOutOfRange c p value field.range)

/-- Why the chip refuses the write, if it does. -/
def ParamWrite.fault? (w : ParamWrite) : Option ProtocolError := w.channel.fault? w.param w.value

/-- The fault of the first write that is refused. -/
def firstFault? (writes : List ParamWrite) : Option ProtocolError :=
  writes.findSome? ParamWrite.fault?

/-- A result, unless there is a fault. -/
def unlessFault {α : Type} (fault : Option ProtocolError) (a : α) : Except ProtocolError α :=
  fault.elim (.ok a) .error

section unlessFault

variable {α β : Type} {fault : Option ProtocolError} {a b : α}

theorem unlessFault_eq_ok : unlessFault fault a = .ok b ↔ fault = none ∧ b = a := by
  cases fault with
  | none =>
    simp only [unlessFault, Option.elim_none, Except.ok.injEq, true_and]
    exact eq_comm
  | some e => simp only [unlessFault, Option.elim_some, reduceCtorEq, false_and]

theorem unlessFault_bind (fault again : Option ProtocolError) (a : α) (f : α → β) :
    (unlessFault fault a >>= fun a => unlessFault again (f a)) =
      unlessFault (fault.or again) (f a) := by
  cases fault <;> rfl

end unlessFault

theorem Channel.takes_iff {c : Channel} {p : Param} {value : UInt8} :
    c.takes p value = true ↔ c.fault? p value = none := by
  unfold takes fault?
  cases c.find? p with
  | none => simp only [Bool.false_eq_true, reduceCtorEq]
  | some place =>
    by_cases h : value.toNat < place.2.range
    · simp only [h, decide_true, if_true]
    · simp only [h, decide_false, Bool.false_eq_true, if_false, reduceCtorEq]

theorem firstFault?_cons (w : ParamWrite) (writes : List ParamWrite) :
    firstFault? (w :: writes) = w.fault?.or (firstFault? writes) := by
  rw [firstFault?, List.findSome?_cons]
  cases w.fault? <;> rfl

theorem firstFault?_append (front rest : List ParamWrite) :
    firstFault? (front ++ rest) = (firstFault? front).or (firstFault? rest) :=
  List.findSome?_append

theorem firstFault?_eq_none {writes : List ParamWrite} :
    firstFault? writes = none ↔ ∀ w ∈ writes, w.taken = true := by
  simp only [firstFault?, List.findSome?_eq_none_iff, ParamWrite.taken, Channel.takes_iff,
    ParamWrite.fault?]

namespace Apu

/-- The chip after accepted writes. -/
def setAll (writes : List ParamWrite) (a : Apu) : Apu :=
  writes.foldl (fun a w => a.set w.channel w.param w.value) a

@[simp] theorem setAll_nil (a : Apu) : a.setAll [] = a := rfl

theorem setAll_cons (w : ParamWrite) (writes : List ParamWrite) (a : Apu) :
    a.setAll (w :: writes) = (a.set w.channel w.param w.value).setAll writes := rfl

theorem setAll_append (front rest : List ParamWrite) (a : Apu) :
    a.setAll (front ++ rest) = (a.setAll front).setAll rest := by
  rw [setAll, List.foldl_append]
  rfl

theorem write_eq (a : Apu) (c : Channel) (p : Param) (value : UInt8) :
    a.write c p value = unlessFault (c.fault? p value) (a.set c p value) := by
  unfold write Channel.fault?
  cases c.find? p with
  | none => rfl
  | some place =>
    dsimp only
    split <;> rfl

theorem write_eq_ok {a b : Apu} {c : Channel} {p : Param} {value : UInt8} :
    a.write c p value = .ok b ↔ c.takes p value = true ∧ b = a.set c p value := by
  rw [write_eq, unlessFault_eq_ok, Channel.takes_iff]

theorem writeAll_eq (writes : List ParamWrite) (a : Apu) :
    a.writeAll writes = unlessFault (firstFault? writes) (a.setAll writes) := by
  induction writes generalizing a with
  | nil => rfl
  | cons w writes ih =>
    show (a.write w.channel w.param w.value >>= fun a => a.writeAll writes) = _
    simp only [ih]
    rw [write_eq, unlessFault_bind _ _ _ (setAll writes), firstFault?_cons]
    rfl

theorem writeAll_eq_ok {writes : List ParamWrite} {a b : Apu} :
    a.writeAll writes = .ok b ↔ (∀ w ∈ writes, w.taken) ∧ b = a.setAll writes := by
  rw [writeAll_eq, unlessFault_eq_ok, firstFault?_eq_none]

end Apu

/-! ## What a voice makes of the writes -/

/-- Whether the write goes to the voice's channel or to its enable. -/
def ParamWrite.aims (v : Voice) (w : ParamWrite) : Bool :=
  w.channel == v.channel || (w.channel == .status && w.param == v.enable)

def writesOf (v : Voice) (writes : List ParamWrite) : List ParamWrite :=
  writes.filter (·.aims v)

def LengthCounter.gate (w : ParamWrite) (c : LengthCounter) : LengthCounter :=
  c.enable (w.value != 0)

def Pulse.hear (p : Pulse) (w : ParamWrite) : Pulse :=
  if w.channel = .status then { p with length := p.length.gate w }
  else p.write w.param w.value

def Triangle.hear (t : Triangle) (w : ParamWrite) : Triangle :=
  if w.channel = .status then { t with length := t.length.gate w }
  else t.write w.param w.value

def Noise.hear (n : Noise) (w : ParamWrite) : Noise :=
  if w.channel = .status then { n with length := n.length.gate w }
  else n.write w.param w.value

def Sequencer.hear (s : Sequencer) (w : ParamWrite) : Sequencer :=
  if w.channel = .frameCounter ∧ w.param = .frameMode then s.select (w.value != 0) else s

namespace Apu

/-- A write acts on the voice it concerns or on the sequencer, and on nothing else. -/
theorem set_eq (a : Apu) (w : ParamWrite) :
    a.set w.channel w.param w.value =
      { a with
        pulse1 := if w.aims .pulse1 then a.pulse1.hear w else a.pulse1
        pulse2 := if w.aims .pulse2 then a.pulse2.hear w else a.pulse2
        triangle := if w.aims .triangle then a.triangle.hear w else a.triangle
        noise := if w.aims .noise then a.noise.hear w else a.noise
        sequencer := a.sequencer.hear w } := by
  obtain ⟨c, p, value, atom, offset⟩ := w
  cases c with
  | status => cases p <;> rfl
  | frameCounter => cases p <;> rfl
  | _ => rfl

/-- One part of the chip behind a run of writes, if `hear` is what a write makes of
it and only the writes in `aims` concern it. -/
theorem setAll_part {α : Type} (part : Apu → α) (hear : α → ParamWrite → α)
    (aims : ParamWrite → Bool)
    (hset : ∀ (a : Apu) (w : ParamWrite),
      part (a.set w.channel w.param w.value) = if aims w then hear (part a) w else part a)
    (writes : List ParamWrite) (a : Apu) :
    part (a.setAll writes) = (writes.filter aims).foldl hear (part a) := by
  induction writes generalizing a with
  | nil => rfl
  | cons w writes ih =>
    rw [setAll_cons, ih, hset]
    cases h : aims w with
    | false => rw [List.filter_cons_of_neg (by rw [h]; exact Bool.false_ne_true)]; rfl
    | true => rw [List.filter_cons_of_pos h, List.foldl_cons]; rfl

theorem pulse1_setAll (writes : List ParamWrite) (a : Apu) :
    (a.setAll writes).pulse1 = (writesOf .pulse1 writes).foldl Pulse.hear a.pulse1 :=
  setAll_part Apu.pulse1 Pulse.hear _ (fun a w => by rw [set_eq]) writes a

theorem pulse2_setAll (writes : List ParamWrite) (a : Apu) :
    (a.setAll writes).pulse2 = (writesOf .pulse2 writes).foldl Pulse.hear a.pulse2 :=
  setAll_part Apu.pulse2 Pulse.hear _ (fun a w => by rw [set_eq]) writes a

theorem triangle_setAll (writes : List ParamWrite) (a : Apu) :
    (a.setAll writes).triangle = (writesOf .triangle writes).foldl Triangle.hear a.triangle :=
  setAll_part Apu.triangle Triangle.hear _ (fun a w => by rw [set_eq]) writes a

theorem noise_setAll (writes : List ParamWrite) (a : Apu) :
    (a.setAll writes).noise = (writesOf .noise writes).foldl Noise.hear a.noise :=
  setAll_part Apu.noise Noise.hear _ (fun a w => by rw [set_eq]) writes a

theorem sequencer_setAll (writes : List ParamWrite) (a : Apu) :
    (a.setAll writes).sequencer = writes.foldl Sequencer.hear a.sequencer := by
  have hall := setAll_part Apu.sequencer Sequencer.hear (fun _ => true)
    (fun a w => by rw [set_eq, if_pos rfl]) writes a
  rwa [List.filter_eq_self.mpr fun _ _ => rfl] at hall

end Apu

end ApuScore

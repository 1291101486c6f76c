import ApuScore.Proofs.Layout
import ApuScore.Proofs.Timeline
import ApuScore.Log.Disassembly
/-
  What disassembly keeps of a register log.

  `changesOf` says which parameters a step sets, without atoms or offsets, and
  `map_change_disassembleFrom` that a disassembled log sets exactly those. A log
  disassembles if all its registers are owned (`disassembleFrom_isOk_iff`). Both
  depend only on the named bits of the written bytes: `namedSteps` drops all the
  others and changes neither.
-/

namespace ApuScore

variable {α β : Type}

/-- The step with another action in place of its own. -/
def Step.mapAct (f : α → β) : Step α → Step β
  | .wait n => .wait n
  | .act a => .act (f a)

def Event.mapAct (f : α → β) : Event α → Event β
  | .clock rate => .clock rate
  | .wait n => .wait n
  | .act a => .act (f a)

/-- What a write does, without its atom and its offset. -/
def ParamWrite.change (w : ParamWrite) : Change := ⟨w.channel, w.param, w.value⟩

/-- The operation with only the bits that its register's fields hold. A data block
and a write to a register without fields leave nothing. -/
def RegisterOp.named? : RegisterOp → Option RegisterOp
  | .data _ _ => none
  | .write register value =>
    if registerFields register = [] then none
    else some (.write register (value &&& fieldBits (registerFields register)))

/-- A step with only the named bits of its write. -/
def Step.named? : Step RegisterOp → Option (Step RegisterOp)
  | .wait n => some (.wait n)
  | .act op => op.named?.map .act

def Event.named? : Event RegisterOp → Option (Event RegisterOp)
  | .clock rate => some (.clock rate)
  | .wait n => some (.wait n)
  | .act op => op.named?.map .act

def namedSteps (steps : List (Step RegisterOp)) : List (Step RegisterOp) :=
  steps.filterMap Step.named?

def namedLog (log : RegisterLog) : RegisterLog := log.filterMap Event.named?

theorem namedLog_toEvents (t : Timeline RegisterOp) :
    namedLog t.toEvents = Timeline.toEvents ⟨t.clock, namedSteps t.steps⟩ := by
  have hsteps : (t.steps.map Step.toEvent).filterMap Event.named? =
      (namedSteps t.steps).map Step.toEvent := by
    rw [namedSteps, List.filterMap_map, List.map_filterMap]
    congr 1
    funext s
    cases s with
    | wait n => rfl
    | act op => simp only [Function.comp, Step.toEvent, Event.named?, Step.named?,
        Option.map_map]; rfl
  rw [namedLog, Timeline.toEvents, List.filterMap_cons, hsteps]; rfl

/-- The parameters that a step sets. -/
def changesOf : Step RegisterOp → List (Step Change)
  | .wait n => [.wait n]
  | .act (.data _ _) => []
  | .act (.write register value) =>
    match Channel.ofRegister? register with
    | none => []
    | some (c, _) =>
      (registerFields register).map fun f => .act ⟨c, f.param, f.extract value⟩

/-- A step that writes to no unowned register. -/
def Step.Known (s : Step RegisterOp) : Prop :=
  ∀ register value, s = .act (.write register value) →
    (Channel.ofRegister? register).isSome

theorem Step.known_wait (n : Nat) : (Step.wait n : Step RegisterOp).Known := by
  intro register value h
  cases h

/-! ## Disassembly step by step -/

theorem disassembleStep_isOk_iff {s : AtomState} {step : Step RegisterOp} :
    (∃ r, disassembleStep s step = .ok r) ↔ step.Known := by
  cases step with
  | wait n => exact ⟨fun _ => Step.known_wait n, fun _ => ⟨_, rfl⟩⟩
  | act op =>
    cases op with
    | data kind payload => exact ⟨fun _ register value h => (nomatch h), fun _ => ⟨_, rfl⟩⟩
    | write register value =>
      constructor
      · intro hex other byte h
        obtain ⟨r, hr⟩ := hex
        cases h
        cases hplace : Channel.ofRegister? register with
        | some place => rfl
        | none => simp only [disassembleStep, hplace, reduceCtorEq] at hr
      · intro hknown
        obtain ⟨place, hplace⟩ := Option.isSome_iff_exists.mp (hknown register value rfl)
        simp only [disassembleStep, hplace, Except.ok.injEq, exists_eq']

theorem map_change_disassembleStep {s s' : AtomState} {step : Step RegisterOp}
    {out : List (Step ParamWrite)} (h : disassembleStep s step = .ok (s', out)) :
    out.map (Step.mapAct ParamWrite.change) = changesOf step := by
  cases step with
  | wait n => cases h; rfl
  | act op =>
    cases op with
    | data kind payload => cases h; rfl
    | write register value =>
      cases hplace : Channel.ofRegister? register with
      | none => simp only [disassembleStep, hplace, reduceCtorEq] at h
      | some place =>
        obtain ⟨c, off⟩ := place
        simp only [disassembleStep, hplace, Except.ok.injEq, Prod.mk.injEq] at h
        obtain ⟨-, rfl⟩ := h
        simp only [splitByte, fieldsAt?_of_ofRegister? hplace, Option.getD_some, changesOf, hplace,
          List.map_map]
        rfl

/-- What was found before stands in front. -/
theorem disassembleFrom_found (s : AtomState) (found : List (List (Step ParamWrite)))
    (steps : List (Step RegisterOp)) :
    disassembleFrom s found steps =
      (disassembleFrom s [] steps).map (found.reverse.flatten ++ ·) := by
  induction steps generalizing s found with
  | nil => simp only [disassembleFrom, Except.map, List.reverse_nil, List.flatten_nil,
      List.append_nil]
  | cons step rest ih =>
    simp only [disassembleFrom]
    cases disassembleStep s step with
    | error e => rfl
    | ok r =>
      simp only
      rw [ih r.1 (r.2 :: found), ih r.1 [r.2]]
      cases disassembleFrom r.1 [] rest with
      | error e => rfl
      | ok tail =>
        simp only [Except.map, List.reverse_cons, List.reverse_nil, List.nil_append,
          List.flatten_append, List.flatten_cons, List.flatten_nil, List.append_nil,
          List.append_assoc]

theorem disassembleFrom_cons {s : AtomState} {step : Step RegisterOp}
    {rest : List (Step RegisterOp)} {out : List (Step ParamWrite)} :
    disassembleFrom s [] (step :: rest) = .ok out ↔
      ∃ s' front tail, disassembleStep s step = .ok (s', front) ∧
        disassembleFrom s' [] rest = .ok tail ∧ out = front ++ tail := by
  simp only [disassembleFrom]
  cases disassembleStep s step with
  | error e => simp only [reduceCtorEq, false_and, exists_false]
  | ok r =>
    simp only
    rw [disassembleFrom_found]
    cases htail : disassembleFrom r.1 [] rest with
    | error e =>
      constructor
      · intro h; cases h
      · intro h
        obtain ⟨s', front, tail, hstep, hrest, -⟩ := h
        cases hstep
        rw [htail] at hrest
        cases hrest
    | ok tail =>
      simp only [Except.map, List.reverse_singleton, List.flatten_cons, List.flatten_nil,
        List.append_nil, Except.ok.injEq]
      constructor
      · intro h
        exact ⟨r.1, r.2, tail, rfl, htail, h.symm⟩
      · intro h
        obtain ⟨s', front, tail', hstep, hrest, hout⟩ := h
        subst hstep
        rw [htail] at hrest
        cases hrest
        exact hout.symm

theorem map_change_disassembleFrom {s : AtomState} {steps : List (Step RegisterOp)}
    {out : List (Step ParamWrite)} (h : disassembleFrom s [] steps = .ok out) :
    out.map (Step.mapAct ParamWrite.change) = steps.flatMap changesOf := by
  induction steps generalizing s out with
  | nil => cases h; rfl
  | cons step rest ih =>
    obtain ⟨s', front, tail, hstep, hrest, rfl⟩ := disassembleFrom_cons.mp h
    rw [List.map_append, map_change_disassembleStep hstep, ih hrest, List.flatMap_cons]

theorem disassembleFrom_isOk_iff {s : AtomState} {steps : List (Step RegisterOp)} :
    (∃ out, disassembleFrom s [] steps = .ok out) ↔ ∀ step ∈ steps, step.Known := by
  induction steps generalizing s with
  | nil => exact ⟨fun _ step h => (nomatch h), fun _ => ⟨[], rfl⟩⟩
  | cons step rest ih =>
    rw [List.forall_mem_cons, ← disassembleStep_isOk_iff]
    constructor
    · intro h
      obtain ⟨out, h⟩ := h
      obtain ⟨s', front, tail, hstep, hrest, -⟩ := disassembleFrom_cons.mp h
      exact ⟨⟨_, hstep⟩, ih.mp ⟨tail, hrest⟩⟩
    · intro h
      obtain ⟨⟨⟨s', front⟩, hstep⟩, hrest⟩ := h
      obtain ⟨tail, htail⟩ := ih.mpr hrest
      exact ⟨front ++ tail, disassembleFrom_cons.mpr ⟨s', front, tail, hstep, htail, rfl⟩⟩

theorem disassemble_eq_ok {log : RegisterLog} {params : ParamLog} :
    disassemble log = .ok params ↔
      ∃ (t : Timeline RegisterOp) (steps : List (Step ParamWrite)), log = t.toEvents ∧
        disassembleFrom {} [] t.steps = .ok steps ∧
        params = Timeline.toEvents ⟨t.clock, steps⟩ := by
  constructor
  · intro h
    cases ht : Timeline.ofEvents log with
    | error e => simp only [disassemble, ht] at h; cases h
    | ok t =>
      simp only [disassemble, ht, bind, Except.bind] at h
      cases hsteps : disassembleFrom {} [] t.steps with
      | error e => rw [hsteps] at h; cases h
      | ok steps =>
        rw [hsteps] at h
        cases h
        exact ⟨t, steps, Timeline.eq_toEvents ht, hsteps, rfl⟩
  · intro h
    obtain ⟨t, steps, rfl, hsteps, rfl⟩ := h
    simp only [disassemble, Timeline.ofEvents_toEvents, bind, Except.bind, hsteps]
    rfl

/-! ## Only the named bits count -/

theorem Step.named?_write (register value : UInt8) :
    Step.named? (.act (.write register value)) =
      if registerFields register = [] then none
      else some (.act (.write register (value &&& fieldBits (registerFields register)))) := by
  simp only [Step.named?, RegisterOp.named?]
  split <;> rfl

theorem known_named {step named : Step RegisterOp} (h : step.named? = some named)
    (hknown : step.Known) : named.Known := by
  cases step with
  | wait n => cases h; exact hknown
  | act op =>
    cases op with
    | data kind payload => cases h
    | write register value =>
      rw [Step.named?_write] at h
      split at h
      · cases h
      · cases h
        intro other byte heq
        cases heq
        exact hknown register value rfl

theorem known_namedSteps {steps : List (Step RegisterOp)} (h : ∀ step ∈ steps, step.Known) :
    ∀ step ∈ namedSteps steps, step.Known := by
  intro named hmem
  obtain ⟨step, hstep, hnamed⟩ := List.mem_filterMap.mp hmem
  exact known_named hnamed (h step hstep)

theorem flatMap_changesOf_named (step : Step RegisterOp) :
    step.named?.toList.flatMap changesOf = changesOf step := by
  cases step with
  | wait n => rfl
  | act op =>
    cases op with
    | data kind payload => rfl
    | write register value =>
      rw [Step.named?_write]
      split
      · next hnil =>
        simp only [Option.toList_none, List.flatMap_nil, changesOf, hnil, List.map_nil]
        split <;> rfl
      · simp only [Option.toList_some, List.flatMap_cons, List.flatMap_nil, List.append_nil,
          changesOf]
        split
        · rfl
        · apply List.map_congr_left
          intro f hf
          rw [extract_and_fieldBits (registerFields_fit register) hf]

theorem flatMap_changesOf_namedSteps (steps : List (Step RegisterOp)) :
    (namedSteps steps).flatMap changesOf = steps.flatMap changesOf := by
  induction steps with
  | nil => rfl
  | cons step rest ih =>
    rw [List.flatMap_cons, ← ih, ← flatMap_changesOf_named step, namedSteps, List.filterMap_cons]
    cases step.named? with
    | none => rfl
    | some named => rw [Option.toList_some, List.flatMap_cons, List.flatMap_singleton]; rfl

end ApuScore

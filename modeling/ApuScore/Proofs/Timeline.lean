import ApuScore.Log.Event
/-
  Logs and timelines.

  A log is well formed when it is the log of a timeline, and then of one only:
  `ofEvents_eq_ok`. Events without a clock are steps (`exists_steps`). Samples add up
  over steps and over events alike.
-/

namespace ApuScore

/-- What is done in two parts succeeds when both parts do. -/
theorem bind_eq_ok {ε α β : Type} {x : Except ε α} {f : α → Except ε β} {b : β} :
    (x >>= f) = .ok b ↔ ∃ a, x = .ok a ∧ f a = .ok b := by
  cases x with
  | error e =>
    constructor
    · intro h; cases h
    · intro h
      obtain ⟨a, h, -⟩ := h
      cases h
  | ok a =>
    refine ⟨fun h => ⟨a, rfl, h⟩, ?_⟩
    intro h
    obtain ⟨_, h, hf⟩ := h
    cases h
    exact hf

theorem refuse_eq_ok {ε α : Type} {c : Prop} [Decidable c] {e : ε} {x : Except ε α} {a : α} :
    (if c then .error e else x) = .ok a ↔ ¬ c ∧ x = .ok a := by
  split
  · rename_i hc
    simp only [reduceCtorEq, hc, not_true_eq_false, false_and]
  · rename_i hc
    simp only [hc, not_false_eq_true, true_and]

theorem admit_eq_ok {ε α : Type} {c : Prop} [Decidable c] {e : ε} {x : Except ε α} {a : α} :
    (if c then x else .error e) = .ok a ↔ c ∧ x = .ok a := by
  split
  · rename_i hc
    simp only [hc, true_and]
  · rename_i hc
    simp only [reduceCtorEq, hc, false_and]

theorem toOption_eq_some {ε α : Type} {x : Except ε α} {a : α} :
    x.toOption = some a ↔ x = .ok a := by
  cases x with
  | error e => simp only [Except.toOption, reduceCtorEq]
  | ok b => simp only [Except.toOption, Option.some.injEq, Except.ok.injEq]

variable {α : Type}

def Event.isClock (e : Event α) : Bool := e.step?.isNone

def Event.samples : Event α → Nat
  | .wait n => n
  | _ => 0

def waitTotal (log : List (Event α)) : Nat :=
  log.foldr (fun e total => e.samples + total) 0

@[simp] theorem Step.step?_toEvent (s : Step α) : s.toEvent.step? = some s := by
  cases s <;> rfl

@[simp] theorem Step.samples_toEvent (s : Step α) : s.toEvent.samples = s.samples := by
  cases s <;> rfl

@[simp] theorem totalSamples_nil : totalSamples ([] : List (Step α)) = 0 := rfl

@[simp] theorem totalSamples_cons (s : Step α) (rest : List (Step α)) :
    totalSamples (s :: rest) = s.samples + totalSamples rest := rfl

@[simp] theorem totalSamples_append (front rest : List (Step α)) :
    totalSamples (front ++ rest) = totalSamples front + totalSamples rest := by
  induction front with
  | nil => rw [List.nil_append, totalSamples_nil, Nat.zero_add]
  | cons s front ih => rw [List.cons_append, totalSamples_cons, ih, totalSamples_cons,
      Nat.add_assoc]

@[simp] theorem waitTotal_nil : waitTotal ([] : List (Event α)) = 0 := rfl

@[simp] theorem waitTotal_cons (e : Event α) (rest : List (Event α)) :
    waitTotal (e :: rest) = e.samples + waitTotal rest := rfl

theorem waitTotal_steps (steps : List (Step α)) :
    waitTotal (steps.map Step.toEvent) = totalSamples steps := by
  induction steps with
  | nil => rfl
  | cons s rest ih =>
    rw [List.map_cons, waitTotal_cons, ih, Step.samples_toEvent, totalSamples_cons]

theorem Timeline.waitTotal_toEvents (t : Timeline α) :
    waitTotal t.toEvents = totalSamples t.steps := by
  show 0 + waitTotal (t.steps.map Step.toEvent) = _
  rw [Nat.zero_add, waitTotal_steps]

theorem Event.toEvent_of_step? {e : Event α} {s : Step α} (h : e.step? = some s) :
    s.toEvent = e := by
  cases e <;> simp only [Event.step?, Option.some.injEq, reduceCtorEq] at h <;> subst h <;> rfl

theorem exists_steps {log : List (Event α)} (h : ∀ e ∈ log, e.isClock = false) :
    ∃ steps : List (Step α), log = steps.map Step.toEvent := by
  induction log with
  | nil => exact ⟨[], rfl⟩
  | cons e rest ih =>
    obtain ⟨steps, rfl⟩ := ih fun x hx => h x (List.mem_cons_of_mem e hx)
    have he := h e List.mem_cons_self
    cases hs : e.step? with
    | none => rw [Event.isClock, hs] at he; cases he
    | some s => exact ⟨s :: steps, by rw [List.map_cons, Event.toEvent_of_step? hs]⟩

theorem filterMap_step? (steps : List (Step α)) :
    (steps.map Step.toEvent).filterMap Event.step? = steps := by
  induction steps with
  | nil => rfl
  | cons s rest ih => simp only [List.map_cons, List.filterMap_cons, Step.step?_toEvent, ih]

theorem isClock_toEvent (steps : List (Step α)) :
    ∀ e ∈ steps.map Step.toEvent, e.isClock = false := by
  intro e he
  obtain ⟨s, _, rfl⟩ := List.mem_map.mp he
  rw [Event.isClock, Step.step?_toEvent]; rfl

namespace Timeline

@[simp] theorem ofEvents_toEvents (t : Timeline α) : ofEvents t.toEvents = .ok t := by
  have hnone : (t.steps.map Step.toEvent).findIdx? (fun e => e.step?.isNone) = none :=
    List.findIdx?_eq_none_iff.mpr (isClock_toEvent t.steps)
  simp only [toEvents, ofEvents, hnone, filterMap_step?]

theorem eq_toEvents {log : List (Event α)} {t : Timeline α} (h : ofEvents log = .ok t) :
    log = t.toEvents := by
  cases log with
  | nil => cases h
  | cons e rest =>
    cases e with
    | wait n => cases h
    | act a => cases h
    | clock rate =>
      cases hfind : rest.findIdx? (fun e => e.step?.isNone) with
      | some i => simp only [ofEvents, hfind, reduceCtorEq] at h
      | none =>
        obtain ⟨steps, rfl⟩ := exists_steps (List.findIdx?_eq_none_iff.mp hfind)
        simp only [ofEvents, hfind, filterMap_step?, Except.ok.injEq] at h
        subst h; rfl

theorem toEvents_inj {t other : Timeline α} : t.toEvents = other.toEvents ↔ t = other := by
  refine ⟨fun h => ?_, fun h => by rw [h]⟩
  have hread := ofEvents_toEvents t
  rw [h, ofEvents_toEvents] at hread
  exact (Except.ok.inj hread).symm

theorem ofEvents_eq_ok {log : List (Event α)} {t : Timeline α} :
    ofEvents log = .ok t ↔ log = t.toEvents :=
  ⟨eq_toEvents, fun h => by rw [h, ofEvents_toEvents]⟩

end Timeline

end ApuScore

import ApuScore.Proofs.Runs
/-
  Replay by dates.

  The date of an action is the number of samples that a log waits before it. This file

  1. lists the actions of a log with their dates (`dated`) and those made by a sample
     (`actedBy`);
  2. shows that the samples up to one take exactly the writes that are dated so
     (`flatten_take_batches`), so the dates and the length fix what every sample takes
     (`changes_batches`);
  3. concludes that a replay depends on nothing else: logs with the same clock, the same
     changes at the same dates and the same length give the same score or the same fault
     (`replay_eq_of_dated`).
-/

namespace ApuScore

variable {α β : Type}

/-! ## Dates -/

/-- The actions of a log, each with the samples waited before it, counted from `start`. -/
def dated (start : Nat) : List (Event α) → List (Nat × α)
  | [] => []
  | .clock _ :: rest => dated start rest
  | .wait n :: rest => dated (start + n) rest
  | .act a :: rest => (start, a) :: dated start rest

/-- The actions made at a sample or before it. -/
def actedBy (sample : Nat) (log : List (Event α)) : List α :=
  ((dated 0 log).filter fun d => d.1 ≤ sample).map Prod.snd

/-- What a log changes, each change with the samples waited before it. -/
def datedChanges (log : ParamLog) : List (Nat × Change) :=
  (dated 0 log).map fun d => (d.1, d.2.change)

theorem le_dated (start : Nat) (log : List (Event α)) : ∀ d ∈ dated start log, start ≤ d.1 := by
  induction log generalizing start with
  | nil => exact fun _ h => nomatch h
  | cons e rest ih =>
    cases e with
    | clock rate => exact ih start
    | wait n => exact fun d hd => Nat.le_trans (Nat.le_add_right start n) (ih _ d hd)
    | act a => exact List.forall_mem_cons.mpr ⟨Nat.le_refl start, ih start⟩

theorem map_snd_dated (start : Nat) (steps : List (Step ParamWrite)) :
    (dated start (steps.map Step.toEvent)).map Prod.snd = writesIn steps := by
  induction steps generalizing start with
  | nil => rfl
  | cons step rest ih =>
    cases step with
    | wait n => exact ih (start + n)
    | act w => exact congrArg (w :: ·) (ih start)

/-- Up to any sample, the samples take the writes that are dated up to it. -/
theorem flatten_take_batches (pending : List ParamWrite) (steps : List (Step ParamWrite))
    (start : Nat) {i : Nat} (h : i < totalSamples steps) :
    ((batches pending steps).take (i + 1)).flatten =
      pending ++ ((dated start (steps.map Step.toEvent)).filter
        fun d => d.1 ≤ start + i).map Prod.snd := by
  induction pending, steps using batches.induct generalizing start i with
  | case1 pending => exact absurd h (Nat.not_lt_zero i)
  | case2 pending w rest ih =>
    have hrest := ih start (i := i) (by simpa [Step.samples] using h)
    rw [batches, hrest, List.append_assoc]
    simp [Step.toEvent, dated]
  | case3 pending rest ih => exact ih start (by simpa [Step.samples] using h)
  | case4 pending n rest ih =>
    rw [totalSamples_cons, Step.samples] at h
    rw [batches, List.take_succ_cons, List.flatten_cons, List.take_append, List.flatten_append,
      List.take_replicate, List.flatten_replicate_nil, List.nil_append, List.length_replicate]
    show _ = pending ++ ((dated (start + (n + 1)) (rest.map Step.toEvent)).filter _).map Prod.snd
    congr 1
    by_cases hlate : i ≤ n
    · -- what follows the wait is dated later
      have hnone : (dated (start + (n + 1)) (rest.map Step.toEvent)).filter
          (fun d => d.1 ≤ start + i) = [] := by
        rw [List.filter_eq_nil_iff]
        intro d hd
        have hle := le_dated _ _ d hd
        rw [decide_eq_true_iff]
        omega
      rw [hnone, Nat.sub_eq_zero_of_le hlate]
      rfl
    · obtain ⟨j, rfl⟩ : ∃ j, i = n + 1 + j := ⟨i - (n + 1), by omega⟩
      have hrest := ih (start + (n + 1)) (i := j) (by omega)
      rw [Nat.add_assoc start (n + 1) j] at hrest
      rw [show n + 1 + j - n = j + 1 by omega, hrest, List.nil_append]

theorem ext_flatten_take {l k : List (List α)} (hlength : l.length = k.length)
    (h : ∀ i < l.length, (l.take (i + 1)).flatten = (k.take (i + 1)).flatten) : l = k := by
  refine List.ext_getElem hlength fun i hl hk => ?_
  have hfront : (l.take i).flatten = (k.take i).flatten := by
    cases i with
    | zero => rw [List.take_zero, List.take_zero]
    | succ j => exact h j (by omega)
  have hnext := h i hl
  rw [List.take_succ_eq_append_getElem hl, List.take_succ_eq_append_getElem hk,
    List.flatten_append, List.flatten_append, hfront] at hnext
  simpa using hnext

/-! ## What a replay depends on -/

section

variable {steps other : List (Step ParamWrite)}
  (hdates : datedChanges (steps.map Step.toEvent) = datedChanges (other.map Step.toEvent))
include hdates

theorem changes_batches (htotal : totalSamples steps = totalSamples other) :
    (batches [] steps).map (List.map ParamWrite.change) =
      (batches [] other).map (List.map ParamWrite.change) := by
  have hby : ∀ log : ParamLog, ∀ i,
      (((dated 0 log).filter fun d => d.1 ≤ 0 + i).map Prod.snd).map ParamWrite.change =
        ((datedChanges log).filter fun d => d.1 ≤ i).map Prod.snd := by
    intro log i
    rw [datedChanges, List.filter_map, List.map_map, List.map_map, Nat.zero_add]
    rfl
  apply ext_flatten_take
  · rw [List.length_map, List.length_map, length_batches, length_batches, htotal]
  · intro i hi
    rw [List.length_map, length_batches] at hi
    rw [← List.map_take, ← List.map_take, ← List.map_flatten, ← List.map_flatten,
      flatten_take_batches [] steps 0 hi, flatten_take_batches [] other 0 (htotal ▸ hi),
      List.nil_append, List.nil_append, hby, hby, hdates]

theorem firstFault?_congr : firstFault? (writesIn steps) = firstFault? (writesIn other) := by
  have hfault : ∀ steps : List (Step ParamWrite), firstFault? (writesIn steps) =
      (datedChanges (steps.map Step.toEvent)).findSome?
        fun d => d.2.channel.fault? d.2.param d.2.value := by
    intro steps
    rw [datedChanges, List.findSome?_map, ← map_snd_dated 0, firstFault?, List.findSome?_map]
    rfl
  rw [hfault, hfault, hdates]

end

theorem played_changes {runs other : List (List ParamWrite)}
    (h : runs.map (List.map ParamWrite.change) = other.map (List.map ParamWrite.change))
    (a : Apu) : played a runs = played a other := by
  have hbare : ∀ runs : List (List ParamWrite), runs.map (List.map ParamWrite.bare) =
      (runs.map (List.map ParamWrite.change)).map (List.map Change.bare) := by
    intro runs
    simp [ParamWrite.bare, Function.comp_def]
  rw [← played_bare a runs, ← played_bare a other, hbare, hbare, h]

/-! ## Clocks -/

def Event.clock? : Event α → Option Clock
  | .clock rate => some rate
  | _ => none

def clockAt? (log : List (Event α)) (i : Nat) : Option Clock := log[i]?.bind Event.clock?

theorem isNone_step? (e : Event α) : e.step?.isNone = e.clock?.isSome := by
  cases e <;> rfl

theorem clockAt?_toEvents (t : Timeline α) (i : Nat) :
    clockAt? t.toEvents i = if i = 0 then some t.clock else none := by
  cases i with
  | zero => rfl
  | succ i =>
    show (t.steps.map Step.toEvent)[i]?.bind Event.clock? = none
    rw [List.getElem?_map]
    cases hs : t.steps[i]? with
    | none => rfl
    | some s => cases s <;> rfl

theorem findIdx?_clock_eq_none {log : List (Event α)} (h : ∀ i, clockAt? log i = none) :
    log.findIdx? (fun e => e.step?.isNone) = none := by
  rw [List.findIdx?_eq_none_iff]
  intro e he
  obtain ⟨i, hi⟩ := List.mem_iff_getElem?.mp he
  have hclock := h i
  rw [clockAt?, hi, Option.bind_some] at hclock
  rw [isNone_step?, hclock]
  rfl

theorem findIdx?_clock {log other : List (Event α)} (h : clockAt? log = clockAt? other) :
    log.findIdx? (fun e => e.step?.isNone) = other.findIdx? (fun e => e.step?.isNone) := by
  induction log generalizing other with
  | nil => rw [findIdx?_clock_eq_none fun i => (congrFun h i).symm]; rfl
  | cons e rest ih =>
    cases other with
    | nil => rw [findIdx?_clock_eq_none fun i => congrFun h i]; rfl
    | cons x rest' =>
      have hfirst : e.clock? = x.clock? := congrFun h 0
      have hrest : clockAt? rest = clockAt? rest' := funext fun i => congrFun h (i + 1)
      rw [List.findIdx?_cons, List.findIdx?_cons, ih hrest, isNone_step?, isNone_step?, hfirst]

theorem ofEvents_of_clockAt?_none {log : List (Event α)} (h : clockAt? log 0 = none) :
    Timeline.ofEvents log = .error .missingClock := by
  cases log with
  | nil => rfl
  | cons e rest =>
    cases e with
    | clock rate => cases h
    | wait n => rfl
    | act a => rfl

theorem exists_of_clockAt?_some {log : List (Event α)} {rate : Clock}
    (h : clockAt? log 0 = some rate) : ∃ rest, log = .clock rate :: rest := by
  cases log with
  | nil => cases h
  | cons e rest =>
    cases e with
    | clock r => exact ⟨rest, by rw [Option.some.inj h]⟩
    | wait n => cases h
    | act a => cases h

theorem eq_toEvents_of_findIdx? (rate : Clock) {rest : List (Event α)}
    (h : rest.findIdx? (fun e => e.step?.isNone) = none) :
    .clock rate :: rest = Timeline.toEvents ⟨rate, rest.filterMap Event.step?⟩ := by
  rw [← Timeline.ofEvents_eq_ok, Timeline.ofEvents, h]

/-- Logs that set the same clocks at the same positions are refused for the same reason, or
they are logs of timelines under one clock. -/
theorem ofEvents_clocks {log other : List (Event α)} (h : clockAt? log = clockAt? other) :
    (∃ e, Timeline.ofEvents log = .error e ∧ Timeline.ofEvents other = .error e) ∨
      ∃ t u : Timeline α, log = t.toEvents ∧ other = u.toEvents ∧ t.clock = u.clock := by
  cases hfirst : clockAt? log 0 with
  | none =>
    exact .inl ⟨_, ofEvents_of_clockAt?_none hfirst,
      ofEvents_of_clockAt?_none (congrFun h 0 ▸ hfirst)⟩
  | some rate =>
    obtain ⟨rest, rfl⟩ := exists_of_clockAt?_some hfirst
    obtain ⟨rest', rfl⟩ := exists_of_clockAt?_some (congrFun h 0 ▸ hfirst)
    have hbehind : clockAt? rest = clockAt? rest' := funext fun i => congrFun h (i + 1)
    have hlater := findIdx?_clock hbehind
    cases hfind : rest.findIdx? (fun e => e.step?.isNone) with
    | some i =>
      refine .inl ⟨.misplacedClock (i + 1), ?_, ?_⟩
      · rw [Timeline.ofEvents, hfind]
      · rw [Timeline.ofEvents, ← hlater, hfind]
    | none =>
      exact .inr ⟨_, _, eq_toEvents_of_findIdx? rate hfind,
        eq_toEvents_of_findIdx? rate (hlater ▸ hfind), rfl⟩

/-! ## Replay -/

/-- Logs that set the same clock, make the same changes after the same number of samples and
wait as long in all are replayed to the same score or refused for the same reason: it does
not matter how their waits are split and which atoms and offsets their writes carry. -/
theorem replay_eq_of_dated {log other : ParamLog} (hclock : clockAt? log = clockAt? other)
    (hdates : datedChanges log = datedChanges other) (htotal : waitTotal log = waitTotal other) :
    replay log = replay other := by
  rcases ofEvents_clocks hclock with ⟨e, hlog, hother⟩ | ⟨t, u, rfl, rfl, hclocks⟩
  · rw [replay, replay, hlog, hother]
  · rw [t.waitTotal_toEvents, u.waitTotal_toEvents] at htotal
    have hfault : firstFault? (writesIn t.steps) = firstFault? (writesIn u.steps) :=
      firstFault?_congr hdates
    have hbatches : (batches [] t.steps).map (List.map ParamWrite.change) =
        (batches [] u.steps).map (List.map ParamWrite.change) := changes_batches hdates htotal
    rw [replay_toEvents, replay_toEvents, hclocks, hfault, htotal, played_changes hbatches]

/-- A note with its first wait in one piece, and with its waits in pieces and zero waits
between them. -/
theorem replay_eq_of_dated_split :
    replay [.clock .pal, .act ⟨.noise, .volume, 5, 0, 0⟩, .wait 3,
        .act ⟨.noise, .constantVolume, 1, 0, 0⟩, .act ⟨.noise, .lengthLoad, 1, 1, 3⟩, .wait 2,
        .act ⟨.noise, .noisePeriod, 9, 0, 2⟩] =
      replay [.clock .pal, .wait 0, .act ⟨.noise, .volume, 5, 4, 1⟩, .wait 1, .wait 0, .wait 2,
        .act ⟨.noise, .constantVolume, 1, 0, 0⟩, .wait 0, .act ⟨.noise, .lengthLoad, 1, 0, 7⟩,
        .wait 1, .wait 1, .act ⟨.noise, .noisePeriod, 9, 2, 2⟩, .wait 0] := by
  have hclock : ∀ steps : List (Step ParamWrite), clockAt? (Timeline.toEvents ⟨.pal, steps⟩) =
      fun i => if i = 0 then some .pal else none :=
    fun steps => funext fun i => clockAt?_toEvents _ i
  exact replay_eq_of_dated
    ((hclock [.act _, .wait 3, .act _, .act _, .wait 2, .act _]).trans
      (hclock [.wait 0, .act _, .wait 1, .wait 0, .wait 2, .act _, .wait 0, .act _, .wait 1,
        .wait 1, .act _, .wait 0]).symm)
    (by decide) (by decide)

end ApuScore

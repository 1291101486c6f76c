import ApuScore.Proofs.Pruning
/-
  Pruning a second time.

  Pruning remembers the last value of every parameter, those of the writes that it leaves out
  among them. A second pass hears only the kept writes. This file

  1. shows that the two passes remember the same values where it matters, since a write that
     is left out repeats a value or is never kept (`Values.Agree.skip`), and so take the same
     decisions (`Values.Agree.kept_eq`, `keptSteps_keptSteps`);
  2. shows that pruning does not look at atoms and offsets (`map_change_keptSteps_regrouped`);
  3. concludes that a log that was pruned and regrouped has nothing left to prune
     (`prune_regroup_prune`).
-/

namespace ApuScore

/-! ## Two passes -/

/-- The values are the same for every parameter that pruning does not ignore. -/
def Values.Agree (s s' : Values) : Prop :=
  ∀ c p, ignored c p = false → s'.get c p = s.get c p

theorem ignored_sweepEnable (c : Channel) : ignored c .sweepEnable = false := by
  cases c <;> rfl

namespace Values.Agree

theorem refl (s : Values) : s.Agree s := fun _ _ _ => rfl

variable {s s' : Values} (h : s.Agree s')
include h

theorem kept_eq (w : ParamWrite) : kept s' w = kept s w := by
  unfold kept sweeping
  cases hignored : ignored w.channel w.param with
  | true => rw [Bool.not_true, Bool.and_false, Bool.and_false]
  | false => rw [h _ _ hignored, h _ _ (ignored_sweepEnable w.channel)]

theorem behind (w : ParamWrite) : (s.behind w).Agree (s'.behind w) := by
  intro c p hignored
  rw [Values.behind, Values.behind, get_set, get_set, h c p hignored]

theorem skip {w : ParamWrite} (hkept : kept s w = false) : (s.behind w).Agree s' := by
  intro c p hignored
  rw [Values.behind, get_set, h c p hignored]
  split
  · rename_i hsets
    obtain ⟨rfl, rfl⟩ := hsets
    rcases not_kept hkept with ⟨hsame, -⟩ | hnever
    · exact hsame
    · rw [hnever] at hignored
      cases hignored
  · rfl

end Values.Agree

/-- A second pass keeps every step that the first one kept. -/
theorem keptSteps_keptSteps {s s' : Values} (h : s.Agree s') (steps : List (Step ParamWrite)) :
    keptSteps s' (keptSteps s steps) = keptSteps s steps := by
  induction steps generalizing s s' with
  | nil => rfl
  | cons step rest ih =>
    cases step with
    | wait n => rw [keptSteps, keptSteps, ih h]
    | act w =>
      rw [keptSteps]
      cases hkept : kept s w with
      | true =>
        show keptSteps s' (.act w :: keptSteps (s.behind w) rest) = _
        rw [keptSteps, h.kept_eq, hkept, ih (h.behind w)]
      | false => exact ih (h.skip hkept)

/-! ## Atoms and offsets -/

theorem map_change_keptSteps_regrouped (s : Values) (g : Grouping)
    (steps : List (Step ParamWrite)) :
    (keptSteps s (regrouped g steps)).map (Step.mapAct ParamWrite.change) =
      (keptSteps s steps).map (Step.mapAct ParamWrite.change) := by
  induction steps generalizing s g with
  | nil => rfl
  | cons step rest ih =>
    cases step with
    | wait n => rw [regrouped, keptSteps, keptSteps, List.map_cons, List.map_cons, ih]
    | act w =>
      have hmoved : ∀ atom offset,
          kept s ⟨w.channel, w.param, w.value, atom, offset⟩ = kept s w ∧
            s.behind ⟨w.channel, w.param, w.value, atom, offset⟩ = s.behind w :=
        fun _ _ => ⟨rfl, rfl⟩
      rw [regrouped, keptSteps, keptSteps, List.map_append, List.map_append, (hmoved _ _).1,
        (hmoved _ _).2, ih]
      cases kept s w <;> rfl

/-! ## Logs -/

/-- A log whose channels have the parameters that it writes, whatever the values, is pruned to
changes that can be regrouped; and the log that comes back has nothing left to prune. -/
theorem prune_regroup_prune {log : ParamLog} {changes : ChangeLog} (h : prune log = .ok changes)
    (hknown : ∀ w, .act w ∈ log → ∃ offset, w.channel.offset? w.param = some offset) :
    ∃ params, regroup changes = .ok params ∧ prune params = .ok changes := by
  obtain ⟨t, ht, -⟩ := bind_eq_ok.mp h
  obtain rfl := Timeline.ofEvents_eq_ok.mp ht
  rw [prune_toEvents] at h
  cases h
  have hkept : ∀ w ∈ writesIn (keptSteps Values.initial t.steps),
      ∃ offset, w.channel.offset? w.param = some offset := by
    intro w hw
    have hstep := mem_writesIn.mp (writesIn_keptSteps _ _ w hw)
    exact hknown w (List.mem_cons_of_mem _ (List.mem_map_of_mem hstep))
  refine ⟨_, regroup_changes t.clock hkept, ?_⟩
  rw [prune_toEvents, map_change_keptSteps_regrouped, keptSteps_keptSteps (.refl _)]

/-- Values that do not fit, atoms and offsets that mean nothing, an enable and an inhibit that
are never kept, and low period bytes that repeat under a sweep and without one. -/
theorem prune_regroup_prune_sweeping :
    let log : ParamLog := [.clock .pal, .act ⟨.pulse2, .sweepEnable, 1, 9, 7⟩,
      .act ⟨.pulse2, .timerLow, 0, 3, 0⟩, .wait 0, .act ⟨.pulse2, .timerLow, 0, 3, 0⟩,
      .act ⟨.status, .enableDmc, 0, 0, 0⟩, .act ⟨.status, .enableNoise, 1, 0, 0⟩,
      .act ⟨.noise, .volume, 200, 1, 0⟩, .act ⟨.noise, .volume, 200, 0, 0⟩, .wait 5,
      .act ⟨.pulse2, .sweepEnable, 2, 0, 1⟩, .act ⟨.pulse2, .timerLow, 0, 0, 2⟩,
      .act ⟨.frameCounter, .frameIrqInhibit, 1, 0, 0⟩]
    let changes : ChangeLog := [.clock .pal, .act ⟨.pulse2, .sweepEnable, 1⟩,
      .act ⟨.pulse2, .timerLow, 0⟩, .wait 0, .act ⟨.pulse2, .timerLow, 0⟩,
      .act ⟨.status, .enableNoise, 1⟩, .act ⟨.noise, .volume, 200⟩, .wait 5,
      .act ⟨.pulse2, .sweepEnable, 2⟩]
    prune log = .ok changes ∧
      ∃ params, regroup changes = .ok params ∧ prune params = .ok changes := by
  intro log changes
  have hprune : prune log = .ok changes := rfl
  refine ⟨hprune, prune_regroup_prune hprune ?_⟩
  intro w hw
  simp only [log, List.mem_cons, List.not_mem_nil, Event.act.injEq, reduceCtorEq, false_or,
    or_false] at hw
  rcases hw with rfl | rfl | rfl | rfl | rfl | rfl | rfl | rfl | rfl | rfl <;> exact ⟨_, rfl⟩

end ApuScore

import ApuScore.Log.Pruning
import ApuScore.Log.Regrouping
import ApuScore.Proofs.Runs
/-
  What pruning and regrouping keep of a parameter log.

  `keptSteps` are the steps that pruning keeps, with their atoms and offsets still on.
  Pruning takes those away and regrouping finds others (`regrouped`), which no replay
  looks at; so a log that was pruned and regrouped is replayed as its kept steps
  (`replay_regroup_prune_eq`).
-/

namespace ApuScore

/-! ## Remembered values -/

namespace Values

theorem lookup_update (key other : Channel × Param) (value : UInt8)
    (entries : List ((Channel × Param) × UInt8)) :
    lookup other (update key value entries) =
      if other = key then some value else lookup other entries := by
  induction entries with
  | nil => simp only [update, lookup, @eq_comm _ key]
  | cons e rest ih =>
    obtain ⟨k, v⟩ := e
    by_cases hk : k = key
    · subst hk
      simp only [update, if_true, lookup, @eq_comm _ k]
      split <;> rfl
    · rw [update, if_neg hk, lookup, lookup, ih]
      by_cases ho : k = other
      · subst ho
        rw [if_pos rfl, if_neg hk, if_pos rfl]
      · rw [if_neg ho, if_neg ho]

theorem get_set (s : Values) (c other : Channel) (param p : Param) (value : UInt8) :
    (s.set c param value).get other p = if c = other ∧ p = param then value else s.get other p := by
  simp only [get, set, lookup_update, Prod.mk.injEq, @eq_comm _ c other]
  split <;> rfl

end Values

/-! ## Kept steps -/

theorem ignored_eq_true {c : Channel} {p : Param} (h : ignored c p = true) :
    c = .status ∧ p = .enableDmc ∨ c = .frameCounter ∧ p = .frameIrqInhibit := by
  unfold ignored at h
  split at h
  · exact .inl ⟨rfl, rfl⟩
  · exact .inr ⟨rfl, rfl⟩
  · cases h

/-- A write that is left out repeats the last value of a parameter that does not act, or
is never kept. -/
theorem not_kept {s : Values} {w : ParamWrite} (h : kept s w = false) :
    s.get w.channel w.param = w.value ∧ acting w.channel w.param = false ∨
      ignored w.channel w.param = true := by
  rw [kept, Bool.and_eq_false_iff, Bool.or_eq_false_iff, Bool.or_eq_false_iff,
    Bool.not_eq_false'] at h
  rcases h with ⟨⟨hsame, hacting⟩, -⟩ | hignored
  · exact .inl ⟨bne_eq_false_iff_eq.mp hsame, hacting⟩
  · exact .inr hignored

def Values.behind (s : Values) (w : ParamWrite) : Values := s.set w.channel w.param w.value

/-- The steps that pruning keeps, as they stand in the log. -/
def keptSteps (s : Values) : List (Step ParamWrite) → List (Step ParamWrite)
  | [] => []
  | .wait n :: rest => .wait n :: keptSteps s rest
  | .act w :: rest =>
    (if kept s w then [.act w] else []) ++ keptSteps (s.behind w) rest

theorem pruneFrom_eq (s : Values) (found : List (Step Change)) (steps : List (Step ParamWrite)) :
    pruneFrom s found steps =
      found.reverse ++ (keptSteps s steps).map (Step.mapAct ParamWrite.change) := by
  induction steps generalizing s found with
  | nil => simp [pruneFrom, keptSteps]
  | cons step rest ih =>
    cases step with
    | wait n => simp [pruneFrom, keptSteps, ih, Step.mapAct]
    | act w =>
      rw [pruneFrom, keptSteps]
      split
      · simp [ih, Values.behind, Step.mapAct, ParamWrite.change]
      · simp [ih, Values.behind]

theorem totalSamples_keptSteps (s : Values) (steps : List (Step ParamWrite)) :
    totalSamples (keptSteps s steps) = totalSamples steps := by
  induction steps generalizing s with
  | nil => rfl
  | cons step rest ih =>
    cases step with
    | wait n => rw [keptSteps, totalSamples_cons, totalSamples_cons, ih]
    | act w =>
      rw [keptSteps, totalSamples_append, ih, totalSamples_cons]
      split <;> simp [Step.samples]

theorem writesIn_keptSteps (s : Values) (steps : List (Step ParamWrite)) :
    ∀ w ∈ writesIn (keptSteps s steps), w ∈ writesIn steps := by
  induction steps generalizing s with
  | nil => exact fun _ h => h
  | cons step rest ih =>
    cases step with
    | wait n => exact ih s
    | act w =>
      intro x hx
      rw [keptSteps, writesIn_append, List.mem_append] at hx
      rcases hx with hx | hx
      · split at hx
        · rw [show x = w from List.mem_singleton.mp hx]
          exact List.mem_cons_self
        · cases hx
      · exact List.mem_cons_of_mem w (ih _ x hx)

/-! ## Regrouping -/

/-- The steps with the offsets of the layout and with atoms of their own, when `g` is
being filled. -/
def regrouped (g : Grouping) : List (Step ParamWrite) → List (Step ParamWrite)
  | [] => []
  | .wait n :: rest => .wait n :: regrouped {} rest
  | .act w :: rest =>
    let offset := (w.channel.offset? w.param).getD 0
    let next := g.add (w.channel, offset) w.param
    .act ⟨w.channel, w.param, w.value, next.atom, offset⟩ :: regrouped next rest

theorem regroupFrom_eq {steps : List (Step ParamWrite)} (g : Grouping)
    (found : List (Step ParamWrite))
    (h : ∀ w ∈ writesIn steps, ∃ offset, w.channel.offset? w.param = some offset) :
    regroupFrom g found (steps.map (Step.mapAct ParamWrite.change)) =
      .ok (found.reverse ++ regrouped g steps) := by
  induction steps generalizing g found with
  | nil => simp [regroupFrom, regrouped]
  | cons step rest ih =>
    cases step with
    | wait n => simp [regroupFrom, regrouped, Step.mapAct, ih {} _ h]
    | act w =>
      obtain ⟨⟨offset, hoffset⟩, hrest⟩ := List.forall_mem_cons.mp
        (show ∀ x ∈ w :: writesIn rest, ∃ offset, x.channel.offset? x.param = some offset from h)
      simp [regroupFrom, regrouped, Step.mapAct, ParamWrite.change, hoffset, ih _ _ hrest]

theorem map_change_regrouped (g : Grouping) (steps : List (Step ParamWrite)) :
    (regrouped g steps).map (Step.mapAct ParamWrite.change) =
      steps.map (Step.mapAct ParamWrite.change) := by
  induction steps generalizing g with
  | nil => rfl
  | cons step rest ih =>
    cases step with
    | wait n => simp [regrouped, Step.mapAct, ih]
    | act w => simp [regrouped, Step.mapAct, ParamWrite.change, ih]

theorem totalSamples_regrouped (g : Grouping) (steps : List (Step ParamWrite)) :
    totalSamples (regrouped g steps) = totalSamples steps := by
  rw [← totalSamples_mapAct ParamWrite.change, map_change_regrouped, totalSamples_mapAct]

theorem placed_regrouped {steps : List (Step ParamWrite)} (g : Grouping)
    (h : ∀ w ∈ writesIn steps, w.taken = true) :
    ∀ w ∈ writesIn (regrouped g steps), w.Placed ∧ w.taken = true := by
  induction steps generalizing g with
  | nil => exact fun _ hw => nomatch hw
  | cons step rest ih =>
    cases step with
    | wait n => exact ih {} h
    | act w =>
      obtain ⟨htaken, hrest⟩ := List.forall_mem_cons.mp
        (show ∀ x ∈ w :: writesIn rest, x.taken = true from h)
      obtain ⟨offset, hoffset⟩ := exists_offset htaken
      refine List.forall_mem_cons.mpr ⟨⟨?_, htaken⟩, ih _ hrest⟩
      simp [ParamWrite.Placed, hoffset]

theorem exists_write {steps other : List (Step ParamWrite)}
    (h : other.map (Step.mapAct ParamWrite.change) = steps.map (Step.mapAct ParamWrite.change)) :
    ∀ w ∈ writesIn other, ∃ x ∈ writesIn steps, x.change = w.change := by
  intro w hw
  have hmem : Step.act w.change ∈ other.map (Step.mapAct ParamWrite.change) :=
    List.mem_map.mpr ⟨.act w, mem_writesIn.mp hw, rfl⟩
  rw [h] at hmem
  obtain ⟨s, hs, hchange⟩ := List.mem_map.mp hmem
  cases s with
  | wait n => cases hchange
  | act x => exact ⟨x, mem_writesIn.mpr hs, Step.act.inj hchange⟩

theorem taken_congr {steps other : List (Step ParamWrite)}
    (h : other.map (Step.mapAct ParamWrite.change) = steps.map (Step.mapAct ParamWrite.change))
    (htaken : ∀ w ∈ writesIn steps, w.taken = true) : ∀ w ∈ writesIn other, w.taken = true := by
  intro w hw
  obtain ⟨x, hx, hchange⟩ := exists_write h w hw
  obtain ⟨hchannel, hparam, hvalue⟩ := Change.mk.inj hchange
  have hx := htaken x hx
  rwa [ParamWrite.taken, hchannel, hparam, hvalue] at hx

theorem prune_toEvents (t : Timeline ParamWrite) :
    prune t.toEvents = .ok (Timeline.toEvents ⟨t.clock, (keptSteps Values.initial t.steps).map
      (Step.mapAct ParamWrite.change)⟩) := by
  simp only [prune, Timeline.ofEvents_toEvents, bind, Except.bind, pruneFrom_eq,
    List.reverse_nil, List.nil_append]
  rfl

theorem regroup_changes (clock : Clock) {steps : List (Step ParamWrite)}
    (h : ∀ w ∈ writesIn steps, ∃ offset, w.channel.offset? w.param = some offset) :
    regroup (Timeline.toEvents ⟨clock, steps.map (Step.mapAct ParamWrite.change)⟩) =
      .ok (Timeline.toEvents ⟨clock, regrouped {} steps⟩) := by
  simp only [regroup, Timeline.ofEvents_toEvents, bind, Except.bind, regroupFrom_eq _ _ h,
    List.reverse_nil, List.nil_append]
  rfl

theorem regroup_toEvents (clock : Clock) {steps : List (Step ParamWrite)}
    (h : ∀ w ∈ writesIn steps, w.taken = true) :
    regroup (Timeline.toEvents ⟨clock, steps.map (Step.mapAct ParamWrite.change)⟩) =
      .ok (Timeline.toEvents ⟨clock, regrouped {} steps⟩) :=
  regroup_changes clock fun w hw => exists_offset (h w hw)

/-- A log of accepted writes is pruned and regrouped, and then replayed as its kept
steps. -/
theorem replay_regroup_prune_eq {t : Timeline ParamWrite}
    (h : ∀ w ∈ writesIn t.steps, w.taken = true) :
    ∃ changes params, prune t.toEvents = .ok changes ∧ regroup changes = .ok params ∧
      replay params = .ok ⟨t.clock, floatOf sampleRate, totalSamples t.steps,
        (played (Apu.new t.clock) (batches [] (keptSteps Values.initial t.steps))).map
          Apu.frame⟩ := by
  have htaken : ∀ w ∈ writesIn (keptSteps Values.initial t.steps), w.taken = true :=
    fun w hw => h w (writesIn_keptSteps _ _ w hw)
  have hsame := map_change_regrouped {} (keptSteps Values.initial t.steps)
  refine ⟨_, _, prune_toEvents t, regroup_toEvents t.clock htaken,
    replay_eq_ok.mpr ⟨⟨t.clock, _⟩, rfl, taken_congr hsame htaken, ?_⟩⟩
  rw [totalSamples_regrouped, totalSamples_keptSteps, played_congr hsame]

end ApuScore

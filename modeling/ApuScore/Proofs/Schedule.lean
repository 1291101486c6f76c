import ApuScore.Proofs.Writes
/-
  When the writes of a log take effect.

  A timeline names one run of writes for each of its samples: the writes behind
  the last wait above zero at the first sample of a wait, none at the others
  (`batches`). Sample by sample the chip steps and then takes its run of writes
  (`played`). A replay fails with the fault of the first write of the log that is
  refused, and otherwise shows the frames of those states: `replaySteps_eq`.
-/

namespace ApuScore

/-- The writes that each sample of the steps takes, with `pending` in front of the
first ones. -/
def batches : List ParamWrite → List (Step ParamWrite) → List (List ParamWrite)
  | _, [] => []
  | pending, .act w :: rest => batches (pending ++ [w]) rest
  | pending, .wait 0 :: rest => batches pending rest
  | pending, .wait (n + 1) :: rest => pending :: (List.replicate n [] ++ batches [] rest)

/-- The writes behind the last wait above zero, with `pending` in front. -/
def leftover : List ParamWrite → List (Step ParamWrite) → List ParamWrite
  | pending, [] => pending
  | pending, .act w :: rest => leftover (pending ++ [w]) rest
  | pending, .wait 0 :: rest => leftover pending rest
  | _, .wait (_ + 1) :: rest => leftover [] rest

/-- The states of the chip at the samples that take the given writes. -/
def played : Apu → List (List ParamWrite) → List Apu
  | _, [] => []
  | a, writes :: rest => a.step.setAll writes :: played (a.step.setAll writes) rest

def playedTo (a : Apu) (writes : List (List ParamWrite)) : Apu :=
  writes.foldl (fun a writes => a.step.setAll writes) a

theorem batches_acts (pending writes : List ParamWrite) (rest : List (Step ParamWrite)) :
    batches pending (writes.map .act ++ rest) = batches (pending ++ writes) rest := by
  induction writes generalizing pending with
  | nil => rw [List.append_nil]; rfl
  | cons w writes ih =>
    rw [List.map_cons, List.cons_append, batches, ih, List.append_assoc]
    rfl

theorem length_batches (pending : List ParamWrite) (steps : List (Step ParamWrite)) :
    (batches pending steps).length = totalSamples steps := by
  induction pending, steps using batches.induct with
  | case1 pending => rfl
  | case2 pending w rest ih =>
    rw [batches, ih, totalSamples_cons, Step.samples, Nat.zero_add]
  | case3 pending rest ih =>
    rw [batches, ih, totalSamples_cons, Step.samples, Nat.zero_add]
  | case4 pending n rest ih =>
    rw [batches, List.length_cons, List.length_append, List.length_replicate, ih,
      totalSamples_cons, Step.samples]
    omega

theorem played_cons (a : Apu) (writes : List ParamWrite) (rest : List (List ParamWrite)) :
    played a (writes :: rest) = a.step.setAll writes :: played (a.step.setAll writes) rest := rfl

@[simp] theorem length_played (a : Apu) (writes : List (List ParamWrite)) :
    (played a writes).length = writes.length := by
  induction writes generalizing a with
  | nil => rfl
  | cons first rest ih => rw [played, List.length_cons, ih, List.length_cons]

theorem played_append (a : Apu) (front rest : List (List ParamWrite)) :
    played a (front ++ rest) = played a front ++ played (playedTo a front) rest := by
  induction front generalizing a with
  | nil => rfl
  | cons first front ih =>
    rw [List.cons_append, played, ih, played, List.cons_append]
    rfl

theorem playedTo_append (a : Apu) (front rest : List (List ParamWrite)) :
    playedTo a (front ++ rest) = playedTo (playedTo a front) rest := by
  rw [playedTo, List.foldl_append]
  rfl

/-! ## Chips side by side -/

section
variable {β : Type} {related : Apu → Apu → Prop} {shown : Apu → β}
  (hstep : ∀ a b, related a b → related a.step b.step)
  (hshown : ∀ a b, related a b → shown b = shown a)
include hstep hshown

theorem played_idle {a b : Apu} (h : related a b) (n : Nat) :
    (played b (List.replicate n [])).map shown = (played a (List.replicate n [])).map shown ∧
      related (playedTo a (List.replicate n [])) (playedTo b (List.replicate n [])) := by
  induction n generalizing a b with
  | zero => exact ⟨rfl, h⟩
  | succ n ih =>
    have hnext := hstep a b h
    obtain ⟨hrest, hlast⟩ := ih hnext
    rw [List.replicate_succ, played_cons, played_cons, Apu.setAll_nil, Apu.setAll_nil,
      List.map_cons, List.map_cons, hrest, hshown _ _ hnext]
    exact ⟨rfl, hlast⟩

/-- Related chips show the same through a wait, if they do behind it. -/
theorem played_wait {a b : Apu} {pending heard : List ParamWrite}
    (h : related (a.step.setAll pending) (b.step.setAll heard)) (n : Nat)
    {steps other : List (Step ParamWrite)}
    (hrest : related (playedTo (a.step.setAll pending) (List.replicate n []))
        (playedTo (b.step.setAll heard) (List.replicate n [])) →
      (played (playedTo (b.step.setAll heard) (List.replicate n [])) (batches [] other)).map shown =
        (played (playedTo (a.step.setAll pending) (List.replicate n []))
          (batches [] steps)).map shown) :
    (played b (batches heard (.wait (n + 1) :: other))).map shown =
      (played a (batches pending (.wait (n + 1) :: steps))).map shown := by
  obtain ⟨hidle, hlast⟩ := played_idle hstep hshown h n
  rw [batches, batches, played_cons, played_cons, played_append, played_append, List.map_cons,
    List.map_cons, List.map_append, List.map_append, hshown _ _ h, hidle, hrest hlast]

end

theorem run_eq (n : Nat) (a : Apu) (found : List Frame) :
    a.run n found = (playedTo a (List.replicate n []),
      ((played a (List.replicate n [])).map Apu.frame).reverse ++ found) := by
  induction n generalizing a found with
  | zero => rfl
  | succ n ih =>
    rw [Apu.run, ih, List.replicate_succ, played, List.map_cons, List.reverse_cons,
      List.append_assoc]
    rfl

namespace Replay

def of (a : Apu) (pending : List ParamWrite) (shown : List Frame) : Replay :=
  ⟨a, pending.reverse, shown.reverse⟩

theorem take_act (a : Apu) (pending : List ParamWrite) (shown : List Frame) (w : ParamWrite) :
    (of a pending shown).take (.act w) = .ok (of a (pending ++ [w]) shown) := by
  simp only [take, of, List.reverse_append, List.reverse_cons, List.reverse_nil,
    List.nil_append, List.cons_append]

theorem take_wait (a : Apu) (pending : List ParamWrite) (shown : List Frame) (n : Nat) :
    (of a pending shown).take (.wait (n + 1)) = unlessFault (firstFault? pending)
      (of (playedTo a (pending :: List.replicate n [])) []
        (shown ++ (played a (pending :: List.replicate n [])).map Apu.frame)) := by
  simp only [take, of, List.reverse_reverse, Apu.writeAll_eq]
  cases firstFault? pending with
  | some e => rfl
  | none =>
    simp only [unlessFault, Option.elim_none, run_eq, played, List.map_cons, List.reverse_append,
      List.reverse_cons, List.append_assoc, List.cons_append, List.nil_append, List.reverse_nil]
    rfl

/-- A run of steps fails at the first write that reaches a sample and is refused. -/
theorem foldlM_take (steps : List (Step ParamWrite)) (a : Apu) (pending : List ParamWrite)
    (shown : List Frame) :
    steps.foldlM take (of a pending shown) =
      unlessFault (firstFault? (batches pending steps).flatten)
        (of (playedTo a (batches pending steps)) (leftover pending steps)
          (shown ++ (played a (batches pending steps)).map Apu.frame)) := by
  induction pending, steps using batches.induct generalizing a shown with
  | case1 pending =>
    simp only [batches, leftover, played, List.map_nil, List.append_nil]
    rfl
  | case2 pending w rest ih =>
    rw [List.foldlM_cons, take_act]
    exact ih a shown
  | case3 pending rest ih => exact ih a shown
  | case4 pending n rest ih =>
    -- the writes in hand go to the first sample, and the rest starts with none
    have hjoin : batches pending (.wait (n + 1) :: rest) =
        (pending :: List.replicate n []) ++ batches [] rest := rfl
    have hfirst : (pending :: List.replicate n []).flatten = pending := by
      rw [List.flatten_cons, List.flatten_replicate_nil, List.append_nil]
    rw [List.foldlM_cons, take_wait, hjoin, leftover, List.flatten_append, hfirst,
      firstFault?_append, played_append, playedTo_append, List.map_append]
    cases firstFault? pending with
    | some e => rfl
    | none =>
      rw [Option.none_or, ← List.append_assoc, ← ih]
      rfl

end Replay

def writesIn (steps : List (Step ParamWrite)) : List ParamWrite :=
  steps.filterMap fun
    | .act w => some w
    | .wait _ => none

theorem writesIn_append (front rest : List (Step ParamWrite)) :
    writesIn (front ++ rest) = writesIn front ++ writesIn rest :=
  List.filterMap_append ..

theorem writesIn_acts (writes : List ParamWrite) :
    writesIn (writes.map .act) = writes := by
  rw [writesIn, List.filterMap_map]
  exact List.filterMap_some

theorem writesIn_wait (n : Nat) (rest : List (Step ParamWrite)) :
    writesIn (.wait n :: rest) = writesIn rest := rfl

theorem mem_writesIn {w : ParamWrite} {steps : List (Step ParamWrite)} :
    w ∈ writesIn steps ↔ .act w ∈ steps := by
  rw [writesIn, List.mem_filterMap]
  constructor
  · intro h
    obtain ⟨s, hs, hw⟩ := h
    cases s with
    | wait n => cases hw
    | act x => cases hw; exact hs
  · exact fun h => ⟨_, h, rfl⟩

/-- Every write reaches a sample or is left over. -/
theorem flatten_batches (pending : List ParamWrite) (steps : List (Step ParamWrite)) :
    (batches pending steps).flatten ++ leftover pending steps = pending ++ writesIn steps := by
  induction pending, steps using batches.induct with
  | case1 pending => rw [batches, leftover, writesIn]; simp
  | case2 pending w rest ih =>
    rw [batches, leftover, ih, List.append_assoc]
    rfl
  | case3 pending rest ih => rw [batches, leftover, ih]; rfl
  | case4 pending n rest ih =>
    have hnone : (List.replicate n ([] : List ParamWrite)).flatten = [] :=
      List.flatten_eq_nil_iff.mpr fun l hl => (List.mem_replicate.mp hl).2
    rw [batches, leftover, List.flatten_cons, List.flatten_append, hnone, List.nil_append,
      List.append_assoc, ih]
    rfl

theorem writesIn_taken_iff {steps : List (Step ParamWrite)} :
    (∀ w ∈ writesIn steps, w.taken) ↔
      (∀ writes ∈ batches [] steps, ∀ w ∈ writes, w.taken) ∧
        ∀ w ∈ leftover [] steps, w.taken := by
  rw [show writesIn steps = _ from (flatten_batches [] steps).symm]
  simp only [List.mem_append, List.mem_flatten]
  constructor
  · exact fun h => ⟨fun l hl w hw => h w (.inl ⟨l, hl, hw⟩), fun w hw => h w (.inr hw)⟩
  · intro h w hw
    obtain ⟨hbatch, hleft⟩ := h
    rcases hw with ⟨l, hl, hw⟩ | hw
    · exact hbatch l hl w hw
    · exact hleft w hw

/-- A replay fails at the first write that is refused, those left over among them. -/
theorem replaySteps_eq (clock : Clock) (steps : List (Step ParamWrite)) :
    replaySteps clock steps = unlessFault (firstFault? (writesIn steps))
      ((played (Apu.new clock) (batches [] steps)).map Apu.frame) := by
  rw [show writesIn steps = _ from (flatten_batches [] steps).symm, firstFault?_append]
  show (steps.foldlM Replay.take (Replay.of (Apu.new clock) [] []) >>= fun r =>
    r.apu.writeAll r.writes.reverse >>= fun _ => Except.ok r.frames.reverse) = _
  rw [Replay.foldlM_take]
  cases firstFault? (batches [] steps).flatten with
  | some e => rfl
  | none =>
    -- the writes left over reach no sample, but a bad one among them still counts
    show (Apu.writeAll (leftover [] steps).reverse.reverse _ >>= fun _ => Except.ok _) = _
    rw [Apu.writeAll_eq, List.reverse_reverse, Option.none_or]
    cases firstFault? (leftover [] steps) with
    | some e => rfl
    | none =>
      show Except.ok _ = Except.ok _
      rw [Replay.of, List.reverse_reverse, List.nil_append]

theorem replay_toEvents (t : Timeline ParamWrite) :
    replay t.toEvents = unlessFault (firstFault? (writesIn t.steps))
      ⟨t.clock, floatOf sampleRate, totalSamples t.steps,
        (played (Apu.new t.clock) (batches [] t.steps)).map Apu.frame⟩ := by
  show (Timeline.ofEvents t.toEvents >>= fun t => replaySteps t.clock t.steps >>= fun frames =>
    Except.ok (RawScore.mk t.clock (floatOf sampleRate) (totalSamples t.steps) frames)) = _
  rw [Timeline.ofEvents_toEvents]
  show (replaySteps t.clock t.steps >>= fun frames => Except.ok _) = _
  rw [replaySteps_eq]
  cases firstFault? (writesIn t.steps) <;> rfl

/-- A log is replayed exactly when it is a timeline's and every write is accepted.
The score then has one frame for each sample that the log waits. -/
theorem replay_eq_ok {log : ParamLog} {s : RawScore} :
    replay log = .ok s ↔
      ∃ t : Timeline ParamWrite, log = t.toEvents ∧ (∀ w ∈ writesIn t.steps, w.taken) ∧
        s = ⟨t.clock, floatOf sampleRate, totalSamples t.steps,
          (played (Apu.new t.clock) (batches [] t.steps)).map Apu.frame⟩ := by
  constructor
  · intro h
    obtain ⟨t, ht, -⟩ := bind_eq_ok.mp h
    obtain rfl := Timeline.ofEvents_eq_ok.mp ht
    rw [replay_toEvents, unlessFault_eq_ok, firstFault?_eq_none] at h
    exact ⟨t, rfl, h⟩
  · intro h
    obtain ⟨t, rfl, htaken, rfl⟩ := h
    rw [replay_toEvents, unlessFault_eq_ok, firstFault?_eq_none]
    exact ⟨htaken, rfl⟩

theorem length_frames {log : ParamLog} {s : RawScore} (h : replay log = .ok s) :
    s.frames.length = waitTotal log := by
  obtain ⟨t, rfl, -, rfl⟩ := replay_eq_ok.mp h
  rw [t.waitTotal_toEvents, List.length_map, length_played, length_batches]

end ApuScore

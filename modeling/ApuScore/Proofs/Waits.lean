import ApuScore.Proofs.Timeline
import ApuScore.Trace.Codec
/-
  Waits that are split when written and joined when read.

  `mergeWaits` is what reading makes of a log: every maximal run of waits becomes
  one wait of the run's length. `joinWaits` does that on steps
  (`mergeWaits_steps`), and it cannot tell a wait from the pieces it is written
  in (`joinWaits_pieces`). No joined wait is longer than all waits together, so none
  is cut unless the total passes 32 bits (`map_capWait`).
-/

namespace ApuScore

variable {α : Type}

def Event.isWait : Event α → Bool
  | .wait _ => true
  | _ => false

/-- The log with every maximal run of waits replaced by one wait of their sum. -/
def mergeWaits : List (Event α) → List (Event α)
  | [] => []
  | .wait n :: rest =>
    .wait (n + waitTotal (rest.takeWhile Event.isWait)) ::
      mergeWaits (rest.dropWhile Event.isWait)
  | e :: rest => e :: mergeWaits rest
termination_by log => log.length
decreasing_by
  · have := (List.dropWhile_sublist Event.isWait (l := rest)).length_le
    rw [List.length_cons]; omega
  · exact Nat.lt_succ_self _

namespace Trace

@[simp] theorem joinWaits_cons (s : Step RegisterOp) (rest : List (Step RegisterOp)) :
    joinWaits (s :: rest) = joinWait s (joinWaits rest) := rfl

theorem joinWait_wait_wait (m n : Nat) (rest : List (Step RegisterOp)) :
    joinWait (.wait m) (joinWait (.wait n) rest) = joinWait (.wait (m + n)) rest := by
  cases rest with
  | nil => rfl
  | cons s rest =>
    cases s with
    | act a => rfl
    | wait k => simp only [joinWait, Nat.add_assoc]

/-- A wait in front takes in the waits that follow it. -/
theorem joinWait_joinWaits (n : Nat) (rest : List (Step RegisterOp)) :
    (joinWait (.wait n) (joinWaits rest)).map Step.toEvent =
      .wait (n + waitTotal ((rest.map Step.toEvent).takeWhile Event.isWait)) ::
        (joinWaits (rest.dropWhile fun s => s.toEvent.isWait)).map Step.toEvent := by
  induction rest generalizing n with
  | nil => rfl
  | cons s rest ih =>
    cases s with
    | act a => rfl
    | wait m =>
      rw [joinWaits_cons, joinWait_wait_wait, ih]
      simp only [List.map_cons, Step.toEvent, Event.isWait, List.takeWhile_cons,
        List.dropWhile_cons, if_true, waitTotal_cons, Event.samples, Nat.add_assoc]

theorem mergeWaits_steps (steps : List (Step RegisterOp)) :
    mergeWaits (steps.map Step.toEvent) = (joinWaits steps).map Step.toEvent := by
  induction h : steps.length using Nat.strongRecOn generalizing steps with
  | ind len ih =>
    cases steps with
    | nil => simp only [List.map_nil, mergeWaits, joinWaits, List.foldr_nil]
    | cons s rest =>
      subst h
      cases s with
      | act a =>
        have hrest := ih rest.length (by rw [List.length_cons]; omega) rest rfl
        simp only [List.map_cons, Step.toEvent, mergeWaits, hrest, joinWaits_cons, joinWait]
      | wait n =>
        have hshort := (List.dropWhile_sublist (fun s : Step RegisterOp => s.toEvent.isWait)
          (l := rest)).length_le
        have hrest := ih _ (by rw [List.length_cons]; omega)
          (rest.dropWhile fun s => s.toEvent.isWait) rfl
        rw [joinWaits_cons, joinWait_joinWaits, ← hrest, List.map_cons]
        simp only [Step.toEvent, mergeWaits, List.dropWhile_map]; rfl

theorem mergeWaits_toEvents (t : Timeline RegisterOp) :
    mergeWaits t.toEvents = Timeline.toEvents ⟨t.clock, joinWaits t.steps⟩ := by
  simp only [Timeline.toEvents, mergeWaits, mergeWaits_steps]

theorem totalSamples_joinWait (s : Step RegisterOp) (rest : List (Step RegisterOp)) :
    totalSamples (joinWait s rest) = s.samples + totalSamples rest := by
  cases s with
  | act a => rfl
  | wait m =>
    cases rest with
    | nil => rfl
    | cons next rest =>
      cases next with
      | act a => rfl
      | wait n => simp only [joinWait, totalSamples_cons, Step.samples, Nat.add_assoc]

theorem totalSamples_joinWaits (steps : List (Step RegisterOp)) :
    totalSamples (joinWaits steps) = totalSamples steps := by
  induction steps with
  | nil => rfl
  | cons s rest ih => rw [joinWaits_cons, totalSamples_joinWait, ih, totalSamples_cons]

theorem act_mem_joinWaits {op : RegisterOp} {steps : List (Step RegisterOp)} :
    Step.act op ∈ joinWaits steps ↔ Step.act op ∈ steps := by
  have hcons : ∀ (s : Step RegisterOp) (rest : List (Step RegisterOp)),
      Step.act op ∈ joinWait s rest ↔ Step.act op = s ∨ Step.act op ∈ rest := by
    intro s rest
    unfold joinWait
    split <;> simp
  induction steps with
  | nil => exact Iff.rfl
  | cons s rest ih => simp [hcons, ih]

theorem map_capWait {steps : List (Step RegisterOp)} (h : totalSamples steps ≤ 0xFFFFFFFF) :
    steps.map capWait = steps := by
  induction steps with
  | nil => rfl
  | cons s rest ih =>
    rw [totalSamples_cons] at h
    rw [List.map_cons, ih (by omega)]
    cases s with
    | act a => rfl
    | wait n =>
      rw [Step.samples] at h
      rw [capWait, Nat.min_eq_left (by omega)]

theorem foldr_joinWait (ns : List Nat) (n : Nat) (rest : List (Step RegisterOp)) :
    joinWait (.wait n) ((ns.map Step.wait).foldr joinWait rest) =
      joinWait (.wait (n + totalSamples (ns.map (Step.wait : Nat → Step RegisterOp)))) rest := by
  induction ns generalizing n with
  | nil => rfl
  | cons m ns ih =>
    rw [List.map_cons, List.foldr_cons, joinWait_wait_wait, ih, totalSamples_cons,
      Step.samples, Nat.add_assoc]

end Trace

/-- The steps that the commands of a step are read as. -/
def Step.pieces : Step RegisterOp → List (Step RegisterOp)
  | .wait n => (waitPieces n).map .wait
  | .act a => [.act a]

theorem totalSamples_replicate (count n : Nat) :
    totalSamples (List.replicate count (.wait n : Step α)) = count * n := by
  induction count with
  | zero => rw [List.replicate_zero, totalSamples_nil, Nat.zero_mul]
  | succ count ih =>
    rw [List.replicate_succ, totalSamples_cons, ih, Step.samples, Nat.succ_mul, Nat.add_comm]

theorem totalSamples_waitPieces (n : Nat) :
    totalSamples ((waitPieces n).map (Step.wait : Nat → Step α)) = n := by
  have hle : (n - 1) / longestWait * longestWait ≤ n - 1 := Nat.div_mul_le_self _ _
  rw [waitPieces, List.map_append, List.map_replicate, totalSamples_append,
    totalSamples_replicate, List.map_singleton, totalSamples_cons, totalSamples_nil, Step.samples]
  omega

theorem waitPieces_le (n : Nat) : ∀ m ∈ waitPieces n, m ≤ longestWait := by
  intro m hm
  rcases List.mem_append.mp hm with hfull | hlast
  · exact Nat.le_of_eq (List.eq_of_mem_replicate hfull)
  · have hlt : n - 1 < longestWait * ((n - 1) / longestWait + 1) :=
      Nat.lt_mul_div_succ _ (by decide)
    rw [List.mem_singleton.mp hlast]
    rw [Nat.mul_succ, Nat.mul_comm] at hlt
    omega

theorem totalSamples_pieces (s : Step RegisterOp) : totalSamples s.pieces = s.samples := by
  cases s with
  | act a => rfl
  | wait n => exact totalSamples_waitPieces n

theorem totalSamples_flatMap_pieces (steps : List (Step RegisterOp)) :
    totalSamples (steps.flatMap Step.pieces) = totalSamples steps := by
  induction steps with
  | nil => rfl
  | cons s rest ih =>
    rw [List.flatMap_cons, totalSamples_append, ih, totalSamples_pieces, totalSamples_cons]

theorem foldr_joinWait_pieces (s : Step RegisterOp) (rest : List (Step RegisterOp)) :
    s.pieces.foldr Trace.joinWait rest = Trace.joinWait s rest := by
  cases s with
  | act a => rfl
  | wait n =>
    have hsum : totalSamples ((waitPieces n).map (Step.wait : Nat → Step RegisterOp)) = n :=
      totalSamples_waitPieces n
    rw [Step.pieces]
    cases hp : waitPieces n with
    | nil => simp only [waitPieces, List.append_eq_nil_iff, List.cons_ne_self, and_false] at hp
    | cons m ns =>
      rw [hp, List.map_cons, totalSamples_cons, Step.samples] at hsum
      rw [List.map_cons, List.foldr_cons, Trace.foldr_joinWait, hsum]

/-- Joining does not see how waits were cut. -/
theorem joinWaits_pieces (steps : List (Step RegisterOp)) :
    Trace.joinWaits (steps.flatMap Step.pieces) = Trace.joinWaits steps := by
  induction steps with
  | nil => rfl
  | cons s rest ih =>
    rw [List.flatMap_cons, Trace.joinWaits, List.foldr_append, foldr_joinWait_pieces]
    rw [Trace.joinWaits] at ih
    rw [ih]; rfl

end ApuScore

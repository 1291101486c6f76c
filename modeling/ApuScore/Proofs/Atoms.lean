import Mathlib.Data.List.Induction
import ApuScore.Log.Regrouping
import ApuScore.Proofs.Trails
import ApuScore.Proofs.Settling
import ApuScore.Proofs.Spans
/-
  Runs of writes that take up no atom twice.

  A wait closes a run. This file

  1. defines the runs of a log (`runsOf`) and what it is for a run to be tidy: between two
     writes of one key no write of another atom goes to its register (`Tidy`);
  2. shows that tidy runs are grouped as assembly wants them (`grouped_of_tidy`): the keys
     of a run, in the order of their first writes, are a sublist of the run's keys;
  3. shows that logs are tidy that were taken apart, regrouped or scribed
     (`tidy_disassemble`, `tidy_regroup`, `tidy_scribe`): atoms do not fall within a run
     of the first two, and the third returns to atom 0 behind its opening only.
-/

namespace ApuScore

/-! ## Runs -/

section runs

variable {α : Type}

/-- The actions between the waits of steps, those in front of the first wait behind
`run`. -/
def runsFrom (run : List α) : List (Step α) → List (List α)
  | [] => [run]
  | .wait _ :: rest => run :: runsFrom [] rest
  | .act a :: rest => runsFrom (run ++ [a]) rest

/-- The actions of a log in front of its first wait, between its waits and behind the last
one. -/
def runsOf (log : List (Event α)) : List (List α) := runsFrom [] (log.filterMap Event.step?)

theorem runsOf_toEvents (t : Timeline α) : runsOf t.toEvents = runsFrom [] t.steps := by
  rw [runsOf, Timeline.toEvents, List.filterMap_cons]
  show runsFrom [] ((t.steps.map Step.toEvent).filterMap Event.step?) = _
  rw [filterMap_step?]

theorem runsFrom_acts (run actions : List α) (rest : List (Step α)) :
    runsFrom run (actions.map .act ++ rest) = runsFrom (run ++ actions) rest := by
  induction actions generalizing run with
  | nil => rw [List.append_nil]; rfl
  | cons a actions ih =>
    rw [List.map_cons, List.cons_append, runsFrom, ih, List.append_assoc]
    rfl

theorem exists_mem_runsFrom (run : List α) (steps : List (Step α)) :
    ∃ behind, run ++ behind ∈ runsFrom run steps := by
  induction steps generalizing run with
  | nil => exact ⟨[], by rw [List.append_nil]; exact List.mem_singleton_self run⟩
  | cons step rest ih =>
    cases step with
    | wait n => exact ⟨[], by rw [List.append_nil]; exact List.mem_cons_self⟩
    | act a =>
      obtain ⟨behind, hmem⟩ := ih (run ++ [a])
      rw [List.append_assoc] at hmem
      exact ⟨a :: behind, hmem⟩

end runs

/-! ## Tidy runs -/

/-- Once a write of another atom has gone to its register, a key does not come again in the
run. -/
def Tidy (run : List ParamWrite) : Prop :=
  ∀ u x w : ParamWrite, [u, x, w].Sublist run → w.key = u.key → x.key.place = u.key.place →
    x.key = u.key

def TidyLog (log : ParamLog) : Prop := ∀ run ∈ runsOf log, Tidy run

/-- The keys of a run, in the order of their first writes. -/
def keysOf (run : List ParamWrite) : List WriteKey := (run.map ParamWrite.key).foldl touchKey []

theorem keysOf_concat (run : List ParamWrite) (w : ParamWrite) :
    keysOf (run ++ [w]) = touchKey (keysOf run) w.key := by
  rw [keysOf, List.map_append, List.foldl_append]
  rfl

theorem nodup_keysOf (run : List ParamWrite) : (keysOf run).Nodup := by
  induction run using List.reverseRecOn with
  | nil => exact List.nodup_nil
  | append_singleton run w ih =>
    rw [keysOf_concat]
    exact nodup_touchKey ih w.key

theorem keysOf_sublist (run : List ParamWrite) :
    (keysOf run).Sublist (run.map ParamWrite.key) := by
  induction run using List.reverseRecOn with
  | nil => exact List.Sublist.refl []
  | append_singleton run w ih =>
    rw [keysOf_concat, List.map_append, touchKey]
    split
    · exact ih.trans (List.sublist_append_left _ _)
    · exact ih.append (List.Sublist.refl _)

theorem mem_keysOf {run : List ParamWrite} {k : WriteKey} :
    k ∈ keysOf run ↔ ∃ w ∈ run, w.key = k := by
  constructor
  · intro hk
    exact List.mem_map.mp ((keysOf_sublist run).subset hk)
  · intro hk
    obtain ⟨w, hw, rfl⟩ := hk
    induction run using List.reverseRecOn with
    | nil => cases hw
    | append_singleton run last ih =>
      rw [keysOf_concat, touchKey]
      rcases List.mem_append.mp hw with hw | hw
      · split
        · exact ih hw
        · exact List.mem_append_left _ (ih hw)
      · rw [List.mem_singleton.mp hw]
        split
        · assumption
        · exact List.mem_append_right _ List.mem_cons_self

/-- Tidy runs are grouped; `front` is the run so far. -/
theorem grouped_of_tidy {steps : List (Step ParamWrite)} {front : List ParamWrite}
    (h : ∀ run ∈ runsFrom front steps, Tidy run) : Grouped (keysOf front) steps := by
  induction steps generalizing front with
  | nil => trivial
  | cons step rest ih =>
    cases step with
    | wait n => exact ih (List.forall_mem_cons.mp h).2
    | act w =>
      constructor
      · intro before behind heq other hother hplace
        -- two keys of the register: writes of both come in this order, and then `w`
        have hkeys : [w.key, other].Sublist (keysOf front) := by
          rw [heq]
          exact (List.Sublist.cons_cons _ (List.singleton_sublist.mpr hother)).trans
            (List.sublist_append_right _ _)
        obtain ⟨pair, hpair, hmap⟩ :=
          List.sublist_map_iff.mp (hkeys.trans (keysOf_sublist front))
        obtain ⟨u, tail, rfl, hu, hmap⟩ := List.map_eq_cons_iff.mp hmap.symm
        obtain ⟨x, tail, rfl, hx, hmap⟩ := List.map_eq_cons_iff.mp hmap
        obtain rfl := List.map_eq_nil_iff.mp hmap
        obtain ⟨after, hrun⟩ := exists_mem_runsFrom (front ++ [w]) rest
        have hthree : [u, x, w].Sublist (front ++ [w] ++ after) :=
          (hpair.append (List.Sublist.refl [w])).trans (List.sublist_append_left _ _)
        have hsame : x.key = u.key := h _ hrun u x w hthree hu.symm (by rw [hx, hu, hplace])
        have hnodup := (nodup_keysOf front).sublist hkeys
        rw [← hx, ← hu, hsame] at hnodup
        exact (List.nodup_cons.mp hnodup).1 List.mem_cons_self
      · rw [← keysOf_concat]
        exact ih h

/-! ## Logs that are tidy -/

theorem key_eq_of_atom {u x : ParamWrite} (hplace : x.key.place = u.key.place)
    (hatom : x.atom = u.atom) : x.key = u.key := by
  obtain ⟨hchannel, hoffset⟩ := Prod.mk.inj hplace
  rw [ParamWrite.key, ParamWrite.key, WriteKey.mk.injEq]
  exact ⟨hchannel, hoffset, hatom⟩

theorem tidy_of_pairwise {run : List ParamWrite}
    (h : run.Pairwise fun u w => u.atom ≤ w.atom) : Tidy run := by
  intro u x w hsub hkey hplace
  have hthree := h.sublist hsub
  simp only [List.pairwise_cons, List.mem_cons, List.not_mem_nil, or_false, forall_eq_or_imp,
    forall_eq] at hthree
  obtain ⟨⟨hux, -⟩, hxw, -⟩ := hthree
  have hatom : w.atom = u.atom := congrArg WriteKey.atom hkey
  exact key_eq_of_atom hplace (by omega)

/-- The atoms of a run do not fall, and none is above `atom`. -/
structure Climbs (run : List ParamWrite) (atom : Nat) : Prop where
  pairwise : run.Pairwise fun u w => u.atom ≤ w.atom
  le : ∀ w ∈ run, w.atom ≤ atom

namespace Climbs

variable {run writes : List ParamWrite} {atom next : Nat}

theorem nil (atom : Nat) : Climbs [] atom :=
  ⟨List.Pairwise.nil, fun _ hw => nomatch hw⟩

theorem append (h : Climbs run atom) (hle : atom ≤ next) (hwrites : ∀ w ∈ writes, w.atom = next) :
    Climbs (run ++ writes) next := by
  constructor
  · rw [List.pairwise_append]
    refine ⟨h.pairwise, ?_, ?_⟩
    · apply List.pairwise_of_forall_mem_list
      intro u hu w hw
      exact Nat.le_of_eq ((hwrites u hu).trans (hwrites w hw).symm)
    · intro u hu w hw
      rw [hwrites w hw]
      exact Nat.le_trans (h.le u hu) hle
  · intro w hw
    rcases List.mem_append.mp hw with hw | hw
    · exact Nat.le_trans (h.le w hw) hle
    · exact Nat.le_of_eq (hwrites w hw)

end Climbs

theorem AtomState.le_touch (s : AtomState) (place : Channel × UInt8) :
    s.atom ≤ (s.touch place).atom := by
  unfold touch
  split
  · exact Nat.le_succ _
  · exact Nat.le_refl _

theorem climbs_disassembled {s : AtomState} {steps : List (Step RegisterOp)}
    {out : List (Step ParamWrite)} (h : disassembleFrom s [] steps = .ok out)
    {front : List ParamWrite} (hfront : Climbs front s.atom) :
    ∀ run ∈ runsFrom front out, ∃ atom, Climbs run atom := by
  induction steps generalizing s out front with
  | nil =>
    cases h
    exact List.forall_mem_singleton.mpr ⟨s.atom, hfront⟩
  | cons step rest ih =>
    obtain ⟨s', first, tail, hstep, htail, rfl⟩ := disassembleFrom_cons.mp h
    cases step with
    | wait n =>
      cases hstep
      exact List.forall_mem_cons.mpr ⟨⟨s.atom, hfront⟩, ih htail (Climbs.nil 0)⟩
    | act op =>
      cases op with
      | data kind payload =>
        cases hstep
        exact ih htail hfront
      | write register value =>
        cases hplace : Channel.ofRegister? register with
        | none => simp only [disassembleStep, hplace, reduceCtorEq] at hstep
        | some place =>
          simp only [disassembleStep, hplace, Except.ok.injEq, Prod.mk.injEq] at hstep
          obtain ⟨rfl, rfl⟩ := hstep
          rw [runsFrom_acts]
          apply ih htail
          apply hfront.append (s.le_touch _)
          intro w hw
          obtain ⟨f, -, rfl⟩ := List.mem_map.mp hw
          rfl

theorem Grouping.le_add (g : Grouping) (register : Channel × UInt8) (param : Param) :
    g.atom ≤ (g.add register param).atom := by
  unfold add
  split
  · exact Nat.le_succ _
  · exact Nat.le_refl _

theorem climbs_regrouped {g : Grouping} {found : List (Step ParamWrite)}
    {steps : List (Step Change)} {out : List (Step ParamWrite)}
    (h : regroupFrom g found steps = .ok out) :
    ∃ tail, out = found.reverse ++ tail ∧ ∀ {front : List ParamWrite}, Climbs front g.atom →
      ∀ run ∈ runsFrom front tail, ∃ atom, Climbs run atom := by
  induction steps generalizing g found with
  | nil =>
    cases h
    refine ⟨[], (List.append_nil _).symm, ?_⟩
    intro front hfront
    exact List.forall_mem_singleton.mpr ⟨g.atom, hfront⟩
  | cons step rest ih =>
    cases step with
    | wait n =>
      obtain ⟨tail, rfl, hruns⟩ := ih h
      refine ⟨.wait n :: tail, by rw [List.reverse_cons, List.append_assoc]; rfl, ?_⟩
      intro front hfront
      exact List.forall_mem_cons.mpr ⟨⟨g.atom, hfront⟩, hruns (Climbs.nil 0)⟩
    | act c =>
      rw [regroupFrom] at h
      cases hoffset : c.channel.offset? c.param with
      | none => simp only [hoffset, reduceCtorEq] at h
      | some offset =>
        simp only [hoffset] at h
        obtain ⟨tail, rfl, hruns⟩ := ih h
        refine ⟨.act _ :: tail, by rw [List.reverse_cons, List.append_assoc]; rfl, ?_⟩
        intro front hfront
        apply hruns
        apply hfront.append (g.le_add _ _)
        exact List.forall_mem_singleton.mpr rfl

theorem tidy_disassemble {log : RegisterLog} {params : ParamLog}
    (h : disassemble log = .ok params) : TidyLog params := by
  obtain ⟨t, steps, rfl, hsteps, rfl⟩ := disassemble_eq_ok.mp h
  intro run hrun
  rw [runsOf_toEvents] at hrun
  obtain ⟨atom, hclimbs⟩ := climbs_disassembled hsteps (Climbs.nil 0) run hrun
  exact tidy_of_pairwise hclimbs.pairwise

theorem tidy_regroup {log : ChangeLog} {params : ParamLog} (h : regroup log = .ok params) :
    TidyLog params := by
  obtain ⟨t, -, h⟩ := bind_eq_ok.mp h
  obtain ⟨steps, hsteps, h⟩ := bind_eq_ok.mp h
  cases h
  obtain ⟨tail, rfl, hruns⟩ := climbs_regrouped hsteps
  intro run hrun
  rw [runsOf_toEvents] at hrun
  obtain ⟨atom, hclimbs⟩ := hruns (Climbs.nil 0) run hrun
  exact tidy_of_pairwise hclimbs.pairwise

/-- Behind writes with one atom for each register, atom 0 is used throughout. -/
theorem tidy_append {front writes : List ParamWrite}
    (hfront : ∀ u ∈ front, ∀ x ∈ front, x.key.place = u.key.place → x.key = u.key)
    (hwrites : ∀ w ∈ writes, w.atom = 0) : Tidy (front ++ writes) := by
  intro u x w hsub hkey hplace
  have hatom : w.atom = u.atom := congrArg WriteKey.atom hkey
  obtain ⟨first, second, hsplit, hfirst, hsecond⟩ := List.sublist_append_iff.mp hsub
  rcases first with _ | ⟨a, _ | ⟨b, first⟩⟩
  · obtain rfl : second = [u, x, w] := hsplit.symm
    have hthree := fun y hy => hwrites y (hsecond.subset hy)
    simp only [List.mem_cons, List.not_mem_nil, or_false, forall_eq_or_imp, forall_eq] at hthree
    exact key_eq_of_atom hplace (by omega)
  · obtain ⟨rfl, rfl⟩ : u = a ∧ [x, w] = second := by simpa using hsplit
    have htwo := fun y hy => hwrites y (hsecond.subset hy)
    simp only [List.mem_cons, List.not_mem_nil, or_false, forall_eq_or_imp, forall_eq] at htwo
    exact key_eq_of_atom hplace (by omega)
  · obtain ⟨rfl, rfl, -⟩ : u = a ∧ x = b ∧ [w] = first ++ second := by simpa using hsplit
    exact hfront u (hfirst.subset List.mem_cons_self) x
      (hfirst.subset (List.mem_cons_of_mem _ List.mem_cons_self)) hplace

theorem mem_runs_spanSteps {front run : List ParamWrite} {before : Frame}
    {spans : List (Frame × Nat)} (h : run ∈ runsFrom front (spanSteps before spans)) :
    ∃ start writes, (start = front ∨ start = []) ∧ run = start ++ writes ∧
      ∀ w ∈ writes, w.atom = 0 := by
  induction spans generalizing front before with
  | nil =>
    rw [List.mem_singleton.mp h]
    exact ⟨front, [], .inl rfl, (List.append_nil front).symm, fun _ hw => nomatch hw⟩
  | cons span rest ih =>
    obtain ⟨f, n⟩ := span
    rw [spanSteps, runsFrom_acts, runsFrom] at h
    rcases List.mem_cons.mp h with rfl | h
    · exact ⟨front, _, .inl rfl, rfl, fun w hw => (placed_frameWrites before f w hw).2⟩
    · obtain ⟨start, writes, hstart, hrun⟩ := ih h
      exact ⟨start, writes, .inr (hstart.elim id id), hrun⟩

/-- The opening has one atom for each register, and the frames use atom 0. -/
theorem tidy_scribe (s : RawScore) : TidyLog s.scribe := by
  intro run hrun
  rw [RawScore.scribe, runsOf_toEvents, runsFrom_acts, RawScore.frameSteps_eq] at hrun
  obtain ⟨start, writes, hstart, rfl, hwrites⟩ := mem_runs_spanSteps hrun
  apply tidy_append _ hwrites
  rcases hstart with rfl | rfl
  · decide
  · intro u hu
    cases hu

end ApuScore

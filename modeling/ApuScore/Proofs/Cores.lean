import ApuScore.Proofs.Compaction
import ApuScore.Proofs.Regrouping
/-
  Chips that are told the same in other words.

  As long as no sweep is written, the state of the chip has two parts: what the last
  values of its parameters say, and a core that only acting writes change (length loads,
  voice enables, the frame mode). This file

  1. splits the core off (`Apu.core`) and shows that other writes leave it
     (`core_set_acting`, `core_set_quiet`);
  2. shows that a chip that recalls what was written is its core and those values
     (`eq_of_core`);
  3. concludes that two logs play alike if they have the same waits and, at every wait,
     the same acting writes so far and the same values (`played_eq_of_trails`).
-/

namespace ApuScore

/-- Whether a parameter belongs to the sweep of a pulse. -/
def Param.sweeps : Param → Bool
  | .sweepEnable | .sweepPeriod | .sweepNegate | .sweepShift => true
  | _ => false

/-! ## Cores -/

/-- A length counter without its halt flag. -/
def LengthCounter.core (c : LengthCounter) : LengthCounter := { c with halt := false }

def VolumeUnit.core (u : VolumeUnit) : VolumeUnit := { envelope := u.envelope }

/-- A pulse without what its registers hold. -/
def Pulse.core (p : Pulse) : Pulse where
  onesComplement := p.onesComplement
  volume := p.volume.core
  sweep := { divider := p.sweep.divider, reload := p.sweep.reload }
  length := p.length.core

def Triangle.core (t : Triangle) : Triangle where
  linear := t.linear
  reload := t.reload
  length := t.length.core

def Noise.core (n : Noise) : Noise where
  volume := n.volume.core
  length := n.length.core

/-- The chip without what the registers of its voices hold. -/
def Apu.core (a : Apu) : Apu where
  clock := a.clock
  pulse1 := a.pulse1.core
  pulse2 := a.pulse2.core
  triangle := a.triangle.core
  noise := a.noise.core
  sequencer := a.sequencer

theorem LengthCounter.core_load (c : LengthCounter) (value : UInt8) :
    (c.load value).core = c.core.load value := by
  unfold load core
  split <;> simp_all

/-- What acts: the length loads of the voices, their enables and the frame mode. -/
theorem acting_eq_true {c : Channel} {p : Param} (h : acting c p = true) :
    (∃ v : Voice, c = v.channel) ∧ p = .lengthLoad ∨
      c = .status ∧ (∃ v : Voice, p = v.enable) ∨ c = .frameCounter ∧ p = .frameMode := by
  have htable : ∀ p ∈ Param.all, acting c p = true →
      (∃ v ∈ Voice.all, c = v.channel) ∧ p = .lengthLoad ∨
        c = .status ∧ (∃ v ∈ Voice.all, p = v.enable) ∨ c = .frameCounter ∧ p = .frameMode := by
    cases c <;> decide +kernel
  rcases htable p p.mem_all h with ⟨⟨v, -, hv⟩, hp⟩ | ⟨hc, v, -, hv⟩ | hmode
  · exact .inl ⟨⟨v, hv⟩, hp⟩
  · exact .inr (.inl ⟨hc, v, hv⟩)
  · exact .inr (.inr hmode)

section core

variable {c : Channel} {p : Param}

theorem Apu.core_set_acting (h : acting c p = true) (a : Apu) (value : UInt8) :
    (a.set c p value).core = a.core.set c p value := by
  rcases acting_eq_true h with ⟨⟨v, rfl⟩, rfl⟩ | ⟨rfl, v, rfl⟩ | ⟨rfl, rfl⟩
  · have hload := fun l : LengthCounter => l.core_load value
    cases v with
    | pulse1 | pulse2 =>
      simp [set, core, Voice.channel, Pulse.core, Pulse.write, hload, VolumeUnit.core,
        VolumeUnit.restart]
    | triangle => simp [set, core, Voice.channel, Triangle.core, Triangle.write, hload]
    | noise =>
      simp [set, core, Voice.channel, Noise.core, Noise.write, hload, VolumeUnit.core,
        VolumeUnit.restart]
  · cases v <;> rfl
  · rfl

theorem Apu.core_set_quiet (h : acting c p = false) (hsweep : p.sweeps = false) (a : Apu)
    (value : UInt8) : (a.set c p value).core = a.core := by
  cases c with
  | pulse1 | pulse2 =>
    cases p with
    | lengthLoad => exact absurd h (by decide)
    | sweepEnable | sweepPeriod | sweepNegate | sweepShift => exact absurd hsweep (by decide)
    | _ => rfl
  | triangle | noise =>
    cases p with
    | lengthLoad => exact absurd h (by decide)
    | _ => rfl
  | dmc => rfl
  | status =>
    cases p with
    | enableNoise | enableTriangle | enablePulse1 | enablePulse2 => exact absurd h (by decide)
    | _ => rfl
  | frameCounter =>
    cases p with
    | frameMode => exact absurd h (by decide)
    | _ => rfl

end core

/-! ## The core and the values make the chip -/

theorem LengthCounter.eq_of_core {c d : LengthCounter} (hhalt : c.halt = d.halt)
    (hcore : c.core = d.core) : c = d := by
  obtain ⟨enabled, halt, count⟩ := c
  obtain ⟨henabled, -, hcount⟩ := LengthCounter.mk.inj hcore
  cases d
  cases hhalt
  cases henabled
  cases hcount
  rfl

theorem VolumeUnit.eq_of_core {u w : VolumeUnit} (hconstant : u.constant = w.constant)
    (hlevel : u.level = w.level) (hcore : u.core = w.core) : u = w := by
  obtain ⟨-, -, henvelope⟩ := VolumeUnit.mk.inj hcore
  cases u
  cases w
  cases hconstant
  cases hlevel
  cases henvelope
  rfl

theorem period_eq {n k : Nat} {m : Memory} {low high : Param} (hlow : n % 256 = (m low).toNat)
    (hhigh : n / 256 = (m high).toNat % 8) (klow : k % 256 = (m low).toNat)
    (khigh : k / 256 = (m high).toNat % 8) : n = k := by
  omega

variable {m : Memory}

theorem Pulse.eq_of_core {p q : Pulse} (h : p.Recalls m {}) (h' : q.Recalls m {})
    (hcore : p.core = q.core) : p = q := by
  obtain ⟨hones, -, -, hvolume, hsweep, hlength⟩ := Pulse.mk.inj hcore
  obtain ⟨-, -, -, -, hdivider, hreload, -⟩ := Sweep.mk.inj hsweep
  have htimer : p.timer = q.timer :=
    period_eq (h.low rfl) (h.high rfl) (h'.low rfl) (h'.high rfl)
  have hvolume : p.volume = q.volume :=
    VolumeUnit.eq_of_core (h.constant.trans h'.constant.symm) (h.level.trans h'.level.symm) hvolume
  have hlength : p.length = q.length :=
    LengthCounter.eq_of_core (h.halt.trans h'.halt.symm) hlength
  have hnegate : p.sweep.negate = q.sweep.negate := h.negate.trans h'.negate.symm
  have hshift : p.sweep.shift = q.sweep.shift := h.shift.trans h'.shift.symm
  have htarget : p.sweep.target = q.sweep.target := by
    rw [h.target rfl, h'.target rfl, targetOf, targetOf, htimer, hnegate, hshift, hones]
  have hsweep : p.sweep = q.sweep := by
    have henabled := h.enabled.trans h'.enabled.symm
    have hperiod := h.period.trans h'.period.symm
    cases hp : p.sweep
    cases hq : q.sweep
    simp_all
  have hduty := h.duty.trans h'.duty.symm
  cases p
  cases q
  simp_all

theorem Triangle.eq_of_core {t u : Triangle} (h : t.Recalls m) (h' : u.Recalls m)
    (hcore : t.core = u.core) : t = u := by
  obtain ⟨-, hlinear, hreload, -, hlength⟩ := Triangle.mk.inj hcore
  have htimer : t.timer = u.timer := period_eq h.low h.high h'.low h'.high
  have hlength : t.length = u.length :=
    LengthCounter.eq_of_core (h.halt.trans h'.halt.symm) hlength
  have hvalue := h.reloadValue.trans h'.reloadValue.symm
  cases t
  cases u
  simp_all

theorem Noise.eq_of_core {n k : Noise} (h : n.Recalls m) (h' : k.Recalls m)
    (hcore : n.core = k.core) : n = k := by
  obtain ⟨-, -, hvolume, hlength⟩ := Noise.mk.inj hcore
  have hvolume : n.volume = k.volume :=
    VolumeUnit.eq_of_core (h.constant.trans h'.constant.symm) (h.level.trans h'.level.symm) hvolume
  have hlength : n.length = k.length :=
    LengthCounter.eq_of_core (h.halt.trans h'.halt.symm) hlength
  have hlooping := h.looping.trans h'.looping.symm
  have hperiod := h.period.trans h'.period.symm
  cases n
  cases k
  simp_all

theorem Apu.eq_of_core {m : Channel → Memory} {a b : Apu}
    (h : ∀ v : Voice, v.Recalls (m v.channel) {} a) (h' : ∀ v : Voice, v.Recalls (m v.channel) {} b)
    (hcore : a.core = b.core) : a = b := by
  obtain ⟨hclock, hpulse1, hpulse2, htriangle, hnoise, hsequencer⟩ := Apu.mk.inj hcore
  have hpulse1 := Pulse.eq_of_core (h .pulse1) (h' .pulse1) hpulse1
  have hpulse2 := Pulse.eq_of_core (h .pulse2) (h' .pulse2) hpulse2
  have htriangle := Triangle.eq_of_core (h .triangle) (h' .triangle) htriangle
  have hnoise := Noise.eq_of_core (h .noise) (h' .noise) hnoise
  cases a
  cases b
  simp_all

/-! ## Chips that are told acting writes and values -/

def actingOf (changes : List Change) : List Change :=
  changes.filter fun w => acting w.channel w.param

/-- The acting changes so far, with one more if it acts. -/
def hearActing (acts : List Change) (w : Change) : List Change :=
  if acting w.channel w.param then acts ++ [w] else acts

theorem hearActing_eq (acts : List Change) (w : Change) :
    hearActing acts w = acts ++ actingOf [w] := by
  unfold hearActing
  split <;> simp [actingOf, *]

def Apu.act (a : Apu) (acts : List Change) : Apu :=
  acts.foldl (fun a w => a.set w.channel w.param w.value) a

/-- The chip came from `z` by writes whose acting ones are `acts`, and it recalls the
values `m`. -/
structure Told (z : Apu) (acts : List Change) (m : Channel → Memory) (a : Apu) : Prop where
  core : a.core = (z.act acts).core
  recalls : ∀ v : Voice, v.Recalls (m v.channel) {} a

theorem Drift.after_none {param : Param} (h : param.sweeps = false) (m : Memory) (value : UInt8) :
    Drift.after m param value {} = {} := by
  cases param with
  | sweepEnable | sweepPeriod | sweepNegate | sweepShift => cases h
  | timerLow | timerHigh => exact ite_self _
  | _ => rfl

namespace Told

variable {z a b : Apu} {acts : List Change} {m k : Channel → Memory}

theorem start (h : ∀ v : Voice, v.Recalls (m v.channel) {} z) : Told z [] m z := ⟨rfl, h⟩

theorem hear (h : Told z acts m a) {w : ParamWrite} (hsweep : w.param.sweeps = false) :
    Told z (hearActing acts w.change) (w.change.onto m) (a.set w.channel w.param w.value) := by
  constructor
  · rw [hearActing]
    split
    · rename_i hacting
      have hacting : acting w.channel w.param = true := hacting
      rw [Apu.core_set_acting hacting, h.core, ← Apu.core_set_acting hacting, Apu.act, Apu.act,
        List.foldl_append]
      rfl
    · rename_i hquiet
      have hquiet : acting w.channel w.param = false := Bool.eq_false_iff.mpr hquiet
      rw [Apu.core_set_quiet hquiet hsweep, h.core]
  · intro v
    by_cases hown : w.channel = v.channel
    · have hset : w.change.onto m v.channel = (m v.channel).set w.param w.value := by
        funext p
        simp [Change.onto, ParamWrite.change, Memory.set, hown, eq_comm]
      have hwrite := (h.recalls v).write w.param w.value
      rw [Drift.after_none hsweep, ← hset] at hwrite
      rw [hown]
      exact hwrite
    · have hkeep : w.change.onto m v.channel = m v.channel := by
        funext p
        simp [Change.onto, ParamWrite.change, hown]
      rw [hkeep]
      exact (h.recalls v).hear_other hown

theorem hearAll (h : Told z acts m a) {writes : List ParamWrite}
    (hsweep : ∀ w ∈ writes, w.param.sweeps = false) :
    Told z (acts ++ actingOf (writes.map ParamWrite.change))
      (writes.foldl (fun m w => w.change.onto m) m) (a.setAll writes) := by
  induction writes generalizing acts m a with
  | nil =>
    rw [List.map_nil, actingOf, List.filter_nil, List.append_nil]
    exact h
  | cons w writes ih =>
    rw [List.forall_mem_cons] at hsweep
    have hrest := ih (h.hear hsweep.1) hsweep.2
    rwa [hearActing_eq, List.append_assoc, actingOf, actingOf, ← List.filter_append] at hrest

/-- The voices do not listen to what pruning ignores. -/
theorem of_heardValues (h : Told z acts m a) (hvalues : heardValues m = heardValues k) :
    Told z acts k a := by
  refine ⟨h.core, fun v => ?_⟩
  have hvoice : m v.channel = k v.channel := by
    funext p
    have hp := congrFun (congrFun hvalues v.channel) p
    have hheard : ignored v.channel p = false := by cases v <;> rfl
    simpa [heardValues, hheard] using hp
  rw [← hvoice]
  exact h.recalls v

theorem eq (h : Told z acts m a) (h' : Told z acts m b) : a = b :=
  Apu.eq_of_core h.recalls h'.recalls (h.core.trans h'.core.symm)

end Told

theorem foldl_hearActing (acts : List Change) (writes : List ParamWrite) :
    writes.foldl (fun acts w => hearActing acts w.change) acts =
      acts ++ actingOf (writes.map ParamWrite.change) := by
  induction writes generalizing acts with
  | nil => exact (List.append_nil acts).symm
  | cons w writes ih =>
    rw [List.foldl_cons, ih, hearActing_eq, List.append_assoc, actingOf, actingOf,
      ← List.filter_append]
    rfl

theorem exists_run {α : Type} (steps : List (Step α)) :
    ∃ run : List α, steps = run.map .act ∨ ∃ n rest, steps = run.map .act ++ .wait n :: rest := by
  induction steps with
  | nil => exact ⟨[], .inl rfl⟩
  | cons step rest ih =>
    cases step with
    | wait n => exact ⟨[], .inr ⟨n, rest, rfl⟩⟩
    | act a =>
      obtain ⟨run, rfl | ⟨n, behind, rfl⟩⟩ := ih
      · exact ⟨a :: run, .inl rfl⟩
      · exact ⟨a :: run, .inr ⟨n, behind, rfl⟩⟩

/-- Logs that set no sweep play alike if they have the same waits and, at every wait, the
same acting writes behind them and the same values. -/
theorem played_eq_of_trails (done : List Change) {steps other : List (Step ParamWrite)}
    (hsteps : ∀ w ∈ writesIn steps, w.param.sweeps = false)
    (hother : ∀ w ∈ writesIn other, w.param.sweeps = false)
    {acts acts' : List Change} {m k : Channel → Memory} {a : Apu}
    {pending heard : List ParamWrite} (h : Told a.step acts m (a.step.setAll pending))
    (h' : Told a.step acts' k (a.step.setAll heard))
    (hacts : trail hearActing (done ++ acts') (other.map (Step.mapAct ParamWrite.change)) =
      trail hearActing (done ++ acts) (steps.map (Step.mapAct ParamWrite.change)))
    (hvalues : (trail Change.onto k (other.map (Step.mapAct ParamWrite.change))).map heardValues =
      (trail Change.onto m (steps.map (Step.mapAct ParamWrite.change))).map heardValues) :
    played a (batches heard other) = played a (batches pending steps) := by
  simp only [trail_mapAct] at hacts hvalues
  induction steps generalizing acts m a pending other acts' k heard done with
  | nil =>
    obtain ⟨run, rfl | ⟨n, rest, rfl⟩⟩ := exists_run other
    · rw [← List.append_nil (run.map Step.act), batches_acts]
      rfl
    · -- a wait would show in the trail
      rw [trail_acts] at hacts
      cases hacts
  | cons step rest ih =>
    cases step with
    | act w =>
      obtain ⟨hfirst, hrest⟩ := List.forall_mem_cons.mp
        (show ∀ x ∈ w :: writesIn rest, x.param.sweeps = false from hsteps)
      have hhear : Told a.step (hearActing acts w.change) (w.change.onto m)
          (a.step.setAll (pending ++ [w])) := by
        rw [Apu.setAll_append]
        exact h.hear hfirst
      rw [trail, hearActing_eq, List.append_assoc, ← hearActing_eq] at hacts
      exact ih done hrest hother hhear h' hacts hvalues
    | wait n =>
      obtain ⟨run, rfl | ⟨n', behind, rfl⟩⟩ := exists_run other
      · rw [← List.append_nil (run.map Step.act), trail_acts] at hacts
        cases hacts
      · rw [trail_acts, foldl_hearActing, List.append_assoc] at hacts
        rw [trail_acts] at hvalues
        rw [trail_wait, trail_wait, Trail.behind_inj] at hacts
        rw [trail_wait, trail_wait, Trail.map_behind, Trail.map_behind, Trail.behind_inj]
          at hvalues
        rw [writesIn_append, writesIn_acts, writesIn_wait, List.forall_mem_append] at hother
        obtain ⟨⟨rfl, hsame⟩, hacts⟩ := hacts
        obtain ⟨⟨-, hheard⟩, hvalues⟩ := hvalues
        have hsame := List.append_cancel_left hsame
        -- what is told the same in other words ends in the same state
        have htold : Told a.step acts (run.foldl (fun m w => w.change.onto m) k)
            (a.step.setAll (heard ++ run)) := by
          rw [Apu.setAll_append, ← hsame]
          exact h'.hearAll hother.1
        have hreach : a.step.setAll (heard ++ run) = a.step.setAll pending :=
          (htold.of_heardValues hheard).eq h
        rw [batches_acts]
        cases n' with
        | zero =>
          rw [hsame] at hacts
          exact ih done hsteps hother.2 h htold hacts hvalues
        | succ n =>
          rw [batches, batches, played_cons, played_cons, hreach, played_append, played_append]
          congr 2
          -- behind the wait both go on from the same chip
          have hstart : Told (playedTo (a.step.setAll pending) (List.replicate n [])).step [] m
              ((playedTo (a.step.setAll pending) (List.replicate n [])).step.setAll []) :=
            .start fun v => ((h.recalls v).idle n).step
          rw [hsame, ← List.append_nil (done ++ acts)] at hacts
          exact ih _ hsteps hother.2 hstart (hstart.of_heardValues hheard.symm) hacts hvalues

end ApuScore

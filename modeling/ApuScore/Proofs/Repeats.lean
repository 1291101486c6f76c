import ApuScore.Proofs.Bounds
import ApuScore.Proofs.Pruning
/-
  Voices that are told a value again.

  A voice recalls what was last written to it: writing a value again changes nothing
  (`Triangle.Recalls`, `Noise.Recalls`). A pulse has two exceptions. Its sweep moves
  the period away from what was written, and a new shift or direction leaves the
  target behind; `Drift` says what of this the writes so far leave open. And an enable
  of the sweep arms the reload of its divider, which is no matter while the sweep is
  off (`Pulse.Alike`).
-/

namespace ApuScore

/-- What was last written to each parameter of a channel. -/
abbrev Memory := Param → UInt8

def Memory.set (m : Memory) (param : Param) (value : UInt8) : Memory :=
  fun p => if p = param then value else m p

theorem Memory.set_of_eq {m : Memory} {param : Param} {value : UInt8} (h : m param = value) :
    m.set param value = m := by
  funext p
  rw [set]
  split
  · rename_i hp
    rw [hp, h]
  · rfl

/-- Where a pulse may have drifted from what was last written to it. -/
structure Drift where
  /-- The sweep may have moved the low byte of the period. -/
  low : Bool := false
  /-- The sweep may have moved the high bits of the period. -/
  high : Bool := false
  /-- The sweep's target may be that of another period, shift or direction. -/
  target : Bool := false
  deriving DecidableEq, Repr

namespace Drift

/-- Nothing is known while the sweep is on. -/
def all : Drift := ⟨true, true, true⟩

/-- The drift behind a write, over what was written before it. -/
def after (m : Memory) (param : Param) (value : UInt8) (d : Drift) : Drift :=
  let on := m .sweepEnable != 0
  match param with
  | .sweepEnable => if value != 0 then all else { d with target := false }
  | .timerLow => if on then d else { d with low := false, target := false }
  | .timerHigh => if on then d else { d with high := false, target := false }
  | .sweepNegate | .sweepShift => if m param = value then d else { d with target := true }
  | _ => d

/-- Whether writing a parameter's last value again changes nothing. -/
def allows (d : Drift) : Param → Bool
  | .sweepEnable => !d.target
  | .timerLow => !d.low && !d.target
  | .timerHigh => !d.high && !d.target
  | _ => true

end Drift

/-! ## The two parts of a period -/

theorem withLow_mod (period : Nat) (low : UInt8) : withLow period low % 256 = low.toNat := by
  have hlt := low.toNat_lt
  unfold withLow
  omega

theorem withLow_div (period : Nat) (low : UInt8) : withLow period low / 256 = period / 256 % 8 := by
  have hlt := low.toNat_lt
  unfold withLow
  omega

theorem withLow_self {period : Nat} {low : UInt8} (hle : period ≤ 0x7FF)
    (h : period % 256 = low.toNat) : withLow period low = period := by
  unfold withLow
  omega

theorem withHigh_mod (period : Nat) (high : UInt8) : withHigh period high % 256 = period % 256 := by
  unfold withHigh
  omega

theorem withHigh_div (period : Nat) (high : UInt8) :
    withHigh period high / 256 = high.toNat % 8 := by
  unfold withHigh
  omega

theorem withHigh_self {period : Nat} {high : UInt8} (h : period / 256 = high.toNat % 8) :
    withHigh period high = period := by
  unfold withHigh
  omega

/-! ## The pulses -/

/-- The pulse with another flag for the reload of its sweep's divider. -/
def Pulse.rearm (armed : Bool) (p : Pulse) : Pulse :=
  { p with sweep := { p.sweep with reload := armed } }

/-- Pulses that differ at most in a reload that a switched-off sweep does not use. -/
def Pulse.Alike (p q : Pulse) : Prop :=
  ∃ armed, q = p.rearm armed ∧ (p.sweep.enabled = true → armed = p.sweep.reload)

/-- A pulse whose registers hold what was last written, up to a drift. -/
structure Pulse.Recalls (m : Memory) (d : Drift) (p : Pulse) : Prop where
  duty : p.duty = m .duty
  halt : p.length.halt = (m .lengthHalt != 0)
  constant : p.volume.constant = (m .constantVolume != 0)
  level : p.volume.level = m .volume
  enabled : p.sweep.enabled = (m .sweepEnable != 0)
  period : p.sweep.period = (m .sweepPeriod).toNat
  negate : p.sweep.negate = (m .sweepNegate != 0)
  shift : p.sweep.shift = (m .sweepShift).toNat
  timer : p.timer ≤ 0x7FF
  low : d.low = false → p.timer % 256 = (m .timerLow).toNat
  high : d.high = false → p.timer / 256 = (m .timerHigh).toNat % 8
  target : d.target = false → p.sweep.target = p.targetOf
  drifts : p.sweep.enabled = true → d = .all

namespace Pulse.Alike

theorem refl (p : Pulse) : p.Alike p := ⟨p.sweep.reload, rfl, fun _ => rfl⟩

variable {p q : Pulse} (h : p.Alike q)
include h

theorem symm : q.Alike p := by
  obtain ⟨armed, rfl, harmed⟩ := h
  exact ⟨p.sweep.reload, rfl, fun hon => (harmed hon).symm⟩

theorem trans {r : Pulse} (hr : q.Alike r) : p.Alike r := by
  obtain ⟨armed, rfl, harmed⟩ := h
  obtain ⟨again, rfl, hagain⟩ := hr
  exact ⟨again, rfl, fun hon => (hagain hon).trans (harmed hon)⟩

theorem slot_eq : q.slot = p.slot := by
  obtain ⟨armed, rfl, -⟩ := h
  rfl

theorem quarterFrame : p.quarterFrame.Alike q.quarterFrame := by
  obtain ⟨armed, rfl, harmed⟩ := h
  exact ⟨armed, rfl, harmed⟩

theorem halfFrame : p.halfFrame.Alike q.halfFrame := by
  obtain ⟨armed, rfl, harmed⟩ := h
  by_cases hon : p.sweep.enabled = true
  · rw [harmed hon]
    exact ⟨p.halfFrame.sweep.reload, rfl, fun _ => rfl⟩
  · -- a sweep that is off is not clocked, so it keeps whatever reload it has
    have hoff : ∀ r : Pulse, ¬ r.sweep.enabled = true →
        r.halfFrame = { r with length := r.length.clock } := by
      intro r hr
      rw [Pulse.halfFrame, clockSweep, if_neg hr]
    rw [hoff p hon, hoff (p.rearm armed) hon]
    exact ⟨armed, rfl, harmed⟩

theorem tick (t : Tick) : (p.tick t).Alike (q.tick t) := by
  have hquarter := h.quarterFrame
  unfold Pulse.tick
  cases t.quarter <;> cases t.half
  · exact h
  · exact h.halfFrame
  · exact hquarter
  · exact hquarter.halfFrame

theorem gate (w : ParamWrite) :
    Pulse.Alike { p with length := p.length.gate w } { q with length := q.length.gate w } := by
  obtain ⟨armed, rfl, harmed⟩ := h
  exact ⟨armed, rfl, harmed⟩

theorem write (param : Param) (value : UInt8) :
    (p.write param value).Alike (q.write param value) := by
  obtain ⟨armed, rfl, harmed⟩ := h
  cases param with
  | sweepEnable => exact ⟨true, rfl, fun _ => rfl⟩
  | _ => exact ⟨armed, rfl, harmed⟩

theorem hear (w : ParamWrite) : (p.hear w).Alike (q.hear w) := by
  unfold Pulse.hear
  split
  · exact h.gate w
  · exact h.write _ _

end Pulse.Alike

theorem LengthCounter.halt_clock (c : LengthCounter) : c.clock.halt = c.halt := by
  unfold clock
  split <;> rfl

theorem LengthCounter.halt_load (c : LengthCounter) (value : UInt8) :
    (c.load value).halt = c.halt := by
  unfold load
  split <;> rfl

namespace Pulse

/-- An enabled sweep moves the period and the target, and nothing that was written. -/
theorem runSweep_eq {p : Pulse} (h : p.timer ≤ 0x7FF) :
    ∃ timer target divider, timer ≤ 0x7FF ∧ p.runSweep =
      { p with
        timer := timer
        sweep := { p.sweep with target := target, divider := divider, reload := false } } := by
  unfold runSweep glide
  dsimp only
  split
  · split
    · rename_i hmoves
      rw [inRange, Bool.and_eq_true, Bool.and_eq_true, decide_eq_true_iff, decide_eq_true_iff]
        at hmoves
      have htarget : p.retarget.sweep.target.toNat ≤ 0x7FF := by omega
      exact ⟨_, _, _, htarget, rfl⟩
    · exact ⟨_, _, _, h, rfl⟩
  · exact ⟨_, _, _, h, rfl⟩

theorem setTimer_self {p : Pulse} (h : p.sweep.target = p.targetOf) : p.setTimer p.timer = p := by
  show p.retarget = p
  rw [retarget, ← h]

theorem enableSweep_self {p : Pulse} (h : p.sweep.target = p.targetOf) :
    p.enableSweep p.sweep.enabled = p.rearm true := by
  show { p with sweep := { p.sweep with reload := true, target := p.targetOf } } = p.rearm true
  rw [← h]
  rfl

namespace Recalls

variable {m : Memory} {d : Drift} {p : Pulse} (h : p.Recalls m d)
include h

theorem halfFrame : p.halfFrame.Recalls m d := by
  have hclocked : Pulse.Recalls m d { p with length := p.length.clock } :=
    { h with halt := by rw [← h.halt, ← p.length.halt_clock] }
  rw [Pulse.halfFrame, clockSweep]
  split
  · -- what the sweep moves is what the drift leaves open
    rename_i hon
    have hall := h.drifts hon
    obtain ⟨timer, target, divider, htimer, heq⟩ := runSweep_eq hclocked.timer
    rw [heq]
    subst hall
    exact { hclocked with
      timer := htimer
      low := fun hlow => nomatch hlow
      high := fun hhigh => nomatch hhigh
      target := fun htarget => nomatch htarget }
  · exact hclocked

theorem tick (t : Tick) : (p.tick t).Recalls m d :=
  t.keeps (fun _ hq => { hq with }) (fun _ hq => halfFrame hq) h

theorem gate (w : ParamWrite) : Pulse.Recalls m d { p with length := p.length.gate w } :=
  { h with }

theorem writeSweepEnable (value : UInt8) :
    (p.write .sweepEnable value).Recalls (m.set .sweepEnable value)
      (d.after m .sweepEnable value) := by
  rw [Drift.after, Pulse.write]
  cases hvalue : value != 0 with
  | true =>
    exact { h with
      enabled := hvalue.symm
      low := fun hlow => nomatch hlow
      high := fun hhigh => nomatch hhigh
      target := fun htarget => nomatch htarget
      drifts := fun _ => rfl }
  | false =>
    exact { h with
      enabled := hvalue.symm
      target := fun _ => rfl
      drifts := fun hon => nomatch hon }

theorem writeSweepNegate (value : UInt8) :
    (p.write .sweepNegate value).Recalls (m.set .sweepNegate value)
      (d.after m .sweepNegate value) := by
  rw [Drift.after]
  split
  · rename_i heq
    have hsame : p.write .sweepNegate value = p := by rw [Pulse.write, ← heq, ← h.negate]
    rw [hsame, Memory.set_of_eq heq]
    exact h
  · exact { h with
      negate := rfl
      target := fun htarget => nomatch htarget
      drifts := fun hon => by rw [h.drifts hon]; rfl }

theorem writeSweepShift (value : UInt8) :
    (p.write .sweepShift value).Recalls (m.set .sweepShift value)
      (d.after m .sweepShift value) := by
  rw [Drift.after]
  split
  · rename_i heq
    have hsame : p.write .sweepShift value = p := by rw [Pulse.write, ← heq, ← h.shift]
    rw [hsame, Memory.set_of_eq heq]
    exact h
  · exact { h with
      shift := rfl
      target := fun htarget => nomatch htarget
      drifts := fun hon => by rw [h.drifts hon]; rfl }

theorem writeTimerLow (value : UInt8) :
    (p.write .timerLow value).Recalls (m.set .timerLow value) (d.after m .timerLow value) := by
  rw [Drift.after]
  split
  · rename_i hon
    have hall := h.drifts (h.enabled.trans hon)
    subst hall
    exact { h with
      timer := withLow_le _ _
      low := fun hlow => nomatch hlow
      high := fun hhigh => nomatch hhigh
      target := fun htarget => nomatch htarget }
  · rename_i hoff
    have hhigh : d.high = false → withLow p.timer value / 256 = (m .timerHigh).toNat % 8 := by
      intro hfree
      rw [withLow_div, h.high hfree, Nat.mod_mod]
    exact { h with
      timer := withLow_le _ _
      low := fun _ => withLow_mod _ _
      high := hhigh
      target := fun _ => rfl
      drifts := fun hon => absurd (h.enabled.symm.trans hon) hoff }

theorem writeTimerHigh (value : UInt8) :
    (p.write .timerHigh value).Recalls (m.set .timerHigh value) (d.after m .timerHigh value) := by
  rw [Drift.after]
  split
  · rename_i hon
    have hall := h.drifts (h.enabled.trans hon)
    subst hall
    exact { h with
      timer := withHigh_le _ _
      low := fun hlow => nomatch hlow
      high := fun hhigh => nomatch hhigh
      target := fun htarget => nomatch htarget }
  · rename_i hoff
    exact { h with
      timer := withHigh_le _ _
      low := fun hfree => (withHigh_mod _ _).trans (h.low hfree)
      high := fun _ => withHigh_div _ _
      target := fun _ => rfl
      drifts := fun hon => absurd (h.enabled.symm.trans hon) hoff }

theorem write (param : Param) (value : UInt8) :
    (p.write param value).Recalls (m.set param value) (d.after m param value) := by
  cases param with
  | duty => exact { h with duty := rfl }
  | lengthHalt => exact { h with halt := rfl }
  | constantVolume => exact { h with constant := rfl }
  | volume => exact { h with level := rfl }
  | sweepPeriod => exact { h with period := rfl }
  | lengthLoad => exact { h with halt := (p.length.halt_load value).trans h.halt }
  | sweepEnable => exact h.writeSweepEnable value
  | sweepNegate => exact h.writeSweepNegate value
  | sweepShift => exact h.writeSweepShift value
  | timerLow => exact h.writeTimerLow value
  | timerHigh => exact h.writeTimerHigh value
  | _ => exact { h with }

/-- Writing a value again leaves a pulse as it was, but for the reload of a
switched-off sweep. -/
theorem repeats {param : Param} (hload : param ≠ .lengthLoad) (hallows : d.allows param = true) :
    p.Alike (p.write param (m param)) := by
  have hsame : ∀ {q : Pulse}, q = p → p.Alike q := fun hq => hq ▸ Alike.refl p
  cases param with
  | duty => exact hsame (by rw [Pulse.write, ← h.duty])
  | lengthHalt => exact hsame (by rw [Pulse.write, ← h.halt])
  | constantVolume => exact hsame (by rw [Pulse.write, ← h.constant])
  | volume => exact hsame (by rw [Pulse.write, ← h.level])
  | sweepPeriod => exact hsame (by rw [Pulse.write, ← h.period])
  | sweepNegate => exact hsame (by rw [Pulse.write, ← h.negate])
  | sweepShift => exact hsame (by rw [Pulse.write, ← h.shift])
  | lengthLoad => exact absurd rfl hload
  | sweepEnable =>
    rw [Drift.allows, Bool.not_eq_true'] at hallows
    -- under an enabled sweep the target would be open
    have hoff : p.sweep.enabled = false := by
      rw [← Bool.not_eq_true]
      intro hon
      rw [h.drifts hon] at hallows
      cases hallows
    refine ⟨true, ?_, fun hon => absurd hon (hoff ▸ Bool.false_ne_true)⟩
    rw [Pulse.write, ← h.enabled, enableSweep_self (h.target hallows)]
  | timerLow =>
    rw [Drift.allows, Bool.and_eq_true, Bool.not_eq_true', Bool.not_eq_true'] at hallows
    have hlow := withLow_self h.timer (h.low hallows.1)
    exact hsame (by rw [Pulse.write, hlow, setTimer_self (h.target hallows.2)])
  | timerHigh =>
    rw [Drift.allows, Bool.and_eq_true, Bool.not_eq_true', Bool.not_eq_true'] at hallows
    have hhigh := withHigh_self (h.high hallows.1)
    exact hsame (by rw [Pulse.write, hhigh, setTimer_self (h.target hallows.2)])
  | _ => exact hsame rfl

end Recalls

end Pulse

/-! ## The triangle and the noise -/

structure Triangle.Recalls (m : Memory) (t : Triangle) : Prop where
  halt : t.length.halt = (m .lengthHalt != 0)
  reloadValue : t.reloadValue = m .linearReload
  timer : t.timer ≤ 0x7FF
  low : t.timer % 256 = (m .timerLow).toNat
  high : t.timer / 256 = (m .timerHigh).toNat % 8

namespace Triangle.Recalls

variable {m : Memory} {t : Triangle} (h : t.Recalls m)
include h

theorem gate (w : ParamWrite) : Triangle.Recalls m { t with length := t.length.gate w } :=
  { h with }

theorem tick (k : Tick) : (t.tick k).Recalls m := by
  have hlength : ∀ u : Triangle, u.Recalls m →
      Triangle.Recalls m { u with length := u.length.clock } := by
    intro u hu
    exact { hu with halt := u.length.halt_clock.trans hu.halt }
  exact k.keeps (fun _ hu => { hu with }) hlength h

theorem write (param : Param) (value : UInt8) :
    (t.write param value).Recalls (m.set param value) := by
  cases param with
  | lengthHalt => exact { h with halt := rfl }
  | linearReload => exact { h with reloadValue := rfl }
  | lengthLoad => exact { h with halt := (t.length.halt_load value).trans h.halt }
  | timerLow =>
    have hhigh : withLow t.timer value / 256 = (m .timerHigh).toNat % 8 := by
      rw [withLow_div, h.high, Nat.mod_mod]
    exact { h with timer := withLow_le _ _, low := withLow_mod _ _, high := hhigh }
  | timerHigh =>
    exact { h with
      timer := withHigh_le _ _
      low := (withHigh_mod _ _).trans h.low
      high := withHigh_div _ _ }
  | _ => exact { h with }

theorem repeats {param : Param} (hload : param ≠ .lengthLoad) : t.write param (m param) = t := by
  cases param with
  | lengthHalt => rw [Triangle.write, ← h.halt]
  | linearReload => rw [Triangle.write, ← h.reloadValue]
  | lengthLoad => exact absurd rfl hload
  | timerLow => rw [Triangle.write, withLow_self h.timer h.low]
  | timerHigh => rw [Triangle.write, withHigh_self h.high]
  | _ => rfl

end Triangle.Recalls

structure Noise.Recalls (m : Memory) (n : Noise) : Prop where
  looping : n.looping = (m .noiseLoop != 0)
  period : n.period = m .noisePeriod
  constant : n.volume.constant = (m .constantVolume != 0)
  level : n.volume.level = m .volume
  halt : n.length.halt = (m .lengthHalt != 0)

namespace Noise.Recalls

variable {m : Memory} {n : Noise} (h : n.Recalls m)
include h

theorem gate (w : ParamWrite) : Noise.Recalls m { n with length := n.length.gate w } :=
  { h with }

theorem tick (t : Tick) : (n.tick t).Recalls m := by
  have hlength : ∀ u : Noise, u.Recalls m →
      Noise.Recalls m { u with length := u.length.clock } := by
    intro u hu
    exact { hu with halt := u.length.halt_clock.trans hu.halt }
  have hvolume : ∀ u : Noise, u.Recalls m →
      Noise.Recalls m { u with volume := u.volume.clock u.length.halt } := fun _ hu => { hu with }
  exact t.keeps hvolume hlength h

theorem write (param : Param) (value : UInt8) :
    (n.write param value).Recalls (m.set param value) := by
  cases param with
  | lengthHalt => exact { h with halt := rfl }
  | constantVolume => exact { h with constant := rfl }
  | volume => exact { h with level := rfl }
  | noiseLoop => exact { h with looping := rfl }
  | noisePeriod => exact { h with period := rfl }
  | lengthLoad => exact { h with halt := (n.length.halt_load value).trans h.halt }
  | _ => exact { h with }

theorem repeats {param : Param} (hload : param ≠ .lengthLoad) : n.write param (m param) = n := by
  cases param with
  | lengthHalt => rw [Noise.write, ← h.halt]
  | constantVolume => rw [Noise.write, ← h.constant]
  | volume => rw [Noise.write, ← h.level]
  | noiseLoop => rw [Noise.write, ← h.looping]
  | noisePeriod => rw [Noise.write, ← h.period]
  | lengthLoad => exact absurd rfl hload
  | _ => rfl

end Noise.Recalls

end ApuScore

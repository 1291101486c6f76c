import ApuScore.Proofs.Reachable
/-
  When a pulse's sweep target follows its registers.

  A pulse decides whether it is mute from a target that it keeps, and only some writes
  compute the target anew. This file

  1. states the target as a function of the registers (`sweepTarget`, `Pulse.Aimed`) and
     shows that the pulses of every reachable state compute it so
     (`Reachable.targetOf_eq`);
  2. sorts the writes to a pulse: the enable and both halves of the period compute the
     target (`ParamWrite.retargets`), the direction and the shift change what it should be
     and leave it as it is (`ParamWrite.redirects`), and no other write touches either
     (`Pulse.target_hear`, `Pulse.targetOf_hear`);
  3. concludes, for runs of accepted writes, which of them leave the pulse deciding by its
     registers (`aimed_of_retargets`).
-/

namespace ApuScore

/-! ## The target of the registers -/

/-- The period that a sweep moves `timer` to: up by its shifted value or down by it, and
down one more with the complement of pulse 1. -/
def sweepTarget (complement negate : Bool) (timer shift : Nat) : Int :=
  let delta : Int := timer >>> shift
  if negate then timer - delta - (if complement then 1 else 0) else timer + delta

def Apu.pulse (a : Apu) : Bool → Pulse
  | false => a.pulse1
  | true => a.pulse2

def pulseVoice : Bool → Voice
  | false => .pulse1
  | true => .pulse2

/-- Whether the target is the one that the registers of the first or second pulse
give. -/
def Pulse.Aimed (second : Bool) (p : Pulse) : Prop :=
  p.sweep.target = sweepTarget (!second) p.sweep.negate p.timer p.sweep.shift

instance (second : Bool) (p : Pulse) : Decidable (p.Aimed second) :=
  inferInstanceAs (Decidable (_ = _))

namespace Pulse

theorem Bounded.targetOf_eq {p : Pulse} (h : p.Bounded) :
    p.targetOf = sweepTarget p.onesComplement p.sweep.negate p.timer p.sweep.shift := by
  unfold targetOf sweepTarget
  rw [h.noWrap.shift]
  dsimp only
  split
  · rw [Int.sub_sub]
  · rfl

theorem onesComplement_glide (p : Pulse) : p.glide.onesComplement = p.onesComplement := by
  unfold glide
  dsimp only
  split <;> rfl

theorem onesComplement_halfFrame (p : Pulse) :
    p.halfFrame.onesComplement = p.onesComplement := by
  unfold halfFrame clockSweep
  split
  · unfold runSweep
    dsimp only
    split
    · exact onesComplement_glide _
    · rfl
  · rfl

theorem onesComplement_tick (t : Tick) (p : Pulse) :
    (p.tick t).onesComplement = p.onesComplement := by
  have hquarter : p.quarterFrame.onesComplement = p.onesComplement := rfl
  unfold tick
  cases t.quarter <;> cases t.half
  · rfl
  · exact onesComplement_halfFrame p
  · exact hquarter
  · exact (onesComplement_halfFrame _).trans hquarter

theorem onesComplement_hear (p : Pulse) (w : ParamWrite) :
    (p.hear w).onesComplement = p.onesComplement := by
  unfold hear
  split
  · rfl
  · cases w.param <;> rfl

end Pulse

theorem Apu.pulse_set (a : Apu) (w : ParamWrite) (second : Bool) :
    (a.set w.channel w.param w.value).pulse second =
      if w.aims (pulseVoice second) then (a.pulse second).hear w else a.pulse second := by
  rw [Apu.set_eq]
  cases second <;> rfl

namespace Reachable

variable {clock : Clock} {a : Apu} (h : Reachable clock a) (second : Bool)
include h

theorem onesComplement : (a.pulse second).onesComplement = !second := by
  induction h with
  | new => cases second <;> rfl
  | @step a _ ih =>
    have htick : a.step.pulse second = (a.pulse second).tick a.nextTick := by
      cases second <;> rfl
    rw [htick, Pulse.onesComplement_tick, ih]
  | @write a b c p value _ hwrite ih =>
    obtain ⟨-, rfl⟩ := Apu.write_eq_ok.mp hwrite
    rw [a.pulse_set ⟨c, p, value, 0, 0⟩ second]
    split
    · rw [Pulse.onesComplement_hear, ih]
    · exact ih

theorem bounded_pulse : (a.pulse second).Bounded := by
  cases second
  · exact h.bounded.pulse1
  · exact h.bounded.pulse2

theorem targetOf_eq :
    (a.pulse second).targetOf = sweepTarget (!second) (a.pulse second).sweep.negate
      (a.pulse second).timer (a.pulse second).sweep.shift := by
  rw [(h.bounded_pulse second).targetOf_eq, h.onesComplement]

theorem aimed_iff :
    (a.pulse second).Aimed second ↔
      (a.pulse second).sweep.target = (a.pulse second).targetOf := by
  rw [Pulse.Aimed, h.targetOf_eq]

end Reachable

/-! ## What each write does to the target -/

namespace ParamWrite

/-- Whether a write makes a voice's sweep compute its target. -/
def retargets (v : Voice) (w : ParamWrite) : Bool :=
  w.channel == v.channel &&
    (w.param == .sweepEnable || w.param == .timerLow || w.param == .timerHigh)

/-- Whether a write sets the direction or the shift of a voice's sweep. -/
def redirects (v : Voice) (w : ParamWrite) : Bool :=
  w.channel == v.channel && (w.param == .sweepNegate || w.param == .sweepShift)

end ParamWrite

namespace Pulse

variable {v : Voice} {w : ParamWrite} (p : Pulse)

theorem hear_eq (h : w.aims v = true) :
    p.hear w = { p with length := p.length.gate w } ∨
      w.channel = v.channel ∧ p.hear w = p.write w.param w.value := by
  unfold hear
  split
  · exact .inl rfl
  · rename_i hstatus
    rw [ParamWrite.aims, Bool.or_eq_true, Bool.and_eq_true, beq_iff_eq, beq_iff_eq] at h
    rcases h with h | ⟨h, -⟩
    · exact .inr ⟨h, rfl⟩
    · exact absurd h hstatus

theorem target_hear_of_retargets (h : w.retargets v = true) :
    (p.hear w).sweep.target = (p.hear w).targetOf := by
  rw [ParamWrite.retargets, Bool.and_eq_true, beq_iff_eq] at h
  obtain ⟨hchannel, hparam⟩ := h
  rw [hear, if_neg (hchannel ▸ v.channel_ne_status)]
  cases hw : w.param with
  | sweepEnable | timerLow | timerHigh => rfl
  | _ =>
    rw [hw] at hparam
    cases hparam

theorem target_hear (haims : w.aims v = true) (h : w.retargets v = false) :
    (p.hear w).sweep.target = p.sweep.target ∧ (p.hear w).timer = p.timer := by
  rcases p.hear_eq haims with heq | ⟨hchannel, heq⟩
  · rw [heq]
    exact ⟨rfl, rfl⟩
  · rw [heq]
    rw [ParamWrite.retargets, hchannel, beq_self_eq_true, Bool.true_and] at h
    cases hw : w.param with
    | sweepEnable | timerLow | timerHigh =>
      rw [hw] at h
      cases h
    | _ => exact ⟨rfl, rfl⟩

/-- What neither computes the target nor redirects the sweep leaves what the target should
be. -/
theorem targetOf_hear (haims : w.aims v = true) (h : w.retargets v = false)
    (hsame : w.redirects v = false) : (p.hear w).targetOf = p.targetOf := by
  rcases p.hear_eq haims with heq | ⟨hchannel, heq⟩
  · rw [heq]
    rfl
  · rw [heq]
    rw [ParamWrite.retargets, hchannel, beq_self_eq_true, Bool.true_and] at h
    rw [ParamWrite.redirects, hchannel, beq_self_eq_true, Bool.true_and] at hsame
    cases hw : w.param with
    | sweepEnable | timerLow | timerHigh =>
      rw [hw] at h
      cases h
    | sweepNegate | sweepShift =>
      rw [hw] at hsame
      cases hsame
    | _ => rfl

end Pulse

/-! ## Runs of writes -/

namespace Apu

variable {second : Bool} {writes : List ParamWrite} (a : Apu)

theorem target_setAll (h : ∀ w ∈ writes, w.retargets (pulseVoice second) = false) :
    ((a.setAll writes).pulse second).sweep.target = (a.pulse second).sweep.target ∧
      ((a.setAll writes).pulse second).timer = (a.pulse second).timer := by
  induction writes generalizing a with
  | nil => exact ⟨rfl, rfl⟩
  | cons w writes ih =>
    rw [List.forall_mem_cons] at h
    obtain ⟨htarget, htimer⟩ := ih (a.set w.channel w.param w.value) h.2
    rw [setAll_cons, htarget, htimer, pulse_set]
    split
    · rename_i haims
      exact Pulse.target_hear _ haims h.1
    · exact ⟨rfl, rfl⟩

/-- A computed target stays right while the sweep is not redirected. -/
theorem targetOf_setAll (h : ∀ w ∈ writes, w.redirects (pulseVoice second) = false)
    (haimed : (a.pulse second).sweep.target = (a.pulse second).targetOf) :
    ((a.setAll writes).pulse second).sweep.target =
      ((a.setAll writes).pulse second).targetOf := by
  induction writes generalizing a with
  | nil => exact haimed
  | cons w writes ih =>
    rw [List.forall_mem_cons] at h
    rw [setAll_cons]
    apply ih _ h.2
    rw [pulse_set]
    split
    · rename_i haims
      by_cases hretargets : w.retargets (pulseVoice second) = true
      · exact Pulse.target_hear_of_retargets _ hretargets
      · rw [Bool.not_eq_true] at hretargets
        rw [(Pulse.target_hear _ haims hretargets).1,
          Pulse.targetOf_hear _ haims hretargets h.1, haimed]
    · exact haimed

theorem pulse_set_of_retargets {w : ParamWrite} (h : w.retargets (pulseVoice second) = true) :
    ((a.set w.channel w.param w.value).pulse second).sweep.target =
      ((a.set w.channel w.param w.value).pulse second).targetOf := by
  have haims : w.aims (pulseVoice second) = true := by
    rw [ParamWrite.retargets, Bool.and_eq_true] at h
    rw [ParamWrite.aims, h.1, Bool.true_or]
  rw [pulse_set, if_pos haims]
  exact Pulse.target_hear_of_retargets _ h

end Apu

theorem Pulse.Aimed.audible?_eq_some {second : Bool} {p : Pulse} (h : p.Aimed second)
    {volume : UInt8} :
    p.audible? = some volume ↔
      p.length.count ≠ 0 ∧ 0 < p.volume.output ∧ 8 ≤ p.timer ∧
        sweepTarget (!second) p.sweep.negate p.timer p.sweep.shift < 0x800 ∧
        p.volume.output = volume := by
  rw [Pulse.audible?_eq_some, inRange, Bool.and_eq_true, decide_eq_true_iff, decide_eq_true_iff,
    h.symm, and_assoc]

/-- In every reachable state, and for either pulse:

1. behind an accepted write of the sweep's enable or of either half of the period the
   target is that of the registers;
2. accepted writes without one of these, such as of the direction or the shift, leave the
   target and the period as they were;
3. so behind accepted writes, in any order, the target is that of the registers and the
   next sample sounds by them, if no write behind the last of those redirects the
   sweep. -/
theorem aimed_of_retargets {clock : Clock} {a : Apu} (h : Reachable clock a) (second : Bool) :
    (∀ (w : ParamWrite) (b : Apu), a.write w.channel w.param w.value = .ok b →
      w.retargets (pulseVoice second) = true → (b.pulse second).Aimed second) ∧
    (∀ (writes : List ParamWrite) (b : Apu), a.writeAll writes = .ok b →
      (∀ w ∈ writes, w.retargets (pulseVoice second) = false) →
      (b.pulse second).sweep.target = (a.pulse second).sweep.target ∧
        (b.pulse second).timer = (a.pulse second).timer) ∧
    ∀ (front : List ParamWrite) (w : ParamWrite) (back : List ParamWrite) (b : Apu),
      a.writeAll (front ++ w :: back) = .ok b → w.retargets (pulseVoice second) = true →
      (∀ x ∈ back, x.redirects (pulseVoice second) = false) →
      (b.pulse second).Aimed second ∧ ∀ volume, (b.pulse second).audible? = some volume ↔
        (b.pulse second).length.count ≠ 0 ∧ 0 < (b.pulse second).volume.output ∧
          8 ≤ (b.pulse second).timer ∧
          sweepTarget (!second) (b.pulse second).sweep.negate (b.pulse second).timer
            (b.pulse second).sweep.shift < 0x800 ∧
          (b.pulse second).volume.output = volume := by
  refine ⟨?_, ?_, ?_⟩
  · intro w b hwrite hretargets
    rw [(h.write hwrite).aimed_iff]
    obtain ⟨-, rfl⟩ := Apu.write_eq_ok.mp hwrite
    exact a.pulse_set_of_retargets hretargets
  · intro writes b hwrites hretargets
    obtain ⟨-, rfl⟩ := Apu.writeAll_eq_ok.mp hwrites
    exact a.target_setAll hretargets
  · intro front w back b hwrites hretargets hback
    obtain ⟨htaken, rfl⟩ := Apu.writeAll_eq_ok.mp hwrites
    have haimed : ((a.setAll (front ++ w :: back)).pulse second).Aimed second := by
      rw [(h.setAll htaken).aimed_iff, Apu.setAll_append, Apu.setAll_cons]
      exact Apu.targetOf_setAll _ hback (Apu.pulse_set_of_retargets _ hretargets)
    exact ⟨haimed, fun volume => haimed.audible?_eq_some⟩

/-- The second pulse, turned down by half before the low half of its period is written:
up, the sweep would leave the range. -/
theorem aimed_of_retargets_falling :
    ∃ b, (Apu.new .pal).step.writeAll [.place .pulse2 .constantVolume 1 0,
        .place .pulse2 .volume 9 0, .place .pulse2 .timerHigh 7 0,
        .place .pulse2 .sweepNegate 1 0, .place .pulse2 .sweepShift 1 0,
        .place .pulse2 .timerLow 0xFE 0, .place .pulse2 .lengthLoad 0 0] = .ok b ∧
      (b.pulse true).Aimed true ∧ (b.pulse true).sweep.target = 0x3FF ∧
      (b.pulse true).audible? = some 9 := by
  have hreach : Reachable .pal (Apu.new .pal).step := Reachable.new.step
  let front : List ParamWrite := [.place .pulse2 .constantVolume 1 0,
    .place .pulse2 .volume 9 0, .place .pulse2 .timerHigh 7 0, .place .pulse2 .sweepNegate 1 0,
    .place .pulse2 .sweepShift 1 0]
  let back : List ParamWrite := [.place .pulse2 .lengthLoad 0 0]
  have hwrites := Apu.writeAll_eq_ok.mpr
    ⟨show ∀ w ∈ front ++ .place .pulse2 .timerLow 0xFE 0 :: back, w.taken by decide,
      (rfl : (Apu.new .pal).step.setAll _ = _)⟩
  obtain ⟨haimed, hsounds⟩ :=
    (aimed_of_retargets hreach true).2.2 front _ back _ hwrites rfl (by decide)
  exact ⟨_, hwrites, haimed, by decide +kernel, (hsounds 9).mpr (by decide +kernel)⟩

/-- The first pulse at period 0x400, where an upward sweep leaves the range: turned down by
a write of the direction alone, it keeps the target and stays mute. -/
theorem aimed_of_retargets_turned :
    ∃ a b, Reachable .ntsc a ∧ a.write .pulse1 .sweepNegate 1 = .ok b ∧
      ¬ (b.pulse false).Aimed false ∧ (b.pulse false).sweep.target = 0x800 ∧
      sweepTarget true true 0x400 0 = -1 ∧ (b.pulse false).audible? = none ∧
      (b.pulse false).retarget.audible? = some 15 := by
  let writes : List ParamWrite :=
    [.place .pulse1 .constantVolume 1 0, .place .pulse1 .volume 15 0,
      .place .pulse1 .timerLow 0 0, .place .pulse1 .lengthLoad 0 0,
      .place .pulse1 .timerHigh 4 0, .place .pulse1 .sweepEnable 0 0]
  have hreach : Reachable .ntsc ((Apu.new .ntsc).step.setAll writes) :=
    Reachable.new.step.setAll (by decide)
  refine ⟨_, _, hreach, rfl, ?_⟩
  decide +kernel

end ApuScore

import ApuScore.Proofs.Reachable
import ApuScore.Score.Scribe
/-
  Voices that hold a slot.

  A voice holds a slot when its registers are as the scribe's memory has them and
  nothing on the chip moves them: the length counter is halted, the volume constant,
  the sweep off. Such a voice holds the slot through every tick, shows it, and
  holds the next slot behind the writes that lead there. The triangle also waits
  for its linear counter, which `Triangle.Holds` leaves open.
-/

namespace ApuScore

/-! ## Gates -/

/-- A halted length counter that is open and loaded, or shut and empty. -/
structure LengthCounter.Holds (on : Bool) (c : LengthCounter) : Prop where
  halt : c.halt = true
  enabled : c.enabled = on
  count : c.count = 0 ↔ on = false

namespace LengthCounter

/-- The counter behind `gateWrites`. -/
def regate (before after : Bool) (c : LengthCounter) : LengthCounter :=
  if before == after then c else c.enable after

/-- The counter behind a load of the first table entry, if it is `needed`. -/
def reload (needed : Bool) (c : LengthCounter) : LengthCounter :=
  if needed then c.load 0 else c

theorem reload_halt (c : LengthCounter) (needed : Bool) : (c.reload needed).halt = c.halt := by
  unfold reload load
  split
  · split <;> rfl
  · rfl

theorem reload_enabled (c : LengthCounter) (needed : Bool) :
    (c.reload needed).enabled = c.enabled := by
  unfold reload load
  split
  · split <;> rfl
  · rfl

theorem reload_count (c : LengthCounter) (needed : Bool) :
    (c.reload needed).count = if needed && c.enabled then 10 else c.count := by
  obtain ⟨enabled, halt, count⟩ := c
  cases needed <;> cases enabled <;> rfl

namespace Holds

variable {before after : Bool} {c : LengthCounter} (h : c.Holds before)
include h

theorem clock : c.clock = c := by
  rw [LengthCounter.clock, if_pos h.halt]

theorem regate_halt : (c.regate before after).halt = true := by
  unfold regate
  split <;> exact h.halt

theorem regate_enabled : (c.regate before after).enabled = after := by
  unfold regate
  split
  · rename_i hsame
    rw [h.enabled, eq_of_beq hsame]
  · rfl

theorem regate_count_shut : (c.regate before false).count = 0 := by
  cases before with
  | false => exact h.count.mpr rfl
  | true => rfl

/-- A gate that opens must be followed by a load. -/
theorem follow {loads : Bool} (hload : before = false → after = true → loads = true) :
    ((c.regate before after).reload loads).Holds after := by
  refine ⟨?_, ?_, ?_⟩
  · rw [reload_halt, h.regate_halt]
  · rw [reload_enabled, h.regate_enabled]
  · rw [reload_count, h.regate_enabled]
    cases after with
    | false => simp only [Bool.and_false, Bool.false_eq_true, if_false, h.regate_count_shut]
    | true =>
      cases loads with
      | true => simp only [Bool.and_self, if_true, reduceCtorEq]
      | false =>
        -- without a load the gate was open before, and its counter is untouched
        have hopen : before = true := by
          cases before with
          | true => rfl
          | false => cases hload rfl rfl
        subst hopen
        exact h.count

end Holds

end LengthCounter

theorem LengthCounter.Holds.count_bne {α : Type} [BEq α] [LawfulBEq α] {x y : α}
    {c : LengthCounter} (h : c.Holds (x != y)) : c.count = 0 ↔ x = y :=
  h.count.trans bne_eq_false_iff_eq

/-! ## Memory -/

theorem eq_of_not_bne {α : Type} [BEq α] [LawfulBEq α] {after before : α}
    (h : ¬ (after != before) = true) : after = before :=
  bne_eq_false_iff_eq.mp (Bool.not_eq_true _ ▸ h)

theorem eq_of_not_needed {after before : UInt8} (h : ¬ (after != 0 && after != before) = true)
    (hne : after ≠ 0) : after = before := by
  rw [bne_iff_ne.mpr hne, Bool.true_and] at h
  exact eq_of_not_bne h

theorem foldl_whenNeeded {α : Type} (hear : α → ParamWrite → α) (a : α) (needed : Bool)
    (writes : List ParamWrite) :
    (whenNeeded needed writes).foldl hear a = if needed then writes.foldl hear a else a := by
  cases needed <;> rfl

/-! ## The pulses -/

/-- A pulse that nothing on the chip moves: its volume is constant, its sweep off,
and its shift of 7 mutes no period up to 2032. -/
structure Pulse.Plain (p : Pulse) : Prop where
  constant : p.volume.constant = true
  off : p.sweep.enabled = false
  upward : p.sweep.negate = false
  shift : p.sweep.shift = 7
  target : p.sweep.target = p.targetOf

/-- A plain pulse with the given length counter, duty, volume register and period. -/
structure Pulse.At (c : LengthCounter) (duty level : UInt8) (timer : Nat) (p : Pulse) : Prop
    extends p.Plain where
  length : p.length = c
  duty : p.duty = duty
  level : p.volume.level = level
  timer : p.timer = timer

/-- A pulse that holds a slot. In silence the volume register may be anything. -/
structure Pulse.Holds (s : Slot) (p : Pulse) : Prop extends p.Plain where
  length : p.length.Holds (s.period != 0)
  duty : p.duty = s.timbre
  level : s.period ≠ 0 → p.volume.level = s.volume
  timer : p.timer = s.period

namespace Pulse

/-- A tick moves only the envelope, which the constant volume hides. -/
theorem Holds.tick {s : Slot} {p : Pulse} (h : p.Holds s) (t : Tick) : (p.tick t).Holds s := by
  have hquarter : ∀ q : Pulse, q.Holds s → q.quarterFrame.Holds s := fun _ hq => { hq with }
  have hhalf : ∀ q : Pulse, q.Holds s → q.halfFrame.Holds s := by
    intro q hq
    have hoff : ¬ q.sweep.enabled = true := by
      rw [hq.off]
      exact Bool.false_ne_true
    rw [halfFrame, hq.length.clock, clockSweep, if_neg hoff]
    exact hq
  exact t.keeps hquarter hhalf h

theorem hear_place (v : Voice) (param : Param) (value : UInt8) (atom : Nat) (p : Pulse) :
    p.hear (.place v.channel param value atom) = p.write param value := by
  cases v <;> rfl

theorem hear_enable (v : Voice) (on : Bool) (p : Pulse) :
    p.hear (enableWrite v on) = { p with length := p.length.enable on } := by
  cases v <;> cases on <;> rfl

namespace At

variable {c : LengthCounter} {duty level : UInt8} {timer : Nat} {p : Pulse}
  (h : p.At c duty level timer) (v : Voice)
include h

theorem gate (before after : Bool) :
    ((gateWrites v before after).foldl hear p).At (c.regate before after) duty level timer := by
  unfold gateWrites LengthCounter.regate
  split
  · exact h
  · rw [List.foldl_cons, List.foldl_nil, hear_enable]
    exact { h with length := by rw [h.length] }

theorem setDuty (needed : Bool) (value : UInt8) :
    ((whenNeeded needed [.place v.channel .duty value 0]).foldl hear p).At c
      (if needed then value else duty) level timer := by
  rw [foldl_whenNeeded, List.foldl_cons, List.foldl_nil, hear_place]
  cases needed with
  | false => exact h
  | true => exact { h with duty := rfl }

theorem setLevel (needed : Bool) (value : UInt8) :
    ((whenNeeded needed [.place v.channel .volume value 0]).foldl hear p).At c duty
      (if needed then value else level) timer := by
  rw [foldl_whenNeeded, List.foldl_cons, List.foldl_nil, hear_place]
  cases needed with
  | false => exact h
  | true => exact { h with level := rfl }

theorem setTimer (next : Nat) : (p.setTimer next).At c duty level next :=
  { h with target := rfl, timer := rfl }

theorem setLow (needed : Bool) (low : UInt8) :
    ((whenNeeded needed [.place v.channel .timerLow low 0]).foldl hear p).At c duty level
      (if needed then withLow timer low else timer) := by
  rw [foldl_whenNeeded, List.foldl_cons, List.foldl_nil, hear_place]
  cases needed with
  | false => exact h
  | true =>
    rw [← h.timer]
    exact h.setTimer _

theorem setHigh (needed : Bool) (high : UInt8) :
    ((whenNeeded needed (highWrites v.channel high)).foldl hear p).At (c.reload needed) duty level
      (if needed then withHigh timer high else timer) := by
  rw [foldl_whenNeeded, highWrites, List.foldl_cons, List.foldl_cons, List.foldl_nil, hear_place,
    hear_place]
  cases needed with
  | false => exact h
  | true =>
    have htimer := h.setTimer (withHigh timer high)
    rw [← h.timer] at htimer ⊢
    exact { htimer with length := by rw [← h.length]; rfl }

end At

/-- Whether the writes to a slot load the length counter. -/
def loads (before after : Slot) : Bool :=
  decide (before.period = 0 ∧ after.period ≠ 0) || after.high != before.high

/-- The period register behind the writes to a slot. -/
def timerBehind (before after : Slot) : Nat :=
  let low := if after.low != before.low then withLow before.period after.low else before.period
  if loads before after then withHigh low after.high else low

theorem At.follow {c : LengthCounter} {level : UInt8} {before : Slot} {p : Pulse}
    (h : p.At c before.timbre level before.period) (v : Voice) (after : Slot) :
    ((pulseWrites v before after).foldl hear p).At
      ((c.regate (before.period != 0) (after.period != 0)).reload (loads before after))
      (if after.timbre != before.timbre then after.timbre else before.timbre)
      (if after.volume != 0 && after.volume != before.volume then after.volume else level)
      (timerBehind before after) := by
  simp only [pulseWrites, List.foldl_append]
  exact ((((h.gate v _ _).setDuty v _ _).setLevel v _ _).setLow v _ _).setHigh v _ _

/-- Only the changed bytes of a period are written, and they make the period. -/
theorem timerBehind_eq {before after : Slot} (hbefore : before.high.toNat ≤ 7)
    (hafter : after.high.toNat ≤ 7) : timerBehind before after = after.period := by
  have hlow := after.low.toNat_lt
  have hlow' := before.low.toNat_lt
  have hbase : (if after.low != before.low then withLow before.period after.low
      else before.period) = before.high.toNat * 256 + after.low.toNat := by
    split
    · unfold withLow Slot.period
      omega
    · rename_i hsame
      rw [Slot.period, eq_of_not_bne hsame]
  unfold timerBehind
  dsimp only
  rw [hbase]
  split
  · unfold withHigh Slot.period
    omega
  · rename_i hnot
    rw [loads, Bool.or_eq_true, not_or, bne_iff_ne] at hnot
    rw [Slot.period, Decidable.not_not.mp hnot.2]

end Pulse

theorem Slot.of_period (s : Slot) :
    (⟨UInt8.ofNat (s.period / 256), UInt8.ofNat (s.period % 256), s.volume, s.timbre⟩ : Slot) =
      s := by
  have hlow := s.low.toNat_lt
  have hhigh : s.period / 256 = s.high.toNat := by unfold period; omega
  have hrest : s.period % 256 = s.low.toNat := by unfold period; omega
  rw [hhigh, hrest, UInt8.ofNat_toNat, UInt8.ofNat_toNat]

theorem Slot.eq_silent {s : Slot} (hperiod : s.period = 0) (hvolume : s.volume = 0) :
    s = { Slot.zero with timbre := s.timbre } := by
  have hbytes := s.of_period
  rw [hperiod, hvolume] at hbytes
  exact hbytes.symm

theorem Slot.IsPulse.volume_ne_zero {limit : Nat} {s : Slot} (h : s.IsPulse limit) :
    s.period ≠ 0 ↔ s.volume ≠ 0 := by
  rcases h.sounds with ⟨hperiod, hvolume⟩ | ⟨hperiod, -, hvolume, -⟩
  · simp only [hperiod, hvolume, ne_eq, not_true_eq_false]
  · have hne : s.volume ≠ 0 := by
      intro hzero
      rw [hzero] at hvolume
      cases hvolume
    exact ⟨fun _ => hne, fun _ => by omega⟩

theorem Slot.IsPulse.volume_le {limit : Nat} {s : Slot} (h : s.IsPulse limit) :
    s.volume.toNat ≤ 15 := by
  rcases h.sounds with ⟨-, hzero⟩ | ⟨-, -, -, hle⟩
  · rw [hzero]
    decide
  · exact hle

theorem Slot.IsPulse.high_le {limit : Nat} {s : Slot} (h : s.IsPulse limit) (hl : limit ≤ 0x7FF) :
    s.high.toNat ≤ 7 := by
  have hsounds := h.sounds
  unfold Slot.period at hsounds
  omega

namespace Pulse

theorem Holds.follow {limit : Nat} {before after : Slot} {p : Pulse} (h : p.Holds before)
    (hbefore : before.IsPulse limit) (hafter : after.IsPulse limit) (v : Voice)
    (hlimit : limit ≤ 0x7FF := by decide) :
    ((pulseWrites v before after).foldl hear p).Holds after := by
  have hat : p.At p.length before.timbre p.volume.level before.period :=
    { h with length := rfl, level := rfl }
  have hnow := hat.follow v after
  refine { hnow with length := ?_, duty := ?_, level := ?_, timer := ?_ }
  · rw [hnow.length]
    apply h.length.follow
    intro hshut hopen
    rw [bne_eq_false_iff_eq] at hshut
    rw [bne_iff_ne] at hopen
    rw [loads, decide_eq_true ⟨hshut, hopen⟩, Bool.true_or]
  · rw [hnow.duty]
    split
    · rfl
    · rename_i hsame
      exact (eq_of_not_bne hsame).symm
  · intro hsounds
    rw [hnow.level]
    have hvolume := hafter.volume_ne_zero.mp hsounds
    split
    · rfl
    · -- a volume that is not written again is still in the register
      rename_i hsame
      have heq := eq_of_not_needed hsame hvolume
      rw [heq] at hvolume ⊢
      exact h.level (hbefore.volume_ne_zero.mpr hvolume)
  · rw [hnow.timer, timerBehind_eq (hbefore.high_le hlimit) (hafter.high_le hlimit)]

end Pulse

/-- What is left of a slot behind the scribe: a period above 2032 is mute there. -/
def Slot.scribed (s : Slot) : Slot :=
  if s.period ≤ 2032 then s else { Slot.zero with timbre := s.timbre }

theorem Slot.scribed_of_le {s : Slot} (h : s.period ≤ 2032) : s.scribed = s := if_pos h

theorem Slot.IsPulse.scribed_eq {s : Slot} (h : s.IsPulse 2032) : s.scribed = s := by
  have hsounds := h.sounds
  exact Slot.scribed_of_le (by omega)

namespace Pulse

/-- The shift of 7 adds a 128th to a period, which leaves exactly the periods up to
2032 below 0x800. -/
theorem Plain.inRange_iff {p : Pulse} (h : p.Plain) :
    p.inRange = true ↔ 8 ≤ p.timer ∧ p.timer ≤ 2032 := by
  have htarget : p.targetOf = (p.timer : Int) + (p.timer / 128 : Nat) := by
    rw [targetOf, h.upward, h.shift, Nat.shiftRight_eq_div_pow]
    rfl
  rw [inRange, h.target, htarget, Bool.and_eq_true, decide_eq_true_iff, decide_eq_true_iff]
  omega

/-- A pulse that holds a slot shows it, unless its period is mute. -/
theorem Holds.slot_eq {limit : Nat} {s : Slot} {p : Pulse} (h : p.Holds s)
    (hs : s.IsPulse limit) : p.slot = s.scribed := by
  unfold Pulse.slot
  rcases hs.sounds with ⟨hperiod, hvolume⟩ | ⟨hmin, -, hpos, -⟩
  · have hcount : p.length.count = 0 := h.length.count_bne.mpr hperiod
    rw [audible?, if_pos hcount, h.duty, Slot.scribed_of_le (by omega)]
    exact (Slot.eq_silent hperiod hvolume).symm
  · have hsounds : s.period ≠ 0 := by omega
    have hcount : p.length.count ≠ 0 := mt h.length.count_bne.mp hsounds
    have houtput : p.volume.output = s.volume := by
      rw [VolumeUnit.output, if_pos h.constant, h.level hsounds]
    have hrange := h.inRange_iff
    rw [h.timer] at hrange
    by_cases hmax : s.period ≤ 2032
    · have haudible : p.audible? = some s.volume :=
        audible?_eq_some.mpr ⟨hcount, by rw [houtput]; exact hpos, hrange.mpr ⟨hmin, hmax⟩, houtput⟩
      rw [haudible, h.timer, h.duty, Slot.scribed_of_le hmax]
      exact s.of_period
    · have hmute : p.audible? = none := by
        rw [audible?, if_neg hcount, if_neg fun hboth => hmax (hrange.mp hboth.2).2]
      rw [hmute, h.duty, Slot.scribed, if_neg hmax]

end Pulse

/-! ## The noise -/

/-- A noise at a constant volume, with the given length counter, volume register,
loop flag and period register. -/
structure Noise.At (c : LengthCounter) (level : UInt8) (looping : Bool) (period : UInt8)
    (n : Noise) : Prop where
  constant : n.volume.constant = true
  length : n.length = c
  level : n.volume.level = level
  looping : n.looping = looping
  period : n.period = period

/-- A noise that holds a slot. In silence volume and period registers may be
anything. -/
structure Noise.Holds (s : Slot) (n : Noise) : Prop where
  constant : n.volume.constant = true
  length : n.length.Holds (s.low != 0)
  level : s.low ≠ 0 → n.volume.level = s.volume
  looping : n.looping = (s.timbre != 0)
  period : s.low ≠ 0 → n.period = 16 - s.low

theorem Slot.IsNoise.volume_ne_zero {s : Slot} (h : s.IsNoise) : s.low ≠ 0 ↔ s.volume ≠ 0 := by
  have hne : ∀ b : UInt8, 1 ≤ b.toNat → b ≠ 0 := by
    intro b hpos hzero
    rw [hzero] at hpos
    cases hpos
  rcases h.sounds with ⟨hlow, hvolume⟩ | ⟨hlow, -, hvolume, -⟩
  · rw [hlow, hvolume]
  · exact ⟨fun _ => hne _ hvolume, fun _ => hne _ hlow⟩

theorem Slot.IsNoise.volume_le {s : Slot} (h : s.IsNoise) : s.volume.toNat ≤ 15 := by
  rcases h.sounds with ⟨-, hzero⟩ | ⟨-, -, -, hle⟩
  · rw [hzero]
    decide
  · exact hle

namespace Noise

theorem Holds.tick {s : Slot} {n : Noise} (h : n.Holds s) (t : Tick) : (n.tick t).Holds s := by
  have hquarter : ∀ m : Noise, m.Holds s →
      Holds s { m with volume := m.volume.clock m.length.halt } := fun _ hm => { hm with }
  have hhalf : ∀ m : Noise, m.Holds s → Holds s { m with length := m.length.clock } := by
    intro m hm
    rw [hm.length.clock]
    exact hm
  exact t.keeps hquarter hhalf h

theorem hear_place (param : Param) (value : UInt8) (atom : Nat) (n : Noise) :
    n.hear (.place .noise param value atom) = n.write param value := rfl

theorem hear_enable (on : Bool) (n : Noise) :
    n.hear (enableWrite .noise on) = { n with length := n.length.enable on } := by
  cases on <;> rfl

namespace At

variable {c : LengthCounter} {level period : UInt8} {looping : Bool} {n : Noise}
  (h : n.At c level looping period)
include h

theorem gate (before after : Bool) :
    ((gateWrites .noise before after).foldl hear n).At (c.regate before after) level looping
      period := by
  unfold gateWrites LengthCounter.regate
  split
  · exact h
  · rw [List.foldl_cons, List.foldl_nil, hear_enable]
    exact { h with length := by rw [h.length] }

theorem setLevel (needed : Bool) (value : UInt8) :
    ((whenNeeded needed [.place .noise .volume value 0]).foldl hear n).At c
      (if needed then value else level) looping period := by
  rw [foldl_whenNeeded, List.foldl_cons, List.foldl_nil, hear_place]
  cases needed with
  | false => exact h
  | true => exact { h with level := rfl }

theorem setLooping (needed : Bool) (value : UInt8) :
    ((whenNeeded needed [.place .noise .noiseLoop value 0]).foldl hear n).At c level
      (if needed then value != 0 else looping) period := by
  rw [foldl_whenNeeded, List.foldl_cons, List.foldl_nil, hear_place]
  cases needed with
  | false => exact h
  | true => exact { h with looping := rfl }

theorem setPeriod (needed : Bool) (value : UInt8) :
    ((whenNeeded needed [.place .noise .noisePeriod value 0,
      .place .noise .lengthLoad 0 0]).foldl hear n).At (c.reload needed) level looping
      (if needed then value else period) := by
  rw [foldl_whenNeeded, List.foldl_cons, List.foldl_cons, List.foldl_nil, hear_place, hear_place]
  cases needed with
  | false => exact h
  | true => exact { h with length := by rw [← h.length]; rfl, period := rfl }

theorem follow (before after : Slot) :
    ((noiseWrites before after).foldl hear n).At
      ((c.regate (before.low != 0) (after.low != 0)).reload
        (after.low != 0 && after.low != before.low))
      (if after.volume != 0 && after.volume != before.volume then after.volume else level)
      (if after.timbre != before.timbre then after.timbre != 0 else looping)
      (if after.low != 0 && after.low != before.low then noisePeriodOf after.low else period) := by
  simp only [noiseWrites, List.foldl_append]
  exact (((h.gate _ _).setLevel _ _).setLooping _ _).setPeriod _ _

end At

theorem Holds.follow {before after : Slot} {n : Noise} (h : n.Holds before)
    (hbefore : before.IsNoise) (hafter : after.IsNoise) :
    ((noiseWrites before after).foldl hear n).Holds after := by
  have hat : n.At n.length n.volume.level n.looping n.period :=
    { h with length := rfl, level := rfl, looping := rfl, period := rfl }
  have hnow := hat.follow before after
  refine { hnow with length := ?_, level := ?_, looping := ?_, period := ?_ }
  · rw [hnow.length]
    apply h.length.follow
    intro hshut hopen
    rw [bne_eq_false_iff_eq] at hshut
    rw [bne_iff_ne] at hopen
    rw [Bool.and_eq_true, bne_iff_ne, bne_iff_ne, hshut]
    exact ⟨hopen, hopen⟩
  · intro hsounds
    rw [hnow.level]
    have hvolume := hafter.volume_ne_zero.mp hsounds
    split
    · rfl
    · -- a volume that is not written again is still in the register
      rename_i hsame
      have heq := eq_of_not_needed hsame hvolume
      rw [heq] at hvolume ⊢
      exact h.level (hbefore.volume_ne_zero.mpr hvolume)
  · rw [hnow.looping]
    split
    · rfl
    · rename_i hsame
      rw [eq_of_not_bne hsame, h.looping]
  · intro hsounds
    rw [hnow.period]
    split
    · rcases hafter.sounds with ⟨hsilent, -⟩ | ⟨-, hle, -, -⟩
      · exact absurd hsilent hsounds
      · rw [noisePeriodOf, if_pos (UInt8.le_iff_toNat_le.mpr hle)]
    · rename_i hsame
      have heq := eq_of_not_needed hsame hsounds
      rw [heq] at hsounds ⊢
      exact h.period hsounds

theorem Holds.slot {s : Slot} {n : Noise} (h : n.Holds s) (hs : s.IsNoise) : n.slot = s := by
  have htimbre : (if n.looping then 1 else 0 : UInt8) = s.timbre := by
    have hle := hs.timbre
    rw [h.looping]
    by_cases hzero : s.timbre = 0
    · rw [hzero]
      rfl
    · have hne : s.timbre.toNat ≠ 0 := fun h0 => hzero (UInt8.toNat_inj.mp h0)
      rw [if_pos (bne_iff_ne.mpr hzero)]
      exact UInt8.toNat_inj.mp (show 1 = s.timbre.toNat by omega)
  unfold Noise.slot
  dsimp only
  rw [htimbre]
  rcases hs.sounds with ⟨hlow, hvolume⟩ | ⟨hlow, -, hpos, -⟩
  · have hcount : n.length.count = 0 := h.length.count_bne.mpr hlow
    rw [audible?, if_pos hcount]
    have hperiod : s.period = 0 := by
      rw [Slot.period, hs.high, hlow]
      rfl
    exact (Slot.eq_silent hperiod hvolume).symm
  · have hsounds : s.low ≠ 0 := by
      intro hzero
      rw [hzero] at hlow
      cases hlow
    have hcount : n.length.count ≠ 0 := mt h.length.count_bne.mp hsounds
    have houtput : n.volume.output = s.volume := by
      rw [VolumeUnit.output, if_pos h.constant, h.level hsounds]
    have hback : 16 - (16 - s.low) = s.low := by grind
    have hloud : 0 < s.volume :=
      UInt8.lt_iff_toNat_lt.mpr (show (0 : UInt8).toNat < s.volume.toNat from hpos)
    have haudible : n.audible? = some s.volume :=
      audible?_eq_some.mpr ⟨hcount, by rw [houtput]; exact hloud, houtput⟩
    rw [haudible, h.period hsounds, hback, ← hs.high]

end Noise

/-! ## The triangle -/

/-- A triangle that holds a slot, whatever its linear counter stands at. -/
structure Triangle.Holds (s : Slot) (t : Triangle) : Prop where
  length : t.length.Holds (s.period != 0)
  reloadValue : t.reloadValue = 127
  timer : t.timer = s.period

namespace Triangle

variable {before after s : Slot} {t : Triangle}

theorem hear_place (param : Param) (value : UInt8) (atom : Nat) (t : Triangle) :
    t.hear (.place .triangle param value atom) = t.write param value := rfl

theorem hear_enable (on : Bool) (t : Triangle) :
    t.hear (enableWrite .triangle on) = { t with length := t.length.enable on } := by
  cases on <;> rfl

/-- Behind the scribe's writes the triangle reloads its linear counter if it did so
before or if the period changes. -/
theorem foldl_triangleWrites (before after : Slot) (t : Triangle) :
    (triangleWrites before after).foldl hear t =
      { t with
        length := (t.length.regate (before.period != 0) (after.period != 0)).reload
          (after.period != before.period)
        timer := if after.period != before.period then
          withHigh (withLow t.timer after.low) after.high else t.timer
        reload := t.reload || after.period != before.period } := by
  have hgate : ∀ b a : Bool, (gateWrites .triangle b a).foldl hear t =
      { t with length := t.length.regate b a } := by
    intro b a
    unfold gateWrites LengthCounter.regate
    split
    · rfl
    · rw [List.foldl_cons, List.foldl_nil, hear_enable]
  rw [triangleWrites, List.foldl_append, hgate, foldl_whenNeeded]
  cases after.period != before.period with
  | false => simp only [Bool.false_eq_true, if_false, LengthCounter.reload, Bool.or_false]
  | true =>
    simp only [highWrites, List.foldl_cons, List.foldl_nil, if_true, Bool.or_true,
      LengthCounter.reload]
    rfl

theorem Holds.follow (h : t.Holds before) (hafter : after.IsTriangle) :
    ((triangleWrites before after).foldl hear t).Holds after := by
  have hhigh := hafter.high
  have hlow := after.low.toNat_lt
  rw [foldl_triangleWrites]
  refine ⟨h.length.follow ?_, h.reloadValue, ?_⟩
  · intro hshut hopen
    rw [bne_eq_false_iff_eq] at hshut
    rw [hshut]
    exact hopen
  · dsimp only
    split
    · unfold withHigh withLow Slot.period
      omega
    · rename_i hsame
      rw [h.timer, eq_of_not_bne hsame]

/-- A tick moves only the linear counter: a quarter frame fills it if it reloads. -/
theorem Holds.tick_eq (h : t.Holds s) (k : Tick) :
    t.tick k = { t with
      linear := if k.quarter then (if t.reload then 127 else t.linear - 1) else t.linear } := by
  have hlength : t.length.clock = t.length := h.length.clock
  have hlinear : t.clockLinear =
      { t with linear := if t.reload then 127 else t.linear - 1 } := by
    rw [clockLinear, h.length.halt, h.reloadValue, Bool.and_true]
    rfl
  unfold Triangle.tick
  cases k.quarter <;> cases k.half <;> simp only [Bool.false_eq_true, if_false, if_true, hlinear,
    hlength]

theorem Holds.tick (h : t.Holds s) (k : Tick) : (t.tick k).Holds s := by
  rw [h.tick_eq]
  exact { h with }

theorem slot_of_linear_eq_zero (h : t.linear = 0) : t.slot = Slot.zero := by
  rw [slot, audible, h]
  simp only [Nat.lt_irrefl, decide_false, Bool.and_false, Bool.false_eq_true, if_false]

theorem Holds.slot (h : t.Holds s) (hs : s.IsTriangle) (hlinear : t.linear ≠ 0) :
    t.slot = s := by
  have hbytes := s.of_period
  rw [hs.volume, hs.timbre] at hbytes
  unfold Triangle.slot audible
  rw [decide_eq_true (Nat.pos_of_ne_zero hlinear), Bool.and_true, h.timer]
  by_cases hperiod : s.period = 0
  · have hcount : t.length.count = 0 := h.length.count_bne.mpr hperiod
    rw [hcount, if_neg (by decide)]
    rw [hperiod] at hbytes
    exact hbytes
  · have hcount : t.length.count ≠ 0 := mt h.length.count_bne.mp hperiod
    rw [if_pos (decide_eq_true (Nat.pos_of_ne_zero hcount))]
    exact hbytes

end Triangle

end ApuScore

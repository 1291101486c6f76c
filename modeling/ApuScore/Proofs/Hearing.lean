import ApuScore.Proofs.Settling
/-
  What a voice makes of the registers that it hears again.

  The physical writes of a frame set all fields of every register that it touches, those
  that the frame does not change among them. A voice whose other fields the file holds
  ends where the frame's own writes take it: a period byte or a volume is set to what it
  was, and the length counter is loaded exactly if the frame loads it. One lemma for
  each register of a voice, and one for what it hears of a whole run.
-/

namespace ApuScore

theorem LengthCounter.clock_of_halt {c : LengthCounter} (h : c.halt = true) : c.clock = c := by
  rw [clock, if_pos h]

theorem heard_own (v : Voice) (old r : Registers) (off : UInt8) :
    heard v old r [⟨v.channel, off, 0⟩] = (r.entry ⟨v.channel, off, 0⟩).writes := by
  show writesOf v (r.entry ⟨v.channel, off, 0⟩).writes ++ [] = _
  rw [List.append_nil]
  refine List.filter_eq_self.mpr fun w hw => ?_
  have hchannel : w.channel = v.channel := channel_writes w hw
  rw [ParamWrite.aims, hchannel, beq_self_eq_true, Bool.true_or]

def keyIf (needed : Bool) (k : WriteKey) : List WriteKey := if needed then [k] else []

/-- A register that is heard only when `needed` leads to `P` if it does when it is heard
and nothing else is missing when it is not. -/
theorem heard_keyIf {α : Type} (hear : α → ParamWrite → α) (P : α → Prop) {q : α} {v : Voice}
    {c : Channel} (hc : v.channel = c) (old r : Registers) (needed : Bool) (off : UInt8)
    (hwrite : needed = true → P ((r.entry ⟨c, off, 0⟩).writes.foldl hear q))
    (hskip : needed = false → P q) :
    P ((heard v old r (keyIf needed ⟨c, off, 0⟩)).foldl hear q) := by
  subst hc
  cases needed with
  | false => exact hskip rfl
  | true =>
    rw [keyIf, if_pos rfl, heard_own]
    exact hwrite rfl

/-! ## The pulses -/

namespace Pulse.At

variable {c : LengthCounter} {duty level : UInt8} {timer : Nat} {p q : Pulse}

theorem tick (h : p.At c duty level timer) (hc : c.halt = true) (t : Tick) :
    (p.tick t).At c duty level timer := by
  have hquarter : ∀ q : Pulse, q.At c duty level timer → q.quarterFrame.At c duty level timer :=
    fun _ hq => { hq with }
  have hhalf : ∀ q : Pulse, q.At c duty level timer → q.halfFrame.At c duty level timer := by
    intro q hq
    have hoff : ¬ q.sweep.enabled = true := by
      rw [hq.off]
      exact Bool.false_ne_true
    have hclock : q.length.clock = q.length := by
      rw [hq.length, LengthCounter.clock_of_halt hc]
    rw [halfFrame, hclock, clockSweep, if_neg hoff]
    exact hq
  exact t.keeps hquarter hhalf h

theorem slot_eq (h : p.At c duty level timer) (h' : q.At c duty level timer) :
    p.slot = q.slot := by
  have htarget : p.sweep.target = q.sweep.target := by
    rw [h.target, h'.target, targetOf, targetOf, h.upward, h'.upward, h.shift, h'.shift, h.timer,
      h'.timer]
    rfl
  have hrange : p.inRange = q.inRange := by
    rw [inRange, inRange, htarget, h.timer, h'.timer]
  have houtput : p.volume.output = q.volume.output := by
    rw [VolumeUnit.output, VolumeUnit.output, h.constant, h'.constant, h.level, h'.level]
    rfl
  rw [slot, slot, audible?, audible?, h.length, h'.length, houtput, hrange, h.timer, h'.timer,
    h.duty, h'.duty]

section
variable {v : Voice} (hv : v = .pulse1 ∨ v = .pulse2) {old r : Registers} {s : Slot}
  (hr : r.MirrorsPulse v.channel s)
include hv hr

/-- The first register: duty, halt, constant volume and volume. -/
theorem writeVolume (h : p.At c duty level timer) (hc : c.halt = true) :
    ((r.entry ⟨v.channel, 0, 0⟩).writes.foldl hear p).At c s.timbre
      (r.value v.channel .volume) timer := by
  have hwrites : (r.entry ⟨v.channel, 0, 0⟩).writes =
      [.place v.channel .duty (r.value v.channel .duty) 0,
        .place v.channel .lengthHalt (r.value v.channel .lengthHalt) 0,
        .place v.channel .constantVolume (r.value v.channel .constantVolume) 0,
        .place v.channel .volume (r.value v.channel .volume) 0] := by
    rcases hv with rfl | rfl <;> rfl
  have hhalt : ({ c with halt := true } : LengthCounter) = c := by rw [← hc]
  rw [hwrites, hr.duty, hr.halt, hr.constant]
  simp only [List.foldl_cons, List.foldl_nil, hear_place]
  exact { h with
    constant := rfl
    length := by rw [← hhalt, ← h.length]; rfl
    duty := rfl
    level := rfl }

/-- The third register: the low byte of the period. -/
theorem writeLow (h : p.At c duty level timer) :
    ((r.entry ⟨v.channel, 2, 0⟩).writes.foldl hear p).At c duty level (withLow timer s.low) := by
  have hwrites : (r.entry ⟨v.channel, 2, 0⟩).writes =
      [.place v.channel .timerLow (r.value v.channel .timerLow) 0] := by
    rcases hv with rfl | rfl <;> rfl
  rw [hwrites, hr.low, List.foldl_cons, List.foldl_nil, hear_place, ← h.timer]
  exact h.setTimer _

/-- The fourth register: a length load and the high byte of the period. -/
theorem writeHigh (h : p.At c duty level timer) :
    ((r.entry ⟨v.channel, 3, 0⟩).writes.foldl hear p).At (c.load 0) duty level
      (withHigh timer s.high) := by
  have hwrites : (r.entry ⟨v.channel, 3, 0⟩).writes =
      [.place v.channel .lengthLoad (r.value v.channel .lengthLoad) 0,
        .place v.channel .timerHigh (r.value v.channel .timerHigh) 0] := by
    rcases hv with rfl | rfl <;> rfl
  have hload : (p.write .lengthLoad 0).At (c.load 0) duty level timer :=
    { h with length := by rw [← h.length]; rfl }
  rw [hwrites, hr.load, hr.high, List.foldl_cons, List.foldl_cons, List.foldl_nil, hear_place,
    hear_place, ← h.timer]
  exact hload.setTimer _

end

end Pulse.At

theorem keys_pulseSets {v : Voice} (hv : v = .pulse1 ∨ v = .pulse2) (before after : Slot) :
    ((pulseSets v before after).map ParamWrite.key).foldl touchKey [] =
      keyIf (after.timbre != before.timbre ||
          after.volume != 0 && after.volume != before.volume) ⟨v.channel, 0, 0⟩ ++
        (keyIf (after.low != before.low) ⟨v.channel, 2, 0⟩ ++
        keyIf (Pulse.loads before after) ⟨v.channel, 3, 0⟩) := by
  unfold pulseSets
  generalize (after.timbre != before.timbre) = duty
  generalize (after.volume != 0 && after.volume != before.volume) = volume
  generalize (after.low != before.low) = low
  generalize Pulse.loads before after = loads
  rcases hv with rfl | rfl <;> cases duty <;> cases volume <;> cases low <;> cases loads <;> rfl

theorem Registers.MirrorsPulse.high_le {r : Registers} {v : Voice}
    (hv : v = .pulse1 ∨ v = .pulse2) {s : Slot} (h : r.MirrorsPulse v.channel s) :
    s.high.toNat ≤ 7 := by
  rw [← h.high]
  rcases hv with rfl | rfl
  · exact Nat.le_of_lt_succ (r.value_lt (show Channel.pulse1.find? .timerHigh = some _ from rfl))
  · exact Nat.le_of_lt_succ (r.value_lt (show Channel.pulse2.find? .timerHigh = some _ from rfl))

/-- The volume register behind the writes to a slot. -/
def Slot.levelBehind (before after : Slot) (level : UInt8) : UInt8 :=
  if after.volume != 0 && after.volume != before.volume then after.volume else level

theorem Pulse.At.heard_own {c : LengthCounter} {q : Pulse} {v : Voice}
    (hv : v = .pulse1 ∨ v = .pulse2) {old r : Registers} {before after : Slot} {level : UInt8}
    (hr : r.MirrorsPulse v.channel after) (hbefore : before.high.toNat ≤ 7)
    (hlevel : r.value v.channel .volume = before.levelBehind after level) (hc : c.halt = true)
    (h : q.At c before.timbre level before.period) :
    ((heard v old r (((pulseSets v before after).map ParamWrite.key).foldl touchKey [])).foldl
      Pulse.hear q).At (c.reload (Pulse.loads before after)) after.timbre
        (r.value v.channel .volume) after.period := by
  have hlt := before.low.toNat_lt
  have hlt' := after.low.toNat_lt
  have hafter := hr.high_le hv
  rw [keys_pulseSets hv, heard_append, heard_append, List.foldl_append, List.foldl_append]
  -- a register that is not written again holds what it held
  have hvolume := heard_keyIf Pulse.hear
    (fun q => q.At c after.timbre (r.value v.channel .volume) before.period) rfl old r
    (after.timbre != before.timbre || after.volume != 0 && after.volume != before.volume) 0
    (fun _ => h.writeVolume hv hr hc)
    (fun hsame => by
      rw [Bool.or_eq_false_iff] at hsame
      rw [hlevel, Slot.levelBehind, hsame.2, bne_eq_false_iff_eq.mp hsame.1]
      exact h)
  have hlow := heard_keyIf Pulse.hear
    (fun q => q.At c after.timbre (r.value v.channel .volume)
      (before.high.toNat * 256 + after.low.toNat)) rfl old r (after.low != before.low) 2
    (fun _ => by
      have hwrite := hvolume.writeLow hv hr
      have htimer : withLow before.period after.low =
          before.high.toNat * 256 + after.low.toNat := by
        unfold withLow Slot.period
        omega
      rwa [htimer] at hwrite)
    (fun hsame => by
      rw [bne_eq_false_iff_eq.mp hsame]
      exact hvolume)
  refine heard_keyIf Pulse.hear (fun q => q.At (c.reload (Pulse.loads before after)) after.timbre
    (r.value v.channel .volume) after.period) rfl old r (Pulse.loads before after) 3 ?_ ?_
  · intro hloads
    have hwrite := hlow.writeHigh hv hr
    have htimer : withHigh (before.high.toNat * 256 + after.low.toNat) after.high =
        after.period := by
      unfold withHigh Slot.period
      omega
    rw [htimer] at hwrite
    rw [hloads]
    exact hwrite
  · intro hloads
    have hhigh := @high_of_loads before after
    rw [hloads, if_neg Bool.false_ne_true] at hhigh
    rw [hhigh] at hlow
    rw [hloads]
    exact hlow

/-! ## The noise -/

namespace Noise.At

variable {c : LengthCounter} {level period : UInt8} {looping : Bool} {n m : Noise}

theorem tick (h : n.At c level looping period) (hc : c.halt = true) (t : Tick) :
    (n.tick t).At c level looping period := by
  have hquarter : ∀ k : Noise, k.At c level looping period →
      Noise.At c level looping period { k with volume := k.volume.clock k.length.halt } :=
    fun _ hk => { hk with }
  have hhalf : ∀ k : Noise, k.At c level looping period →
      Noise.At c level looping period { k with length := k.length.clock } := by
    intro k hk
    have hclock : k.length.clock = k.length := by
      rw [hk.length, LengthCounter.clock_of_halt hc]
    rw [hclock]
    exact hk
  exact t.keeps hquarter hhalf h

theorem slot_eq (h : n.At c level looping period) (h' : m.At c level looping period) :
    n.slot = m.slot := by
  have houtput : n.volume.output = m.volume.output := by
    rw [VolumeUnit.output, VolumeUnit.output, h.constant, h'.constant, h.level, h'.level]
    rfl
  rw [slot, slot, audible?, audible?, h.length, h'.length, houtput, h.looping, h'.looping,
    h.period, h'.period]

section
variable {r : Registers} {s : Slot} (hr : r.MirrorsNoise s)
include hr

/-- The first register: halt, constant volume and volume. -/
theorem writeVolume (h : n.At c level looping period) (hc : c.halt = true) :
    ((r.entry ⟨.noise, 0, 0⟩).writes.foldl hear n).At c (r.value .noise .volume) looping
      period := by
  have hwrites : (r.entry ⟨.noise, 0, 0⟩).writes =
      [.place .noise .lengthHalt (r.value .noise .lengthHalt) 0,
        .place .noise .constantVolume (r.value .noise .constantVolume) 0,
        .place .noise .volume (r.value .noise .volume) 0] := rfl
  have hhalt : ({ c with halt := true } : LengthCounter) = c := by rw [← hc]
  rw [hwrites, hr.halt, hr.constant]
  simp only [List.foldl_cons, List.foldl_nil, hear_place]
  exact { h with
    constant := rfl
    length := by rw [← hhalt, ← h.length]; rfl
    level := rfl }

/-- The third register: the loop flag and the period. -/
theorem writePeriod (h : n.At c level looping period) :
    ((r.entry ⟨.noise, 2, 0⟩).writes.foldl hear n).At c level (s.timbre != 0)
      (r.value .noise .noisePeriod) := by
  have hwrites : (r.entry ⟨.noise, 2, 0⟩).writes =
      [.place .noise .noiseLoop (r.value .noise .noiseLoop) 0,
        .place .noise .noisePeriod (r.value .noise .noisePeriod) 0] := rfl
  rw [hwrites, hr.looping, List.foldl_cons, List.foldl_cons, List.foldl_nil, hear_place,
    hear_place]
  exact { h with looping := rfl, period := rfl }

theorem writeLoad (h : n.At c level looping period) :
    ((r.entry ⟨.noise, 3, 0⟩).writes.foldl hear n).At (c.load 0) level looping period := by
  have hwrites : (r.entry ⟨.noise, 3, 0⟩).writes =
      [.place .noise .lengthLoad (r.value .noise .lengthLoad) 0] := rfl
  rw [hwrites, hr.load, List.foldl_cons, List.foldl_nil, hear_place]
  exact { h with length := by rw [← h.length]; rfl }

end

end Noise.At

theorem keys_noiseSets (before after : Slot) :
    ((noiseSets before after).map ParamWrite.key).foldl touchKey [] =
      keyIf (after.volume != 0 && after.volume != before.volume) ⟨.noise, 0, 0⟩ ++
        (keyIf (after.timbre != before.timbre || after.low != 0 && after.low != before.low)
          ⟨.noise, 2, 0⟩ ++
        keyIf (after.low != 0 && after.low != before.low) ⟨.noise, 3, 0⟩) := by
  unfold noiseSets
  generalize (after.volume != 0 && after.volume != before.volume) = volume
  generalize (after.timbre != before.timbre) = looping
  generalize (after.low != 0 && after.low != before.low) = period
  cases volume <;> cases looping <;> cases period <;> rfl

/-- The period register of the noise behind the writes to a slot. -/
def Slot.noisePeriodBehind (before after : Slot) (period : UInt8) : UInt8 :=
  if after.low != 0 && after.low != before.low then noisePeriodOf after.low else period

theorem Noise.At.heard_own {c : LengthCounter} {q : Noise} {old r : Registers}
    {before after : Slot} {level period : UInt8} (hr : r.MirrorsNoise after)
    (hlevel : r.value .noise .volume = before.levelBehind after level)
    (hperiod : r.value .noise .noisePeriod = before.noisePeriodBehind after period)
    (hc : c.halt = true) (h : q.At c level (before.timbre != 0) period) :
    ((heard .noise old r (((noiseSets before after).map ParamWrite.key).foldl touchKey [])).foldl
      Noise.hear q).At (c.reload (after.low != 0 && after.low != before.low))
        (r.value .noise .volume) (after.timbre != 0) (r.value .noise .noisePeriod) := by
  have hchannel : Voice.noise.channel = .noise := rfl
  rw [keys_noiseSets, heard_append, heard_append, List.foldl_append, List.foldl_append]
  -- a register that is not written again holds what it held
  have hvolume := heard_keyIf Noise.hear
    (fun q => q.At c (r.value .noise .volume) (before.timbre != 0) period) hchannel old r
    (after.volume != 0 && after.volume != before.volume) 0
    (fun _ => h.writeVolume hr hc)
    (fun hsame => by
      rw [hlevel, Slot.levelBehind, hsame]
      exact h)
  have hset := heard_keyIf Noise.hear
    (fun q => q.At c (r.value .noise .volume) (after.timbre != 0) (r.value .noise .noisePeriod))
    hchannel old r (after.timbre != before.timbre || after.low != 0 && after.low != before.low) 2
    (fun _ => hvolume.writePeriod hr)
    (fun hsame => by
      rw [Bool.or_eq_false_iff] at hsame
      rw [hperiod, Slot.noisePeriodBehind, hsame.2, bne_eq_false_iff_eq.mp hsame.1]
      exact hvolume)
  refine heard_keyIf Noise.hear
    (fun q => q.At (c.reload (after.low != 0 && after.low != before.low)) (r.value .noise .volume)
      (after.timbre != 0) (r.value .noise .noisePeriod)) hchannel old r
    (after.low != 0 && after.low != before.low) 3 ?_ ?_
  · intro hloads
    rw [LengthCounter.reload, if_pos hloads]
    exact hset.writeLoad hr
  · intro hloads
    rw [LengthCounter.reload, if_neg (Bool.eq_false_iff.mp hloads)]
    exact hset

/-! ## The triangle -/

theorem keys_triangleSets (before after : Slot) :
    ((triangleSets before after).map ParamWrite.key).foldl touchKey [] =
      keyIf (after.period != before.period) ⟨.triangle, 2, 0⟩ ++
        keyIf (after.period != before.period) ⟨.triangle, 3, 0⟩ := by
  unfold triangleSets
  cases after.period != before.period <;> rfl

theorem Triangle.heard_own {old r : Registers} {before after : Slot} (t : Triangle)
    (hr : r.MirrorsTriangle after) :
    (heard .triangle old r (((triangleSets before after).map ParamWrite.key).foldl
      touchKey [])).foldl Triangle.hear t =
      { t with
        length := t.length.reload (after.period != before.period)
        timer := if after.period != before.period then
          withHigh (withLow t.timer after.low) after.high else t.timer
        reload := t.reload || after.period != before.period } := by
  have hlow : (r.entry ⟨.triangle, 2, 0⟩).writes =
      [.place .triangle .timerLow (r.value .triangle .timerLow) 0] := rfl
  have hhigh : (r.entry ⟨.triangle, 3, 0⟩).writes =
      [.place .triangle .lengthLoad (r.value .triangle .lengthLoad) 0,
        .place .triangle .timerHigh (r.value .triangle .timerHigh) 0] := rfl
  rw [keys_triangleSets, heard_append, List.foldl_append]
  cases after.period != before.period with
  | false =>
    simp only [Bool.or_false, Bool.false_eq_true, if_false]
    rfl
  | true =>
    have hown : ∀ off : UInt8, heard .triangle old r (keyIf true ⟨.triangle, off, 0⟩) =
        (r.entry ⟨.triangle, off, 0⟩).writes := fun off => ApuScore.heard_own .triangle old r off
    rw [hown, hown, hlow, hhigh, hr.low, hr.high, hr.load]
    simp only [List.foldl_cons, List.foldl_nil, hear_place, Bool.or_true, if_true]
    rfl

end ApuScore

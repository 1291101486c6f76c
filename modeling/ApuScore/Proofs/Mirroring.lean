import ApuScore.Proofs.Hearing
/-
  The chip that takes the physical writes beside the chip that takes the scribe's.

  At every sample both hold the same frame in every voice and the register file holds
  it too (`Apu.Mirrored`). A sample keeps this, and so does the run of a frame,
  although it writes the other fields of every register again (`Mirrored.follow`).
-/

namespace ApuScore

/-! ## Voices side by side -/

/-- Two pulses that hold a slot alike, with the volume that the file holds. -/
def Pulse.Mirrored (v : Voice) (r : Registers) (s : Slot) (p q : Pulse) : Prop :=
  ∃ c : LengthCounter, c.Holds (s.period != 0) ∧
    p.At c s.timbre (r.value v.channel .volume) s.period ∧
    q.At c s.timbre (r.value v.channel .volume) s.period

/-- Two noises that hold a slot alike, with the volume and the period that the file
holds. -/
def Noise.Mirrored (r : Registers) (s : Slot) (n m : Noise) : Prop :=
  ∃ c : LengthCounter, c.Holds (s.low != 0) ∧
    n.At c (r.value .noise .volume) (s.timbre != 0) (r.value .noise .noisePeriod) ∧
    m.At c (r.value .noise .volume) (s.timbre != 0) (r.value .noise .noisePeriod)

/-- A pulse whose registers were heard again stands beside the one that took the writes
of the frame. -/
theorem Pulse.At.mirrored {v : Voice} (hv : v = .pulse1 ∨ v = .pulse2) {r r' : Registers}
    {before after : Slot} {c : LengthCounter} {p q : Pulse}
    (h : p.At c before.timbre (r.value v.channel .volume) before.period)
    (hc : c.Holds (before.period != 0)) (hr : r.MirrorsPulse v.channel before)
    (hr' : r'.MirrorsPulse v.channel after)
    (hlevel : r'.value v.channel .volume =
      before.levelBehind after (r.value v.channel .volume))
    (hq : q.At ((c.regate (before.period != 0) (after.period != 0)).reload
      (Pulse.loads before after)) after.timbre (r'.value v.channel .volume) after.period) :
    Pulse.Mirrored v r' after ((pulseWrites v before after).foldl Pulse.hear p) q := by
  have hp := h.follow v after
  have hloads : (before.period != 0) = false → (after.period != 0) = true →
      Pulse.loads before after = true := by
    intro hshut hopen
    rw [bne_eq_false_iff_eq] at hshut
    rw [bne_iff_ne] at hopen
    rw [Pulse.loads, decide_eq_true ⟨hshut, hopen⟩, Bool.true_or]
  rw [ite_bne, Pulse.timerBehind_eq (hr.high_le hv) (hr'.high_le hv)] at hp
  refine ⟨_, hc.follow hloads, ?_, hq⟩
  rw [hlevel]
  exact hp

theorem Noise.At.mirrored {r r' : Registers} {before after : Slot} {c : LengthCounter}
    {n m : Noise}
    (h : n.At c (r.value .noise .volume) (before.timbre != 0) (r.value .noise .noisePeriod))
    (hc : c.Holds (before.low != 0))
    (hlevel : r'.value .noise .volume = before.levelBehind after (r.value .noise .volume))
    (hperiod : r'.value .noise .noisePeriod =
      before.noisePeriodBehind after (r.value .noise .noisePeriod))
    (hm : m.At ((c.regate (before.low != 0) (after.low != 0)).reload
      (after.low != 0 && after.low != before.low)) (r'.value .noise .volume) (after.timbre != 0)
        (r'.value .noise .noisePeriod)) :
    Noise.Mirrored r' after ((noiseWrites before after).foldl Noise.hear n) m := by
  have hn := h.follow before after
  have hloads : (before.low != 0) = false → (after.low != 0) = true →
      (after.low != 0 && after.low != before.low) = true := by
    intro hshut hopen
    rw [hopen, Bool.true_and, bne_eq_false_iff_eq.mp hshut]
    exact hopen
  have hlooping : (if after.timbre != before.timbre then after.timbre != 0
      else before.timbre != 0) = (after.timbre != 0) := by
    split
    · rfl
    · rename_i hsame
      rw [eq_of_not_bne hsame]
  rw [hlooping] at hn
  refine ⟨_, hc.follow hloads, ?_, hm⟩
  rw [hlevel, hperiod]
  exact hn

/-! ## The chips side by side -/

/-- Both chips hold a frame alike, and so does the register file. -/
structure Apu.Mirrored (r : Registers) (f : Frame) (a b : Apu) : Prop where
  registers : r.Mirrors f
  pulse1 : Pulse.Mirrored .pulse1 r f.pulse1 a.pulse1 b.pulse1
  pulse2 : Pulse.Mirrored .pulse2 r f.pulse2 a.pulse2 b.pulse2
  length : a.triangle.length.Holds (f.triangle.period != 0)
  triangle : b.triangle = a.triangle
  noise : Noise.Mirrored r f.noise a.noise b.noise
  sequencer : b.sequencer = a.sequencer

namespace Apu.Mirrored

variable {r : Registers} {f : Frame} {a b : Apu} (h : Apu.Mirrored r f a b)
include h

theorem frame : b.frame = a.frame := by
  obtain ⟨_, -, hp1, hq1⟩ := h.pulse1
  obtain ⟨_, -, hp2, hq2⟩ := h.pulse2
  obtain ⟨_, -, hn, hm⟩ := h.noise
  rw [Apu.frame, Apu.frame, hq1.slot_eq hp1, hq2.slot_eq hp2, hm.slot_eq hn, h.triangle]

theorem step : Apu.Mirrored r f a.step b.step := by
  have htick : b.nextTick = a.nextTick := by rw [nextTick, nextTick, h.sequencer]
  -- a held counter is halted or empty, so that no tick counts it down
  have hlength : (a.triangle.tick a.nextTick).length = a.triangle.length := by
    have hclock := h.length.clock
    unfold Triangle.tick Triangle.clockLinear
    cases a.nextTick.quarter <;> cases a.nextTick.half <;>
      simp only [Bool.false_eq_true, if_false, if_true, hclock]
  have hpulse : ∀ {v : Voice} {s : Slot} {p q : Pulse}, Pulse.Mirrored v r s p q →
      Pulse.Mirrored v r s (p.tick a.nextTick) (q.tick a.nextTick) := by
    intro v s p q hpq
    obtain ⟨c, hc, hp, hq⟩ := hpq
    exact ⟨c, hc, hp.tick hc.halt _, hq.tick hc.halt _⟩
  obtain ⟨c, hc, hn, hm⟩ := h.noise
  refine ⟨h.registers, ?_, ?_, ?_, ?_, ?_, ?_⟩
  · show Pulse.Mirrored _ r _ (a.pulse1.tick a.nextTick) (b.pulse1.tick b.nextTick)
    rw [htick]
    exact hpulse h.pulse1
  · show Pulse.Mirrored _ r _ (a.pulse2.tick a.nextTick) (b.pulse2.tick b.nextTick)
    rw [htick]
    exact hpulse h.pulse2
  · show (a.triangle.tick a.nextTick).length.Holds _
    rw [hlength]
    exact h.length
  · show b.triangle.tick b.nextTick = a.triangle.tick a.nextTick
    rw [htick, h.triangle]
  · show Noise.Mirrored r _ (a.noise.tick a.nextTick) (b.noise.tick b.nextTick)
    rw [htick]
    exact ⟨c, hc, hn.tick hc.halt _, hm.tick hc.halt _⟩
  · show b.sequencer.advance = a.sequencer.advance
    rw [h.sequencer]

end Apu.Mirrored

/-! ## Runs -/

/-- The writes that the physical run of a frame stands for. -/
def runWrites (r : Registers) (before after : Frame) : List ParamWrite :=
  (gather (r, []) (frameWrites before after)).2.flatMap PendingWrite.writes

section
variable {before after : Frame} (htaken : ∀ w ∈ frameWrites before after, w.taken = true)
include htaken

/-- What a voice hears of a run whose keys stand behind `keys`. -/
theorem writesOf_gather (v : Voice) (old r : Registers) (keys : List WriteKey)
    (howned : ∀ k ∈ keys, k.Owned) (hnodup : keys.Nodup) :
    ∃ m n, (v.sounds before ≠ v.sounds after → 0 < m) ∧
      writesOf v ((gather (r, keys.map (lay old r)) (frameWrites before after)).2.flatMap
        PendingWrite.writes) =
        heard v old (r.settle before after) ((List.replicate m statusKey ++
          ((v.sets before after).map ParamWrite.key ++ List.replicate n statusKey)).foldl
            touchKey (keys.filter (WriteKey.concerns v))) := by
  obtain ⟨m, n, hm, hkeys⟩ := keys_frameWrites v before after
  have hplaced : ∀ w ∈ frameWrites before after, w.Placed ∧ w.taken = true := fun w hw =>
    ⟨(placed_frameWrites before after w hw).1, htaken w hw⟩
  have hatom : ∀ w ∈ frameWrites before after, w.atom = 0 := fun w hw =>
    (placed_frameWrites before after w hw).2
  refine ⟨m, n, hm, ?_⟩
  rw [gather_lay hplaced hatom howned hnodup, writesOf_lay, foldl_touchKey_filter, hkeys]
  rfl

theorem writesOf_runWrites (v : Voice) (r : Registers) :
    ∃ m n, (v.sounds before ≠ v.sounds after → 0 < m) ∧
      writesOf v (runWrites r before after) =
        heard v r (r.settle before after) ((List.replicate m statusKey ++
          ((v.sets before after).map ParamWrite.key ++ List.replicate n statusKey)).foldl
            touchKey []) := by
  have hgather := writesOf_gather htaken v r r [] (fun _ hk => nomatch hk) List.nodup_nil
  rw [List.map_nil, List.filter_nil] at hgather
  exact hgather

end

theorem statusKey_notMem_sets (v : Voice) (before after : Frame) :
    statusKey ∉ (v.sets before after).map ParamWrite.key := by
  intro h
  obtain ⟨w, hw, hkey⟩ := List.mem_map.mp h
  have hchannel : w.channel = .status := congrArg WriteKey.channel hkey
  rw [(forall_sets v before after w hw).1] at hchannel
  cases v <;> cases hchannel

theorem channel_frameWrites (before after : Frame) :
    ∀ w ∈ frameWrites before after, w.channel ≠ .frameCounter := by
  intro w hw
  rw [frameWrites_eq] at hw
  obtain ⟨v, -, hw⟩ := List.mem_flatMap.mp hw
  rcases List.mem_append.mp hw with hgate | hset
  · exact forall_gates (P := fun w => w.channel ≠ .frameCounter) (by cases v <;> exact nofun) w
      hgate
  · rw [(forall_sets v before after w hset).1]
    cases v <;> exact nofun

theorem sequencer_setAll_of_channel {writes : List ParamWrite}
    (h : ∀ w ∈ writes, w.channel ≠ .frameCounter) (a : Apu) :
    (a.setAll writes).sequencer = a.sequencer := by
  rw [Apu.sequencer_setAll]
  induction writes with
  | nil => rfl
  | cons w writes ih =>
    rw [List.forall_mem_cons] at h
    rw [List.foldl_cons, Sequencer.hear, if_neg fun hmode => h.1 hmode.1]
    exact ih h.2

section
variable {before after : Frame} (htaken : ∀ w ∈ frameWrites before after, w.taken = true)
include htaken

theorem channel_gather (old r : Registers) (keys : List WriteKey)
    (howned : ∀ k ∈ keys, k.Owned) (hnodup : keys.Nodup)
    (hkeys : ∀ k ∈ keys, k.channel ≠ .frameCounter) :
    ∀ w ∈ (gather (r, keys.map (lay old r)) (frameWrites before after)).2.flatMap
      PendingWrite.writes, w.channel ≠ .frameCounter := by
  have hplaced : ∀ w ∈ frameWrites before after, w.Placed ∧ w.taken = true := fun w hw =>
    ⟨(placed_frameWrites before after w hw).1, htaken w hw⟩
  have hatom : ∀ w ∈ frameWrites before after, w.atom = 0 := fun w hw =>
    (placed_frameWrites before after w hw).2
  rw [gather_lay hplaced hatom howned hnodup]
  intro w hw
  obtain ⟨p, hp, hw⟩ := List.mem_flatMap.mp hw
  obtain ⟨k, hk, rfl⟩ := List.mem_map.mp hp
  rw [channel_writes w hw]
  rcases mem_foldl_touchKey hk with hold | hnew
  · exact hkeys k hold
  · obtain ⟨x, hx, rfl⟩ := List.mem_map.mp hnew
    exact channel_frameWrites before after x hx

theorem volume_settle {v : Voice} {s t : Slot} (hsets : v.sets before after = pulseSets v s t)
    (r : Registers) : (r.settle before after).value v.channel .volume =
      s.levelBehind t (r.value v.channel .volume) := by
  rw [Registers.value_settle htaken, hsets, foldl_pulseSets]
  rfl

theorem noise_settle (r : Registers) :
    (r.settle before after).value .noise .volume =
        before.noise.levelBehind after.noise (r.value .noise .volume) ∧
      (r.settle before after).value .noise .noisePeriod =
        before.noise.noisePeriodBehind after.noise (r.value .noise .noisePeriod) := by
  have hvalue : ∀ p, (r.settle before after).value .noise p =
      (noiseSets before.noise after.noise).foldl (ParamWrite.update .noise p)
        (r.value .noise p) := fun p => Registers.value_settle htaken r .noise p
  rw [hvalue, hvalue, foldl_noiseSets, foldl_noiseSets]
  exact ⟨rfl, rfl⟩

end

/-! ## One frame -/

section
variable {r : Registers} {before after : Frame}
  (htaken : ∀ w ∈ frameWrites before after, w.taken = true)
include htaken

theorem Pulse.Mirrored.follow {v : Voice} (hv : v = .pulse1 ∨ v = .pulse2) {s t : Slot}
    (hsets : v.sets before after = pulseSets v s t)
    (hsounds : v.sounds before = (s.period != 0) ∧ v.sounds after = (t.period != 0))
    (hr : r.MirrorsPulse v.channel s) (henable : r.Enables v (v.sounds before)) {p q : Pulse}
    (h : Pulse.Mirrored v r s p q) :
    Pulse.Mirrored v (r.settle before after) t ((pulseWrites v s t).foldl Pulse.hear p)
      ((writesOf v (runWrites r before after)).foldl Pulse.hear q) := by
  obtain ⟨c, hc, hp, hq⟩ := h
  have hr' := hr.settle htaken hsets
  have hlevel := volume_settle htaken hsets r
  have hstatus := henable.settle htaken r v
  obtain ⟨m, n, hm, hheard⟩ := writesOf_runWrites htaken v r
  have hks := statusKey_notMem_sets v before after
  have henableAt : ∀ (d l : UInt8) (timer : Nat) (c : LengthCounter) (q : Pulse),
      q.At c d l timer →
        (q.hear (enableWrite v (t.period != 0))).At (c.enable (t.period != 0)) d l timer := by
    intro d l timer c q hq
    rw [hear_enable]
    exact { hq with length := by rw [hq.length] }
  rw [hsounds.1, hsounds.2] at hm
  rw [hsounds.2] at hstatus
  rw [hsets] at hheard hks
  apply hp.mirrored hv hc hr hr' hlevel
  rw [hheard]
  refine heard_run (P := fun c (q : Pulse) => q.At c s.timbre (r.value v.channel .volume) s.period)
    (Q := fun c (q : Pulse) => q.At c t.timbre ((r.settle before after).value v.channel .volume)
      t.period)
    hstatus hks (henableAt _ _ _) (henableAt _ _ _) ?_ ?_ hm hc hq
  · intro c q hhalt hq
    exact hq.heard_own hv hr' (hr.high_le hv) hlevel hhalt
  · -- a pulse that comes on has its high bits written, and with them its length
    intro hshut hopen
    rw [bne_eq_false_iff_eq] at hshut
    rw [bne_iff_ne] at hopen
    rw [loads, decide_eq_true ⟨hshut, hopen⟩, Bool.true_or]

theorem Noise.Mirrored.follow (hr : r.MirrorsNoise before.noise)
    (henable : r.Enables .noise (before.noise.low != 0)) {n m : Noise}
    (h : Noise.Mirrored r before.noise n m) :
    Noise.Mirrored (r.settle before after) after.noise
      ((noiseWrites before.noise after.noise).foldl Noise.hear n)
      ((writesOf .noise (runWrites r before after)).foldl Noise.hear m) := by
  obtain ⟨c, hc, hn, hm⟩ := h
  have hr' := hr.settle htaken
  obtain ⟨hlevel, hperiod⟩ := noise_settle htaken r
  have hstatus : (r.settle before after).Enables .noise (after.noise.low != 0) :=
    Registers.Enables.settle htaken r .noise henable
  obtain ⟨i, j, hi, hheard⟩ := writesOf_runWrites htaken .noise r
  have hks := statusKey_notMem_sets .noise before after
  have henableAt : ∀ (l period : UInt8) (looping : Bool) (c : LengthCounter) (m : Noise),
      m.At c l looping period → (m.hear (enableWrite .noise (after.noise.low != 0))).At
        (c.enable (after.noise.low != 0)) l looping period := by
    intro l period looping c m hm
    rw [hear_enable]
    exact { hm with length := by rw [hm.length] }
  apply hn.mirrored hc hlevel hperiod
  rw [hheard]
  refine heard_run (P := fun c (m : Noise) => m.At c (r.value .noise .volume)
      (before.noise.timbre != 0) (r.value .noise .noisePeriod))
    (Q := fun c (m : Noise) => m.At c ((r.settle before after).value .noise .volume)
      (after.noise.timbre != 0) ((r.settle before after).value .noise .noisePeriod))
    hstatus hks (henableAt _ _ _) (henableAt _ _ _) ?_ ?_ hi hc hm
  · intro c m hhalt hm
    exact hm.heard_own hr' hlevel hperiod hhalt
  · intro hshut hopen
    rw [hopen, Bool.true_and, bne_eq_false_iff_eq.mp hshut]
    exact hopen

theorem Triangle.foldl_runWrites (hr : r.MirrorsTriangle before.triangle)
    (henable : r.Enables .triangle (before.triangle.period != 0)) {t : Triangle}
    (h : t.length.Holds (before.triangle.period != 0)) :
    (writesOf .triangle (runWrites r before after)).foldl Triangle.hear t =
      (triangleWrites before.triangle after.triangle).foldl Triangle.hear t := by
  have hr' := hr.settle htaken
  have hstatus : (r.settle before after).Enables .triangle (after.triangle.period != 0) :=
    Registers.Enables.settle htaken r .triangle henable
  obtain ⟨m, n, hm, hheard⟩ := writesOf_runWrites htaken .triangle r
  have hks := statusKey_notMem_sets .triangle before after
  rw [hheard, foldl_triangleWrites]
  refine heard_run (P := fun c (q : Triangle) => q = { t with length := c })
    (Q := fun c (q : Triangle) => q = { t with
      length := c
      timer := if after.triangle.period != before.triangle.period then
        withHigh (withLow t.timer after.triangle.low) after.triangle.high else t.timer
      reload := t.reload || after.triangle.period != before.triangle.period })
    hstatus hks ?_ ?_ ?_ ?_ hm h rfl
  · intro c q hq
    rw [hear_enable, hq]
  · intro c q hq
    rw [hear_enable, hq]
  · intro c q _ hq
    subst hq
    exact heard_own _ hr'
  · intro hshut hopen
    have hzero : before.triangle.period = 0 := bne_eq_false_iff_eq.mp hshut
    rw [hzero]
    exact hopen

/-- Chips that hold a frame alike take the next one, one by its writes and one by its
run. -/
theorem Apu.Mirrored.follow {a b : Apu} (h : Apu.Mirrored r before a b) :
    Apu.Mirrored (r.settle before after) after (a.setAll (frameWrites before after))
      (b.setAll (runWrites r before after)) := by
  obtain ⟨hpulse1, hpulse2, htriangle, hnoise⟩ := writesOf_frameWrites before after
  have hregisters := h.registers
  have hloads : (before.triangle.period != 0) = false → (after.triangle.period != 0) = true →
      (after.triangle.period != before.triangle.period) = true := by
    intro hshut hopen
    rw [bne_eq_false_iff_eq.mp hshut]
    exact hopen
  refine ⟨hregisters.settle htaken, ?_, ?_, ?_, ?_, ?_, ?_⟩
  · rw [pulse1_setAll, pulse1_setAll, hpulse1]
    exact h.pulse1.follow htaken (.inl rfl) rfl ⟨rfl, rfl⟩ hregisters.pulse1
      (hregisters.enable .pulse1)
  · rw [pulse2_setAll, pulse2_setAll, hpulse2]
    exact h.pulse2.follow htaken (.inr rfl) rfl ⟨rfl, rfl⟩ hregisters.pulse2
      (hregisters.enable .pulse2)
  · rw [triangle_frameWrites, Triangle.foldl_triangleWrites]
    exact h.length.follow hloads
  · rw [triangle_setAll, h.triangle, Triangle.foldl_runWrites htaken hregisters.triangle
      (hregisters.enable .triangle) h.length, triangle_frameWrites]
  · rw [noise_setAll, noise_setAll, hnoise]
    exact h.noise.follow htaken hregisters.noise (hregisters.enable .noise)
  · have hchannel : ∀ w ∈ runWrites r before after, w.channel ≠ .frameCounter :=
      channel_gather htaken r r [] (fun _ hk => nomatch hk) List.nodup_nil
        (fun _ hk => nomatch hk)
    rw [sequencer_frameWrites, sequencer_setAll_of_channel hchannel, h.sequencer]

end

end ApuScore

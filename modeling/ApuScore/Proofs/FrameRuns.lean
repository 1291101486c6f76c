import ApuScore.Proofs.Runs
import ApuScore.Proofs.Scribing
/-
  The physical writes of a frame, voice by voice.

  All writes of a frame share an atom, so its run has one physical write for each
  register that is touched. What a voice hears of the run is its own registers, in the
  order of the scribe's writes, and the channel enables in front of them or behind
  (`heard_run`). Enables in front open or shut the voice; behind they find it as they
  leave it. The registers hold the frame that was written last (`Registers.Mirrors`).
-/

namespace ApuScore

/-! ## The writes of a frame by voice -/

/-- Whether the scribe opens the voice's gate for a frame. -/
def Voice.sounds (v : Voice) (f : Frame) : Bool :=
  match v with
  | .noise => f.noise.low != 0
  | v => (f.get v).period != 0

/-- The writes that take a pulse from one slot to the next, behind its gate. -/
def pulseSets (v : Voice) (before after : Slot) : List ParamWrite :=
  whenNeeded (after.timbre != before.timbre) [.place v.channel .duty after.timbre 0] ++
    (whenNeeded (after.volume != 0 && after.volume != before.volume)
      [.place v.channel .volume after.volume 0] ++
    (whenNeeded (after.low != before.low) [.place v.channel .timerLow after.low 0] ++
    whenNeeded (Pulse.loads before after) (highWrites v.channel after.high)))

def triangleSets (before after : Slot) : List ParamWrite :=
  whenNeeded (after.period != before.period)
    (.place .triangle .timerLow after.low 0 :: highWrites .triangle after.high)

def noiseSets (before after : Slot) : List ParamWrite :=
  whenNeeded (after.volume != 0 && after.volume != before.volume)
      [.place .noise .volume after.volume 0] ++
    (whenNeeded (after.timbre != before.timbre) [.place .noise .noiseLoop after.timbre 0] ++
    whenNeeded (after.low != 0 && after.low != before.low)
      [.place .noise .noisePeriod (noisePeriodOf after.low) 0, .place .noise .lengthLoad 0 0])

/-- The gate writes of a voice in a frame. -/
def Voice.gates (v : Voice) (before after : Frame) : List ParamWrite :=
  gateWrites v (v.sounds before) (v.sounds after)

def Voice.sets : Voice → Frame → Frame → List ParamWrite
  | .pulse1, before, after => pulseSets .pulse1 before.pulse1 after.pulse1
  | .pulse2, before, after => pulseSets .pulse2 before.pulse2 after.pulse2
  | .triangle, before, after => triangleSets before.triangle after.triangle
  | .noise, before, after => noiseSets before.noise after.noise

theorem pulseWrites_eq (v : Voice) (before after : Slot) :
    pulseWrites v before after =
      gateWrites v (before.period != 0) (after.period != 0) ++ pulseSets v before after := by
  simp only [pulseWrites, pulseSets, List.append_assoc]
  rfl

theorem triangleWrites_eq (before after : Slot) :
    triangleWrites before after =
      gateWrites .triangle (before.period != 0) (after.period != 0) ++
        triangleSets before after := rfl

theorem noiseWrites_eq (before after : Slot) :
    noiseWrites before after =
      gateWrites .noise (before.low != 0) (after.low != 0) ++ noiseSets before after := by
  simp only [noiseWrites, noiseSets, List.append_assoc]

theorem frameWrites_eq (before after : Frame) :
    frameWrites before after =
      Voice.all.flatMap fun v => v.gates before after ++ v.sets before after := by
  rw [frameWrites, pulseWrites_eq, pulseWrites_eq, triangleWrites_eq, noiseWrites_eq]
  simp only [Voice.all, List.flatMap_cons, List.flatMap_nil, List.append_assoc, List.append_nil]
  rfl

theorem writesOf_frame (v : Voice) (before after : Frame) :
    writesOf v (frameWrites before after) = v.gates before after ++ v.sets before after := by
  obtain ⟨hpulse1, hpulse2, htriangle, hnoise⟩ := writesOf_frameWrites before after
  cases v with
  | pulse1 => exact hpulse1.trans (pulseWrites_eq _ _ _)
  | pulse2 => exact hpulse2.trans (pulseWrites_eq _ _ _)
  | triangle => exact htriangle
  | noise => exact hnoise.trans (noiseWrites_eq _ _)

theorem forall_sets (v : Voice) (before after : Frame) :
    ∀ w ∈ v.sets before after, w.channel = v.channel ∧ w.atom = 0 := by
  cases v <;>
    simp only [Voice.sets, pulseSets, triangleSets, noiseSets, List.forall_mem_append]
  · exact ⟨forall_whenNeeded_single ⟨rfl, rfl⟩, forall_whenNeeded_single ⟨rfl, rfl⟩,
      forall_whenNeeded_single ⟨rfl, rfl⟩,
      forall_whenNeeded fun _ => forall_highWrites ⟨rfl, rfl⟩ ⟨rfl, rfl⟩⟩
  · exact ⟨forall_whenNeeded_single ⟨rfl, rfl⟩, forall_whenNeeded_single ⟨rfl, rfl⟩,
      forall_whenNeeded_single ⟨rfl, rfl⟩,
      forall_whenNeeded fun _ => forall_highWrites ⟨rfl, rfl⟩ ⟨rfl, rfl⟩⟩
  · exact forall_whenNeeded fun _ =>
      List.forall_mem_cons.mpr ⟨⟨rfl, rfl⟩, forall_highWrites ⟨rfl, rfl⟩ ⟨rfl, rfl⟩⟩
  · exact ⟨forall_whenNeeded_single ⟨rfl, rfl⟩, forall_whenNeeded_single ⟨rfl, rfl⟩,
      forall_whenNeeded fun _ => List.forall_mem_cons.mpr
        ⟨⟨rfl, rfl⟩, List.forall_mem_singleton.mpr ⟨rfl, rfl⟩⟩⟩

theorem forall_gates {P : ParamWrite → Prop} {v : Voice} {before after : Frame}
    (h : P (enableWrite v (v.sounds after))) : ∀ w ∈ v.gates before after, P w :=
  forall_gateWrites h

/-! ## The keys that concern a voice -/

def statusKey : WriteKey := ⟨.status, 0, 0⟩

/-- Whether the physical write of the key may concern the voice. -/
def WriteKey.concerns (v : Voice) (k : WriteKey) : Bool :=
  k.channel == v.channel || k.channel == .status

theorem key_enableWrite (v : Voice) (on : Bool) : (enableWrite v on).key = statusKey := by
  cases v <;> rfl

theorem keys_gates (v : Voice) (before after : Frame) :
    (v.gates before after).map ParamWrite.key =
      List.replicate (v.gates before after).length statusKey := by
  unfold Voice.gates gateWrites
  split
  · rfl
  · rw [List.map_singleton, key_enableWrite]
    rfl

theorem keys_voice (u v : Voice) (before after : Frame) :
    ((u.gates before after ++ u.sets before after).map ParamWrite.key).filter
        (WriteKey.concerns v) =
      List.replicate (u.gates before after).length statusKey ++
        if u = v then (v.sets before after).map ParamWrite.key else [] := by
  have hgates : (List.replicate (u.gates before after).length statusKey).filter
      (WriteKey.concerns v) = List.replicate (u.gates before after).length statusKey :=
    List.filter_replicate_of_pos (by cases v <;> rfl)
  have hchannel : ∀ k ∈ (u.sets before after).map ParamWrite.key,
      k.concerns v = (u.channel == v.channel || u.channel == .status) := by
    intro k hk
    obtain ⟨w, hw, rfl⟩ := List.mem_map.mp hk
    rw [WriteKey.concerns, ParamWrite.key, (forall_sets u before after w hw).1]
  rw [List.map_append, List.filter_append, keys_gates, hgates]
  congr 1
  split
  · rename_i heq
    subst heq
    exact List.filter_eq_self.mpr fun k hk => by
      rw [hchannel k hk, beq_self_eq_true, Bool.true_or]
  · rename_i hne
    refine List.filter_eq_nil_iff.mpr fun k hk => ?_
    rw [hchannel k hk]
    cases u <;> cases v <;> first | exact absurd rfl hne | decide

/-- The keys of a frame that concern a voice: its own between channel enables. If its
gate moves, an enable comes in front. -/
theorem keys_frameWrites (v : Voice) (before after : Frame) :
    ∃ m n, (v.sounds before ≠ v.sounds after → 0 < m) ∧
      ((frameWrites before after).map ParamWrite.key).filter (WriteKey.concerns v) =
        List.replicate m statusKey ++
          ((v.sets before after).map ParamWrite.key ++ List.replicate n statusKey) := by
  have hothers : ∀ us : List Voice, v ∉ us → ∃ n,
      ((us.flatMap fun u => u.gates before after ++ u.sets before after).map
        ParamWrite.key).filter (WriteKey.concerns v) = List.replicate n statusKey := by
    intro us hnot
    induction us with
    | nil => exact ⟨0, rfl⟩
    | cons u us ih =>
      rw [List.mem_cons, not_or] at hnot
      obtain ⟨n, hn⟩ := ih hnot.2
      refine ⟨(u.gates before after).length + n, ?_⟩
      rw [List.flatMap_cons, List.map_append, List.filter_append, keys_voice,
        if_neg fun heq => hnot.1 heq.symm, hn, List.append_nil, List.replicate_append_replicate]
  have hmoves : v.sounds before ≠ v.sounds after → 0 < (v.gates before after).length := by
    intro hne
    rw [Voice.gates, gateWrites, if_neg (by rwa [beq_iff_eq])]
    exact Nat.one_pos
  obtain ⟨front, back, hall, hfront, hback⟩ :
      ∃ front back, Voice.all = front ++ v :: back ∧ v ∉ front ∧ v ∉ back := by
    cases v with
    | pulse1 => exact ⟨[], _, rfl, by decide, by decide⟩
    | pulse2 => exact ⟨[.pulse1], _, rfl, by decide, by decide⟩
    | triangle => exact ⟨[.pulse1, .pulse2], _, rfl, by decide, by decide⟩
    | noise => exact ⟨[.pulse1, .pulse2, .triangle], _, rfl, by decide, by decide⟩
  obtain ⟨m, hm⟩ := hothers front hfront
  obtain ⟨n, hn⟩ := hothers back hback
  refine ⟨m + (v.gates before after).length, n,
    fun hne => Nat.lt_of_lt_of_le (hmoves hne) (Nat.le_add_left _ _), ?_⟩
  rw [frameWrites_eq, hall, List.flatMap_append, List.map_append, List.filter_append, hm,
    List.flatMap_cons, List.map_append, List.filter_append, keys_voice, if_pos rfl, hn,
    ← List.replicate_append_replicate]
  simp only [List.append_assoc]

/-! ## The order of first writes -/

theorem foldl_touchKey_filter (q : WriteKey → Bool) (ks keys : List WriteKey) :
    (ks.foldl touchKey keys).filter q = (ks.filter q).foldl touchKey (keys.filter q) := by
  induction ks generalizing keys with
  | nil => rfl
  | cons k ks ih =>
    rw [List.foldl_cons, ih]
    cases hq : q k with
    | true =>
      rw [List.filter_cons_of_pos hq, List.foldl_cons]
      congr 1
      unfold touchKey
      simp only [List.mem_filter, hq, and_true]
      split
      · rfl
      · rw [List.filter_append, List.filter_cons_of_pos hq]
        rfl
    | false =>
      rw [List.filter_cons_of_neg (by rw [hq]; exact Bool.false_ne_true)]
      congr 1
      unfold touchKey
      split
      · rfl
      · rw [List.filter_append, List.filter_cons_of_neg (by rw [hq]; exact Bool.false_ne_true),
          List.filter_nil, List.append_nil]

theorem foldl_touchKey_append {ks keys : List WriteKey} (h : ∀ k ∈ ks, k ∉ keys)
    (rest : List WriteKey) : ks.foldl touchKey (keys ++ rest) = keys ++ ks.foldl touchKey rest := by
  induction ks generalizing rest with
  | nil => rfl
  | cons k ks ih =>
    rw [List.forall_mem_cons] at h
    have hfirst : touchKey (keys ++ rest) k = keys ++ touchKey rest k := by
      unfold touchKey
      simp only [List.mem_append, h.1, false_or]
      split
      · rfl
      · rw [List.append_assoc]
    rw [List.foldl_cons, hfirst, ih h.2]
    rfl

theorem foldl_touchKey_replicate (n : Nat) {k : WriteKey} {keys : List WriteKey} (h : k ∈ keys) :
    (List.replicate n k).foldl touchKey keys = keys := by
  induction n with
  | zero => rfl
  | succ n ih =>
    rw [List.replicate_succ, List.foldl_cons, touchKey, if_pos h, ih]

theorem mem_foldl_touchKey {ks keys : List WriteKey} {k : WriteKey}
    (h : k ∈ ks.foldl touchKey keys) : k ∈ keys ∨ k ∈ ks := by
  induction ks generalizing keys with
  | nil => exact .inl h
  | cons x ks ih =>
    rcases ih h with hkeys | hks
    · unfold touchKey at hkeys
      split at hkeys
      · exact .inl hkeys
      · rcases List.mem_append.mp hkeys with hold | hnew
        · exact .inl hold
        · exact .inr (List.mem_singleton.mp hnew ▸ List.mem_cons_self)
    · exact .inr (List.mem_cons_of_mem x hks)

/-- Channel enables on both sides of other keys: in front they are touched first,
behind them last. -/
theorem foldl_touchKey_status {ks : List WriteKey} (hks : statusKey ∉ ks) (m n : Nat) :
    (List.replicate m statusKey ++ (ks ++ List.replicate n statusKey)).foldl touchKey [] =
      if m = 0 then ks.foldl touchKey [] ++ (if n = 0 then [] else [statusKey])
      else statusKey :: ks.foldl touchKey [] := by
  rw [List.foldl_append, List.foldl_append]
  cases m with
  | zero =>
    rw [if_pos rfl, List.replicate_zero, List.foldl_nil]
    cases n with
    | zero => rw [List.replicate_zero, List.foldl_nil, if_pos rfl, List.append_nil]
    | succ n =>
      have hnot : statusKey ∉ ks.foldl touchKey [] := by
        intro h
        rcases mem_foldl_touchKey h with hnil | hmem
        · cases hnil
        · exact hks hmem
      rw [List.replicate_succ, List.foldl_cons, touchKey, if_neg hnot,
        foldl_touchKey_replicate n (List.mem_append_right _ List.mem_cons_self),
        if_neg (Nat.succ_ne_zero n)]
  | succ m =>
    have hfresh : ∀ k ∈ ks, k ∉ [statusKey] := by
      intro k hk hmem
      exact hks (List.mem_singleton.mp hmem ▸ hk)
    have hown := foldl_touchKey_append hfresh []
    rw [List.append_nil] at hown
    rw [List.replicate_succ, List.foldl_cons, touchKey, if_neg List.not_mem_nil, List.nil_append,
      foldl_touchKey_replicate m List.mem_cons_self, hown,
      foldl_touchKey_replicate n (List.mem_append_left _ List.mem_cons_self),
      if_neg (Nat.succ_ne_zero m)]
    rfl

/-! ## What a voice hears of a run -/

/-- What a voice hears of the physical writes of keys. -/
def heard (v : Voice) (old r : Registers) (keys : List WriteKey) : List ParamWrite :=
  keys.flatMap fun k => writesOf v (lay old r k).writes

theorem heard_append (v : Voice) (old r : Registers) (front rest : List WriteKey) :
    heard v old r (front ++ rest) = heard v old r front ++ heard v old r rest :=
  List.flatMap_append

theorem channel_writes {p : PendingWrite} : ∀ w ∈ p.writes, w.channel = p.key.channel := by
  intro w hw
  obtain ⟨f, -, rfl⟩ := List.mem_map.mp hw
  rfl

theorem writesOf_lay (v : Voice) (old r : Registers) (keys : List WriteKey) :
    writesOf v ((keys.map (lay old r)).flatMap PendingWrite.writes) =
      heard v old r (keys.filter (WriteKey.concerns v)) := by
  induction keys with
  | nil => rfl
  | cons k keys ih =>
    rw [List.map_cons, List.flatMap_cons, writesOf_append, ih]
    cases hk : k.concerns v with
    | true =>
      rw [List.filter_cons_of_pos hk]
      rfl
    | false =>
      rw [WriteKey.concerns, Bool.or_eq_false_iff] at hk
      have hnone : writesOf v (lay old r k).writes = [] := by
        refine List.filter_eq_nil_iff.mpr fun w hw => ?_
        have hchannel : w.channel = k.channel := channel_writes w hw
        rw [ParamWrite.aims, hchannel, hk.1, hk.2, Bool.false_and]
        exact Bool.false_ne_true
      rw [hnone, List.filter_cons_of_neg (by
        rw [WriteKey.concerns, hk.1, hk.2]; exact Bool.false_ne_true)]
      rfl

/-- The bit of a voice's enable in the file. -/
def Registers.Enables (r : Registers) (v : Voice) (on : Bool) : Prop :=
  r.value .status v.enable = if on then 1 else 0

theorem heard_status {v : Voice} {old r : Registers} {on : Bool} (h : r.Enables v on) :
    heard v old r [statusKey] = [enableWrite v on] := by
  have hbit : heard v old r [statusKey] =
      [⟨.status, v.enable, r.value .status v.enable, 0, 0⟩] := by
    cases v <;> rfl
  rw [hbit, h]
  cases v <;> rfl

theorem LengthCounter.Holds.enable_self {on : Bool} {c : LengthCounter} (h : c.Holds on) :
    c.enable on = c := by
  obtain ⟨enabled, halt, count⟩ := c
  obtain ⟨-, henabled, hcount⟩ := h
  cases on with
  | false =>
    have hzero : count = 0 := hcount.mpr rfl
    have hshut : enabled = false := henabled
    rw [hzero, hshut]
    rfl
  | true =>
    have hopen : enabled = true := henabled
    rw [hopen]
    rfl

/-- A run takes a voice from `P` to `Q` if the writes of its own registers do and both
stand an enable, given that its gate is set in front of them when it moves. -/
theorem heard_run {α : Type} {hear : α → ParamWrite → α} {P Q : LengthCounter → α → Prop}
    {v : Voice} {before after loads : Bool} {old r : Registers} {ks : List WriteKey}
    (hstatus : r.Enables v after) (hks : statusKey ∉ ks)
    (hP : ∀ c q, P c q → P (c.enable after) (hear q (enableWrite v after)))
    (hQ : ∀ c q, Q c q → Q (c.enable after) (hear q (enableWrite v after)))
    (hown : ∀ c q, c.halt = true → P c q →
      Q (c.reload loads) ((heard v old r (ks.foldl touchKey [])).foldl hear q))
    (hload : before = false → after = true → loads = true) {m n : Nat}
    (hm : before ≠ after → 0 < m) {c : LengthCounter} (hc : c.Holds before) {q : α}
    (h : P c q) :
    Q ((c.regate before after).reload loads)
      ((heard v old r ((List.replicate m statusKey ++
        (ks ++ List.replicate n statusKey)).foldl touchKey [])).foldl hear q) := by
  have hbehind : ((c.regate before after).reload loads).Holds after := hc.follow hload
  rw [foldl_touchKey_status hks]
  cases m with
  | zero =>
    -- without an enable in front the gate does not move
    have hsame : before = after := Decidable.byContradiction fun hne =>
      Nat.lt_irrefl 0 (hm hne)
    have hstill : c.regate before after = c := by
      rw [LengthCounter.regate, if_pos (beq_iff_eq.mpr hsame)]
    have hset := hown c q hc.halt h
    rw [if_pos rfl, heard_append, List.foldl_append, hstill]
    rw [hstill] at hbehind
    cases n with
    | zero => exact hset
    | succ n =>
      rw [if_neg (Nat.succ_ne_zero n), heard_status hstatus, List.foldl_cons, List.foldl_nil,
        ← hbehind.enable_self]
      exact hQ _ _ hset
  | succ m =>
    have hgate : P (c.regate before after) (hear q (enableWrite v after)) := by
      unfold LengthCounter.regate
      split
      · rename_i hsame
        have hself := hP c q h
        rwa [(beq_iff_eq.mp hsame ▸ hc : c.Holds after).enable_self] at hself
      · exact hP c q h
    rw [if_neg (Nat.succ_ne_zero m), ← List.singleton_append, heard_append, heard_status hstatus]
    exact hown _ _ hc.regate_halt hgate

end ApuScore

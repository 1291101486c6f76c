import ApuScore.Proofs.Reachable
import ApuScore.Proofs.Dates
import Mathlib.Data.List.Basic
/-
  A voice that is shut, or was not loaded since, is silent.

  A voice sounds only while its length counter runs. The counter takes a load only while
  the voice's enable is open, and shutting the enable clears it. This file

  1. reads off a run of writes whether the enable was shut last (`shutBehind`) and whether
     every load of the counter was ignored or cleared (`Unloaded`);
  2. carries through ticks and writes that the counter's gate stands as it was last written
     and that an unloaded counter is at zero (`Gated.hear`, `Gated.clock`), and so through
     whole replays (`Gated.playedTo`);
  3. concludes that a voice is silent at every sample up to which it is unloaded, and so
     from each write that shuts it until it was opened and then loaded
     (`silent_of_unloaded`).
-/

namespace ApuScore

/-! ## Writes to a voice's enable and counter -/

namespace ParamWrite

/-- Whether a write sets the voice's enable. -/
def gates (v : Voice) (w : ParamWrite) : Bool := w.channel == .status && w.param == v.enable

def opens (v : Voice) (w : ParamWrite) : Bool := w.gates v && w.value != 0

def shuts (v : Voice) (w : ParamWrite) : Bool := w.gates v && w.value == 0

def loads (v : Voice) (w : ParamWrite) : Bool := w.channel == v.channel && w.param == .lengthLoad

variable {v : Voice} {w : ParamWrite}

theorem not_gates_of_own (h : w.channel = v.channel) : w.gates v = false := by
  rw [gates, h, beq_eq_false_iff_ne.mpr v.channel_ne_status, Bool.false_and]

theorem not_shuts_of_loads (h : w.loads v = true) : w.shuts v = false := by
  rw [loads, Bool.and_eq_true, beq_iff_eq] at h
  rw [shuts, not_gates_of_own h.1, Bool.false_and]

end ParamWrite

/-- Whether the last write to a voice's enable shut it. A voice starts open. -/
def shutBehind (v : Voice) (writes : List ParamWrite) : Bool :=
  (writes.filter (·.gates v)).getLast?.any fun w => w.value == 0

/-- Every load of a voice's counter came while its enable was shut, or the enable was shut
after it. -/
def Unloaded (v : Voice) (writes : List ParamWrite) : Prop :=
  ∀ front w rest, writes = front ++ w :: rest → w.loads v = true →
    shutBehind v front = true ∨ ∃ x ∈ rest, x.shuts v = true

variable {v : Voice}

theorem shutBehind_concat (writes : List ParamWrite) (w : ParamWrite) :
    shutBehind v (writes ++ [w]) =
      if w.gates v = true then w.value == 0 else shutBehind v writes := by
  rw [shutBehind, List.filter_append]
  split
  · rename_i hgates
    rw [List.filter_cons_of_pos hgates, List.filter_nil, List.getLast?_concat]
    rfl
  · rename_i hgates
    rw [List.filter_cons_of_neg hgates, List.filter_nil, List.append_nil]
    rfl

theorem shutBehind_of_shuts (front : List ParamWrite) {w : ParamWrite} (hw : w.shuts v = true)
    {rest : List ParamWrite} (hrest : ∀ x ∈ rest, x.opens v = false) :
    shutBehind v (front ++ w :: rest) = true := by
  rw [ParamWrite.shuts, Bool.and_eq_true] at hw
  rw [shutBehind, List.filter_append, List.filter_cons_of_pos hw.1,
    List.getLast?_append_of_ne_nil _ (List.cons_ne_nil _ _)]
  cases hlast : (w :: rest.filter (·.gates v)).getLast? with
  | none => rw [List.getLast?_eq_none_iff] at hlast; cases hlast
  | some x =>
    rw [Option.any_some]
    rcases List.mem_cons.mp (List.mem_of_getLast? hlast) with rfl | hx
    · exact hw.2
    · obtain ⟨hmem, hgates⟩ := List.mem_filter.mp hx
      simpa [ParamWrite.opens, hgates] using hrest x hmem

/-- What comes before a write that does not shut the enable was unloaded if all of it is. -/
theorem Unloaded.of_concat {writes : List ParamWrite} {w : ParamWrite}
    (h : Unloaded v (writes ++ [w])) (hw : w.shuts v = false) : Unloaded v writes := by
  rintro front x rest rfl hloads
  have hx := h front x (rest ++ [w]) (by rw [List.append_assoc, List.cons_append]) hloads
  refine hx.imp_right fun ⟨y, hy, hshuts⟩ => ⟨y, ?_, hshuts⟩
  rcases List.mem_append.mp hy with hy | hy
  · exact hy
  · rw [List.mem_singleton.mp hy, hw] at hshuts
    cases hshuts

theorem Unloaded.shutBehind_of_loads {writes : List ParamWrite} {w : ParamWrite}
    (h : Unloaded v (writes ++ [w])) (hw : w.loads v = true) : shutBehind v writes = true :=
  (h writes w [] rfl hw).resolve_right fun ⟨_, hx, _⟩ => nomatch hx

theorem eq_or_eq_of_append_eq {α : Type} {front rest front' rest' : List α} {x y : α}
    (hne : x ≠ y) (h : front ++ x :: rest = front' ++ y :: rest') :
    (∃ mid, front' = front ++ x :: mid ∧ rest = mid ++ y :: rest') ∨
      ∃ mid, front = front' ++ y :: mid ∧ rest' = mid ++ x :: rest := by
  rcases List.append_eq_append_iff.mp h with ⟨mid, rfl, hmid⟩ | ⟨mid, rfl, hmid⟩
  · cases mid with
    | nil => exact absurd (List.cons.inj hmid).1 hne
    | cons z mid =>
      obtain ⟨rfl, rfl⟩ := List.cons.inj hmid
      exact .inl ⟨mid, rfl, rfl⟩
  · cases mid with
    | nil => exact absurd (List.cons.inj hmid).1.symm hne
    | cons z mid =>
      obtain ⟨rfl, rfl⟩ := List.cons.inj hmid
      exact .inr ⟨mid, rfl, rfl⟩

/-- Writes behind one that shuts the enable leave the voice unloaded as long as none opens it
in front of one that loads it. -/
theorem unloaded_of_shuts (before : List ParamWrite) {w : ParamWrite} (hw : w.shuts v = true)
    {behind : List ParamWrite}
    (hbehind : ¬ ∃ x y, [x, y].Sublist behind ∧ x.opens v = true ∧ y.loads v = true) :
    Unloaded v (before ++ w :: behind) := by
  intro front load rest hsplit hloads
  have hne : w ≠ load := by
    rintro rfl
    rw [ParamWrite.not_shuts_of_loads hloads] at hw
    cases hw
  rcases eq_or_eq_of_append_eq hne hsplit with ⟨mid, rfl, rfl⟩ | ⟨mid, rfl, rfl⟩
  · -- a load behind it finds the enable shut, as nothing opened it in between
    refine .inl (shutBehind_of_shuts before hw fun x hx => ?_)
    rw [← Bool.not_eq_true]
    intro hopens
    have hload : [load].Sublist (load :: rest) := (List.nil_sublist rest).cons_cons load
    exact hbehind ⟨x, load, (List.singleton_sublist.mpr hx).append hload, hopens, hloads⟩
  · -- a load in front of it is cleared by it
    exact .inr ⟨w, List.mem_append_right _ List.mem_cons_self, hw⟩

/-! ## Counters -/

def LengthCounter.write (param : Param) (value : UInt8) (c : LengthCounter) : LengthCounter :=
  match param with
  | .lengthHalt => { c with halt := value != 0 }
  | .lengthLoad => c.load value
  | _ => c

/-- The counter of a voice after a write that concerns it. -/
def LengthCounter.hear (c : LengthCounter) (w : ParamWrite) : LengthCounter :=
  if w.channel = .status then c.gate w else c.write w.param w.value

theorem Pulse.length_hear (p : Pulse) (w : ParamWrite) : (p.hear w).length = p.length.hear w := by
  unfold hear LengthCounter.hear
  split
  · rfl
  · cases w.param <;> rfl

theorem Triangle.length_hear (t : Triangle) (w : ParamWrite) :
    (t.hear w).length = t.length.hear w := by
  unfold hear LengthCounter.hear
  split
  · rfl
  · cases w.param <;> rfl

theorem Noise.length_hear (n : Noise) (w : ParamWrite) : (n.hear w).length = n.length.hear w := by
  unfold hear LengthCounter.hear
  split
  · rfl
  · cases w.param <;> rfl

theorem Pulse.length_clockSweep (p : Pulse) : p.clockSweep.length = p.length := by
  unfold clockSweep runSweep glide
  grind [retarget]

theorem Pulse.length_halfFrame (p : Pulse) : p.halfFrame.length = p.length.clock :=
  length_clockSweep _

theorem Pulse.length_tick (p : Pulse) (t : Tick) :
    (p.tick t).length = if t.half then p.length.clock else p.length := by
  unfold tick
  dsimp only
  rw [apply_ite length, length_halfFrame]
  split <;> split <;> rfl

theorem Triangle.length_tick (u : Triangle) (t : Tick) :
    (u.tick t).length = if t.half then u.length.clock else u.length := by
  unfold tick
  dsimp only
  split <;> split <;> rfl

theorem Noise.length_tick (n : Noise) (t : Tick) :
    (n.tick t).length = if t.half then n.length.clock else n.length := by
  unfold tick
  dsimp only
  split <;> split <;> rfl

theorem Pulse.silent_slot (p : Pulse) (h : p.length.count = 0) :
    p.slot.period = 0 ∧ p.slot.volume = 0 := by
  have haudible : p.audible? = none := if_pos h
  rw [slot, haudible]
  exact ⟨Slot.period_silent p.duty, rfl⟩

theorem Triangle.silent_slot (t : Triangle) (h : t.length.count = 0) :
    t.slot.period = 0 ∧ t.slot.volume = 0 := by
  have haudible : ¬ t.audible = true := by
    rw [audible, h]
    exact Bool.false_ne_true
  rw [slot, if_neg haudible]
  exact ⟨Slot.period_silent 0, rfl⟩

theorem Noise.silent_slot (n : Noise) (h : n.length.count = 0) :
    n.slot.period = 0 ∧ n.slot.volume = 0 := by
  have haudible : n.audible? = none := if_pos h
  rw [slot, haudible]
  exact ⟨Slot.period_silent _, rfl⟩

namespace Apu

def counter (a : Apu) : Voice → LengthCounter
  | .pulse1 => a.pulse1.length
  | .pulse2 => a.pulse2.length
  | .triangle => a.triangle.length
  | .noise => a.noise.length

theorem counter_step (a : Apu) (v : Voice) :
    a.step.counter v = if a.nextTick.half then (a.counter v).clock else a.counter v := by
  cases v with
  | pulse1 => exact a.pulse1.length_tick a.nextTick
  | pulse2 => exact a.pulse2.length_tick a.nextTick
  | triangle => exact a.triangle.length_tick a.nextTick
  | noise => exact a.noise.length_tick a.nextTick

theorem counter_set (a : Apu) (v : Voice) (w : ParamWrite) :
    (a.set w.channel w.param w.value).counter v =
      if w.aims v then (a.counter v).hear w else a.counter v := by
  rw [set_eq]
  cases v with
  | pulse1 => exact (apply_ite Pulse.length _ _ _).trans (by rw [Pulse.length_hear]; rfl)
  | pulse2 => exact (apply_ite Pulse.length _ _ _).trans (by rw [Pulse.length_hear]; rfl)
  | triangle => exact (apply_ite Triangle.length _ _ _).trans (by rw [Triangle.length_hear]; rfl)
  | noise => exact (apply_ite Noise.length _ _ _).trans (by rw [Noise.length_hear]; rfl)

theorem silent_of_count {a : Apu} (h : (a.counter v).count = 0) :
    (a.frame.get v).period = 0 ∧ (a.frame.get v).volume = 0 := by
  cases v with
  | pulse1 => exact a.pulse1.silent_slot h
  | pulse2 => exact a.pulse2.silent_slot h
  | triangle => exact a.triangle.silent_slot h
  | noise => exact a.noise.silent_slot h

end Apu

/-! ## The gate and the count behind writes -/

/-- What a counter keeps behind the writes it heard: its gate stands as it was last written,
and it is at zero if it is unloaded. -/
structure Gated (v : Voice) (writes : List ParamWrite) (c : LengthCounter) : Prop where
  enabled : c.enabled = !shutBehind v writes
  count : Unloaded v writes → c.count = 0

namespace Gated

theorem new (v : Voice) (clock : Clock) : Gated v [] ((Apu.new clock).counter v) := by
  cases v <;> exact ⟨rfl, fun _ => rfl⟩

variable {writes : List ParamWrite} {c : LengthCounter} (h : Gated v writes c)
include h

theorem clock : Gated v writes c.clock := by
  unfold LengthCounter.clock
  split
  · exact h
  · refine ⟨h.enabled, fun hun => ?_⟩
    show c.count - 1 = 0
    rw [h.count hun]

theorem gate {w : ParamWrite} (hw : w.gates v = true) : Gated v (writes ++ [w]) (c.gate w) := by
  constructor
  · rw [shutBehind_concat, if_pos hw]
    rfl
  · intro hun
    show (if w.value != 0 then c.count else 0) = 0
    split
    · rename_i hopen
      have hshuts : w.shuts v = false := by
        rw [ParamWrite.shuts, hw, Bool.true_and, ← Bool.not_eq_true', ← bne]
        exact hopen
      exact h.count (hun.of_concat hshuts)
    · rfl

theorem keep {w : ParamWrite} (hw : w.gates v = false) {d : LengthCounter}
    (henabled : d.enabled = c.enabled) (hcount : d.count = c.count) :
    Gated v (writes ++ [w]) d := by
  constructor
  · rw [henabled, h.enabled, shutBehind_concat, hw, if_neg Bool.false_ne_true]
  · intro hun
    rw [hcount]
    exact h.count (hun.of_concat (by rw [ParamWrite.shuts, hw, Bool.false_and]))

theorem load {w : ParamWrite} (hw : w.loads v = true) (value : UInt8) :
    Gated v (writes ++ [w]) (c.load value) := by
  have hchannel : w.channel = v.channel := by
    rw [ParamWrite.loads, Bool.and_eq_true, beq_iff_eq] at hw
    exact hw.1
  have hkeep : Gated v (writes ++ [w]) c := h.keep (ParamWrite.not_gates_of_own hchannel) rfl rfl
  unfold LengthCounter.load
  split
  · rename_i hopen
    refine ⟨hkeep.enabled, fun hun => ?_⟩
    rw [h.enabled, hun.shutBehind_of_loads hw] at hopen
    cases hopen
  · exact hkeep

theorem hear (w : ParamWrite) :
    Gated v (writes ++ [w]) (if w.aims v then c.hear w else c) := by
  unfold LengthCounter.hear
  by_cases hown : w.channel = v.channel
  · have hgates := ParamWrite.not_gates_of_own hown
    have haims : w.aims v = true := by
      rw [ParamWrite.aims, hown, beq_self_eq_true, Bool.true_or]
    rw [if_pos haims, if_neg (hown ▸ v.channel_ne_status)]
    unfold LengthCounter.write
    split
    · exact h.keep hgates rfl rfl
    · rename_i hparam
      exact h.load (by rw [ParamWrite.loads, hown, hparam]; simp) w.value
    · exact h.keep hgates rfl rfl
  · have haims : w.aims v = w.gates v := by
      rw [ParamWrite.aims, beq_eq_false_iff_ne.mpr hown, Bool.false_or]
      rfl
    rw [haims]
    split
    · rename_i hgates
      have hstatus : w.channel = .status := by
        rw [ParamWrite.gates, Bool.and_eq_true, beq_iff_eq] at hgates
        exact hgates.1
      rw [if_pos hstatus]
      exact h.gate hgates
    · rename_i hgates
      exact h.keep (Bool.eq_false_iff.mpr hgates) rfl rfl

end Gated

namespace Gated

variable {writes : List ParamWrite} {a : Apu} (h : Gated v writes (a.counter v))
include h

theorem step : Gated v writes (a.step.counter v) := by
  rw [Apu.counter_step]
  split
  · exact h.clock
  · exact h

theorem setAll (more : List ParamWrite) :
    Gated v (writes ++ more) ((a.setAll more).counter v) := by
  induction more generalizing writes a with
  | nil =>
    rw [List.append_nil]
    exact h
  | cons w more ih =>
    have hfirst : Gated v (writes ++ [w]) ((a.set w.channel w.param w.value).counter v) := by
      rw [Apu.counter_set]
      exact h.hear w
    rw [List.append_cons, Apu.setAll_cons]
    exact ih hfirst

theorem playedTo (runs : List (List ParamWrite)) :
    Gated v (writes ++ runs.flatten) ((playedTo a runs).counter v) := by
  induction runs generalizing writes a with
  | nil =>
    rw [List.flatten_nil, List.append_nil]
    exact h
  | cons run runs ih =>
    rw [List.flatten_cons, ← List.append_assoc]
    exact ih (h.step.setAll run)

end Gated

/-! ## Replay -/

theorem getElem?_played (a : Apu) (runs : List (List ParamWrite)) {i : Nat}
    (h : i < runs.length) : (played a runs)[i]? = some (playedTo a (runs.take (i + 1))) := by
  induction runs generalizing a i with
  | nil => exact absurd h (Nat.not_lt_zero i)
  | cons run runs ih =>
    cases i with
    | zero => rfl
    | succ i => exact ih (a.step.setAll run) (Nat.lt_of_succ_lt_succ h)

theorem Gated.played (v : Voice) (t : Timeline ParamWrite) {i : Nat} {a : Apu}
    (h : (ApuScore.played (Apu.new t.clock) (batches [] t.steps))[i]? = some a) :
    Gated v (actedBy i t.toEvents) (a.counter v) := by
  have hi : i < (batches [] t.steps).length := by
    rw [← length_played]
    exact (List.getElem?_eq_some_iff.mp h).1
  obtain rfl := Option.some.inj ((getElem?_played _ _ hi).symm.trans h)
  rw [length_batches] at hi
  have hwrites : ((batches [] t.steps).take (i + 1)).flatten = actedBy i t.toEvents := by
    rw [flatten_take_batches [] t.steps 0 hi, List.nil_append, Nat.zero_add]
    rfl
  rw [← hwrites]
  exact (Gated.new v t.clock).playedTo _

/-- A voice is silent at every sample up to which each load of its counter came while its
enable was shut or was followed by a write that shut it. So it is silent behind a write that
shuts its enable, until a write opened the enable and a later one loaded the counter. -/
theorem silent_of_unloaded {log : ParamLog} {s : RawScore} (h : replay log = .ok s) (v : Voice)
    {i : Nat} {f : Frame} (hf : s.frames[i]? = some f) :
    (Unloaded v (actedBy i log) → (f.get v).period = 0 ∧ (f.get v).volume = 0) ∧
      ∀ front w rest, actedBy i log = front ++ w :: rest → w.shuts v = true →
        (¬ ∃ x y, [x, y].Sublist rest ∧ x.opens v = true ∧ y.loads v = true) →
        (f.get v).period = 0 ∧ (f.get v).volume = 0 := by
  obtain ⟨t, rfl, -, rfl⟩ := replay_eq_ok.mp h
  rw [List.getElem?_map, Option.map_eq_some_iff] at hf
  obtain ⟨a, ha, rfl⟩ := hf
  have hsilent : Unloaded v (actedBy i t.toEvents) →
      (a.frame.get v).period = 0 ∧ (a.frame.get v).volume = 0 :=
    fun hun => Apu.silent_of_count ((Gated.played v t ha).count hun)
  refine ⟨hsilent, fun front w rest hsplit hshuts hrest => hsilent ?_⟩
  rw [hsplit]
  exact unloaded_of_shuts front hshuts hrest

/-- A noise that sounds, is shut and takes a load that is ignored. -/
theorem silent_of_unloaded_shut :
    ∃ log s f g, replay log = .ok s ∧ s.frames[1]? = some f ∧ (f.get .noise).volume = 15 ∧
      s.frames[3]? = some g ∧ Unloaded .noise (actedBy 3 log) ∧
      (g.get .noise).period = 0 ∧ (g.get .noise).volume = 0 := by
  let t : Timeline ParamWrite := ⟨.ntsc, [.act (.place .noise .volume 15 0),
    .act (.place .noise .constantVolume 1 0), .act (.place .noise .lengthLoad 1 0), .wait 2,
    .act (.place .status .enableNoise 0 0), .act (.place .noise .lengthLoad 1 0), .wait 3]⟩
  have hlog := replay_eq_ok.mpr ⟨t, rfl, by decide, rfl⟩
  let loading : List ParamWrite := [.place .noise .volume 15 0,
    .place .noise .constantVolume 1 0, .place .noise .lengthLoad 1 0]
  let shut : ParamWrite := .place .status .enableNoise 0 0
  have hshut : shut.shuts .noise = true := by decide
  have hone : ¬ ∃ x y : ParamWrite, [x, y].Sublist [.place .noise .lengthLoad 1 0] ∧
      x.opens .noise = true ∧ y.loads .noise = true :=
    fun ⟨_, _, hsub, _⟩ => nomatch hsub.length_le
  have hsilent := (silent_of_unloaded hlog .noise (i := 3) rfl).2 loading shut _ rfl hshut hone
  exact ⟨_, _, _, _, hlog, rfl, by decide, rfl, unloaded_of_shuts loading hshut hone, hsilent⟩

end ApuScore

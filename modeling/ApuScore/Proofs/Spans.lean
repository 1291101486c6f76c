import ApuScore.Proofs.Schedule
import ApuScore.Score.Scribe
/-
  The waits of a scribed score.

  A span is a frame and the wait behind its writes. The steps of a score are those
  of its spans (`frameSteps_eq`), where the wait behind the last frame is a span of
  its own that goes on with that frame. `startOf` says at which sample a wait
  begins.
-/

namespace ApuScore

def waitsIn {α : Type} (log : List (Event α)) : List Nat :=
  log.filterMap fun
    | .wait n => some n
    | _ => none

/-- The sample at which the `i`-th wait begins. -/
def startOf (waits : List Nat) (i : Nat) : Nat :=
  (waits.take i).foldr (fun n total => n + total) 0

@[simp] theorem startOf_zero (waits : List Nat) : startOf waits 0 = 0 := rfl

theorem startOf_succ (n : Nat) (waits : List Nat) (i : Nat) :
    startOf (n :: waits) (i + 1) = n + startOf waits i := rfl

theorem waitTotal_eq {α : Type} (log : List (Event α)) :
    waitTotal log = startOf (waitsIn log) (waitsIn log).length := by
  rw [startOf, List.take_length]
  induction log with
  | nil => rfl
  | cons e rest ih =>
    rw [waitTotal_cons, ih]
    cases e with
    | wait n => rfl
    | clock rate => exact Nat.zero_add _
    | act a => exact Nat.zero_add _

theorem startOf_add_lt {waits : List Nat} {i n k : Nat} (hn : waits[i]? = some n) (hk : k < n) :
    startOf waits i + k < startOf waits waits.length := by
  induction waits generalizing i with
  | nil => cases hn
  | cons m waits ih =>
    rw [List.length_cons, startOf_succ]
    cases i with
    | zero =>
      cases hn
      rw [startOf_zero]
      omega
    | succ i =>
      have hlt := ih hn
      rw [startOf_succ]
      omega

/-- Every frame behind the writes that lead to it, and before its wait. -/
def spanSteps : Frame → List (Frame × Nat) → List (Step ParamWrite)
  | _, [] => []
  | before, (f, n) :: rest => (frameWrites before f).map .act ++ .wait n :: spanSteps f rest

/-- Whether the frame gives the triangle a period. -/
def Frame.setsTriangle (f : Frame) : Bool := f.triangle.period != 0

/-- The sample of the first frame that sets the triangle, behind all spans if none
does. -/
def onset : List (Frame × Nat) → Nat
  | [] => 0
  | (f, n) :: rest => if f.setsTriangle then 0 else n + onset rest

theorem onset_eq (spans : List (Frame × Nat)) :
    onset spans =
      startOf (spans.map Prod.snd) ((spans.map Prod.fst).findIdx Frame.setsTriangle) := by
  induction spans with
  | nil => rfl
  | cons span rest ih =>
    obtain ⟨f, n⟩ := span
    rw [onset, List.map_cons, List.map_cons, List.findIdx_cons]
    cases f.setsTriangle with
    | true => rfl
    | false => rw [cond_false, startOf_succ, ih]; rfl

def RawScore.spans (s : RawScore) : List (Frame × Nat) :=
  s.frames.zip (s.waits.1.map (· % 0x100000000)) ++
    if s.waits.2 < s.sampleCount then
      [(s.frames.getLastD Frame.zero, (s.sampleCount - s.waits.2) % 0x100000000)]
    else []

theorem waitsIn_append {α : Type} (front rest : List (Event α)) :
    waitsIn (front ++ rest) = waitsIn front ++ waitsIn rest :=
  List.filterMap_append ..

theorem waitsIn_acts (writes : List ParamWrite) :
    waitsIn ((writes.map .act).map Step.toEvent) = [] := by
  induction writes with
  | nil => rfl
  | cons w writes ih => exact ih

theorem waitsIn_spanSteps (before : Frame) (spans : List (Frame × Nat)) :
    waitsIn ((spanSteps before spans).map Step.toEvent) = spans.map Prod.snd := by
  induction spans generalizing before with
  | nil => rfl
  | cons span rest ih =>
    obtain ⟨f, n⟩ := span
    rw [spanSteps, List.map_append, waitsIn_append, waitsIn_acts, List.nil_append, List.map_cons]
    exact congrArg (n :: ·) (ih f)

theorem frameWrites_self (f : Frame) : frameWrites f f = [] := by
  have hgate : ∀ (v : Voice) (on : Bool), gateWrites v on on = [] := by
    intro v on
    rw [gateWrites, if_pos (beq_self_eq_true on)]
  have hpulse : ∀ (v : Voice) (s : Slot), pulseWrites v s s = [] := by
    intro v s
    simp [pulseWrites, hgate, whenNeeded]
  have htriangle : triangleWrites f.triangle f.triangle = [] := by
    simp [triangleWrites, hgate, whenNeeded]
  have hnoise : noiseWrites f.noise f.noise = [] := by
    simp [noiseWrites, hgate, whenNeeded]
  rw [frameWrites, hpulse, hpulse, htriangle, hnoise]
  rfl

theorem spanSteps_append (before : Frame) (front rest : List (Frame × Nat)) :
    spanSteps before (front ++ rest) =
      spanSteps before front ++ spanSteps ((front.map Prod.fst).getLastD before) rest := by
  induction front generalizing before with
  | nil => rfl
  | cons span front ih =>
    obtain ⟨f, n⟩ := span
    rw [List.cons_append, spanSteps, ih, spanSteps, List.append_assoc, List.map_cons,
      List.getLastD_cons]
    rfl

/-- The writes and waits of the frames, side by side. -/
theorem flatten_zipWith (before : Frame) (frames : List Frame) (waits : List Nat) :
    (List.zipWith (fun ws n => ws.map .act ++ [waitStep n])
      (List.zipWith frameWrites (before :: frames) frames) waits).flatten =
      spanSteps before (frames.zip (waits.map (· % 0x100000000))) := by
  induction frames generalizing before waits with
  | nil => rfl
  | cons f frames ih =>
    cases waits with
    | nil => rfl
    | cons n waits =>
      rw [List.zipWith_cons_cons, List.zipWith_cons_cons, List.flatten_cons, ih, List.map_cons,
        List.zip_cons_cons, spanSteps, List.append_assoc]
      rfl

namespace RawScore

theorem length_waitsTo (total : Nat) (ends : List Nat) :
    (waitsTo total ends).1.length = ends.length := by
  have hfold : ∀ (r : Nat × List Nat),
      (ends.foldl (fun (s : Nat × List Nat) stop =>
        let wait := min stop total - s.1
        (s.1 + wait, wait :: s.2)) r).2.length = ends.length + r.2.length := by
    induction ends with
    | nil => intro r; exact (Nat.zero_add _).symm
    | cons stop ends ih =>
      intro r
      rw [List.foldl_cons, ih, List.length_cons, List.length_cons]
      omega
  rw [waitsTo, List.length_reverse, hfold]
  rfl

theorem length_waits (s : RawScore) : s.waits.1.length = s.frames.length := by
  unfold waits
  dsimp only
  split
  · exact List.length_replicate
  · rw [length_waitsTo, List.length_map, List.length_range]

theorem map_fst_zip_waits (s : RawScore) :
    (s.frames.zip (s.waits.1.map (· % 0x100000000))).map Prod.fst = s.frames := by
  have hlength : s.frames.length = (s.waits.1.map (· % 0x100000000)).length := by
    rw [List.length_map, s.length_waits]
  exact List.map_fst_zip (Nat.le_of_eq hlength)

theorem frameSteps_eq (s : RawScore) : s.frameSteps = spanSteps Frame.zero s.spans := by
  rw [spans, spanSteps_append, map_fst_zip_waits, ← flatten_zipWith]
  show _ ++ (if s.waits.2 < s.sampleCount then _ else _) = _
  split
  · rw [spanSteps, frameWrites_self]
    rfl
  · rfl

/-- The frame in front of the `i`-th wait; a wait behind all frames goes on with the
last one. -/
def frameAt (s : RawScore) (i : Nat) : Frame :=
  s.frames.getD i (s.frames.getLastD Frame.zero)

/-- The sample of the first frame that sets the triangle. -/
def triangleOnset (s : RawScore) : Nat :=
  startOf (waitsIn s.scribe) (s.frames.findIdx Frame.setsTriangle)

theorem frames_of_spans (s : RawScore) :
    s.spans.map Prod.fst = s.frames ++
      if s.waits.2 < s.sampleCount then [s.frames.getLastD Frame.zero] else [] := by
  rw [spans, List.map_append, map_fst_zip_waits]
  split <;> rfl

theorem forall_frameAt {P : Frame → Prop} {s : RawScore} (h : ∀ f ∈ s.frames, P f)
    (hzero : P Frame.zero) (i : Nat) : P (s.frameAt i) := by
  rw [frameAt, List.getD_eq_getElem?_getD]
  cases hi : s.frames[i]? with
  | some f => exact h f (List.mem_of_getElem? hi)
  | none => exact List.forall_mem_cons.mpr ⟨hzero, h⟩ _ List.getLastD_mem_cons

theorem fst_of_spans {s : RawScore} {i n : Nat} {f : Frame} (h : s.spans[i]? = some (f, n)) :
    f = s.frameAt i := by
  have hf : (s.spans.map Prod.fst)[i]? = some f := by
    rw [List.getElem?_map, h]
    rfl
  rw [frames_of_spans] at hf
  rw [frameAt, List.getD_eq_getElem?_getD]
  by_cases hi : i < s.frames.length
  · rw [List.getElem?_append_left hi] at hf
    rw [hf]
    rfl
  · have hle := Nat.not_lt.mp hi
    rw [List.getElem?_append_right hle] at hf
    rw [List.getElem?_eq_none hle]
    split at hf
    · exact (List.mem_singleton.mp (List.mem_of_getElem? hf))
    · cases hf

theorem forall_spans {P : Frame → Prop} {s : RawScore} (h : ∀ f ∈ s.frames, P f)
    (hzero : P Frame.zero) : ∀ span ∈ s.spans, P span.1 := by
  intro span hspan
  obtain ⟨i, hi⟩ := List.mem_iff_getElem?.mp hspan
  rw [fst_of_spans hi]
  exact forall_frameAt h hzero i

theorem waitsIn_scribe (s : RawScore) : waitsIn s.scribe = s.spans.map Prod.snd := by
  rw [scribe, frameSteps_eq, Timeline.toEvents, List.map_append]
  show waitsIn (List.map Step.toEvent (opening.map .act) ++ _) = _
  rw [waitsIn_append, waitsIn_acts, waitsIn_spanSteps]
  rfl

/-- If some frame sets the triangle, the spans do so first with the first such
frame. -/
theorem onset_spans {s : RawScore} (h : ∃ f ∈ s.frames, f.setsTriangle) :
    onset s.spans = s.triangleOnset := by
  have hlt := List.findIdx_lt_length_of_exists h
  rw [onset_eq, frames_of_spans, List.findIdx_append, if_pos hlt, triangleOnset, waitsIn_scribe]

theorem length_waitsIn_scribe (s : RawScore) :
    s.frames.length ≤ (waitsIn s.scribe).length ∧
      (waitsIn s.scribe).length ≤ s.frames.length + 1 := by
  have hlength : (waitsIn s.scribe).length = (s.spans.map Prod.fst).length := by
    rw [waitsIn_scribe, List.length_map, List.length_map]
  rw [hlength, frames_of_spans, List.length_append]
  split
  · exact ⟨Nat.le_add_right _ _, Nat.le_refl _⟩
  · exact ⟨Nat.le_add_right _ _, Nat.le_add_right _ _⟩

end RawScore

end ApuScore

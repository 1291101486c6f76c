import ApuScore.Proofs.Sheets
/-
  Scores written as sheets and read back.

  A sheet keeps every pitch and every timbre, and every velocity but those of silence and of
  the triangle (`Tone.noted`). This file

  1. gives the cues that lead a voice from tone to tone in the order in which they apply
     (`script`), and shows that they play the tones (`applyAll_script`);
  2. follows the writer of a voice: up to their order, its notes and controls hold the cues
     of the script (`Quill.Follows.take`, `Quill.perm_write`);
  3. concludes that the cues of a sheet play the tones it was written from (`toneAt_sheet`)
     and that a score comes back from its sheet as it was noted (`express_sheet`).
-/

namespace ApuScore

/-- What a sheet keeps of a tone. -/
def Tone.noted (v : Voice) (t : Tone) : Tone :=
  { t with velocity := if t.pitch = 0 ∨ v = .triangle then 0 else t.velocity }

def ExpressiveScore.noted (s : ExpressiveScore) : ExpressiveScore :=
  { s with frames := s.frames.map fun c => Voices.ofFn fun v => (c.get v).noted v }

theorem Tone.noted_silent (v : Voice) (t : Tone) (h : (t.noted v).pitch = 0) :
    (t.noted v).velocity = 0 :=
  if_pos (.inl h)

theorem Tone.noted_eq_self {v : Voice} {t : Tone}
    (h : t.pitch = 0 ∨ v = .triangle → t.velocity = 0) : t.noted v = t := by
  unfold noted
  split
  · rename_i hdropped
    rw [← h hdropped]
  · rfl

/-! ## From tone to tone -/

/-- The cues at a frame that lead from one tone to the pitch and velocity of the next. -/
def Tone.soundTo (position : Nat) (last next : Tone) : List (Nat × Cue) :=
  if next.pitch = last.pitch then
    if next.velocity = last.velocity then [] else [(position, .velocity next.velocity)]
  else
    (if last.pitch = 0 then [] else [(position, .off)]) ++
      if next.pitch = 0 then [] else [(position, .on next.pitch next.velocity)]

/-- The cues at a frame that lead from one tone to the next. -/
def Tone.cuesTo (position : Nat) (last next : Tone) : List (Nat × Cue) :=
  last.soundTo position next ++
    if next.timbre = last.timbre then [] else [(position, .timbre next.timbre)]

/-- The cues of a voice that plays the tones, frame by frame; an open note ends behind them. -/
def script (position : Nat) (last : Tone) : List Tone → List (Nat × Cue)
  | [] => if last.pitch = 0 then [] else [(position, .off)]
  | t :: rest => last.cuesTo position t ++ script (position + 1) t rest

theorem Tone.fst_cuesTo (position : Nat) (last next : Tone) :
    ∀ c ∈ last.cuesTo position next, c.1 = position := by
  unfold cuesTo soundTo
  grind

theorem Tone.applyAll_soundTo (position : Nat) (last : Tone) {next : Tone}
    (h : next.pitch = 0 → next.velocity = 0) :
    Cue.applyAll (last.soundTo position next) last = { next with timbre := last.timbre } := by
  obtain ⟨pitch, velocity, timbre⟩ := last
  obtain ⟨pitch', velocity', timbre'⟩ := next
  rw [soundTo]
  by_cases hpitch : pitch' = pitch
  · by_cases hvelocity : velocity' = velocity <;>
      simp [hpitch, hvelocity, Cue.applyAll, Cue.apply]
  · by_cases hsilent : pitch' = 0 <;> by_cases hopen : pitch = 0 <;>
      simp_all [Cue.applyAll, Cue.apply]

/-- The cues lead to the next tone, unless that is silent and has a velocity. -/
theorem Tone.applyAll_cuesTo (position : Nat) (last : Tone) {next : Tone}
    (h : next.pitch = 0 → next.velocity = 0) :
    Cue.applyAll (last.cuesTo position next) last = next := by
  rw [cuesTo, Cue.applyAll_append, applyAll_soundTo position last h]
  split
  · rename_i htimbre
    rw [← htimbre]
    rfl
  · rfl

/-- Two cues that may stand either way commute. -/
def Cue.Settled (a b : Nat × Cue) : Prop :=
  before b a = true → ∀ t : Tone, b.2.apply (a.2.apply t) = a.2.apply (b.2.apply t)

theorem Tone.pairwise_soundTo (position : Nat) (last next : Tone) :
    (last.soundTo position next).Pairwise Cue.Settled := by
  unfold soundTo
  split
  · split
    · exact .nil
    · exact List.pairwise_singleton _ _
  · -- a note ends before the next one starts
    by_cases hopen : last.pitch = 0 <;> by_cases hsilent : next.pitch = 0 <;>
      simp [hopen, hsilent, Cue.Settled, Cue.before_iff, Cue.rank]

theorem Tone.ne_timbre_of_mem_soundTo {position : Nat} {last next : Tone} {c : Nat × Cue}
    (h : c ∈ last.soundTo position next) (value : UInt8) : c.2 ≠ .timbre value := by
  unfold soundTo at h
  grind

theorem Tone.pairwise_cuesTo (position : Nat) (last next : Tone) :
    (last.cuesTo position next).Pairwise Cue.Settled := by
  have hsound := pairwise_soundTo position last next
  unfold cuesTo
  split
  · rwa [List.append_nil]
  · refine List.pairwise_append.mpr ⟨hsound, List.pairwise_singleton _ _, ?_⟩
    -- the timbre stands apart from pitch and velocity
    intro c hc x hx hbefore t
    obtain rfl := List.mem_singleton.mp hx
    have hne := ne_timbre_of_mem_soundTo hc
    cases hcue : c.2 with
    | timbre value => exact absurd hcue (hne value)
    | _ => rfl

theorem le_script (position : Nat) (last : Tone) (tones : List Tone) :
    ∀ c ∈ script position last tones, position ≤ c.1 := by
  induction tones generalizing position last with
  | nil => unfold script; grind
  | cons t rest ih =>
    intro c hc
    rcases List.mem_append.mp hc with hc | hc
    · exact Nat.le_of_eq (Tone.fst_cuesTo position last t c hc).symm
    · exact Nat.le_of_succ_le (ih (position + 1) t c hc)

theorem pairwise_script (position : Nat) (last : Tone) (tones : List Tone) :
    (script position last tones).Pairwise Cue.Settled := by
  induction tones generalizing position last with
  | nil =>
    rw [script]
    split
    · exact .nil
    · exact List.pairwise_singleton _ _
  | cons t rest ih =>
    refine List.pairwise_append.mpr ⟨Tone.pairwise_cuesTo position last t, ih _ t, ?_⟩
    -- the cues of later frames stay behind
    intro a ha b hb hbefore
    have hposition := Tone.fst_cuesTo position last t a ha
    have hlater := le_script (position + 1) t rest b hb
    have hle := Cue.le_of_before hbefore
    omega

/-- At each frame the script has led to the tone of that frame. -/
theorem applyAll_script (position : Nat) (last : Tone) {tones : List Tone}
    (hsilent : ∀ t ∈ tones, t.pitch = 0 → t.velocity = 0) {k : Nat} {t : Tone}
    (h : tones[k]? = some t) :
    Cue.applyAll ((script position last tones).filter fun c => c.1 ≤ position + k) last = t := by
  induction tones generalizing position last k with
  | nil => cases h
  | cons first rest ih =>
    obtain ⟨hfirst, hrest⟩ := List.forall_mem_cons.mp hsilent
    have hnow : (last.cuesTo position first).filter (fun c => c.1 ≤ position + k) =
        last.cuesTo position first := by
      rw [List.filter_eq_self]
      intro c hc
      rw [Tone.fst_cuesTo position last first c hc, decide_eq_true_iff]
      exact Nat.le_add_right position k
    rw [script, List.filter_append, hnow, Cue.applyAll_append, Tone.applyAll_cuesTo _ _ hfirst]
    cases k with
    | zero =>
      have hlater : (script (position + 1) first rest).filter
          (fun c => c.1 ≤ position + 0) = [] := by
        rw [List.filter_eq_nil_iff]
        intro c hc
        have hle := le_script (position + 1) first rest c hc
        rw [decide_eq_true_iff]
        omega
      rw [hlater]
      exact Option.some.inj h
    | succ k =>
      rw [← Nat.succ_add_eq_add_succ]
      exact ih (position + 1) first hrest h

/-! ## Writing -/

/-- The cue that starts a note on voice `v`. -/
def Note.onset (v : Voice) (n : Note) : Nat × Cue :=
  (n.start, .on n.pitch (if v = .triangle then 0 else n.velocity))

/-- The cues of what the writer of a voice has written so far. -/
def Quill.cues (v : Voice) (q : Quill) : List (Nat × Cue) :=
  q.notes.flatMap (Note.cues v) ++ q.opened.toList.map (Note.onset v) ++
    q.controls.flatMap (Control.cues v)

def Quill.sound (v : Voice) (t : Tone) (q : Quill) : Quill :=
  if t.pitch ≠ q.last.pitch then q.turn v { t with velocity := velocityOf v t }
  else q.control v velocityController (velocityOf v t)
    (t.pitch != 0 && velocityOf v t != q.last.velocity)

/-- What the writer of a voice writes leads from noted tone to noted tone: in silence and on
the triangle there are no velocities to follow. -/
theorem Tone.soundTo_noted (v : Voice) (position : Nat) (last t : Tone) :
    (last.noted v).soundTo position (t.noted v) =
      if t.pitch = last.pitch then
        if t.pitch != 0 && Quill.velocityOf v t != Quill.velocityOf v last then
          [(position, .velocity (Quill.velocityOf v t))]
        else []
      else
        (if last.pitch != 0 then [(position, .off)] else []) ++
          if t.pitch = 0 then []
          else [(position, .on t.pitch (if v = .triangle then 0 else Quill.velocityOf v t))] := by
  unfold soundTo noted Quill.velocityOf
  dsimp only
  by_cases htriangle : v = .triangle
  · simp [htriangle]
  · by_cases hheld : t.pitch = last.pitch
    · by_cases hsilent : t.pitch = 0 <;> simp [htriangle, ← hheld, hsilent]
    · rw [if_neg hheld, if_neg hheld]
      by_cases hsilent : t.pitch = 0 <;> simp [htriangle, hsilent]

/-- The writer of a voice behind a tone: it recalls the tone as it spells it, and a note is
open exactly if the tone sounds. -/
structure Quill.Follows (v : Voice) (t : Tone) (q : Quill) : Prop where
  last : q.last = { t with velocity := velocityOf v t }
  opened : q.opened.isSome = (t.pitch != 0)
  channel : ∀ n ∈ q.opened, n.channel = v.channel

namespace Quill

variable {v : Voice}

theorem take_eq (q : Quill) (t : Tone) :
    q.take v t =
      { (q.sound v t).control v timbreController t.timbre (t.timbre != q.last.timbre) with
        position := ((q.sound v t).control v timbreController t.timbre
          (t.timbre != q.last.timbre)).position + 1
        last := { t with velocity := velocityOf v t } } := rfl

theorem cues_close {q : Quill} (h : ∀ n ∈ q.opened, n.channel = v.channel) :
    (q.close.cues v).Perm
      (q.cues v ++ if q.opened.isSome then [(q.position, .off)] else []) := by
  cases hopened : q.opened with
  | none => simp [close, cues, hopened]
  | some n =>
    have hchannel : n.channel = v.channel := h n hopened
    rw [List.perm_iff_count]
    intro c
    simp only [cues, close, hopened, Option.toList_some, Option.toList_none, Option.isSome_some,
      if_true, List.map_cons, List.map_nil, List.flatMap_cons, Note.cues, hchannel, Note.onset,
      List.count_append, List.count_cons, List.count_nil]
    omega

theorem cues_control (q : Quill) (controller value : UInt8) {cue : Cue}
    (hcue : Cue.ofControl? ⟨v.channel, q.position, controller, value⟩ = some cue)
    (changes : Bool) : ((q.control v controller value changes).cues v).Perm
      (q.cues v ++ if changes then [(q.position, cue)] else []) := by
  cases changes with
  | false => simp [control]
  | true =>
    rw [List.perm_iff_count]
    intro c
    simp [control, cues, Control.cues, hcue, List.count_cons]

theorem cues_open (q : Quill) (h : q.opened = none) (n : Note) :
    (Quill.cues v { q with opened := some n }).Perm (q.cues v ++ [n.onset v]) := by
  rw [List.perm_iff_count]
  intro c
  simp [cues, h, List.count_cons, Nat.add_left_comm]

theorem opened_close (q : Quill) : q.close.opened = none := by
  unfold close
  split
  · rfl
  · assumption

theorem position_close (q : Quill) : q.close.position = q.position := by
  unfold close
  split <;> rfl

theorem position_turn (q : Quill) (t : Tone) : (q.turn v t).position = q.position := by
  unfold turn
  dsimp only
  split <;> exact q.position_close

theorem opened_turn (q : Quill) (t : Tone) : (q.turn v t).opened =
    if t.pitch = 0 then none
    else some ⟨v.channel, t.pitch, t.velocity, t.timbre, q.position, q.position⟩ := by
  unfold turn
  dsimp only
  split
  · exact q.opened_close
  · rw [position_close]

theorem cues_turn {q : Quill} (h : ∀ n ∈ q.opened, n.channel = v.channel) (t : Tone) :
    ((q.turn v t).cues v).Perm (q.cues v ++
      ((if q.opened.isSome then [(q.position, .off)] else []) ++
        if t.pitch = 0 then [] else
          [(q.position, .on t.pitch (if v = .triangle then 0 else t.velocity))])) := by
  have hclose := cues_close h
  unfold turn
  dsimp only
  split
  · rwa [List.append_nil]
  · have hopen := q.close.cues_open (v := v) q.opened_close
      ⟨v.channel, t.pitch, t.velocity, t.timbre, q.close.position, q.close.position⟩
    refine hopen.trans ((hclose.append_right _).trans ?_)
    rw [List.append_assoc, Note.onset, position_close]

theorem opened_control (q : Quill) (controller value : UInt8) (changes : Bool) :
    (q.control v controller value changes).opened = q.opened := by
  unfold control
  split <;> rfl

theorem position_control (q : Quill) (controller value : UInt8) (changes : Bool) :
    (q.control v controller value changes).position = q.position := by
  unfold control
  split <;> rfl

theorem position_sound (q : Quill) (t : Tone) : (q.sound v t).position = q.position := by
  unfold sound
  split
  · exact position_turn _ _
  · exact position_control _ _ _ _

namespace Follows

variable {last : Tone} {q : Quill} (h : q.Follows v last)
include h

theorem opened_sound (t : Tone) : (q.sound v t).opened.isSome = (t.pitch != 0) ∧
    ∀ n ∈ (q.sound v t).opened, n.channel = v.channel := by
  unfold sound
  rw [h.last]
  split
  · rw [opened_turn]
    dsimp only
    split
    · rename_i hsilent
      simp [hsilent]
    · rename_i hsounds
      simp [hsounds]
  · rename_i hheld
    rw [opened_control, h.opened, not_not.mp hheld]
    exact ⟨rfl, h.channel⟩

theorem cues_sound (t : Tone) : ((q.sound v t).cues v).Perm
    (q.cues v ++ (last.noted v).soundTo q.position (t.noted v)) := by
  rw [Tone.soundTo_noted, sound, h.last]
  by_cases hheld : t.pitch = last.pitch
  · rw [if_neg (not_not.mpr hheld), if_pos hheld]
    exact q.cues_control velocityController _ rfl _
  · rw [if_pos hheld, if_neg hheld, ← h.opened]
    exact cues_turn h.channel _

theorem take (t : Tone) : (q.take v t).Follows v t ∧ (q.take v t).position = q.position + 1 ∧
    ((q.take v t).cues v).Perm
      (q.cues v ++ (last.noted v).cuesTo q.position (t.noted v)) := by
  obtain ⟨hopened, hchannel⟩ := h.opened_sound t
  rw [take_eq]
  refine ⟨⟨rfl, ?_, ?_⟩, ?_, ?_⟩
  · exact (congrArg Option.isSome (opened_control _ _ _ _)).trans hopened
  · rwa [opened_control]
  · rw [position_control, position_sound]
  · have htimbre := (q.sound v t).cues_control (v := v) timbreController t.timbre rfl
      (t.timbre != q.last.timbre)
    have hlast : q.last.timbre = last.timbre := by rw [h.last]
    have hnext : (if t.timbre != q.last.timbre then [(q.position, Cue.timbre t.timbre)] else []) =
        if (t.noted v).timbre = (last.noted v).timbre then []
        else [(q.position, Cue.timbre (t.noted v).timbre)] := by
      by_cases heq : t.timbre = last.timbre <;> simp [Tone.noted, hlast, heq]
    rw [position_sound, hnext] at htimbre
    refine htimbre.trans (((h.cues_sound t).append_right _).trans ?_)
    rw [List.append_assoc]
    exact .refl _

end Follows

theorem follows_start (v : Voice) : (start v).Follows v Tone.zero :=
  ⟨rfl, rfl, fun _ h => nomatch h⟩

theorem Follows.perm_foldl {last : Tone} {q : Quill} (h : q.Follows v last) (tones : List Tone) :
    ((tones.foldl (Quill.take v) q).close.cues v).Perm
      (q.cues v ++ script q.position (last.noted v) (tones.map (Tone.noted v))) := by
  induction tones generalizing q last with
  | nil =>
    refine (cues_close h.channel).trans (List.Perm.of_eq ?_)
    rw [h.opened, List.map_nil, script]
    by_cases hsilent : last.pitch = 0 <;> simp [Tone.noted, hsilent]
  | cons t tones ih =>
    obtain ⟨hnext, hposition, hcues⟩ := h.take t
    refine (ih hnext).trans ((hcues.append_right _).trans ?_)
    rw [List.append_assoc, hposition]
    exact .refl _

theorem perm_write (v : Voice) (tones : List Tone) :
    ((write v tones).1.flatMap (Note.cues v) ++ (write v tones).2.flatMap (Control.cues v)).Perm
      (script 0 Tone.zero (tones.map (Tone.noted v))) := by
  have hcues : ((write v tones).1.flatMap (Note.cues v) ++
      (write v tones).2.flatMap (Control.cues v)).Perm
        ((tones.foldl (take v) (start v)).close.cues v) := by
    rw [cues, opened_close, Option.toList_none, List.map_nil, List.append_nil]
    exact ((List.reverse_perm _).flatMap_right _).append ((List.reverse_perm _).flatMap_right _)
  have hzero : Tone.zero.noted v = Tone.zero := by cases v <;> rfl
  have hscript := (follows_start v).perm_foldl tones
  rw [hzero] at hscript
  exact hcues.trans hscript

end Quill

/-! ## Sheets -/

theorem flatMap_voices {α : Type} (v : Voice) {f : Voice → List α}
    (h : ∀ u, u ≠ v → f u = []) : Voice.all.flatMap f = f v := by
  cases v <;> simp [Voice.all, h]

/-- The cues of a voice on the sheet of a score are those of the script of its tones. -/
theorem perm_cues_sheet (s : ExpressiveScore) (v : Voice) : (s.sheet.cues v).Perm
    (script 0 Tone.zero ((s.frames.map fun c => c.get v).map (Tone.noted v))) := by
  have hwritten : ∀ u : Voice,
      (∀ n ∈ (Quill.write u (s.frames.map fun c => c.get u)).1, n.Copies u fun _ => True) ∧
        ∀ c ∈ (Quill.write u (s.frames.map fun c => c.get u)).2, c.Copies u fun _ => True :=
    fun _ => Quill.copies_write fun _ _ => trivial
  have hnotes : s.sheet.notes.flatMap (Note.cues v) =
      (Quill.write v (s.frames.map fun c => c.get v)).1.flatMap (Note.cues v) := by
    simp only [ExpressiveScore.sheet, List.flatMap_map, List.flatMap_assoc]
    refine flatMap_voices v fun u hu => List.flatMap_eq_nil_iff.mpr fun n hn => if_neg ?_
    rw [((hwritten u).1 n hn).channel]
    exact mt Voice.channel_inj hu
  have hcontrols : s.sheet.controls.flatMap (Control.cues v) =
      (Quill.write v (s.frames.map fun c => c.get v)).2.flatMap (Control.cues v) := by
    simp only [ExpressiveScore.sheet, List.flatMap_map, List.flatMap_assoc]
    refine flatMap_voices v fun u hu => List.flatMap_eq_nil_iff.mpr fun c hc => if_neg ?_
    rw [((hwritten u).2 c hc).channel]
    exact mt Voice.channel_inj hu
  refine (s.sheet.perm_cues v).trans ?_
  rw [hnotes, hcontrols]
  exact Quill.perm_write v _

theorem toneAt_sheet (s : ExpressiveScore) (v : Voice) {p : Nat} {c : Chord}
    (h : s.frames[p]? = some c) : s.sheet.toneAt v p = (c.get v).noted v := by
  have hperm := (perm_cues_sheet s v).symm.filter fun c => c.1 ≤ p
  have hsettled := (pairwise_script 0 Tone.zero
    ((s.frames.map fun c => c.get v).map (Tone.noted v))).filter fun c => c.1 ≤ p
  have hsorted := (s.sheet.pairwise_cues v).filter fun c => c.1 ≤ p
  have hsilent : ∀ t ∈ (s.frames.map fun c => c.get v).map (Tone.noted v),
      t.pitch = 0 → t.velocity = 0 := by
    rw [List.forall_mem_map]
    exact fun t _ => t.noted_silent v
  have htone : ((s.frames.map fun c => c.get v).map (Tone.noted v))[p]? =
      some ((c.get v).noted v) := by
    rw [List.getElem?_map, List.getElem?_map, h]
    rfl
  have hplay := applyAll_script 0 Tone.zero hsilent htone
  rw [Nat.zero_add] at hplay
  rw [Sheet.toneAt, ← hplay]
  exact (foldl_eq_of_perm (f := fun (t : Tone) (c : Nat × Cue) => c.2.apply t) hperm hsorted
    hsettled Tone.zero).symm

theorem ExpressiveScore.noted_eq_self {s : ExpressiveScore}
    (h : ∀ c ∈ s.frames, ∀ v : Voice, (c.get v).pitch = 0 ∨ v = .triangle →
      (c.get v).velocity = 0) : s.noted = s := by
  have hframes : (s.frames.map fun c => Voices.ofFn fun v => (c.get v).noted v) = s.frames := by
    refine (List.map_congr_left fun c hc => ?_).trans s.frames.map_id
    exact Voices.ext_get fun v => by rw [Voices.get_ofFn, Tone.noted_eq_self (h c hc v), id]
  rw [noted, hframes]

/-- A score comes back from its sheet with its rate, its length and all its tones, but for the
velocities of silence and of the triangle, which are zero. So a score comes back unchanged
if those are zero in it. -/
theorem express_sheet (s : ExpressiveScore) :
    s.sheet.express = .ok s.noted ∧
      ((∀ c ∈ s.frames, ∀ v : Voice, (c.get v).pitch = 0 ∨ v = .triangle →
        (c.get v).velocity = 0) → s.sheet.express = .ok s) := by
  have hexpress : s.sheet.express = .ok s.noted := by
    have hframes : (List.range s.frames.length).map
        (fun p => Voices.ofFn fun v => s.sheet.toneAt v p) = s.noted.frames := by
      refine List.ext_getElem (by simp [ExpressiveScore.noted]) fun p hp _ => ?_
      rw [List.length_map, List.length_range] at hp
      simp only [ExpressiveScore.noted, List.getElem_map, List.getElem_range,
        toneAt_sheet s _ (List.getElem?_eq_getElem hp)]
    rw [Sheet.express_eq, check_sheet]
    show Except.ok (ExpressiveScore.mk s.rate s.sampleCount
      ((List.range s.frames.length).map _)) = _
    rw [hframes]
    rfl
  exact ⟨hexpress, fun h => by rw [hexpress, ExpressiveScore.noted_eq_self h]⟩

/-- Notes back to back, a note that changes its velocity, a timbre that changes in silence and
a note that is still open at the end. -/
theorem express_sheet_held :
    Sheet.express (ExpressiveScore.sheet ⟨60, 2205,
        [⟨⟨60, 9, 2⟩, ⟨0, 0, 0⟩, ⟨48, 0, 0⟩, ⟨0, 0, 1⟩⟩,
          ⟨⟨60, 7, 2⟩, ⟨0, 0, 0⟩, ⟨50, 0, 0⟩, ⟨9, 4, 1⟩⟩,
          ⟨⟨0, 0, 3⟩, ⟨72, 0, 1⟩, ⟨50, 0, 0⟩, ⟨9, 4, 0⟩⟩]⟩) =
      .ok ⟨60, 2205,
        [⟨⟨60, 9, 2⟩, ⟨0, 0, 0⟩, ⟨48, 0, 0⟩, ⟨0, 0, 1⟩⟩,
          ⟨⟨60, 7, 2⟩, ⟨0, 0, 0⟩, ⟨50, 0, 0⟩, ⟨9, 4, 1⟩⟩,
          ⟨⟨0, 0, 3⟩, ⟨72, 0, 1⟩, ⟨50, 0, 0⟩, ⟨9, 4, 0⟩⟩]⟩ := by
  refine (express_sheet _).2 fun c hc v => ?_
  cases v <;> revert c <;> decide

end ApuScore

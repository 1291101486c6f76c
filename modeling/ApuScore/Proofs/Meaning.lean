import Mathlib.Data.List.Pairwise
import ApuScore.Proofs.Sounding
/-
  What a sheet of notes that stand apart means.

  On each voice the notes have spans that are not empty and do not meet (`Sheet.Apart`). For
  such a sheet this file shows that

  1. the pitch at a frame is that of the note whose span the frame lies in
     (`Sheet.Apart.pitch_of_covers`, `Sheet.Apart.pitch_of_not_covers`);
  2. the timbre, on any sheet, is that of the last timbre control up to the frame
     (`Sheet.timbre_toneAt`);
  3. what lies at or past the length can be left out (`Sheet.Apart.toneAt_clip`);
  4. notes and controls can be listed in any order if no two controls set one controller of a
     channel at the same position (`Sheet.Apart.toneAt_of_perm`);

  and puts it together in `express_apart`.
-/

namespace ApuScore

/-! ## Spans -/

def Note.Covers (n : Note) (position : Nat) : Prop := n.start ≤ position ∧ position < n.stop

instance (n : Note) (position : Nat) : Decidable (n.Covers position) :=
  inferInstanceAs (Decidable (_ ∧ _))

/-- Notes of one channel whose spans do not meet. -/
def Note.Clear (m n : Note) : Prop :=
  m.channel = n.channel → ∀ position, ¬ (m.Covers position ∧ n.Covers position)

instance : Std.Symm Note.Clear :=
  ⟨fun _ _ h hchannel position hboth => h hchannel.symm position hboth.symm⟩

/-- The notes have spans that are not empty, and those of one channel do not meet. -/
structure Sheet.Apart (s : Sheet) : Prop where
  spans : ∀ n ∈ s.notes, n.start < n.stop
  clear : s.notes.Pairwise Note.Clear

namespace Sheet.Apart

variable {s : Sheet} (h : s.Apart) {v : Voice} {p : Nat}
include h

theorem eq_of_covers {m n : Note} (hm : m ∈ s.notes) (hn : n ∈ s.notes)
    (hm' : m.channel = v.channel) (hn' : n.channel = v.channel) (hmp : m.Covers p)
    (hnp : n.Covers p) : m = n := by
  refine Decidable.byContradiction fun hne => ?_
  exact h.clear.forall hm hn hne (hm'.trans hn'.symm) p ⟨hmp, hnp⟩

theorem pitch_of_covers {n : Note} (hn : n ∈ s.notes) (hchannel : n.channel = v.channel)
    (hp : n.Covers p) : (s.toneAt v p).pitch = n.pitch := by
  obtain ⟨hstart, hstop⟩ := hp
  rcases s.pitch_toneAt v p with ⟨-, hlate⟩ | ⟨m, hm, hm', hbegun, hpitch, hlast⟩ |
    ⟨m, hm, hm', hended, -, hlast⟩
  · exact absurd hstart (Nat.not_le.mpr (hlate n hn hchannel).1)
  · -- the note that started last has not ended either
    have hspan := h.spans m hm
    have hopen := (hlast m hm hm').2
    have hmp : m.Covers p := ⟨hbegun, by omega⟩
    rw [hpitch, h.eq_of_covers hm hn hm' hchannel hmp ⟨hstart, hstop⟩]
  · -- the last frame of a note that ended would lie in both spans
    have hspan := h.spans m hm
    have hbefore := (hlast n hn hchannel).1 hstart
    have hsame := h.eq_of_covers (p := m.stop - 1) hm hn hm' hchannel
      ⟨by omega, by omega⟩ ⟨by omega, by omega⟩
    rw [hsame] at hended
    omega

theorem pitch_of_not_covers
    (hnone : ∀ n ∈ s.notes, n.channel = v.channel → ¬ n.Covers p) :
    (s.toneAt v p).pitch = 0 := by
  rcases s.pitch_toneAt v p with ⟨hpitch, -⟩ | ⟨m, hm, hm', hbegun, -, hlast⟩ |
    ⟨-, -, -, -, hpitch, -⟩
  · exact hpitch
  · have hspan := h.spans m hm
    have hopen := (hlast m hm hm').2
    exact absurd ⟨hbegun, by omega⟩ (hnone m hm hm')
  · exact hpitch

end Sheet.Apart

/-! ## Timbres -/

/-- Whether the control is one of a controller on a voice, at a frame or before it. -/
def Control.Acts (v : Voice) (controller : UInt8) (position : Nat) (c : Control) : Prop :=
  c.channel = v.channel ∧ c.controller = controller ∧ c.position ≤ position

instance (v : Voice) (controller : UInt8) (position : Nat) (c : Control) :
    Decidable (c.Acts v controller position) :=
  inferInstanceAs (Decidable (_ ∧ _ ∧ _))

/-- The last control of a controller on a voice up to a frame: of those at the latest position
the one that is listed last. -/
def Sheet.LastControl (s : Sheet) (v : Voice) (controller : UInt8) (position : Nat)
    (c : Control) : Prop :=
  ∃ front rest, s.controls = front ++ c :: rest ∧ c.Acts v controller position ∧
    (∀ d ∈ front, d.Acts v controller position → d.position ≤ c.position) ∧
    ∀ d ∈ rest, d.Acts v controller position → d.position < c.position

namespace Sheet

variable (s : Sheet) (v : Voice)

theorem setters_timbre (p : Nat) : s.setters v Cue.timbre? p =
    (s.controls.filter fun c => decide (c.Acts v timbreController p)).map fun c =>
      (c.position, .timbre c.value) := by
  have hnotes : (s.notes.flatMap (Note.cues v)).filter
      (fun c => (Cue.timbre? c.2).isSome && decide (c.1 ≤ p)) = [] := by
    rw [List.filter_eq_nil_iff]
    intro c hc
    obtain ⟨n, -, hc⟩ := List.mem_flatMap.mp hc
    obtain ⟨-, rfl | rfl⟩ := Note.mem_cues.mp hc <;> exact Bool.false_ne_true
  have hcontrol : ∀ x : Control, (x.cues v).filter
      (fun c => (Cue.timbre? c.2).isSome && decide (c.1 ≤ p)) =
        if x.Acts v timbreController p then [(x.position, .timbre x.value)] else [] := by
    intro x
    unfold Control.cues Cue.ofControl? Control.Acts
    by_cases hchannel : x.channel = v.channel
    · by_cases hvelocity : x.controller = velocityController
      · have hother : velocityController ≠ timbreController := by decide
        simp [hchannel, hvelocity, hother, Cue.timbre?]
      · have hother : timbreController ≠ velocityController := by decide
        by_cases htimbre : x.controller = timbreController
        · simp [hchannel, htimbre, hother, Cue.timbre?, List.filter_cons]
        · simp [hchannel, hvelocity, htimbre]
    · simp [hchannel]
  rw [setters, entries, List.filter_append, hnotes, List.nil_append, List.filter_flatMap]
  induction s.controls with
  | nil => rfl
  | cons x rest ih =>
    rw [List.flatMap_cons, ih, hcontrol, List.filter_cons]
    split
    · rename_i hacts
      rw [if_pos (decide_eq_true hacts)]
      rfl
    · rename_i hacts
      rw [if_neg (by simpa using hacts)]
      rfl

theorem timbre_toneAt (p : Nat) :
    (∃ c, s.LastControl v timbreController p c ∧ (s.toneAt v p).timbre = c.value) ∨
      (∀ c ∈ s.controls, ¬ c.Acts v timbreController p) ∧ (s.toneAt v p).timbre = 0 := by
  rcases s.view_toneAt Cue.timbre_apply v p with ⟨hnone, htimbre⟩ | ⟨front, cue, rest, hsplit,
    hfront, hrest, htimbre⟩
  · refine .inr ⟨fun c hc hacts => ?_, htimbre⟩
    rw [setters_timbre, List.map_eq_nil_iff, List.filter_eq_nil_iff] at hnone
    exact hnone c hc (decide_eq_true hacts)
  · rw [setters_timbre, List.map_eq_append_iff] at hsplit
    obtain ⟨acts, acts', hacts, rfl, hbehind⟩ := hsplit
    obtain ⟨c, later, rfl, rfl, rfl⟩ := List.map_eq_cons_iff.mp hbehind
    obtain ⟨first, second, hcontrols, rfl, hsecond⟩ := List.filter_eq_append_iff.mp hacts
    obtain ⟨between, last, rfl, hbetween, hc, rfl⟩ := List.filter_eq_cons_iff.mp hsecond
    refine .inl ⟨c, ⟨first ++ between, last, ?_, of_decide_eq_true hc, ?_, ?_⟩,
      (Option.some.inj htimbre).symm⟩
    · rw [hcontrols, List.append_assoc]
    · intro d hd hacts
      rcases List.mem_append.mp hd with hd | hd
      · exact Cue.le_of_before (hfront _ (List.mem_map.mpr
          ⟨d, List.mem_filter.mpr ⟨hd, decide_eq_true hacts⟩, rfl⟩))
      · exact absurd (decide_eq_true hacts) (hbetween d hd)
    · intro d hd hacts
      have hlarger := hrest _ (List.mem_map.mpr
        ⟨d, List.mem_filter.mpr ⟨hd, decide_eq_true hacts⟩, rfl⟩)
      rw [← Bool.not_eq_true, Cue.before_iff] at hlarger
      simp only [Cue.rank] at hlarger
      omega

end Sheet

/-! ## Past the end -/

theorem flatMap_filter_congr {α β : Type} {keep : α → Bool} {f g : α → List β} {l : List α}
    (hkept : ∀ x ∈ l, keep x = true → f x = g x) (hleft : ∀ x ∈ l, keep x = false → g x = []) :
    (l.filter keep).flatMap f = l.flatMap g := by
  induction l with
  | nil => rfl
  | cons x l ih =>
    obtain ⟨hx, hkept⟩ := List.forall_mem_cons.mp hkept
    obtain ⟨hx', hleft⟩ := List.forall_mem_cons.mp hleft
    rw [List.filter_cons, List.flatMap_cons, ← ih hkept hleft]
    split
    · rename_i hkeep
      rw [List.flatMap_cons, hx hkeep]
    · rename_i hkeep
      rw [hx' (by simpa using hkeep), List.nil_append]

def Note.clip (length : Nat) (n : Note) : Note := { n with stop := min n.stop length }

/-- The sheet without what lies at or past its length. -/
def Sheet.clip (s : Sheet) : Sheet :=
  { s with
    notes := (s.notes.filter (·.start < s.length)).map (Note.clip s.length)
    controls := s.controls.filter (·.position < s.length) }

theorem Sheet.Apart.toneAt_clip {s : Sheet} (h : s.Apart) (v : Voice) {p : Nat}
    (hp : p < s.length) : s.clip.toneAt v p = s.toneAt v p := by
  have hnotes : (s.clip.notes.flatMap (Note.cues v)).filter (fun c => decide (c.1 ≤ p)) =
      (s.notes.flatMap (Note.cues v)).filter fun c => decide (c.1 ≤ p) := by
    rw [List.filter_flatMap, List.filter_flatMap, Sheet.clip, List.flatMap_map]
    refine flatMap_filter_congr (fun n _ hkeep => ?_) fun n hn hleft => ?_
    · unfold Note.cues Note.clip
      by_cases hended : n.stop ≤ p
      · have hsame : min n.stop s.length = n.stop := by omega
        rw [hsame]
      · -- an end that is moved stays behind the frame
        have hopen : ¬ min n.stop s.length ≤ p := by omega
        split <;> simp [List.filter_cons, hended, hopen]
    · have hspan := h.spans n hn
      rw [decide_eq_false_iff_not] at hleft
      rw [List.filter_eq_nil_iff]
      intro c hc
      rw [decide_eq_true_iff]
      obtain ⟨-, rfl | rfl⟩ := Note.mem_cues.mp hc
      · show ¬ n.start ≤ p
        omega
      · show ¬ n.stop ≤ p
        omega
  have hcontrols : (s.clip.controls.flatMap (Control.cues v)).filter
      (fun c => decide (c.1 ≤ p)) =
        (s.controls.flatMap (Control.cues v)).filter fun c => decide (c.1 ≤ p) := by
    rw [List.filter_flatMap, List.filter_flatMap, Sheet.clip]
    refine flatMap_filter_congr (fun _ _ _ => rfl) fun x _ hleft => ?_
    rw [decide_eq_false_iff_not] at hleft
    rw [List.filter_eq_nil_iff]
    intro c hc
    have hposition : c.1 = x.position := by
      obtain ⟨-, ⟨-, rfl⟩ | ⟨-, rfl⟩⟩ := Control.mem_cues.mp hc <;> rfl
    rw [decide_eq_true_iff]
    omega
  rw [Sheet.toneAt_eq, Sheet.toneAt_eq, Sheet.entries, Sheet.entries, List.filter_append,
    List.filter_append, hnotes, hcontrols]

theorem Sheet.check_clip {s : Sheet} (h : s.check = .ok ()) : s.clip.check = .ok () := by
  obtain ⟨hnotes, hcontrols⟩ := Sheet.check_eq_ok.mp h
  refine Sheet.check_eq_ok.mpr ⟨fun n hn => ?_, fun c hc => ?_⟩
  · obtain ⟨m, hm, rfl⟩ := List.mem_map.mp hn
    exact hnotes m (List.mem_filter.mp hm).1
  · exact hcontrols c (List.mem_filter.mp hc).1

/-! ## Order -/

/-- Controls that do not set one controller of one channel at the same position. -/
def Control.Clear (c d : Control) : Prop :=
  ¬ (c.channel = d.channel ∧ c.position = d.position ∧ c.controller = d.controller)

/-- Two cues that have no order commute. -/
def Cue.Ties (a b : Nat × Cue) : Prop :=
  before a b = true → before b a = true →
    ∀ t : Tone, b.2.apply (a.2.apply t) = a.2.apply (b.2.apply t)

theorem Cue.ties_of_rank_ne {a b : Nat × Cue} (h : a.2.rank ≠ b.2.rank) : Cue.Ties a b := by
  intro hab hba
  rw [before_iff] at hab hba
  omega

instance : Std.Symm Cue.Ties :=
  ⟨fun _ _ h hba hab t => (h hab hba t).symm⟩

/-- If cues without an order commute, the tones do not depend on where they stand. -/
theorem Sheet.toneAt_eq_of_perm {s s' : Sheet} {v : Voice}
    (hties : (s.entries v).Pairwise Cue.Ties) (hperm : (s'.entries v).Perm (s.entries v))
    (p : Nat) : s'.toneAt v p = s.toneAt v p := by
  have hsorted := s.pairwise_cues v
  have hsettled : (s.cues v).Pairwise Cue.Settled :=
    (hsorted.and ((s.perm_cues v).symm.pairwise hties fun h => Std.Symm.symm _ _ h)).imp
      fun h => h.2 h.1
  have hcues : (s.cues v).Perm (s'.cues v) :=
    (s.perm_cues v).trans (hperm.symm.trans (s'.perm_cues v).symm)
  exact (foldl_eq_of_perm (f := fun (t : Tone) (c : Nat × Cue) => c.2.apply t)
    (hcues.filter _) ((s'.pairwise_cues v).filter _) (hsettled.filter _) Tone.zero).symm

/-- On a sheet of notes that stand apart the cues without an order commute, if no two controls
set one controller of a channel at the same position. -/
theorem Sheet.Apart.pairwise_entries {s : Sheet} (h : s.Apart)
    (hcontrols : s.controls.Pairwise Control.Clear) (v : Voice) :
    (s.entries v).Pairwise Cue.Ties := by
  rw [Sheet.entries, List.pairwise_append, List.pairwise_flatMap, List.pairwise_flatMap]
  refine ⟨⟨fun n hn => ?_, ?_⟩, ⟨fun x _ => ?_, ?_⟩, fun a ha b hb => ?_⟩
  · -- the start of a note and its end
    unfold Note.cues
    split
    · exact List.pairwise_pair.mpr (Cue.ties_of_rank_ne (by simp [Cue.rank]))
    · exact .nil
  · refine h.clear.imp_of_mem fun {m n} hm hn hclear a ha b hb => ?_
    have hmspan := h.spans m hm
    have hnspan := h.spans n hn
    obtain ⟨hm', ha⟩ := Note.mem_cues.mp ha
    obtain ⟨hn', hb⟩ := Note.mem_cues.mp hb
    rcases ha with rfl | rfl <;> rcases hb with rfl | rfl
    · -- both notes cover the frame at which they start
      intro hab hba
      rw [Cue.before_iff] at hab hba
      simp only [Note.onset] at hab hba
      exact absurd ⟨⟨Nat.le_refl _, hmspan⟩, ⟨by omega, by omega⟩⟩
        (hclear (hm'.trans hn'.symm) m.start)
    · exact Cue.ties_of_rank_ne (by simp [Note.onset, Cue.rank])
    · exact Cue.ties_of_rank_ne (by simp [Note.onset, Cue.rank])
    · exact fun _ _ _ => rfl
  · unfold Control.cues
    split
    · cases Cue.ofControl? x with
      | none => exact .nil
      | some cue => exact List.pairwise_singleton _ _
    · exact .nil
  · refine hcontrols.imp fun {x y} hclear a ha b hb => ?_
    obtain ⟨hx, ha⟩ := Control.mem_cues.mp ha
    obtain ⟨hy, hb⟩ := Control.mem_cues.mp hb
    -- one controller is not set twice, and two controllers set different values
    intro hab hba
    have hposition : a.1 = b.1 := Nat.le_antisymm (Cue.le_of_before hab) (Cue.le_of_before hba)
    rcases ha with ⟨hx', rfl⟩ | ⟨hx', rfl⟩ <;> rcases hb with ⟨hy', rfl⟩ | ⟨hy', rfl⟩
    · exact absurd ⟨hx.trans hy.symm, hposition, hx'.trans hy'.symm⟩ hclear
    · exact fun _ => rfl
    · exact fun _ => rfl
    · exact absurd ⟨hx.trans hy.symm, hposition, hx'.trans hy'.symm⟩ hclear
  · -- controls come behind notes
    obtain ⟨n, -, ha⟩ := List.mem_flatMap.mp ha
    obtain ⟨x, -, hb⟩ := List.mem_flatMap.mp hb
    refine Cue.ties_of_rank_ne ?_
    obtain ⟨-, rfl | rfl⟩ := Note.mem_cues.mp ha <;>
      obtain ⟨-, ⟨-, rfl⟩ | ⟨-, rfl⟩⟩ := Control.mem_cues.mp hb <;> simp [Note.onset, Cue.rank]

theorem Sheet.check_eq_of_perm {s : Sheet} {notes : List Note} {controls : List Control}
    (hnotes : notes.Perm s.notes) (hcontrols : controls.Perm s.controls)
    (h : s.check = .ok ()) :
    ({ s with notes := notes, controls := controls } : Sheet).check = .ok () := by
  obtain ⟨hvoices, hknown⟩ := Sheet.check_eq_ok.mp h
  exact Sheet.check_eq_ok.mpr ⟨fun n hn => hvoices n (hnotes.subset hn),
    fun c hc => hknown c (hcontrols.subset hc)⟩

theorem Sheet.Apart.toneAt_of_perm {s : Sheet} (h : s.Apart)
    (hcontrols : s.controls.Pairwise Control.Clear) {notes' : List Note}
    {controls' : List Control} (hnotes' : notes'.Perm s.notes)
    (hcontrols' : controls'.Perm s.controls) (v : Voice) (p : Nat) :
    ({ s with notes := notes', controls := controls' } : Sheet).toneAt v p = s.toneAt v p := by
  refine Sheet.toneAt_eq_of_perm (h.pairwise_entries hcontrols v) ?_ p
  exact (hnotes'.flatMap_right _).append (hcontrols'.flatMap_right _)

/-! ## The meaning of a sheet -/

/-- The score of a sheet of notes that stand apart. At each frame before the end every voice
has the pitch of the note whose span the frame lies in, or none, and the timbre of the last
timbre control so far, or zero. What lies at or past the length does not matter to it, and
neither does the order in which notes and controls are listed, if no two controls set one
controller of a channel at the same position. -/
theorem express_apart {s : Sheet} {e : ExpressiveScore} (h : s.express = .ok e)
    (hapart : s.Apart) :
    e.frames.length = s.length ∧
      (∀ p < s.length, ∃ c, e.frames[p]? = some c ∧ ∀ v : Voice,
        (∀ n ∈ s.notes, n.channel = v.channel → n.Covers p → (c.get v).pitch = n.pitch) ∧
        ((∀ n ∈ s.notes, n.channel = v.channel → ¬ n.Covers p) → (c.get v).pitch = 0) ∧
        ((∃ x, s.LastControl v timbreController p x ∧ (c.get v).timbre = x.value) ∨
          (∀ x ∈ s.controls, ¬ x.Acts v timbreController p) ∧ (c.get v).timbre = 0)) ∧
      s.clip.express = .ok e ∧
      (s.controls.Pairwise Control.Clear → ∀ notes' controls', notes'.Perm s.notes →
        controls'.Perm s.controls →
          ({ s with notes := notes', controls := controls' } : Sheet).express = .ok e) := by
  obtain ⟨hcheck, he⟩ := Sheet.express_eq_ok.mp h
  refine ⟨?_, fun p hp => ⟨_, (Sheet.getElem?_frames h).trans (if_pos hp), fun v => ?_⟩, ?_, ?_⟩
  · rw [he, List.length_map, List.length_range]
  · rw [Voices.get_ofFn]
    exact ⟨fun n hn hchannel hcovers => hapart.pitch_of_covers hn hchannel hcovers,
      hapart.pitch_of_not_covers, s.timbre_toneAt v p⟩
  · refine Sheet.express_eq_ok.mpr ⟨Sheet.check_clip hcheck, ?_⟩
    rw [he]
    congr 1
    refine List.map_congr_left fun p hp => ?_
    simp only [hapart.toneAt_clip _ (List.mem_range.mp hp)]
  · intro hcontrols notes' controls' hnotes' hcontrols'
    refine Sheet.express_eq_ok.mpr ⟨Sheet.check_eq_of_perm hnotes' hcontrols' hcheck, ?_⟩
    simp only [hapart.toneAt_of_perm hcontrols hnotes' hcontrols', he]

/-- Notes that adjoin, listed backwards, with controls where they meet and a note that starts
past the end. -/
theorem express_apart_adjoining :
    let s : Sheet := ⟨60, 2940, 4, [⟨.noise, 9, 3, 0, 5, 7⟩, ⟨.pulse1, 62, 7, 0, 2, 6⟩,
      ⟨.pulse1, 60, 9, 0, 0, 2⟩], [⟨.pulse1, 2, 11, 5⟩, ⟨.pulse1, 2, 12, 1⟩, ⟨.pulse1, 1, 12, 2⟩]⟩
    ∃ e, s.express = .ok e ∧ s.Apart ∧ s.clip.express = .ok e ∧
      (∃ c, e.frames[2]? = some c ∧ c.pulse1.pitch = 62) ∧
      ({ s with notes := s.notes.reverse, controls := s.controls.reverse } : Sheet).express =
        .ok e := by
  intro s
  have hexpress : s.express = .ok ⟨60, 2940,
      [⟨⟨60, 9, 0⟩, ⟨0, 0, 0⟩, ⟨0, 0, 0⟩, ⟨0, 0, 0⟩⟩, ⟨⟨60, 9, 2⟩, ⟨0, 0, 0⟩, ⟨0, 0, 0⟩, ⟨0, 0, 0⟩⟩,
        ⟨⟨62, 5, 1⟩, ⟨0, 0, 0⟩, ⟨0, 0, 0⟩, ⟨0, 0, 0⟩⟩,
        ⟨⟨62, 5, 1⟩, ⟨0, 0, 0⟩, ⟨0, 0, 0⟩, ⟨0, 0, 0⟩⟩]⟩ :=
    Sheet.express_eq_ok.mpr ⟨rfl, by cbv⟩
  have hapart : s.Apart := by
    refine ⟨by decide, ?_⟩
    simp [s, Note.Clear, Note.Covers]
    omega
  obtain ⟨-, hframes, hclip, hperm⟩ := express_apart hexpress hapart
  obtain ⟨c, hc, hchord⟩ := hframes 2 (by decide)
  have hpitch := (hchord .pulse1).1 ⟨.pulse1, 62, 7, 0, 2, 6⟩ (by decide) rfl (by decide)
  have hcontrols : s.controls.Pairwise Control.Clear := by
    unfold Control.Clear
    decide
  exact ⟨_, hexpress, hapart, hclip, ⟨c, hc, hpitch⟩,
    hperm hcontrols _ _ s.notes.reverse_perm s.controls.reverse_perm⟩

end ApuScore

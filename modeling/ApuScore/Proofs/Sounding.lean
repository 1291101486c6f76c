import Mathlib.Data.List.Permutation
import ApuScore.Proofs.Transcription
/-
  What sounds on a sheet.

  The cues of a voice are sorted, and the sort is stable. This file

  1. shows that a stable sort may be cut down before or after it is made (`filter_mergeSort`)
     and that it ends with the last of the largest entries (`getLast?_mergeSort`);
  2. reads a tone off the cues up to its frame, as they stand on the sheet
     (`Sheet.toneAt_eq`), and one value of it off those that set it: the last of the largest
     of them decides (`Sheet.view_toneAt`);
  3. applies this to the pitch: what happened last on the voice is that a note started or that
     one ended (`Sheet.pitch_toneAt`);
  4. concludes that what sounds is a note in its span, or one that ends no later than it
     starts (`exists_note_of_sounds`), which nothing ends (`exists_note_of_sounds_empty`).
-/

namespace ApuScore

/-! ## Stable sorts -/

section mergeSort

variable {α : Type} {le : α → α → Bool}

/-- A list is cut in one way only into entries that fail a test and entries that pass it. -/
theorem append_inj_of_test {p : α → Bool} {front rest front' rest' : List α}
    (h : front ++ rest = front' ++ rest') (hfront : ∀ a ∈ front, p a = false)
    (hrest : ∀ a ∈ rest, p a = true) (hfront' : ∀ a ∈ front', p a = false)
    (hrest' : ∀ a ∈ rest', p a = true) : front = front' ∧ rest = rest' := by
  have hcut : ∀ {front rest : List α}, (∀ a ∈ front, p a = false) → (∀ a ∈ rest, p a = true) →
      (front ++ rest).filter p = rest := by
    intro front rest hfront hrest
    rw [List.filter_append, List.filter_eq_nil_iff.mpr (by simpa using hfront),
      List.filter_eq_self.mpr hrest, List.nil_append]
  have hrests : rest = rest' := by
    rw [← hcut hfront hrest, h, hcut hfront' hrest']
  subst hrests
  exact ⟨List.append_cancel_right h, rfl⟩

variable (htrans : ∀ a b c, le a b = true → le b c = true → le a c = true)
  (htotal : ∀ a b, (le a b || le b a) = true)
include htrans htotal

theorem le_of_mergeSort_eq {l front rest : List α} {a : α}
    (h : l.mergeSort le = front ++ a :: rest) : ∀ b ∈ rest, le a b = true := by
  have hsorted := List.pairwise_mergeSort htrans htotal l
  rw [h, List.pairwise_append, List.pairwise_cons] at hsorted
  exact hsorted.2.1.1

/-- A stable sort may be cut down before or after it is made. -/
theorem filter_mergeSort (p : α → Bool) (l : List α) :
    (l.mergeSort le).filter p = (l.filter p).mergeSort le := by
  induction l with
  | nil => rw [List.mergeSort_nil, List.filter_nil, List.mergeSort_nil]
  | cons a l ih =>
    obtain ⟨front, rest, hsort, hwithout, hfront⟩ := List.mergeSort_cons htrans htotal a l
    rw [hwithout, List.filter_append] at ih
    rw [hsort, List.filter_append, List.filter_cons, List.filter_cons]
    split
    · -- both sorts put the entry in front of the first one that is no smaller
      obtain ⟨front', rest', hsort', hwithout', hfront'⟩ :=
        List.mergeSort_cons htrans htotal a (l.filter p)
      have hrest := le_of_mergeSort_eq htrans htotal hsort
      have hrest' := le_of_mergeSort_eq htrans htotal hsort'
      obtain ⟨h, h'⟩ := append_inj_of_test (p := le a) (ih.trans hwithout')
        (fun b hb => by simpa using hfront b (List.mem_filter.mp hb).1)
        (fun b hb => hrest b (List.mem_filter.mp hb).1) (by simpa using hfront') hrest'
      rw [hsort', h, h']
    · exact ih

/-- A stable sort ends with the last of the largest entries. -/
theorem getLast?_mergeSort {l : List α} (h : l ≠ []) :
    ∃ front x rest, l = front ++ x :: rest ∧ (∀ y ∈ front, le y x = true) ∧
      (∀ y ∈ rest, le x y = false) ∧ (l.mergeSort le).getLast? = some x := by
  induction l with
  | nil => exact absurd rfl h
  | cons a l ih =>
    obtain ⟨less, rest, hsort, hwithout, hless⟩ := List.mergeSort_cons htrans htotal a l
    cases hrest : rest with
    | nil =>
      -- the entry is larger than all behind it
      refine ⟨[], a, l, rfl, fun y hy => (nomatch hy), fun y hy => ?_, ?_⟩
      · have hmem : y ∈ l.mergeSort le := List.mem_mergeSort.mpr hy
        rw [hwithout, hrest, List.append_nil] at hmem
        simpa using hless y hmem
      · rw [hsort, hrest, List.getLast?_append]
        rfl
    | cons b rest' =>
      have hne : l ≠ [] := by
        rintro rfl
        rw [hrest] at hwithout
        simp at hwithout
      obtain ⟨front, x, behind, rfl, hfront, hbehind, hlast⟩ := ih hne
      have hlast' : rest.getLast? = some x := by
        rw [hwithout, List.getLast?_append, hrest] at hlast
        rw [hrest]
        simpa using hlast
      refine ⟨a :: front, x, behind, rfl, List.forall_mem_cons.mpr ⟨?_, hfront⟩, hbehind, ?_⟩
      · exact le_of_mergeSort_eq htrans htotal hsort x (List.mem_of_getLast? hlast')
      · rw [hsort, List.getLast?_append, List.getLast?_cons, hlast']
        rfl

end mergeSort

/-! ## What decides -/

namespace Sheet

variable (s : Sheet) (v : Voice)

/-- The cues of a voice as they stand on the sheet: those of the notes and then those of the
controls. -/
def entries : List (Nat × Cue) :=
  s.notes.flatMap (Note.cues v) ++ s.controls.flatMap (Control.cues v)

theorem toneAt_eq (p : Nat) : s.toneAt v p =
    Cue.applyAll (((s.entries v).filter fun c => c.1 ≤ p).mergeSort Cue.before) Tone.zero := by
  rw [toneAt, ← filter_mergeSort Cue.before_trans Cue.before_total]
  rfl

/-- The cues of a voice up to a frame that set a value, as they stand on the sheet. -/
def setters (sets? : Cue → Option UInt8) (position : Nat) : List (Nat × Cue) :=
  (s.entries v).filter fun c => (sets? c.2).isSome && decide (c.1 ≤ position)

theorem mem_setters {sets? : Cue → Option UInt8} {position : Nat} {c : Nat × Cue} :
    c ∈ s.setters v sets? position ↔
      c ∈ s.entries v ∧ (sets? c.2).isSome = true ∧ c.1 ≤ position := by
  rw [setters, List.mem_filter, Bool.and_eq_true, decide_eq_true_iff]

end Sheet

/-- What a cue sets the pitch to, if it does. -/
def Cue.pitch? : Cue → Option UInt8
  | .off => some 0
  | .on pitch _ => some pitch
  | .velocity _ => none
  | .timbre _ => none

/-- What a cue sets the timbre to, if it does. -/
def Cue.timbre? : Cue → Option UInt8
  | .timbre value => some value
  | _ => none

theorem Cue.pitch_apply (t : Tone) (c : Cue) :
    (c.apply t).pitch = c.pitch?.getD t.pitch := by
  cases c <;> rfl

theorem Cue.timbre_apply (t : Tone) (c : Cue) :
    (c.apply t).timbre = c.timbre?.getD t.timbre := by
  cases c <;> rfl

section view

variable {view : Tone → UInt8} {sets? : Cue → Option UInt8}
  (hview : ∀ t c, view (c.apply t) = (sets? c).getD (view t))
include hview

/-- Only the cues that set a value matter to it. -/
theorem Cue.view_applyAll_filter (cues : List (Nat × Cue)) {t u : Tone} (h : view t = view u) :
    view (applyAll cues t) = view (applyAll (cues.filter fun c => (sets? c.2).isSome) u) := by
  induction cues generalizing t u with
  | nil => exact h
  | cons c cues ih =>
    rw [List.filter_cons]
    cases hset : sets? c.2 with
    | none => exact ih (by rw [hview, hset]; exact h)
    | some value => exact ih (by rw [hview, hview, hset]; rfl)

/-- The value of a tone at a frame is that of silence if no cue up to there sets it, and else
what the last of the largest cues that do sets it to. -/
theorem Sheet.view_toneAt (s : Sheet) (v : Voice) (p : Nat) :
    (s.setters v sets? p = [] ∧ view (s.toneAt v p) = view Tone.zero) ∨
    ∃ front c rest, s.setters v sets? p = front ++ c :: rest ∧
      (∀ d ∈ front, Cue.before d c = true) ∧ (∀ d ∈ rest, Cue.before c d = false) ∧
      sets? c.2 = some (view (s.toneAt v p)) := by
  have htone : view (s.toneAt v p) =
      view (Cue.applyAll ((s.setters v sets? p).mergeSort Cue.before) Tone.zero) := by
    rw [toneAt_eq, Cue.view_applyAll_filter hview _ rfl,
      filter_mergeSort Cue.before_trans Cue.before_total, List.filter_filter, setters]
  by_cases hnone : s.setters v sets? p = []
  · refine .inl ⟨hnone, ?_⟩
    rw [htone, hnone, List.mergeSort_nil]
    rfl
  · obtain ⟨front, c, rest, hsplit, hfront, hrest, hlast⟩ :=
      getLast?_mergeSort Cue.before_trans Cue.before_total hnone
    refine .inr ⟨front, c, rest, hsplit, hfront, hrest, ?_⟩
    have hmem : c ∈ s.setters v sets? p := by
      rw [hsplit]
      exact List.mem_append_right front List.mem_cons_self
    obtain ⟨value, hvalue⟩ := Option.isSome_iff_exists.mp ((s.mem_setters v).mp hmem).2.1
    obtain ⟨done, hdone⟩ := List.getLast?_eq_some_iff.mp hlast
    rw [htone, hdone, Cue.applyAll_append]
    show _ = some (view (c.2.apply _))
    rw [hview, hvalue]
    rfl

end view

theorem Cue.before_last {front rest : List (Nat × Cue)} {c : Nat × Cue}
    (hfront : ∀ d ∈ front, before d c = true) (hrest : ∀ d ∈ rest, before c d = false) :
    ∀ d ∈ front ++ c :: rest, before d c = true := by
  intro d hd
  rcases List.mem_append.mp hd with hd | hd
  · exact hfront d hd
  · rcases List.mem_cons.mp hd with rfl | hd
    · simpa using before_total d d
    · simpa [hrest d hd] using before_total c d

theorem Note.mem_cues {v : Voice} {n : Note} {c : Nat × Cue} :
    c ∈ n.cues v ↔ n.channel = v.channel ∧ (c = n.onset v ∨ c = (n.stop, .off)) := by
  rw [Note.cues]
  split
  · rename_i hchannel
    simp [hchannel, Note.onset]
  · rename_i hchannel
    simp [hchannel]

theorem Control.mem_cues {v : Voice} {x : Control} {c : Nat × Cue} :
    c ∈ x.cues v ↔ x.channel = v.channel ∧
      (x.controller = velocityController ∧ c = (x.position, .velocity x.value) ∨
        x.controller = timbreController ∧ c = (x.position, .timbre x.value)) := by
  have hother : timbreController ≠ velocityController := by decide
  rw [Control.cues, Cue.ofControl?]
  split
  · rename_i hchannel
    split
    · rename_i hvelocity
      simp [hchannel, hvelocity, hother.symm]
    · rename_i hvelocity
      split
      · rename_i htimbre
        simp [hchannel, htimbre, hother]
      · rename_i htimbre
        simp [hvelocity, htimbre]
  · rename_i hchannel
    simp [hchannel]

/-! ## Pitches -/

namespace Sheet

variable (s : Sheet) (v : Voice)

theorem mem_entries_pitch {c : Nat × Cue} :
    (c ∈ s.entries v ∧ (c.2.pitch?).isSome = true) ↔
      ∃ n ∈ s.notes, n.channel = v.channel ∧ (c = n.onset v ∨ c = (n.stop, .off)) := by
  constructor
  · rintro ⟨hc, hset⟩
    rcases List.mem_append.mp hc with hc | hc
    · obtain ⟨n, hn, hc⟩ := List.mem_flatMap.mp hc
      exact ⟨n, hn, Note.mem_cues.mp hc⟩
    · obtain ⟨x, -, hx⟩ := List.mem_flatMap.mp hc
      obtain ⟨-, ⟨-, rfl⟩ | ⟨-, rfl⟩⟩ := Control.mem_cues.mp hx <;> cases hset
  · rintro ⟨n, hn, hc⟩
    refine ⟨List.mem_append_left _ (List.mem_flatMap.mpr ⟨n, hn, Note.mem_cues.mpr hc⟩), ?_⟩
    rcases hc.2 with rfl | rfl <;> rfl

theorem mem_setters_pitch {c : Nat × Cue} {p : Nat} :
    c ∈ s.setters v Cue.pitch? p ↔
      (∃ n ∈ s.notes, n.channel = v.channel ∧ (c = n.onset v ∨ c = (n.stop, .off))) ∧
        c.1 ≤ p := by
  rw [mem_setters, ← and_assoc, mem_entries_pitch]

/-- The last thing that happened to the notes of a voice by a frame: nothing yet, or a note
started, or one ended. What starts where a note ends comes later. -/
theorem pitch_toneAt (p : Nat) :
    ((s.toneAt v p).pitch = 0 ∧
      ∀ m ∈ s.notes, m.channel = v.channel → p < m.start ∧ p < m.stop) ∨
    (∃ n ∈ s.notes, n.channel = v.channel ∧ n.start ≤ p ∧ (s.toneAt v p).pitch = n.pitch ∧
      ∀ m ∈ s.notes, m.channel = v.channel →
        (m.start ≤ p → m.start ≤ n.start) ∧ (m.stop ≤ p → m.stop ≤ n.start)) ∨
    (∃ n ∈ s.notes, n.channel = v.channel ∧ n.stop ≤ p ∧ (s.toneAt v p).pitch = 0 ∧
      ∀ m ∈ s.notes, m.channel = v.channel →
        (m.start ≤ p → m.start < n.stop) ∧ (m.stop ≤ p → m.stop ≤ n.stop)) := by
  rcases s.view_toneAt Cue.pitch_apply v p with ⟨hnone, hpitch⟩ | ⟨front, c, rest, hsplit,
    hfront, hrest, hpitch⟩
  · refine .inl ⟨hpitch, fun m hm hchannel => ?_⟩
    have hlate : ∀ d, (d = m.onset v ∨ d = (m.stop, .off)) → p < d.1 := by
      intro d hd
      have hnot : d ∉ s.setters v Cue.pitch? p := by
        rw [hnone]
        exact List.not_mem_nil
      rw [mem_setters_pitch] at hnot
      exact Nat.lt_of_not_le fun hle => hnot ⟨⟨m, hm, hchannel, hd⟩, hle⟩
    exact ⟨hlate _ (.inl rfl), hlate _ (.inr rfl)⟩
  · have hmem : c ∈ s.setters v Cue.pitch? p := by
      rw [hsplit]
      exact List.mem_append_right front List.mem_cons_self
    obtain ⟨⟨n, hn, hchannel, hc⟩, hle⟩ := (s.mem_setters_pitch v).mp hmem
    -- nothing that happened by the frame comes later
    have hlast : ∀ m ∈ s.notes, m.channel = v.channel →
        (m.start ≤ p → Cue.before (m.onset v) c = true) ∧
          (m.stop ≤ p → Cue.before (m.stop, .off) c = true) := by
      intro m hm hchannel
      have hbefore := Cue.before_last hfront hrest
      rw [← hsplit] at hbefore
      exact ⟨fun hle => hbefore _ ((s.mem_setters_pitch v).mpr ⟨⟨m, hm, hchannel, .inl rfl⟩, hle⟩),
        fun hle => hbefore _ ((s.mem_setters_pitch v).mpr ⟨⟨m, hm, hchannel, .inr rfl⟩, hle⟩)⟩
    simp only [Cue.before_iff] at hlast
    right
    rcases hc with rfl | rfl
    · refine .inl ⟨n, hn, hchannel, hle, (Option.some.inj hpitch).symm, fun m hm hm' => ?_⟩
      obtain ⟨hstart, hstop⟩ := hlast m hm hm'
      simp only [Note.onset, Cue.rank] at hstart hstop
      omega
    · refine .inr ⟨n, hn, hchannel, hle, (Option.some.inj hpitch).symm, fun m hm hm' => ?_⟩
      obtain ⟨hstart, hstop⟩ := hlast m hm hm'
      simp only [Note.onset, Cue.rank] at hstart hstop
      omega

theorem express_eq_ok {s : Sheet} {e : ExpressiveScore} :
    s.express = .ok e ↔ s.check = .ok () ∧ e = ⟨s.rate, s.sampleCount,
      (List.range s.length).map fun p => Voices.ofFn fun v => s.toneAt v p⟩ := by
  rw [express_eq, bind_eq_ok]
  constructor
  · rintro ⟨⟨⟩, hcheck, he⟩
    exact ⟨hcheck, (Except.ok.inj he).symm⟩
  · rintro ⟨hcheck, he⟩
    exact ⟨(), hcheck, he ▸ rfl⟩

theorem getElem?_frames {s : Sheet} {e : ExpressiveScore} (h : s.express = .ok e) {p : Nat} :
    e.frames[p]? = if p < s.length then some (Voices.ofFn fun v => s.toneAt v p) else none := by
  rw [(express_eq_ok.mp h).2, List.getElem?_map]
  split
  · rename_i hp
    rw [List.getElem?_range hp, Option.map_some]
  · rename_i hp
    rw [List.getElem?_eq_none (by rw [List.length_range]; exact Nat.not_lt.mp hp), Option.map_none]

end Sheet

/-- What sounds on a voice at a frame is a note of the voice that has started. The frame lies
in the span of the note, unless the note ends no later than it starts; and since the note has
started no other note of the voice has started or ended. -/
theorem exists_note_of_sounds {s : Sheet} {e : ExpressiveScore} (h : s.express = .ok e)
    {p : Nat} {c : Chord} (hc : e.frames[p]? = some c) {v : Voice}
    (hsounds : (c.get v).pitch ≠ 0) :
    ∃ n ∈ s.notes, n.channel = v.channel ∧ n.pitch = (c.get v).pitch ∧ n.start ≤ p ∧
      (p < n.stop ∨ n.stop ≤ n.start) ∧
      ∀ m ∈ s.notes, m.channel = v.channel →
        ¬ (n.start < m.start ∧ m.start ≤ p) ∧ ¬ (n.start < m.stop ∧ m.stop ≤ p) := by
  rw [Sheet.getElem?_frames h] at hc
  split at hc
  · cases hc
    rw [Voices.get_ofFn] at hsounds ⊢
    rcases s.pitch_toneAt v p with ⟨hnone, -⟩ | ⟨n, hn, hchannel, hstart, hpitch, hlast⟩ |
      ⟨n, -, -, -, hended, -⟩
    · exact absurd hnone hsounds
    · obtain ⟨-, hstop⟩ := hlast n hn hchannel
      refine ⟨n, hn, hchannel, hpitch.symm, hstart, by omega, fun m hm hm' => ?_⟩
      obtain ⟨hstart', hstop'⟩ := hlast m hm hm'
      omega
    · exact absurd hended hsounds
  · cases hc

/-- A note inside another one. -/
theorem exists_note_of_sounds_inside :
    let s : Sheet := ⟨60, 4410, 6, [⟨.pulse1, 60, 9, 2, 0, 5⟩, ⟨.pulse1, 64, 7, 0, 2, 4⟩,
      ⟨.noise, 9, 3, 0, 3, 5⟩], [⟨.pulse1, 1, 11, 4⟩]⟩
    ∃ e c, s.express = .ok e ∧ e.frames[3]? = some c ∧ (c.get .pulse1).pitch = 64 ∧
      ∃ n ∈ s.notes, n.channel = .pulse1 ∧ n.pitch = 64 ∧ n.start ≤ 3 ∧
        (3 < n.stop ∨ n.stop ≤ n.start) := by
  intro s
  have hexpress : s.express = .ok ⟨60, 4410,
      [⟨⟨60, 9, 0⟩, ⟨0, 0, 0⟩, ⟨0, 0, 0⟩, ⟨0, 0, 0⟩⟩,
        ⟨⟨60, 4, 0⟩, ⟨0, 0, 0⟩, ⟨0, 0, 0⟩, ⟨0, 0, 0⟩⟩,
        ⟨⟨64, 7, 0⟩, ⟨0, 0, 0⟩, ⟨0, 0, 0⟩, ⟨0, 0, 0⟩⟩,
        ⟨⟨64, 7, 0⟩, ⟨0, 0, 0⟩, ⟨0, 0, 0⟩, ⟨9, 3, 0⟩⟩,
        ⟨⟨0, 0, 0⟩, ⟨0, 0, 0⟩, ⟨0, 0, 0⟩, ⟨9, 3, 0⟩⟩,
        ⟨⟨0, 0, 0⟩, ⟨0, 0, 0⟩, ⟨0, 0, 0⟩, ⟨0, 0, 0⟩⟩]⟩ :=
    Sheet.express_eq_ok.mpr ⟨rfl, by cbv⟩
  obtain ⟨n, hn, hchannel, hpitch, hstart, hspan, -⟩ :=
    exists_note_of_sounds (p := 3) (v := .pulse1) hexpress rfl (by decide)
  exact ⟨_, _, hexpress, rfl, rfl, n, hn, hchannel, hpitch, hstart, hspan⟩

/-- A note that ends where it starts sounds to the end of the sheet, although no frame lies in
its span. -/
theorem exists_note_of_sounds_empty :
    let s : Sheet := ⟨60, 2205, 3, [⟨.pulse1, 60, 9, 0, 1, 1⟩], []⟩
    (∀ n ∈ s.notes, ∀ p, ¬ (n.start ≤ p ∧ p < n.stop)) ∧
      (s.express.toOption.map fun e => e.frames.map fun c => c.pulse1.pitch) =
        some [0, 60, 60] := by
  intro s
  have hexpress : s.express = .ok ⟨60, 2205, [⟨⟨0, 0, 0⟩, ⟨0, 0, 0⟩, ⟨0, 0, 0⟩, ⟨0, 0, 0⟩⟩,
      ⟨⟨60, 9, 0⟩, ⟨0, 0, 0⟩, ⟨0, 0, 0⟩, ⟨0, 0, 0⟩⟩,
      ⟨⟨60, 9, 0⟩, ⟨0, 0, 0⟩, ⟨0, 0, 0⟩, ⟨0, 0, 0⟩⟩]⟩ :=
    Sheet.express_eq_ok.mpr ⟨rfl, by cbv⟩
  refine ⟨fun n hn p => ?_, by rw [hexpress]; rfl⟩
  obtain rfl := List.mem_singleton.mp hn
  exact fun hspan => Nat.not_lt.mpr hspan.1 hspan.2

end ApuScore

import ApuScore.Proofs.Meaning
import ApuScore.Proofs.Transcription
import ApuScore.Score.Tempo
/-
  Notes as the stretches over which a voice holds a pitch.

  The notes on the sheet of a score and its onsets are found apart, each with a look at
  the tone just before. This file

  1. says what a note is of the tones it is written from: a stretch of one pitch that can be
     extended on neither side, with the velocity and timbre of its first tone
     (`Note.Holds`), and that two such notes do not meet (`Note.Holds.eq_of_covers`);
  2. follows such notes through one more tone (`Note.Holds.push`, `Note.Holds.extend`,
     `Note.holds_single`), and the onsets too (`onsetsFrom_concat`);
  3. follows the writer of a voice: if the voice ended here, the notes written would be the
     stretches so far and would start at the onsets so far (`Quill.Phrases.take`);
  4. concludes that the notes of a voice are exactly its stretches, in order, and start at
     its onsets (`notesOn_sheet`).
-/

namespace ApuScore

/-! ## Stretches of one pitch -/

/-- The pitch at a frame; behind the last frame there is silence. -/
def pitchAt (tones : List Tone) (position : Nat) : UInt8 :=
  (tones.getD position Tone.zero).pitch

/-- The note is a stretch of a voice over which a pitch is held, as long as it can be, and
tells the velocity and the timbre of its first frame; the triangle has velocity 1. -/
structure Note.Holds (v : Voice) (tones : List Tone) (n : Note) : Prop where
  channel : n.channel = v.channel
  nonempty : n.start < n.stop
  within : n.stop ≤ tones.length
  sounds : n.pitch ≠ 0
  constant : ∀ position, n.Covers position → pitchAt tones position = n.pitch
  left : ∀ position, position + 1 = n.start → pitchAt tones position ≠ n.pitch
  right : pitchAt tones n.stop ≠ n.pitch
  velocity : n.velocity = if v = .triangle then 1 else (tones.getD n.start Tone.zero).velocity
  timbre : n.timbre = (tones.getD n.start Tone.zero).timbre

theorem getD_concat_of_lt {tones : List Tone} {position : Nat} (h : position < tones.length)
    (t : Tone) : (tones ++ [t]).getD position Tone.zero = tones.getD position Tone.zero := by
  simp only [List.getD_eq_getElem?_getD, List.getElem?_append_left h]

theorem getD_concat_length (tones : List Tone) (t : Tone) :
    (tones ++ [t]).getD tones.length Tone.zero = t := by
  simp

theorem pitchAt_concat_of_lt {tones : List Tone} {position : Nat} (h : position < tones.length)
    (t : Tone) : pitchAt (tones ++ [t]) position = pitchAt tones position := by
  rw [pitchAt, getD_concat_of_lt h, pitchAt]

@[simp] theorem pitchAt_concat_length (tones : List Tone) (t : Tone) :
    pitchAt (tones ++ [t]) tones.length = t.pitch := by
  rw [pitchAt, getD_concat_length]

theorem pitchAt_of_le {tones : List Tone} {position : Nat} (h : tones.length ≤ position) :
    pitchAt tones position = 0 := by
  simp [pitchAt, List.getElem?_eq_none h, Tone.zero]

theorem pitchAt_last {tones : List Tone} {position : Nat} (h : position + 1 = tones.length) :
    pitchAt tones position = (tones.getLastD Tone.zero).pitch := by
  have hposition : position = tones.length - 1 := by omega
  rw [pitchAt, hposition, List.getD_eq_getElem?_getD, ← List.getLast?_eq_getElem?,
    List.getLastD_eq_getLast?]

theorem lt_length_of_pitchAt {tones : List Tone} {position : Nat}
    (h : pitchAt tones position ≠ 0) : position < tones.length := by
  by_contra hle
  exact h (pitchAt_of_le (Nat.not_lt.mp hle))

theorem sounds_concat {tones : List Tone} {t : Tone} {position : Nat}
    (h : pitchAt (tones ++ [t]) position ≠ 0) :
    (position < tones.length ∧ pitchAt tones position ≠ 0) ∨
      (position = tones.length ∧ t.pitch ≠ 0) := by
  by_cases hlt : position < tones.length
  · exact .inl ⟨hlt, pitchAt_concat_of_lt hlt t ▸ h⟩
  · have hlength := lt_length_of_pitchAt h
    rw [List.length_append, List.length_singleton] at hlength
    obtain rfl : position = tones.length := by omega
    exact .inr ⟨rfl, pitchAt_concat_length tones t ▸ h⟩

namespace Note.Holds

variable {v : Voice} {tones : List Tone} {n : Note}

/-- A stretch does not start or stop inside another one of the same pitch. -/
theorem bounds_le {m : Note} (hm : m.Holds v tones) (hn : n.Holds v tones) {position : Nat}
    (hmp : m.Covers position) (hnp : n.Covers position) :
    m.start ≤ n.start ∧ n.stop ≤ m.stop := by
  obtain ⟨hmstart, hmstop⟩ := hmp
  obtain ⟨hnstart, hnstop⟩ := hnp
  have hpitch : m.pitch = n.pitch := by
    rw [← hm.constant position ⟨hmstart, hmstop⟩, hn.constant position ⟨hnstart, hnstop⟩]
  constructor
  · by_contra hlt
    apply hm.left (m.start - 1) (by omega)
    rw [hn.constant (m.start - 1) ⟨by omega, by omega⟩, hpitch]
  · by_contra hlt
    apply hm.right
    rw [hn.constant m.stop ⟨by omega, by omega⟩, hpitch]

theorem eq_of_covers {m : Note} (hm : m.Holds v tones) (hn : n.Holds v tones) {position : Nat}
    (hmp : m.Covers position) (hnp : n.Covers position) : m = n := by
  have hle := hm.bounds_le hn hmp hnp
  have hge := hn.bounds_le hm hnp hmp
  have hstart : m.start = n.start := by omega
  have hstop : m.stop = n.stop := by omega
  have hpitch : m.pitch = n.pitch := by
    rw [← hm.constant position hmp, hn.constant position hnp]
  have hchannel : m.channel = n.channel := by rw [hm.channel, hn.channel]
  have hvelocity : m.velocity = n.velocity := by rw [hm.velocity, hn.velocity, hstart]
  have htimbre : m.timbre = n.timbre := by rw [hm.timbre, hn.timbre, hstart]
  cases m
  cases n
  simp_all

theorem pitch_eq_last (h : n.Holds v tones) (hstop : n.stop = tones.length) :
    n.pitch = (tones.getLastD Tone.zero).pitch := by
  have hnonempty := h.nonempty
  rw [← h.constant (n.stop - 1) ⟨by omega, by omega⟩, pitchAt_last (by omega)]

/-! ## One more tone -/

theorem push (h : n.Holds v tones) {t : Tone}
    (hends : n.stop < tones.length ∨ t.pitch ≠ n.pitch) : n.Holds v (tones ++ [t]) := by
  have hstart : n.start < tones.length := Nat.lt_of_lt_of_le h.nonempty h.within
  have hwithin := h.within
  refine ⟨h.channel, h.nonempty, ?_, h.sounds, ?_, ?_, ?_, ?_, ?_⟩
  · simp only [List.length_append, List.length_singleton]
    omega
  · intro position hcovers
    rw [pitchAt_concat_of_lt (Nat.lt_of_lt_of_le hcovers.2 h.within)]
    exact h.constant position hcovers
  · intro position hposition
    rw [pitchAt_concat_of_lt (by omega)]
    exact h.left position hposition
  · by_cases hlast : n.stop = tones.length
    · rw [hlast, pitchAt_concat_length]
      exact hends.resolve_left (by omega)
    · rw [pitchAt_concat_of_lt (by omega)]
      exact h.right
  · rw [getD_concat_of_lt hstart]
    exact h.velocity
  · rw [getD_concat_of_lt hstart]
    exact h.timbre

theorem extend (h : n.Holds v tones) {t : Tone} (hstop : n.stop = tones.length)
    (hpitch : t.pitch = n.pitch) :
    Note.Holds v (tones ++ [t]) { n with stop := tones.length + 1 } := by
  have hstart : n.start < tones.length := hstop ▸ h.nonempty
  refine ⟨h.channel, Nat.lt_succ_of_lt hstart, ?_, h.sounds, ?_, ?_, ?_, ?_, ?_⟩
  · simp
  · intro position hcovers
    obtain ⟨hafter, hbefore⟩ := hcovers
    by_cases hlast : position = tones.length
    · rw [hlast, pitchAt_concat_length, hpitch]
    · have hlt : position < tones.length := by
        dsimp only at hbefore
        omega
      rw [pitchAt_concat_of_lt hlt]
      exact h.constant position ⟨hafter, by omega⟩
  · intro position hposition
    dsimp only at hposition
    rw [pitchAt_concat_of_lt (by omega)]
    exact h.left position hposition
  · rw [pitchAt_of_le (by simp)]
    exact h.sounds.symm
  · rw [getD_concat_of_lt hstart]
    exact h.velocity
  · rw [getD_concat_of_lt hstart]
    exact h.timbre

end Note.Holds

/-- A tone that sounds and has not the pitch before it is a stretch of its own. -/
theorem Note.holds_single (v : Voice) {tones : List Tone} {t : Tone} (hsounds : t.pitch ≠ 0)
    (hturns : t.pitch ≠ (tones.getLastD Tone.zero).pitch) :
    Note.Holds v (tones ++ [t])
      ⟨v.channel, t.pitch, Quill.velocityOf v t, t.timbre, tones.length, tones.length + 1⟩ := by
  refine ⟨rfl, Nat.lt_succ_self _, ?_, hsounds, ?_, ?_, ?_, ?_, ?_⟩
  · simp
  · intro position hcovers
    obtain ⟨hafter, hbefore⟩ := hcovers
    have hlast : position = tones.length := by
      dsimp only at hafter hbefore
      omega
    rw [hlast, pitchAt_concat_length]
  · intro position hposition
    dsimp only at hposition
    rw [pitchAt_concat_of_lt (by omega), pitchAt_last hposition]
    exact hturns.symm
  · rw [pitchAt_of_le (by simp)]
    exact hsounds.symm
  · rw [getD_concat_length]
    rfl
  · rw [getD_concat_length]

/-! ## All stretches -/

/-- The notes are the stretches of the tones, the latest one first. -/
structure Phrasing (v : Voice) (tones : List Tone) (notes : List Note) : Prop where
  holds : ∀ n ∈ notes, n.Holds v tones
  ordered : notes.Pairwise fun later n => n.stop ≤ later.start
  covers : ∀ position, pitchAt tones position ≠ 0 → ∃ n ∈ notes, n.Covers position

theorem phrasing_nil (v : Voice) : Phrasing v [] [] := by
  refine ⟨by simp, .nil, ?_⟩
  intro position hsounds
  exact absurd (pitchAt_of_le (Nat.zero_le position)) hsounds

namespace Phrasing

variable {v : Voice} {tones : List Tone} {notes : List Note} {t : Tone}

theorem existsUnique (h : Phrasing v tones notes) {position : Nat}
    (hsounds : pitchAt tones position ≠ 0) : ∃! n, n ∈ notes ∧ n.Covers position := by
  obtain ⟨n, hn, hcovers⟩ := h.covers position hsounds
  refine ⟨n, ⟨hn, hcovers⟩, ?_⟩
  intro m hm
  exact (h.holds m hm.1).eq_of_covers (h.holds n hn) hm.2 hcovers

theorem mem_iff (h : Phrasing v tones notes) (n : Note) : n ∈ notes ↔ n.Holds v tones := by
  refine ⟨h.holds n, ?_⟩
  intro hn
  -- a stretch is the note that covers its first frame
  have hfirst : n.Covers n.start := ⟨Nat.le_refl _, hn.nonempty⟩
  obtain ⟨m, hm, hcovers⟩ := h.covers n.start (hn.constant _ hfirst ▸ hn.sounds)
  rwa [hn.eq_of_covers (h.holds m hm) hfirst hcovers]

theorem rest (h : Phrasing v tones notes) (hsilent : t.pitch = 0) :
    Phrasing v (tones ++ [t]) notes := by
  refine ⟨?_, h.ordered, ?_⟩
  · intro n hn
    have hholds := h.holds n hn
    apply hholds.push
    exact .inr (hsilent ▸ hholds.sounds.symm)
  · intro position hposition
    obtain ⟨-, hbefore⟩ | ⟨-, hlast⟩ := sounds_concat hposition
    · exact h.covers position hbefore
    · exact absurd hsilent hlast

theorem start (h : Phrasing v tones notes) (hsounds : t.pitch ≠ 0)
    (hturns : t.pitch ≠ (tones.getLastD Tone.zero).pitch) :
    Phrasing v (tones ++ [t]) (⟨v.channel, t.pitch, Quill.velocityOf v t, t.timbre, tones.length,
      tones.length + 1⟩ :: notes) := by
  refine ⟨?_, ?_, ?_⟩
  · intro n hn
    rcases List.mem_cons.mp hn with rfl | hn
    · exact Note.holds_single v hsounds hturns
    · have hholds := h.holds n hn
      apply hholds.push
      by_cases hstop : n.stop = tones.length
      · exact .inr (hholds.pitch_eq_last hstop ▸ hturns)
      · exact .inl (Nat.lt_of_le_of_ne hholds.within hstop)
  · rw [List.pairwise_cons]
    exact ⟨fun n hn => (h.holds n hn).within, h.ordered⟩
  · intro position hposition
    obtain ⟨-, hbefore⟩ | ⟨rfl, -⟩ := sounds_concat hposition
    · obtain ⟨n, hn, hcovers⟩ := h.covers position hbefore
      exact ⟨n, List.mem_cons_of_mem _ hn, hcovers⟩
    · exact ⟨_, List.mem_cons_self, Nat.le_refl _, Nat.lt_succ_self _⟩

theorem hold {n : Note} (h : Phrasing v tones ({ n with stop := tones.length } :: notes))
    (hpitch : t.pitch = (tones.getLastD Tone.zero).pitch) :
    Phrasing v (tones ++ [t]) ({ n with stop := tones.length + 1 } :: notes) := by
  have hlatest := h.holds _ List.mem_cons_self
  have hordered := List.pairwise_cons.mp h.ordered
  have hstart : n.start < tones.length := hlatest.nonempty
  refine ⟨?_, ?_, ?_⟩
  · intro m hm
    rcases List.mem_cons.mp hm with rfl | hm
    · exact hlatest.extend rfl (hpitch.trans (hlatest.pitch_eq_last rfl).symm)
    · apply (h.holds m (List.mem_cons_of_mem _ hm)).push
      exact .inl (Nat.lt_of_le_of_lt (hordered.1 m hm) hstart)
  · exact List.pairwise_cons.mpr hordered
  · intro position hposition
    obtain ⟨-, hbefore⟩ | ⟨rfl, -⟩ := sounds_concat hposition
    · obtain ⟨m, hm, hcovers⟩ := h.covers position hbefore
      rcases List.mem_cons.mp hm with rfl | hm
      · exact ⟨_, List.mem_cons_self, hcovers.1, Nat.lt_succ_of_lt hcovers.2⟩
      · exact ⟨m, List.mem_cons_of_mem _ hm, hcovers⟩
    · exact ⟨_, List.mem_cons_self, Nat.le_of_lt hstart, Nat.lt_succ_self _⟩

end Phrasing

/-! ## Onsets -/

theorem onsetsFrom_found (index : Nat) (last : UInt8) (found : List Nat) (pitches : List UInt8) :
    onsetsFrom index last found pitches = found.reverse ++ onsetsFrom index last [] pitches := by
  induction pitches generalizing index last found with
  | nil => simp [onsetsFrom]
  | cons p rest ih =>
    rw [onsetsFrom, onsetsFrom, ih _ _ (if p ≠ 0 ∧ p ≠ last then index :: found else found),
      ih _ _ (if p ≠ 0 ∧ p ≠ last then [index] else [])]
    split <;> simp

theorem onsetsFrom_concat (index : Nat) (last : UInt8) (pitches : List UInt8) (p : UInt8) :
    onsetsFrom index last [] (pitches ++ [p]) = onsetsFrom index last [] pitches ++
      if p ≠ 0 ∧ p ≠ pitches.getLastD last then [index + pitches.length] else [] := by
  induction pitches generalizing index last with
  | nil =>
    show (if p ≠ 0 ∧ p ≠ last then [index] else []).reverse =
      [] ++ if p ≠ 0 ∧ p ≠ last then [index + 0] else []
    split <;> rfl
  | cons first rest ih =>
    have hlast : (first :: rest).getLastD last = rest.getLastD first := List.getLastD_cons ..
    have hindex : index + 1 + rest.length = index + (first :: rest).length := by
      rw [List.length_cons]
      omega
    rw [List.cons_append, onsetsFrom, onsetsFrom_found, ih, hlast, hindex, ← List.append_assoc,
      ← onsetsFrom_found, onsetsFrom]

/-! ## Writing -/

namespace Quill

variable {v : Voice}

theorem notes_close (q : Quill) :
    q.close.notes = (q.opened.map fun n => { n with stop := q.position }).toList ++ q.notes := by
  unfold close
  split <;> simp_all

theorem notes_control (q : Quill) (controller value : UInt8) (changes : Bool) :
    (q.control v controller value changes).notes = q.notes := by
  unfold control
  split <;> rfl

theorem notes_turn (q : Quill) (t : Tone) : (q.turn v t).notes = q.close.notes := by
  unfold turn
  dsimp only
  split <;> rfl

/-- A tone of another pitch ends the open note, and starts one unless it is silent. -/
theorem notes_take_of_ne {q : Quill} {t : Tone} (h : t.pitch ≠ q.last.pitch) :
    (q.take v t).close.notes =
      (if t.pitch = 0 then [] else
        [⟨v.channel, t.pitch, velocityOf v t, t.timbre, q.position, q.position + 1⟩]) ++
      q.close.notes := by
  have hnotes : (q.take v t).notes = q.close.notes := by
    rw [take_eq, notes_control, sound, if_pos h, notes_turn]
  have hopened : (q.take v t).opened = if t.pitch = 0 then none else
      some ⟨v.channel, t.pitch, velocityOf v t, t.timbre, q.position, q.position⟩ := by
    rw [take_eq, opened_control, sound, if_pos h, opened_turn]
  have hposition : (q.take v t).position = q.position + 1 := by
    rw [take_eq, position_control, position_sound]
  rw [notes_close, hnotes, hopened, hposition]
  split <;> rfl

/-- A tone of the same pitch goes on with the open note. -/
theorem notes_take_of_eq {q : Quill} {t : Tone} (h : t.pitch = q.last.pitch) :
    (q.take v t).close.notes =
      (q.opened.map fun n => { n with stop := q.position + 1 }).toList ++ q.notes := by
  have hnotes : (q.take v t).notes = q.notes := by
    rw [take_eq, notes_control, sound, if_neg (not_not.mpr h), notes_control]
  have hopened : (q.take v t).opened = q.opened := by
    rw [take_eq, opened_control, sound, if_neg (not_not.mpr h), opened_control]
  have hposition : (q.take v t).position = q.position + 1 := by
    rw [take_eq, position_control, position_sound]
  rw [notes_close, hnotes, hopened, hposition]

/-- The writer of a voice behind the tones `done`: if the voice ended here, the notes written
would be the stretches of `done`, the latest one first, and would start at its onsets. -/
structure Phrases (v : Voice) (done : List Tone) (q : Quill) : Prop where
  follows : q.Follows v (done.getLastD Tone.zero)
  position : q.position = done.length
  notes : Phrasing v done q.close.notes
  onsets : q.close.notes.reverse.map Note.start = onsetsFrom 0 0 [] (done.map Tone.pitch)

theorem phrases_start (v : Voice) : (start v).Phrases v [] :=
  ⟨follows_start v, rfl, phrasing_nil v, rfl⟩

namespace Phrases

variable {done : List Tone} {q : Quill} (h : q.Phrases v done)
include h

theorem last_pitch : q.last.pitch = (done.getLastD Tone.zero).pitch := by
  rw [h.follows.last]

theorem onsetsFrom_take (t : Tone) : onsetsFrom 0 0 [] ((done ++ [t]).map Tone.pitch) =
    q.close.notes.reverse.map Note.start ++
      if t.pitch ≠ 0 ∧ t.pitch ≠ q.last.pitch then [q.position] else [] := by
  have hlast : (done.map Tone.pitch).getLastD 0 = q.last.pitch :=
    calc (done.map Tone.pitch).getLastD 0
      _ = (done.map Tone.pitch).getLastD Tone.zero.pitch := rfl
      _ = (done.getLastD Tone.zero).pitch := List.getLastD_map
      _ = q.last.pitch := h.last_pitch.symm
  rw [List.map_append, List.map_singleton, onsetsFrom_concat, hlast, List.length_map, h.position,
    Nat.zero_add, h.onsets]

theorem opened_eq_none : q.opened = none ↔ q.last.pitch = 0 := by
  have hopened := h.follows.opened
  rw [← h.last_pitch] at hopened
  cases hq : q.opened <;> simp_all

theorem take (t : Tone) : (q.take v t).Phrases v (done ++ [t]) := by
  obtain ⟨hfollows, hposition, -⟩ := h.follows.take t
  have hlength : (q.take v t).position = (done ++ [t]).length := by
    rw [hposition, h.position, List.length_append, List.length_singleton]
  have hnext : (q.take v t).Follows v ((done ++ [t]).getLastD Tone.zero) := by
    rwa [List.getLastD_concat]
  have hnotes := h.notes
  have hstarts := h.onsetsFrom_take t
  by_cases hturns : t.pitch = q.last.pitch
  · have hclose := notes_take_of_eq (v := v) hturns
    rw [if_neg (fun hstart => hstart.2 hturns), List.append_nil] at hstarts
    cases hopened : q.opened with
    | none =>
      -- silence goes on
      have hsilent : t.pitch = 0 := hturns.trans (h.opened_eq_none.mp hopened)
      have hsame : (q.take v t).close.notes = q.close.notes := by
        rw [hclose, notes_close, hopened]
        rfl
      exact ⟨hnext, hlength, hsame ▸ hnotes.rest hsilent, by rw [hsame, hstarts]⟩
    | some n =>
      -- the open note goes on
      rw [hopened, h.position] at hclose
      rw [notes_close, hopened, h.position] at hnotes hstarts
      have hheld := hnotes.hold (hturns.trans h.last_pitch)
      refine ⟨hnext, hlength, hclose ▸ hheld, ?_⟩
      rw [hclose, hstarts]
      simp
  · have hclose := notes_take_of_ne (v := v) hturns
    rw [h.position] at hclose
    by_cases hsilent : t.pitch = 0
    · rw [if_pos hsilent, List.nil_append] at hclose
      rw [if_neg (fun hstart => hstart.1 hsilent), List.append_nil] at hstarts
      exact ⟨hnext, hlength, hclose ▸ hnotes.rest hsilent, by rw [hclose, hstarts]⟩
    · rw [if_neg hsilent] at hclose
      rw [if_pos ⟨hsilent, hturns⟩, h.position] at hstarts
      have hnew := hnotes.start hsilent (h.last_pitch ▸ hturns)
      refine ⟨hnext, hlength, hclose ▸ hnew, ?_⟩
      rw [hclose, hstarts]
      simp

end Phrases

theorem phrases_foldl (v : Voice) (tones : List Tone) :
    (tones.foldl (take v) (start v)).Phrases v tones := by
  induction tones using List.reverseRecOn with
  | nil => exact phrases_start v
  | append_singleton tones t ih =>
    rw [List.foldl_append]
    exact ih.take t

end Quill

/-! ## Sheets -/

def Sheet.notesOn (s : Sheet) (v : Voice) : List Note :=
  s.notes.filter fun n => n.channel = v.channel

theorem Sheet.mem_notesOn {s : Sheet} {v : Voice} {n : Note} :
    n ∈ s.notesOn v ↔ n ∈ s.notes ∧ n.channel = v.channel := by
  simp [notesOn]

theorem notesOn_sheet_eq (s : ExpressiveScore) (v : Voice) :
    s.sheet.notesOn v = (Quill.write v (s.frames.map fun c => c.get v)).1 := by
  have hcopies : ∀ u : Voice, ∀ n ∈ (Quill.write u (s.frames.map fun c => c.get u)).1,
      n.Copies u fun _ => True :=
    fun _ => (Quill.copies_write fun _ _ => trivial).1
  have hnotes : s.sheet.notes = Voice.all.flatMap fun u =>
      (Quill.write u (s.frames.map fun c => c.get u)).1 := by
    simp only [ExpressiveScore.sheet, List.flatMap_map]
  rw [Sheet.notesOn, hnotes, List.filter_flatMap, flatMap_voices v]
  · rw [List.filter_eq_self]
    intro n hn
    rw [(hcopies v n hn).channel, decide_eq_true_iff]
  · intro u hu
    rw [List.filter_eq_nil_iff]
    intro n hn
    rw [(hcopies u n hn).channel, decide_eq_true_iff]
    exact mt Voice.channel_inj hu

/-- The notes of a voice on the sheet of a score are exactly the stretches over which it holds
a pitch. They are in order and do not meet, every frame that sounds lies in one of them, and
they start where the voice has its onsets. -/
theorem notesOn_sheet (s : ExpressiveScore) (v : Voice) :
    (∀ n, n ∈ s.sheet.notesOn v ↔ n.Holds v (s.frames.map fun c => c.get v)) ∧
      (s.sheet.notesOn v).Pairwise (fun m n => m.stop ≤ n.start) ∧
      (∀ position c, s.frames[position]? = some c → (c.get v).pitch ≠ 0 →
        ∃! n, n ∈ s.sheet.notesOn v ∧ n.Covers position) ∧
      (s.sheet.notesOn v).map Note.start = s.onsets.get v := by
  obtain ⟨-, -, hnotes, honsets⟩ := Quill.phrases_foldl v (s.frames.map fun c => c.get v)
  rw [notesOn_sheet_eq, Quill.write]
  dsimp only
  refine ⟨?_, List.pairwise_reverse.mpr hnotes.ordered, ?_, ?_⟩
  · simp only [List.mem_reverse]
    exact hnotes.mem_iff
  · intro position c hc hsounds
    have hpitch : pitchAt (s.frames.map fun c => c.get v) position = (c.get v).pitch := by
      simp [pitchAt, hc]
    simp only [List.mem_reverse]
    exact hnotes.existsUnique (hpitch ▸ hsounds)
  · rw [honsets, ExpressiveScore.onsets, Voices.get_ofFn, ExpressiveScore.pitches, List.map_map]
    rfl

/-- A voice that starts with a note, takes it up again behind a rest, goes straight on to
another pitch and is still sounding at the end. -/
theorem notesOn_sheet_phrase :
    let tone : UInt8 → UInt8 → Chord := fun pitch velocity =>
      ⟨⟨pitch, velocity, 2⟩, Tone.zero, Tone.zero, Tone.zero⟩
    let score : ExpressiveScore :=
      ⟨60, 4410, [tone 60 9, tone 60 7, tone 0 0, tone 60 5, tone 62 5, tone 62 3]⟩
    score.sheet.notesOn .pulse1 =
        [⟨.pulse1, 60, 9, 2, 0, 2⟩, ⟨.pulse1, 60, 5, 2, 3, 4⟩, ⟨.pulse1, 62, 5, 2, 4, 6⟩] ∧
      score.onsets.get .pulse1 = [0, 3, 4] ∧
      Note.Holds .pulse1 (score.frames.map fun c => c.get .pulse1) ⟨.pulse1, 60, 5, 2, 3, 4⟩ ∧
      ∃! n, n ∈ score.sheet.notesOn .pulse1 ∧ n.Covers 5 := by
  intro tone score
  obtain ⟨hholds, -, hcovered, hstarts⟩ := notesOn_sheet score .pulse1
  have hnotes : score.sheet.notesOn .pulse1 =
      [⟨.pulse1, 60, 9, 2, 0, 2⟩, ⟨.pulse1, 60, 5, 2, 3, 4⟩, ⟨.pulse1, 62, 5, 2, 4, 6⟩] := by
    decide +kernel
  refine ⟨hnotes, ?_, ?_, ?_⟩
  · rw [← hstarts, hnotes]
    rfl
  · rw [← hholds, hnotes]
    simp
  · exact hcovered 5 (tone 62 3) rfl (by decide)

end ApuScore

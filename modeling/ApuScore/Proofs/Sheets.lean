import ApuScore.Proofs.Tones
import ApuScore.Proofs.Cues
/-
  Sheets of scores.

  What a sheet holds is copied from the tones that it was written from, and what is read
  from a sheet is copied from what it holds. This file

  1. follows the writer of a voice: its notes and controls lie on the voice, its controls
     are known, and velocities and timbres are those of tones (`Quill.copies_write`);
  2. says when a sheet passes its check (`Sheet.check_eq_ok`) and concludes that the sheet of
     every score does (`check_sheet`) and that of a fitting score fits (`fits_sheet`);
  3. reads a fitting sheet back: it gives as many frames as the sheet is long, and they fit
     (`Sheet.Fits.express`).
-/

namespace ApuScore

theorem Voice.channel_inj {v u : Voice} (h : v.channel = u.channel) : v = u := by
  have hvoice := congrArg Channel.voice? h
  rw [voice?_channel, voice?_channel] at hvoice
  exact Option.some.inj hvoice

/-! ## Writing -/

/-- A note on a voice with the velocity of a tone in `p`. -/
structure Note.Copies (v : Voice) (p : Tone → Prop) (n : Note) : Prop where
  channel : n.channel = v.channel
  velocity : ∃ t, p t ∧ n.velocity = Quill.velocityOf v t

/-- A control on a voice with the velocity or the timbre of a tone in `p`. -/
structure Control.Copies (v : Voice) (p : Tone → Prop) (c : Control) : Prop where
  channel : c.channel = v.channel
  cue : ∃ t, p t ∧ (Cue.ofControl? c = some (.velocity (Quill.velocityOf v t)) ∨
    Cue.ofControl? c = some (.timbre t.timbre))

/-- The writer of a voice has copied what it wrote from tones in `p`. -/
structure Quill.Copies (v : Voice) (p : Tone → Prop) (q : Quill) : Prop where
  opened : ∀ n ∈ q.opened, n.Copies v p
  notes : ∀ n ∈ q.notes, n.Copies v p
  controls : ∀ c ∈ q.controls, c.Copies v p

namespace Quill.Copies

variable {v : Voice} {p : Tone → Prop} {q : Quill} (h : q.Copies v p)
include h

theorem close : q.close.Copies v p := by
  unfold Quill.close
  split
  · rename_i n hopened
    have hn : n.Copies v p := h.opened n hopened
    refine ⟨by simp, List.forall_mem_cons.mpr ⟨⟨hn.channel, hn.velocity⟩, h.notes⟩, h.controls⟩
  · exact h

theorem turn {t : Tone} (ht : p t) :
    (q.turn v { t with velocity := Quill.velocityOf v t }).Copies v p := by
  have hclose := h.close
  unfold Quill.turn
  dsimp only
  split
  · exact hclose
  · refine ⟨?_, hclose.notes, hclose.controls⟩
    intro n hn
    cases hn
    exact ⟨rfl, t, ht, rfl⟩

theorem control (controller value : UInt8) (changes : Bool) {t : Tone} (ht : p t)
    (hcue : Cue.ofControl? ⟨v.channel, q.position, controller, value⟩ =
        some (.velocity (Quill.velocityOf v t)) ∨
      Cue.ofControl? ⟨v.channel, q.position, controller, value⟩ = some (.timbre t.timbre)) :
    (q.control v controller value changes).Copies v p := by
  unfold Quill.control
  split
  · exact ⟨h.opened, h.notes, List.forall_mem_cons.mpr ⟨⟨rfl, t, ht, hcue⟩, h.controls⟩⟩
  · exact h

theorem take {t : Tone} (ht : p t) : (q.take v t).Copies v p := by
  have hlast : ∀ r : Quill, r.Copies v p →
      (r.control v timbreController t.timbre (t.timbre != q.last.timbre)).Copies v p :=
    fun r hr => hr.control timbreController t.timbre _ ht (.inr rfl)
  unfold Quill.take
  dsimp only
  split
  · have hcopies := hlast _ (h.turn ht)
    exact ⟨hcopies.opened, hcopies.notes, hcopies.controls⟩
  · have hcopies := hlast _ (h.control velocityController (Quill.velocityOf v t)
      (t.pitch != 0 && Quill.velocityOf v t != q.last.velocity) ht (.inl rfl))
    exact ⟨hcopies.opened, hcopies.notes, hcopies.controls⟩

end Quill.Copies

theorem Quill.copies_write {v : Voice} {p : Tone → Prop} {tones : List Tone}
    (h : ∀ t ∈ tones, p t) : (∀ n ∈ (Quill.write v tones).1, n.Copies v p) ∧
      ∀ c ∈ (Quill.write v tones).2, c.Copies v p := by
  have hfold : ∀ q : Quill, q.Copies v p → (tones.foldl (take v) q).Copies v p := by
    induction tones with
    | nil => exact fun _ hq => hq
    | cons t tones ih =>
      rw [List.forall_mem_cons] at h
      exact fun q hq => ih h.2 _ (hq.take h.1)
  have hstart : (Quill.start v).Copies v p := ⟨by simp [start], by simp [start], by simp [start]⟩
  have hdone := (hfold _ hstart).close
  simp only [Quill.write, List.mem_reverse]
  exact ⟨hdone.notes, hdone.controls⟩

/-- Everything on the sheet of a score belongs to a voice and is copied from its tones. -/
theorem copies_sheet {s : ExpressiveScore} {p : Voice → Tone → Prop}
    (h : ∀ c ∈ s.frames, ∀ v, p v (c.get v)) :
    (∀ n ∈ s.sheet.notes, ∃ v, n.Copies v (p v)) ∧
      ∀ c ∈ s.sheet.controls, ∃ v, c.Copies v (p v) := by
  have htones : ∀ v : Voice, ∀ t ∈ s.frames.map fun c => c.get v, p v t := by
    intro v
    rw [List.forall_mem_map]
    exact fun c hc => h c hc v
  constructor
  · intro n hn
    simp only [ExpressiveScore.sheet, List.mem_flatMap, List.mem_map] at hn
    obtain ⟨part, ⟨v, -, rfl⟩, hn⟩ := hn
    exact ⟨v, (Quill.copies_write (htones v)).1 n hn⟩
  · intro c hc
    simp only [ExpressiveScore.sheet, List.mem_flatMap, List.mem_map] at hc
    obtain ⟨part, ⟨v, -, rfl⟩, hc⟩ := hc
    exact ⟨v, (Quill.copies_write (htones v)).2 c hc⟩

/-! ## Checking -/

theorem forM_eq_ok {ε α : Type} {f : α → Except ε Unit} {xs : List α} :
    xs.forM f = .ok () ↔ ∀ x ∈ xs, f x = .ok () := by
  induction xs with
  | nil => exact ⟨fun _ _ h => (nomatch h), fun _ => rfl⟩
  | cons x xs ih =>
    rw [List.forall_mem_cons, ← ih]
    show (f x >>= fun _ => xs.forM f) = .ok () ↔ _
    rw [bind_eq_ok]
    exact ⟨fun ⟨_, hx, hxs⟩ => ⟨hx, hxs⟩, fun ⟨hx, hxs⟩ => ⟨(), hx, hxs⟩⟩

theorem Channel.isSome_voice? {c : Channel} :
    c.voice?.isSome = true ↔ ∃ v : Voice, c = v.channel := by
  constructor
  · intro h
    cases c with
    | pulse1 => exact ⟨.pulse1, rfl⟩
    | pulse2 => exact ⟨.pulse2, rfl⟩
    | triangle => exact ⟨.triangle, rfl⟩
    | noise => exact ⟨.noise, rfl⟩
    | _ => cases h
  · rintro ⟨v, rfl⟩
    rw [v.voice?_channel]
    rfl

theorem Sheet.check_eq_ok {s : Sheet} : s.check = .ok () ↔
    (∀ n ∈ s.notes, ∃ v : Voice, n.channel = v.channel) ∧
      ∀ c ∈ s.controls, (∃ v : Voice, c.channel = v.channel) ∧
        (Cue.ofControl? c).isSome = true := by
  have hnote : ∀ n : Note, (if n.channel.voice?.isSome then .ok ()
      else .error (.notAVoice n.channel) : Except ProtocolError Unit) = .ok () ↔
        n.channel.voice?.isSome = true := by
    intro n
    cases n.channel.voice? <;> simp
  have hcontrol : ∀ c : Control, (if c.channel.voice?.isNone then .error (.notAVoice c.channel)
      else if (Cue.ofControl? c).isNone then .error (.unknownController c.channel c.controller)
      else .ok () : Except ProtocolError Unit) = .ok () ↔
        c.channel.voice?.isSome = true ∧ (Cue.ofControl? c).isSome = true := by
    intro c
    cases c.channel.voice? <;> cases Cue.ofControl? c <;> simp
  unfold Sheet.check
  rw [bind_eq_ok]
  constructor
  · rintro ⟨⟨⟩, hnotes, hcontrols⟩
    rw [forM_eq_ok] at hnotes hcontrols
    exact ⟨fun n hn => Channel.isSome_voice?.mp ((hnote n).mp (hnotes n hn)),
      fun c hc => ((hcontrol c).mp (hcontrols c hc)).imp_left Channel.isSome_voice?.mp⟩
  · rintro ⟨hnotes, hcontrols⟩
    refine ⟨(), forM_eq_ok.mpr fun n hn => ?_, forM_eq_ok.mpr fun c hc => ?_⟩
    · exact (hnote n).mpr (Channel.isSome_voice?.mpr (hnotes n hn))
    · exact (hcontrol c).mpr ((hcontrols c hc).imp_left Channel.isSome_voice?.mpr)

theorem check_sheet (s : ExpressiveScore) : s.sheet.check = .ok () := by
  obtain ⟨hnotes, hcontrols⟩ := copies_sheet (s := s) (p := fun _ _ => True)
    fun _ _ _ => trivial
  refine Sheet.check_eq_ok.mpr ⟨fun n hn => ?_, fun c hc => ?_⟩
  · obtain ⟨v, hn⟩ := hnotes n hn
    exact ⟨v, hn.channel⟩
  · obtain ⟨v, hchannel, t, -, hcue⟩ := hcontrols c hc
    refine ⟨⟨v, hchannel⟩, ?_⟩
    rcases hcue with hcue | hcue <;> rw [hcue] <;> rfl

/-! ## Fitting sheets -/

structure Note.Fits (v : Voice) (n : Note) : Prop where
  channel : n.channel = v.channel
  velocity : n.velocity.toNat < 16

/-- A cue whose values fit the registers of a voice. -/
def Cue.Fits (v : Voice) : Cue → Prop
  | .off => True
  | .on _ level => level.toNat < 16
  | .velocity value => value.toNat < 16
  | .timbre value => value.toNat < v.timbres

/-- A control on a voice that stands for a fitting cue. -/
structure Control.Fits (v : Voice) (c : Control) : Prop where
  channel : c.channel = v.channel
  cue : ∃ cue, Cue.ofControl? c = some cue ∧ cue.Fits v

/-- Everything on the sheet belongs to a voice and fits it. -/
structure Sheet.Fits (s : Sheet) : Prop where
  notes : ∀ n ∈ s.notes, ∃ v, n.Fits v
  controls : ∀ c ∈ s.controls, ∃ v, c.Fits v

theorem Tone.Fits.velocityOf {v : Voice} {t : Tone} (h : t.Fits v) :
    (Quill.velocityOf v t).toNat < 16 := by
  rw [Quill.velocityOf]
  split
  · decide
  · exact h.velocity

theorem fits_sheet {s : ExpressiveScore} (h : ∀ c ∈ s.frames, c.Fits) : s.sheet.Fits := by
  obtain ⟨hnotes, hcontrols⟩ := copies_sheet (s := s) (p := Tone.Fits) h
  constructor
  · intro n hn
    obtain ⟨v, hchannel, t, ht, hvelocity⟩ := hnotes n hn
    exact ⟨v, hchannel, hvelocity ▸ ht.velocityOf⟩
  · intro c hc
    obtain ⟨v, hchannel, t, ht, hcue⟩ := hcontrols c hc
    rcases hcue with hcue | hcue
    · exact ⟨v, hchannel, _, hcue, ht.velocityOf⟩
    · exact ⟨v, hchannel, _, hcue, ht.timbre⟩

theorem Cue.Fits.apply {v : Voice} {cue : Cue} (h : cue.Fits v) {t : Tone} (ht : t.Fits v) :
    (cue.apply t).Fits v := by
  cases cue with
  | off => exact ⟨by show (0 : UInt8).toNat < 16; decide, ht.timbre⟩
  | on pitch level => exact ⟨h, ht.timbre⟩
  | velocity value => exact ⟨h, ht.timbre⟩
  | timbre value => exact ⟨ht.velocity, h⟩

theorem Cue.fits_applyAll {v : Voice} {cues : List (Nat × Cue)} (h : ∀ c ∈ cues, c.2.Fits v)
    {t : Tone} (ht : t.Fits v) : (applyAll cues t).Fits v := by
  induction cues generalizing t with
  | nil => exact ht
  | cons c cues ih =>
    rw [List.forall_mem_cons] at h
    exact ih h.2 (h.1.apply ht)

namespace Sheet.Fits

variable {s : Sheet} (h : s.Fits)
include h

theorem cues (v : Voice) : ∀ c ∈ s.cues v, c.2.Fits v := by
  intro c hc
  simp only [Sheet.cues, List.mem_mergeSort, List.mem_append, List.mem_flatMap] at hc
  rcases hc with ⟨n, hn, hc⟩ | ⟨x, hx, hc⟩
  · obtain ⟨u, -, hvelocity⟩ := h.notes n hn
    rw [Note.cues] at hc
    split at hc
    · simp only [List.mem_cons, List.not_mem_nil, or_false] at hc
      rcases hc with rfl | rfl
      · show (if v = .triangle then 0 else n.velocity).toNat < 16
        split
        · decide
        · exact hvelocity
      · trivial
    · cases hc
  · obtain ⟨u, hchannel, cue, hcue, hfits⟩ := h.controls x hx
    rw [Control.cues] at hc
    split at hc
    · rename_i hvoice
      obtain rfl : u = v := Voice.channel_inj (hchannel.symm.trans hvoice)
      rw [hcue] at hc
      obtain rfl := List.mem_singleton.mp hc
      exact hfits
    · cases hc

theorem toneAt (v : Voice) (position : Nat) : (s.toneAt v position).Fits v :=
  Cue.fits_applyAll (fun c hc => h.cues v c (List.mem_filter.mp hc).1) (Tone.fits_zero v)

/-- What is read from a fitting sheet fits, and it is as long as the sheet. -/
theorem express : ∃ t, s.express = .ok t ∧ t.rate = s.rate ∧ t.sampleCount = s.sampleCount ∧
    t.frames.length = s.length ∧ ∀ c ∈ t.frames, c.Fits := by
  have hcheck : s.check = .ok () := by
    refine Sheet.check_eq_ok.mpr ⟨fun n hn => ?_, fun c hc => ?_⟩
    · obtain ⟨v, hn⟩ := h.notes n hn
      exact ⟨v, hn.channel⟩
    · obtain ⟨v, hchannel, cue, hcue, -⟩ := h.controls c hc
      exact ⟨⟨v, hchannel⟩, hcue ▸ rfl⟩
  have hexpress := s.express_eq
  rw [hcheck] at hexpress
  refine ⟨_, hexpress, rfl, rfl, ?_, ?_⟩
  · rw [List.length_map, List.length_range]
  · rw [List.forall_mem_map]
    intro p hp v
    rw [Voices.get_ofFn]
    exact h.toneAt v p

end Sheet.Fits

end ApuScore

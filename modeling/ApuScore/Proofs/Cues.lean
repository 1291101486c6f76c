import Mathlib.Data.List.TakeDrop
import Mathlib.Data.List.TakeWhile
import ApuScore.Score.Sheet
/-
  Reading a sheet by its cues.

  A voice is read off its cues, sorted by frame and rank. This file

  1. shows that the cues are in order and are those of the notes and the controls
     (`Sheet.pairwise_cues`, `Sheet.perm_cues`), and that lists of the same entries in order
     fold alike if those that may stand either way commute (`foldl_eq_of_perm`);
  2. gives the tone of a voice at a frame as what the cues up to that frame make of silence
     (`Sheet.toneAt`, `playFrom_eq`);
  3. reads an accepted sheet as the score of those tones (`Sheet.express_eq`).
-/

namespace ApuScore

/-! ## Folding in order -/

section foldl

variable {α β : Type} {f : β → α → β}

theorem foldl_commute {a : α} {l : List α} (h : ∀ x ∈ l, ∀ s, f (f s a) x = f (f s x) a)
    (s : β) : l.foldl f (f s a) = f (l.foldl f s) a := by
  induction l generalizing s with
  | nil => rfl
  | cons x l ih =>
    rw [List.forall_mem_cons] at h
    rw [List.foldl_cons, List.foldl_cons, h.1, ih h.2]

/-- A list in order folds like any other list of its entries in which those that may stand
the other way round commute. -/
theorem foldl_eq_of_perm {le : α → α → Bool} {l k : List α} (hperm : l.Perm k)
    (hk : k.Pairwise fun a b => le a b = true)
    (hl : l.Pairwise fun a b => le b a = true → ∀ s, f (f s a) b = f (f s b) a) (s : β) :
    l.foldl f s = k.foldl f s := by
  induction l generalizing k s with
  | nil => rw [hperm.nil_eq]
  | cons a l ih =>
    obtain ⟨hties, hrest⟩ := List.pairwise_cons.mp hl
    obtain ⟨front, rest, rfl⟩ := List.append_of_mem (hperm.subset List.mem_cons_self)
    obtain ⟨hfront, hback, hacross⟩ := List.pairwise_append.mp hk
    have hless : l.Perm (front ++ rest) := (hperm.trans List.perm_middle).cons_inv
    have hsorted : (front ++ rest).Pairwise fun a b => le a b = true :=
      hk.sublist ((List.Sublist.refl front).append (List.sublist_cons_self a rest))
    -- what stands in front of the first entry may as well stand behind it
    have hcommute : ∀ x ∈ front, ∀ s, f (f s a) x = f (f s x) a := fun x hx =>
      hties x (hless.symm.subset (List.mem_append_left rest hx)) (hacross x hx a List.mem_cons_self)
    rw [List.foldl_cons, ih hless hsorted hrest, List.foldl_append, foldl_commute hcommute,
      List.foldl_append, List.foldl_cons]

end foldl

/-! ## Cues in order -/

namespace Cue

theorem before_iff {a b : Nat × Cue} :
    before a b = true ↔ a.1 < b.1 ∨ a.1 = b.1 ∧ a.2.rank ≤ b.2.rank := by
  simp [before]

theorem before_trans (a b c : Nat × Cue) (hab : before a b = true) (hbc : before b c = true) :
    before a c = true := by
  rw [before_iff] at *
  omega

theorem before_total (a b : Nat × Cue) : (before a b || before b a) = true := by
  rw [Bool.or_eq_true, before_iff, before_iff]
  omega

theorem le_of_before {a b : Nat × Cue} (h : before a b = true) : a.1 ≤ b.1 := by
  rw [before_iff] at h
  omega

def applyAll (cues : List (Nat × Cue)) (t : Tone) : Tone := cues.foldl (fun t c => c.2.apply t) t

theorem applyAll_append (front rest : List (Nat × Cue)) (t : Tone) :
    applyAll (front ++ rest) t = applyAll rest (applyAll front t) :=
  List.foldl_append

end Cue

namespace Sheet

variable (s : Sheet) (v : Voice)

theorem pairwise_cues : (s.cues v).Pairwise fun a b => Cue.before a b = true :=
  List.pairwise_mergeSort Cue.before_trans Cue.before_total _

theorem perm_cues :
    (s.cues v).Perm (s.notes.flatMap (Note.cues v) ++ s.controls.flatMap (Control.cues v)) :=
  List.mergeSort_perm _ _

/-- What a voice plays at a frame: what the cues up to there make of silence. -/
def toneAt (position : Nat) : Tone :=
  Cue.applyAll ((s.cues v).filter fun c => c.1 ≤ position) Tone.zero

end Sheet

/-! ## Playing -/

theorem lt_dropWhile {cues : List (Nat × Cue)} (hsorted : cues.Pairwise fun a b => a.1 ≤ b.1)
    {position : Nat} (hfrom : ∀ c ∈ cues, position ≤ c.1) :
    ∀ c ∈ cues.dropWhile fun c => c.1 == position, position < c.1 := by
  induction cues with
  | nil => exact fun _ h => nomatch h
  | cons first rest ih =>
    obtain ⟨hfirst, hrest⟩ := List.pairwise_cons.mp hsorted
    obtain ⟨hposition, hbehind⟩ := List.forall_mem_cons.mp hfrom
    rw [List.dropWhile_cons]
    split
    · exact ih hrest hbehind
    · rename_i hne
      have hlt : position < first.1 := by
        rw [beq_iff_eq] at hne
        omega
      exact List.forall_mem_cons.mpr ⟨hlt, fun c hc => Nat.lt_of_lt_of_le hlt (hfirst c hc)⟩

theorem filter_le (cues : List (Nat × Cue)) (position k : Nat) :
    cues.filter (fun c => c.1 ≤ position + k) =
      cues.takeWhile (fun c => c.1 == position) ++
        (cues.dropWhile fun c => c.1 == position).filter fun c => c.1 ≤ position + k := by
  have hnow : ∀ c ∈ cues.takeWhile (fun c => c.1 == position),
      decide (c.1 ≤ position + k) = true := by
    intro c hc
    have hat := List.mem_takeWhile_imp (p := fun c : Nat × Cue => c.1 == position) hc
    rw [beq_iff_eq] at hat
    rw [decide_eq_true_iff]
    omega
  rw [← List.filter_eq_self.mpr hnow, ← List.filter_append, List.takeWhile_append_dropWhile]

/-- Playing shows at each frame what the cues up to it make of the tone just before. -/
theorem playFrom_eq {cues : List (Nat × Cue)} (hsorted : cues.Pairwise fun a b => a.1 ≤ b.1)
    (count : Nat) {position : Nat} (hfrom : ∀ c ∈ cues, position ≤ c.1) (t : Tone)
    (found : List Tone) :
    playFrom count position t cues found = found.reverse ++ (List.range count).map fun k =>
      Cue.applyAll (cues.filter fun c => c.1 ≤ position + k) t := by
  induction count generalizing position t cues found with
  | zero => simp [playFrom]
  | succ count ih =>
    have hlater := lt_dropWhile hsorted hfrom
    have hnone : (cues.dropWhile fun c => c.1 == position).filter
        (fun c => c.1 ≤ position + 0) = [] := by
      rw [List.filter_eq_nil_iff]
      intro c hc
      have hlt := hlater c hc
      rw [decide_eq_true_iff]
      omega
    rw [playFrom, List.span_eq_takeWhile_dropWhile]
    dsimp only
    rw [ih (hsorted.sublist (List.dropWhile_sublist _)) hlater, List.reverse_cons,
      List.range_succ_eq_map, List.map_cons, List.map_map, filter_le cues position 0, hnone,
      List.append_nil, List.append_assoc, List.singleton_append]
    congr 2
    refine List.map_congr_left fun k _ => ?_
    show _ = Cue.applyAll (cues.filter fun c => c.1 ≤ position + (k + 1)) t
    rw [filter_le cues position (k + 1), Cue.applyAll_append, Nat.succ_add_eq_add_succ]
    rfl

/-! ## Scores -/

theorem rows_map {α β : Type} (f : Voice → α → β) (xs : List α) :
    (Voices.ofFn fun v => xs.map (f v)).rows = xs.map fun x => Voices.ofFn fun v => f v x := by
  simp [Voices.rows, Voices.ofFn, List.zip_map', List.zipWith_map]

/-- A sheet that passes its check is read as the score of its tones. -/
theorem Sheet.express_eq (s : Sheet) :
    s.express = s.check >>= fun _ => .ok ⟨s.rate, s.sampleCount,
      (List.range s.length).map fun p => Voices.ofFn fun v => s.toneAt v p⟩ := by
  have hcolumn : ∀ v, playFrom s.length 0 Tone.zero (s.cues v) [] =
      (List.range s.length).map (s.toneAt v) := by
    intro v
    have hsorted := (s.pairwise_cues v).imp Cue.le_of_before
    rw [playFrom_eq hsorted _ (fun c _ => Nat.zero_le c.1), List.reverse_nil, List.nil_append]
    refine List.map_congr_left fun p _ => ?_
    rw [Nat.zero_add, toneAt]
  rw [← rows_map s.toneAt]
  simp only [← hcolumn]
  rfl

end ApuScore

import ApuScore.Proofs.Cuts
/-
  Where cleaning leaves the pointer to the tag.

  A dump may carry a tag anywhere behind its header, and a header field says where. Cleaning
  takes commands out, so the tag moves by the bytes that go in front of it. The field moves
  by all bytes that go. This file

  1. counts the bytes in front of a place that stay, which is where the byte at this place is
     once stretches are cut out (`Stretch.movedTo`, `getElem?_cutOut`);
  2. splits what goes into the stretches in front of a place and those behind it
     (`movedTo_add_front`, `total_front_add_behind`);
  3. concludes when the field still says where the tag is: when no command that goes lies
     behind the tag, or, in a dump of more than 4 GiB, when these commands take a multiple
     of 4 GiB (`tagPlace_clean`);
  4. gives a dump with the tag in front of its commands, which loses it
     (`tagPlace_clean_before`).
-/

namespace ApuScore

/-! ## Places and stretches -/

namespace Stretch

def Covers (s : Stretch) (place : Nat) : Prop := s.start ≤ place ∧ place < s.stop

instance (s : Stretch) (place : Nat) : Decidable (s.Covers place) :=
  inferInstanceAs (Decidable (_ ∧ _))

/-- How many bytes in front of `place` stay: where the byte at `place` is, once the stretches
are cut out. -/
def movedTo (ss : List Stretch) (place : Nat) : Nat :=
  (List.range place).countP fun i => ∀ s ∈ ss, ¬ s.Covers i

def front (place : Nat) (ss : List Stretch) : List Stretch := ss.filter fun s => s.stop ≤ place

def behind (place : Nat) (ss : List Stretch) : List Stretch := ss.filter fun s => place < s.start

section

variable (s : Stretch) (ss : List Stretch) (place : Nat)

theorem front_cons :
    front place (s :: ss) = if s.stop ≤ place then s :: front place ss else front place ss := by
  simp [front, List.filter_cons]

theorem behind_cons :
    behind place (s :: ss) = if place < s.start then s :: behind place ss else behind place ss := by
  simp [behind, List.filter_cons]

theorem countP_covers :
    ((List.range place).countP fun i => s.Covers i) = min place s.stop - s.start := by
  induction place with
  | zero => simp
  | succ place ih =>
    rw [List.range_succ, List.countP_append, List.countP_singleton, ih]
    by_cases hs : s.Covers place
    · rw [if_pos (decide_eq_true hs)]
      rw [Covers] at hs
      omega
    · rw [if_neg (by simpa using hs)]
      rw [Covers] at hs
      omega

end

section

variable {s : Stretch} {ss : List Stretch} {place : Nat}

/-- A byte counts for a stretch or for one behind it, not for both. -/
theorem movedTo_cons (h : ∀ t ∈ ss, s.stop ≤ t.start) (place : Nat) :
    movedTo (s :: ss) place + (min place s.stop - s.start) = movedTo ss place := by
  rw [← countP_covers, movedTo, movedTo]
  induction place with
  | zero => rfl
  | succ place ih =>
    simp only [List.range_succ, List.countP_append, List.countP_singleton, ← ih,
      List.forall_mem_cons, decide_eq_true_eq]
    by_cases hs : s.Covers place
    · have hapart : ∀ t ∈ ss, ¬ t.Covers place := by
        intro t ht hcovers
        have hstop := h t ht
        rw [Covers] at hs hcovers
        omega
      rw [if_neg (fun hboth => hboth.1 hs), if_pos hs, if_pos hapart]
      omega
    · simp only [hs, not_false_eq_true, true_and, if_false]
      omega

theorem total_front_add_behind (hout : ∀ s ∈ ss, ¬ s.Covers place) :
    total (front place ss) + total (behind place ss) = total ss := by
  induction ss with
  | nil => rfl
  | cons s ss ih =>
    rw [List.forall_mem_cons, Covers] at hout
    have hrest := ih hout.2
    have hstop : s.stop = s.start + s.len := rfl
    rw [front_cons, behind_cons, total_cons]
    by_cases hs : s.stop ≤ place
    · rw [if_pos hs, if_neg (by omega), total_cons]
      omega
    · rw [if_neg hs, if_pos (by omega), total_cons]
      omega

end

end Stretch

namespace Laid

variable {lo hi place : Nat} {ss : List Stretch}

theorem front_eq_nil (h : Laid lo hi ss) (hplace : place < lo) : Stretch.front place ss = [] := by
  apply List.filter_eq_nil_iff.mpr
  intro s hs
  have hstart := (h.bounds hs).1
  have hstop : s.start ≤ s.stop := Nat.le_add_right _ _
  rw [decide_eq_true_eq]
  omega

theorem front (h : Laid lo hi ss) (hplace : lo ≤ place) :
    Laid lo place (Stretch.front place ss) := by
  induction h with
  | nil => exact .nil hplace
  | @cons lo hi s rest hstart hlen hrest ih =>
    rw [Stretch.front_cons]
    by_cases hs : s.stop ≤ place
    · rw [if_pos hs]
      exact .cons hstart hlen (ih hs)
    · rw [if_neg hs, hrest.front_eq_nil (Nat.lt_of_not_le hs)]
      exact .nil hplace

/-- What lies in front of a place either stays or goes. -/
theorem movedTo_add_front (h : Laid lo hi ss) (hout : ∀ s ∈ ss, ¬ s.Covers place) :
    Stretch.movedTo ss place + Stretch.total (Stretch.front place ss) = place := by
  induction h with
  | nil => simp [Stretch.movedTo, Stretch.front, Stretch.total]
  | @cons lo hi s rest _ _ hrest ih =>
    rw [List.forall_mem_cons, Stretch.Covers] at hout
    have hcons := Stretch.movedTo_cons (fun t ht => (hrest.bounds ht).1) place
    have hrest := ih hout.2
    have hstop : s.stop = s.start + s.len := rfl
    rw [Stretch.front_cons]
    split
    · rw [Stretch.total_cons]
      omega
    · omega

theorem le_movedTo (h : Laid lo hi ss) (hplace : lo ≤ place) (hout : ∀ s ∈ ss, ¬ s.Covers place) :
    lo ≤ Stretch.movedTo ss place := by
  have hmoved := h.movedTo_add_front hout
  have hpassed := (h.front hplace).total_le
  omega

theorem total_behind_eq_zero_iff (h : Laid lo hi ss) :
    Stretch.total (Stretch.behind place ss) = 0 ↔ ∀ s ∈ ss, s.start ≤ place := by
  induction h with
  | nil => simp [Stretch.behind, Stretch.total]
  | @cons lo hi s rest _ hlen _ ih =>
    rw [List.forall_mem_cons, ← ih, Stretch.behind_cons]
    split
    · rw [Stretch.total_cons]
      omega
    · omega

end Laid

namespace Trace

/-! ## Bytes behind a cut -/

theorem getElem?_cut {bytes : Bytes} {lo place : Nat} {ss : List Stretch}
    (h : Laid lo bytes.length ss) (hplace : lo ≤ place) (hout : ∀ s ∈ ss, ¬ s.Covers place) :
    (piecesFrom lo (bytes.drop lo) [] ss).flatten[
        place - lo - Stretch.total (Stretch.front place ss)]? = bytes[place]? := by
  generalize hhi : bytes.length = hi at h
  induction h with
  | @nil lo hi hle =>
    have htotal : Stretch.total (Stretch.front place []) = 0 := rfl
    simp only [piecesFrom, List.reverse_cons, List.reverse_nil, List.nil_append,
      List.flatten_singleton, List.getElem?_drop, htotal]
    congr 1
    omega
  | @cons lo hi s rest hstart hlen hrest ih =>
    rw [List.forall_mem_cons, Stretch.Covers] at hout
    have hstop : s.stop = s.start + s.len := rfl
    have hle := hrest.total_le
    have hfront : ((bytes.drop lo).take (s.start - lo)).length = s.start - lo := by
      rw [List.length_take, List.length_drop]
      omega
    rw [cut_cons lo bytes s rest hstart]
    by_cases hs : s.stop ≤ place
    · have hpassed := (hrest.front hs).total_le
      rw [Stretch.front_cons, if_pos hs, Stretch.total_cons,
        List.getElem?_append_right (by omega), hfront, ← ih hs hout.2 hhi]
      congr 1
      omega
    · have hnil : Stretch.front place (s :: rest) = [] :=
        (Laid.cons (Nat.le_refl _) hlen hrest).front_eq_nil (by omega)
      have htotal : Stretch.total [] = 0 := rfl
      rw [hnil, htotal, List.getElem?_append_left (by omega), List.getElem?_take_of_lt (by omega),
        List.getElem?_drop]
      congr 1
      omega

/-- A byte in no stretch is found by the count of bytes in front of it that stay. -/
theorem getElem?_cutOut {bytes : Bytes} {place : Nat} {ss : List Stretch}
    (h : Laid 0 bytes.length ss) (hout : ∀ s ∈ ss, ¬ s.Covers place) :
    (cutOut ss bytes)[Stretch.movedTo ss place]? = bytes[place]? := by
  have hcut := getElem?_cut h (Nat.zero_le place) hout
  have hmoved := h.movedTo_add_front hout
  rw [← hcut]
  show (cutOut ss bytes)[_]? = (cutOut ss bytes)[_]?
  congr 1
  omega

end Trace

theorem getElem?_editFields {edits : List (HeaderField × Nat)} {bytes : Bytes} {i : Nat}
    (hlen : 0x88 ≤ bytes.length) (hi : 0x88 ≤ i) : (editFields edits bytes)[i]? = bytes[i]? := by
  have hhead : 0x88 ≤ (bytes.take 0x88).length := by
    rw [List.length_take]
    omega
  have hedits : editFields edits bytes =
      editFields edits (bytes.take 0x88) ++ bytes.drop 0x88 := by
    rw [← editFields_append _ hhead, List.take_append_drop]
  have hedited : (editFields edits (bytes.take 0x88)).length = (bytes.take 0x88).length :=
    length_editFields hhead
  have htake := List.length_take_le 0x88 bytes
  rw [hedits, List.getElem?_append_right (by omega), List.getElem?_drop]
  congr 1
  omega

namespace Trace

/-! ## The tag -/

/-- Where the header says that the tag is. -/
def tagPlace (bytes : Bytes) : Nat := HeaderField.gd3Offset.offset + HeaderField.gd3Offset.value bytes

theorem moveBack_add_eq_iff {offset front : Nat} (hoffset : offset ≤ 0xFFFFFFFF)
    (hfront : front ≤ offset) (behind : Nat) :
    moveBack offset (front + behind) = offset - front ↔ 0x100000000 ∣ behind := by
  unfold moveBack
  omega

theorem tagPlace_moveEdits {header : Header} (htag : header.gd3Offset ≠ 0) (gone : Nat)
    {bytes : Bytes} (hlen : 0x88 ≤ bytes.length) :
    tagPlace (editFields (moveEdits header gone) bytes) =
      0x14 + moveBack header.gd3Offset gone := by
  have hnodup : ((moveEdits header gone).map Prod.fst).Nodup := by
    simp [moveEdits, htag]
  rw [tagPlace, value_editFields_of_mem rfl (moveBack_le _ _) _ hnodup hlen]
  · rfl
  · simp [moveEdits, htag]

/-- Behind the header of a dump, the bytes that stay move together. -/
theorem getElem?_cleaned {o : CleaningOptions} {bytes : Bytes} {ss : List Stretch} {place : Nat}
    (edits : List (HeaderField × Nat)) (hlen : 0x88 ≤ bytes.length)
    (hscan : stretchesFrom o (Header.within bytes).dataStart 0 []
      (bytes.drop (Header.within bytes).dataStart) = .ok ss)
    (hstart : 0x88 ≤ (Header.within bytes).dataStart) (hplace : 0x88 ≤ place)
    (hout : ∀ s ∈ ss, ¬ s.Covers place) :
    (editFields edits (cutOut ss (editFields (clearEdits (Header.within bytes)) bytes)))[
      Stretch.movedTo ss place]? = bytes[place]? := by
  obtain ⟨stop, hstop, hlaid⟩ := laid_of_stretchesFrom hscan
  obtain ⟨-, -, hcut⟩ := cut_within hlen hscan
  have hhead : Laid 0x88 stop ss := hlaid.widen hstart (Nat.le_refl _)
  have hwhole : Laid 0 (editFields (clearEdits (Header.within bytes)) bytes).length ss := by
    rw [length_editFields hlen]
    exact hhead.widen (Nat.zero_le _) (Nat.le_of_lt hstop)
  calc (editFields edits (cutOut ss (editFields (clearEdits (Header.within bytes)) bytes)))[
        Stretch.movedTo ss place]?
      = (cutOut ss (editFields (clearEdits (Header.within bytes)) bytes))[
          Stretch.movedTo ss place]? :=
        getElem?_editFields (Nat.le_trans hstart hcut) (hhead.le_movedTo hplace hout)
    _ = (editFields (clearEdits (Header.within bytes)) bytes)[place]? :=
        getElem?_cutOut hwhole hout
    _ = bytes[place]? := getElem?_editFields hlen hplace

/-- Of a dump with its commands behind the header, take a tag behind the header that no command
that goes has a byte of. Its bytes move back by what goes in front of them; the header field says
where they are now exactly if what goes behind them is a multiple of 4 GiB, and so in every dump
of up to 4 GiB exactly if no command behind the tag goes. -/
theorem tagPlace_clean {o : CleaningOptions} {bytes cleaned : Bytes} {count : Nat}
    (hclean : clean o bytes = .ok (cleaned, count))
    (hstart : 0x88 ≤ (Header.within bytes).dataStart)
    (htag : HeaderField.gd3Offset.value bytes ≠ 0) (hplace : 0x88 ≤ tagPlace bytes)
    (hinside : tagPlace bytes < bytes.length) :
    ∃ ss, stretchesFrom o (Header.within bytes).dataStart 0 []
        (bytes.drop (Header.within bytes).dataStart) = .ok ss ∧
      ((∀ s ∈ ss, ¬ s.Covers (tagPlace bytes)) →
        cleaned[Stretch.movedTo ss (tagPlace bytes)]? = some bytes[tagPlace bytes] ∧
        (tagPlace cleaned = Stretch.movedTo ss (tagPlace bytes) ↔
          0x100000000 ∣ Stretch.total (Stretch.behind (tagPlace bytes) ss)) ∧
        (bytes.length ≤ 0x100000000 →
          (tagPlace cleaned = Stretch.movedTo ss (tagPlace bytes) ↔
            ∀ s ∈ ss, s.start ≤ tagPlace bytes))) := by
  obtain ⟨-, hlen, ss, hscan, hresult⟩ := clean_eq_ok.mp hclean
  obtain ⟨hcleaned, -⟩ := Prod.mk.inj hresult
  refine ⟨ss, hscan, fun hout => ?_⟩
  obtain ⟨stop, hstop, hlaid⟩ := laid_of_stretchesFrom hscan
  obtain ⟨-, -, hcut⟩ := cut_within hlen hscan
  have hbyte : cleaned[Stretch.movedTo ss (tagPlace bytes)]? = some bytes[tagPlace bytes] := by
    rw [hcleaned, getElem?_cleaned _ hlen hscan hstart hplace hout,
      List.getElem?_eq_getElem hinside]
  have hfield : tagPlace cleaned =
      0x14 + moveBack (HeaderField.gd3Offset.value bytes) (Stretch.total ss) := by
    rw [hcleaned]
    exact tagPlace_moveEdits htag _ (Nat.le_trans hstart hcut)
  -- The field is moved back by all that goes, so only what goes behind the tag can be amiss.
  have hpointer : tagPlace cleaned = Stretch.movedTo ss (tagPlace bytes) ↔
      0x100000000 ∣ Stretch.total (Stretch.behind (tagPlace bytes) ss) := by
    have hplaced : tagPlace bytes = 0x14 + HeaderField.gd3Offset.value bytes := rfl
    have hmoved := hlaid.movedTo_add_front hout
    have hkept := (hlaid.widen hstart (Nat.le_refl _)).le_movedTo hplace hout
    have hwithin : Stretch.total (Stretch.front (tagPlace bytes) ss) ≤
        HeaderField.gd3Offset.value bytes := by omega
    have hback := moveBack_add_eq_iff (value_le .gd3Offset rfl bytes) hwithin
      (Stretch.total (Stretch.behind (tagPlace bytes) ss))
    rw [← hback, Stretch.total_front_add_behind hout, hfield]
    omega
  refine ⟨hbyte, hpointer, fun hsize => ?_⟩
  have htotal := hlaid.total_le
  have hsplit := Stretch.total_front_add_behind hout
  rw [hpointer, ← hlaid.total_behind_eq_zero_iff]
  omega

/-- A tag behind the end marker stays in reach when the write in front of it goes. -/
theorem tagPlace_clean_after :
    let dump : Bytes := identTag ++ [0x8C, 0, 0, 0, 0x61, 1, 0, 0] ++ List.replicate 8 0 ++
      [0x78, 0, 0, 0] ++ List.replicate 28 0 ++ [0x54, 0, 0, 0] ++ List.replicate 0x4C 0 ++
      [0x4D, 0x4F, 0x1B, 0] ++ [0xB4, 0x10, 0x0F, 0x66] ++ [0x47, 0x64, 0x33, 0x20]
    ∃ cleaned, clean {} dump = .ok (cleaned, 1) ∧ tagPlace dump = 0x8C ∧
      cleaned[0x89]? = some 0x47 ∧ tagPlace cleaned = 0x89 := by
  intro dump
  have hcount : (clean {} dump).toOption.map Prod.snd = some 1 := by decide +kernel
  obtain ⟨⟨cleaned, _⟩, hsome, rfl⟩ := Option.map_eq_some_iff.mp hcount
  have hclean := toOption_eq_some.mp hsome
  have hfound : (stretchesFrom {} (Header.within dump).dataStart 0 []
      (dump.drop (Header.within dump).dataStart)).toOption = some [⟨0x88, 3⟩] := by
    decide +kernel
  have hplace : tagPlace dump = 0x8C := by decide +kernel
  have hlength : dump.length = 0x90 := by decide +kernel
  obtain ⟨ss, hscan, htag⟩ := tagPlace_clean hclean (by decide +kernel) (by decide +kernel)
    (by omega) (by omega)
  rw [hscan] at hfound
  obtain rfl := Option.some.inj hfound
  obtain ⟨hbyte, -, hpointer⟩ := htag (by rw [hplace]; decide)
  have hmoved : Stretch.movedTo [⟨0x88, 3⟩] (tagPlace dump) = 0x89 := by decide +kernel
  rw [hmoved] at hbyte hpointer
  refine ⟨cleaned, hclean, hplace, hbyte, (hpointer (by omega)).mpr ?_⟩
  rw [hplace]
  decide

/-- The tag lies between the header and the commands. It stays where it is, and the field moves
back by the write that goes behind it. -/
theorem tagPlace_clean_before :
    let dump : Bytes := identTag ++ [0x8C, 0, 0, 0, 0x61, 1, 0, 0] ++ List.replicate 8 0 ++
      [0x74, 0, 0, 0] ++ List.replicate 28 0 ++ [0x58, 0, 0, 0] ++ List.replicate 0x4C 0 ++
      [0x4D, 0x4F, 0x1B, 0] ++ [0x47, 0x64, 0x33, 0x20] ++ [0xB4, 0x10, 0x0F, 0x66]
    let ss : List Stretch := [⟨0x8C, 3⟩]
    (Header.within dump).dataStart = 0x8C ∧ tagPlace dump = 0x88 ∧ dump.length = 0x90 ∧
      (stretchesFrom {} 0x8C 0 [] (dump.drop 0x8C)).toOption = some ss ∧
      (∀ s ∈ ss, ¬ s.Covers 0x88) ∧ Stretch.movedTo ss 0x88 = 0x88 ∧
      ∃ cleaned, clean {} dump = .ok (cleaned, 1) ∧
        (cleaned.drop 0x88).take 4 = [0x47, 0x64, 0x33, 0x20] ∧ tagPlace cleaned = 0x85 := by
  intro dump ss
  have hresult : (clean {} dump).toOption.map
      (fun out => ((out.1.drop 0x88).take 4, tagPlace out.1, out.2)) =
        some ([0x47, 0x64, 0x33, 0x20], 0x85, 1) := by
    decide +kernel
  obtain ⟨⟨cleaned, _⟩, hsome, hout⟩ := Option.map_eq_some_iff.mp hresult
  obtain ⟨htag, hplace, rfl⟩ : _ ∧ _ ∧ _ := by simpa using hout
  refine ⟨by decide +kernel, by decide +kernel, by decide +kernel, by decide +kernel, by decide,
    by decide +kernel, cleaned, toOption_eq_some.mp hsome, htag, hplace⟩

end Trace

end ApuScore

import Mathlib.Data.List.Basic
import ApuScore.Proofs.Cleaning
/-
  Cleaning what is clean.

  A dump that is cleaned under one set of options and then under another is cleaned under
  both at once. Three things add up over the two passes:

  1. the commands: those that stay under both sets stay in the second pass, in the same
     order, and the counts and lengths of the others are summed (`filter_stays_union`,
     `length_gone_union`, `goneBytes_union`);
  2. the offsets: to move back twice is to move back by the sum (`moveBack_moveBack`);
  3. the header: the second pass edits the same fields as the first and leaves nothing of
     what the first has written there (`cleanedHead_cleanedHead`).

  The third needs a tag that lies behind the commands. One that lies within the bytes that
  go may be moved back to zero, and then the second pass takes it for none.
-/

namespace ApuScore

/-! ## Options -/

namespace CleaningOptions

/-- The options that drop the channels that one of two sets drops. -/
def union (o p : CleaningOptions) : CleaningOptions where
  dropPulse1 := o.dropPulse1 || p.dropPulse1
  dropPulse2 := o.dropPulse2 || p.dropPulse2
  dropTriangle := o.dropTriangle || p.dropTriangle
  dropNoise := o.dropNoise || p.dropNoise
  dropDmc := o.dropDmc || p.dropDmc

variable (o p : CleaningOptions)

@[simp] theorem union_self : o.union o = o := by
  simp only [union, Bool.or_self]

theorem keeps_union (register : UInt8) :
    (o.union p).keeps register = (o.keeps register && p.keeps register) := by
  unfold keeps union
  cases Channel.owner? register with
  | none => rfl
  | some c => cases c <;> simp only [Bool.not_or, Bool.and_self]

end CleaningOptions

section

variable (o p : CleaningOptions)

theorem DumpPart.stays_union (part : DumpPart) :
    part.stays (o.union p) = (part.stays o && part.stays p) := by
  unfold stays DumpEntry.step?
  cases part.entry with
  | wait n => rfl
  | write register value =>
    cases ho : o.keeps register <;> cases hp : p.keeps register <;>
      simp [CleaningOptions.keeps_union, ho, hp]
  | expansion => rfl
  | block => rfl

namespace Trace

/-! ## Commands in two passes -/

theorem filter_stays_union (parts : List DumpPart) :
    (parts.filter (DumpPart.stays o)).filter (DumpPart.stays p) =
      parts.filter (DumpPart.stays (o.union p)) := by
  rw [List.filter_filter]
  apply List.filter_congr
  intro part _
  rw [DumpPart.stays_union, Bool.and_comm]

theorem length_gone_union (parts : List DumpPart) :
    (parts.filter fun part => !part.stays o).length +
        ((parts.filter (DumpPart.stays o)).filter fun part => !part.stays p).length =
      (parts.filter fun part => !part.stays (o.union p)).length := by
  have hfirst := List.length_eq_length_filter_add (l := parts) (DumpPart.stays o)
  have hsecond :=
    List.length_eq_length_filter_add (l := parts.filter (DumpPart.stays o)) (DumpPart.stays p)
  have hunion := List.length_eq_length_filter_add (l := parts) (DumpPart.stays (o.union p))
  rw [filter_stays_union] at hsecond
  omega

theorem goneBytes_union (parts : List DumpPart) :
    goneBytes o parts + goneBytes p (parts.filter (DumpPart.stays o)) =
      goneBytes (o.union p) parts := by
  have hfirst := length_kept_add_goneBytes o parts
  have hsecond := length_kept_add_goneBytes p (parts.filter (DumpPart.stays o))
  have hunion := length_kept_add_goneBytes (o.union p) parts
  rw [filter_stays_union] at hsecond
  omega

end Trace

end

/-! ## Headers in two passes -/

namespace Trace

theorem moveBack_moveBack (offset first second : Nat) :
    moveBack (moveBack offset first) second = moveBack offset (first + second) := by
  unfold moveBack
  omega

end Trace

section edits

variable {bytes : Bytes}

/-- Numbers of four bytes at two fields do not overlap. -/
def HeaderField.Clear (f g : HeaderField) : Prop :=
  f.offset + 4 ≤ g.offset ∨ g.offset + 4 ≤ f.offset

theorem editFields_patch {edits : List (HeaderField × Nat)} {f : HeaderField}
    (hclear : ∀ g ∈ edits.map Prod.fst, f.Clear g) (n : Nat) (h : 0x88 ≤ bytes.length) :
    editFields edits (Bytes.patch f.offset (Bytes.le 4 n) bytes) =
      Bytes.patch f.offset (Bytes.le 4 n) (editFields edits bytes) := by
  induction edits generalizing bytes with
  | nil => rfl
  | cons e edits ih =>
    rw [List.map_cons, List.forall_mem_cons] at hclear
    have hlen := Bytes.length_patch (e.1.fits h e.2)
    have hapart := hclear.1.symm
    rw [← Bytes.length_le 4 e.2, ← Bytes.length_le 4 n] at hapart
    rw [editFields_cons, editFields_cons, Bytes.patch_comm (e.1.fits h e.2) (f.fits h n) hapart,
      ih hclear.2 (by omega)]

theorem editFields_editFields {fresh edits : List (HeaderField × Nat)}
    (hfields : fresh.map Prod.fst = edits.map Prod.fst)
    (hclear : (edits.map Prod.fst).Pairwise HeaderField.Clear) (h : 0x88 ≤ bytes.length) :
    editFields fresh (editFields edits bytes) = editFields fresh bytes := by
  induction edits generalizing fresh bytes with
  | nil =>
    obtain rfl := List.map_eq_nil_iff.mp hfields
    rfl
  | cons e edits ih =>
    obtain ⟨⟨f, n⟩, fresh, rfl, hf, hrest⟩ := List.map_eq_cons_iff.mp hfields
    dsimp only at hf
    subst hf
    rw [List.map_cons, List.pairwise_cons] at hclear
    have hfits : ∀ m : Nat, 0x88 ≤ (Bytes.patch e.1.offset (Bytes.le 4 m) bytes).length :=
      fun m => (Bytes.length_patch (e.1.fits h m)).symm ▸ h
    have hsame : (Bytes.le 4 e.2).length = (Bytes.le 4 n).length := by
      rw [Bytes.length_le, Bytes.length_le]
    calc editFields ((e.1, n) :: fresh) (editFields (e :: edits) bytes)
      _ = editFields fresh (editFields edits (Bytes.patch e.1.offset (Bytes.le 4 n)
            (Bytes.patch e.1.offset (Bytes.le 4 e.2) bytes))) := by
        rw [editFields_cons, editFields_cons, editFields_patch hclear.1 n (hfits e.2)]
      _ = editFields fresh (editFields edits (Bytes.patch e.1.offset (Bytes.le 4 n) bytes)) := by
        rw [Bytes.patch_patch (e.1.fits h n) hsame]
      _ = editFields ((e.1, n) :: fresh) bytes := by
        rw [ih hrest hclear.2 (hfits n), editFields_cons]

end edits

namespace Trace

theorem pairwise_cleanEdits (header : Header) (gone : Nat) :
    ((cleanEdits header gone).map Prod.fst).Pairwise HeaderField.Clear := by
  unfold cleanEdits clearEdits moveEdits
  split <;> simp [HeaderField.Clear, HeaderField.offset]

namespace Leads

variable {front : Bytes} (h : Leads front)
include h

theorem gd3Offset_cleanedHead (gone : Nat) :
    HeaderField.gd3Offset.value (cleanedHead front gone) =
      if HeaderField.gd3Offset.value front = 0 then 0
      else moveBack (HeaderField.gd3Offset.value front) gone := by
  split
  · rename_i hzero
    have hnot : HeaderField.gd3Offset ∉ (cleanEdits (Header.within front) gone).map Prod.fst := by
      simp [cleanEdits, clearEdits, moveEdits, Header.within, hzero]
    rw [cleanedHead, value_editFields_of_notMem rfl hnot h.fits, hzero]
  · rename_i hne
    exact h.value_of_mem rfl (moveBack_le _ _)
      (by simp [cleanEdits, moveEdits, Header.within, hne])

/-- The second pass makes the edits that one pass over all the commands makes. -/
theorem cleanEdits_cleanedHead {gone : Nat}
    (hgd3 : HeaderField.gd3Offset.value front = 0 ∨ gone < HeaderField.gd3Offset.value front)
    (more : Nat) :
    cleanEdits (Header.within (cleanedHead front gone)) more =
      cleanEdits (Header.within front) (gone + more) := by
  have hle : HeaderField.gd3Offset.value front ≤ 0xFFFFFFFF := value_le _ rfl front
  simp only [cleanEdits, clearEdits, moveEdits, Header.clockHz, Header.within,
    h.eofOffset_cleanedHead, h.nesApuClock_cleanedHead, h.gd3Offset_cleanedHead, Nat.mod_mod,
    moveBack_moveBack]
  rcases hgd3 with hzero | hgone
  · simp only [hzero, if_true]
  · -- the tag lies behind what goes, so its offset does not come to zero
    have hne : HeaderField.gd3Offset.value front ≠ 0 := by omega
    have hmoved : moveBack (HeaderField.gd3Offset.value front) gone ≠ 0 := by
      rw [moveBack_of_le (by omega) hle]
      omega
    simp only [hne, hmoved, if_false, moveBack_moveBack]

theorem cleanedHead_cleanedHead {gone : Nat}
    (hgd3 : HeaderField.gd3Offset.value front = 0 ∨ gone < HeaderField.gd3Offset.value front)
    (more : Nat) :
    cleanedHead (cleanedHead front gone) more = cleanedHead front (gone + more) := by
  have hfields : (cleanEdits (Header.within front) (gone + more)).map Prod.fst =
      (cleanEdits (Header.within front) gone).map Prod.fst := by
    unfold cleanEdits moveEdits
    split <;> simp
  rw [cleanedHead, h.cleanEdits_cleanedHead hgd3 more]
  exact editFields_editFields hfields (pairwise_cleanEdits _ _) h.fits

end Leads

/-! ## Two passes -/

/-- The commands of `bytes` end at a marker that lies at `stop`. -/
def EndsAt (bytes : Bytes) (stop : Nat) : Prop :=
  let start := Header.startOf (HeaderField.dataOffset.value bytes)
  ∃ parts rest, bytes.drop start = dumpImage parts ++ 0x66 :: rest ∧
    stop = start + (dumpImage parts).length

/-- A tag that lies behind the commands is further off than the bytes that go. -/
theorem Leads.goneBytes_lt {front rest : Bytes} {parts : List DumpPart} {stop offset : Nat}
    (h : Leads front) (hstop : EndsAt (front ++ (dumpImage parts ++ 0x66 :: rest)) stop)
    (hbehind : stop ≤ HeaderField.gd3Offset.offset + offset) (o : CleaningOptions) :
    goneBytes o parts < offset := by
  obtain ⟨parts', rest', hdrop, rfl⟩ := hstop
  rw [HeaderField.value_append _ _ h.fits, h.start] at hdrop hbehind
  rw [List.drop_left] at hdrop
  obtain ⟨rfl, -⟩ := dumpImage_inj hdrop
  have hfits := h.fits
  have hgone := length_kept_add_goneBytes o parts
  rw [HeaderField.offset] at hbehind
  omega

section

variable {o : CleaningOptions} {bytes cleaned : Bytes} {count : Nat}
  (hstart : 0x88 ≤ Header.startOf (HeaderField.dataOffset.value bytes))
  (hgd3 : HeaderField.gd3Offset.value bytes = 0 ∨ ∃ stop, EndsAt bytes stop ∧
    stop ≤ HeaderField.gd3Offset.offset + HeaderField.gd3Offset.value bytes)
  (hclean : clean o bytes = .ok (cleaned, count))
include hstart hgd3 hclean

theorem clean_cleaned (p : CleaningOptions) :
    ∃ again more, clean p cleaned = .ok (again, more) ∧
      clean (o.union p) bytes = .ok (again, count + more) := by
  obtain ⟨front, parts, rest, hleads, rfl⟩ := exists_leads hclean hstart
  rw [hleads.clean_eq] at hclean
  cases hclean
  rw [HeaderField.value_append _ _ hleads.fits] at hgd3
  have htag : HeaderField.gd3Offset.value front = 0 ∨
      goneBytes o parts < HeaderField.gd3Offset.value front := by
    rcases hgd3 with hzero | ⟨stop, hstop, hbehind⟩
    · exact .inl hzero
    · exact .inr (hleads.goneBytes_lt hstop hbehind o)
  refine ⟨_, _, (hleads.cleaned _).clean_eq p _ rest, ?_⟩
  rw [hleads.clean_eq, hleads.cleanedHead_cleanedHead htag, goneBytes_union, filter_stays_union,
    length_gone_union]

/-- A dump whose commands lie behind the header, and whose tag, if it has one, lies no
earlier than the end marker: once it is cleaned it can be cleaned again, under any options.
Both passes leave the bytes that one pass leaves that drops what either drops, and take out
as many commands together. So a second pass under the same options changes nothing. -/
theorem clean_union :
    (∀ p : CleaningOptions, ∃ again more, clean p cleaned = .ok (again, more) ∧
      clean (o.union p) bytes = .ok (again, count + more)) ∧
    clean o cleaned = .ok (cleaned, 0) := by
  refine ⟨clean_cleaned hstart hgd3 hclean, ?_⟩
  obtain ⟨again, more, hagain, hunion⟩ := clean_cleaned hstart hgd3 hclean o
  rw [CleaningOptions.union_self, hclean] at hunion
  obtain ⟨rfl, hcount⟩ := Prod.mk.inj (Except.ok.inj hunion)
  obtain rfl : more = 0 := by omega
  exact hagain

end

/-- A dump with a flag bit in its clock, a tag, a write to an expansion chip, a data block,
and writes to the sample channel and the first pulse. -/
theorem clean_union_mixed :
    let dump : Bytes := identTag ++ [0xA3, 0, 0, 0, 0x61, 1, 0, 0] ++ List.replicate 8 0 ++
      [0x8F, 0, 0, 0, 0xDF, 2, 0, 0, 0x40, 0, 0, 0, 0x10, 0, 0, 0, 60, 0, 0, 0] ++
      List.replicate 12 0 ++ [0x54, 0, 0, 0] ++ List.replicate 68 0 ++ [7, 0, 1, 2] ++
      List.replicate 4 0 ++ [0x4D, 0x4F, 0x1B, 0x40] ++
      [0xA0, 7, 0x38, 0xB4, 0x10, 0x0F, 0xB4, 0, 0x3F, 0x62, 0x67, 0x66, 0, 3, 0, 0, 0, 0x66, 0xB4,
        0x66, 0xB4, 0x15, 1, 0xB4, 3, 8, 0x66] ++ [0x47, 0x64, 0x33, 0x20]
    ∃ cleaned again, clean {} dump = .ok (cleaned, 3) ∧ clean {} cleaned = .ok (cleaned, 0) ∧
      clean { dropPulse1 := true, dropDmc := false } cleaned = .ok (again, 2) ∧
      clean { dropPulse1 := true } dump = .ok (again, 5) := by
  intro dump
  let found : List DumpPart :=
    [⟨_, _, .expansion (.inr rfl) 7 0x38⟩, ⟨_, _, .write 0x10 0x0F⟩, ⟨_, _, .write 0 0x3F⟩,
      ⟨_, _, .wait .frame60⟩,
      ⟨_, _, .block 0x66 0 (show [3, 0, 0, 0].length = 4 from rfl)
        (show [0x66, 0xB4, 0x66].length = Bytes.ofLe [3, 0, 0, 0] from rfl)⟩,
      ⟨_, _, .write 0x15 1⟩, ⟨_, _, .write 3 8⟩]
  have hstart : 0x88 ≤ Header.startOf (HeaderField.dataOffset.value dump) := by decide +kernel
  have hends : EndsAt dump 0xA2 :=
    ⟨found, [0x47, 0x64, 0x33, 0x20], by decide +kernel, by decide +kernel⟩
  have hcount : (clean {} dump).toOption.map Prod.snd = some 3 := by decide +kernel
  obtain ⟨⟨cleaned, _⟩, hsome, rfl⟩ := Option.map_eq_some_iff.mp hcount
  have hclean := toOption_eq_some.mp hsome
  obtain ⟨hunion, hsame⟩ :=
    clean_union hstart (.inr ⟨0xA2, hends, by decide +kernel⟩) hclean
  obtain ⟨again, more, hagain, hboth⟩ := hunion { dropPulse1 := true, dropDmc := false }
  have hsum : (clean { dropPulse1 := true } dump).toOption.map Prod.snd = some 5 := by
    decide +kernel
  change clean { dropPulse1 := true } dump = _ at hboth
  rw [hboth] at hsum
  obtain rfl : more = 2 := Nat.add_left_cancel (Option.some.inj hsum)
  exact ⟨cleaned, again, hclean, hsame, hagain, hboth⟩

/-- A tag within the bytes that go. The first pass moves its offset back to zero, and the
second leaves it there; one pass over all commands would move it further. -/
theorem clean_union_inside :
    let dump : Bytes := identTag ++ [0x8E, 0, 0, 0, 0x61, 1, 0, 0] ++ List.replicate 8 0 ++
      [3, 0, 0, 0] ++ List.replicate 28 0 ++ [0x54, 0, 0, 0] ++ List.replicate 80 0 ++
      [0xB4, 0x10, 0x0F, 0xB4, 0, 0x3F, 0x66]
    let tag : Except FormatError (Bytes × Nat) → Option Nat := fun out =>
      out.toOption.map fun out => HeaderField.gd3Offset.value out.1
    let p : CleaningOptions := { dropPulse1 := true }
    tag (clean {} dump) = some 0 ∧
      tag (clean {} dump >>= fun out => clean p out.1) = some 0 ∧
      tag (clean (CleaningOptions.union {} p) dump) = some 0xFFFFFFFD := by
  decide +kernel

end Trace

end ApuScore

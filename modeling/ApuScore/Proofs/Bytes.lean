import ApuScore.Bytes
/-
  Little-endian numbers read back, and windows of strings that were put
  together.

  `ofLe_le` is the law that every field and every length in a trace rests on: a
  number that fits its bytes comes back from them. `window_append` finds the
  middle part of a string again. A patched string has its old length, the fresh
  bytes in their place (`window_patch_self`) and every other window as before
  (`window_patch_of_disjoint`). A second patch covers the first in the same place
  (`patch_patch`) and comes in either order apart from it (`patch_comm`).
-/

namespace ApuScore

namespace Bytes

@[simp] theorem length_le (width n : Nat) : (le width n).length = width := by
  induction width generalizing n with
  | zero => rfl
  | succ width ih => rw [le, List.length_cons, ih]

theorem shiftLeft_bits_succ (width : Nat) : 1 <<< (8 * (width + 1)) = 1 <<< (8 * width) * 256 := by
  rw [Nat.mul_succ, Nat.shiftLeft_add, Nat.shiftLeft_eq _ 8]

theorem ofLe_le {width n : Nat} (h : n < 1 <<< (8 * width)) : ofLe (le width n) = n := by
  induction width generalizing n with
  | zero => rw [Nat.lt_one_iff.mp h, le, ofLe]
  | succ width ih =>
    have hbyte : (UInt8.ofNat (n % 256)).toNat = n % 256 :=
      UInt8.toNat_ofNat_of_lt' (Nat.mod_lt n (by decide))
    have hrest : n / 256 < 1 <<< (8 * width) :=
      Nat.div_lt_of_lt_mul (by rw [Nat.mul_comm, ← shiftLeft_bits_succ]; exact h)
    rw [le, ofLe, ih hrest, hbyte, Nat.mod_add_div]

theorem ofLe_lt {width : Nat} {bytes : Bytes} (h : bytes.length ≤ width) :
    ofLe bytes < 1 <<< (8 * width) := by
  induction bytes generalizing width with
  | nil => exact Nat.shiftLeft_eq 1 _ ▸ Nat.mul_pos Nat.one_pos (Nat.two_pow_pos _)
  | cons b bytes ih =>
    cases width with
    | zero => cases h
    | succ width =>
      have hb := b.toNat_lt
      have hrest := ih (Nat.le_of_succ_le_succ h)
      rw [ofLe, shiftLeft_bits_succ]
      omega

theorem le_zero (width : Nat) : le width 0 = List.replicate width 0 := by
  induction width with
  | zero => rfl
  | succ width ih => rw [le, Nat.zero_mod, Nat.zero_div, ih]; rfl

theorem window_append {off len : Nat} {front : Bytes} (rest : Bytes)
    (h : off + len ≤ front.length) :
    window off len (front ++ rest) = some ((front.drop off).take len) := by
  have hfits : off + len ≤ (front ++ rest).length := by
    rw [List.length_append]; omega
  have hoff : off ≤ front.length := by omega
  have hlen : len ≤ (front.drop off).length := by
    rw [List.length_drop]; omega
  rw [window, if_pos hfits, List.drop_append_of_le_length hoff,
    List.take_append_of_le_length hlen]

/-! ## Strings written over -/

section patch

variable {off : Nat} {fresh bytes : Bytes}

theorem length_patch (h : off + fresh.length ≤ bytes.length) :
    (patch off fresh bytes).length = bytes.length := by
  simp only [patch, List.length_append, List.length_take, List.length_drop]
  omega

theorem patch_append (rest : Bytes) (h : off + fresh.length ≤ bytes.length) :
    patch off fresh (bytes ++ rest) = patch off fresh bytes ++ rest := by
  have hoff : off ≤ bytes.length := by omega
  simp only [patch, List.append_assoc, List.take_append_of_le_length hoff,
    List.drop_append_of_le_length h]

theorem window_patch_self (h : off + fresh.length ≤ bytes.length) :
    ((patch off fresh bytes).drop off).take fresh.length = fresh := by
  have htake : (bytes.take off).length = off := by simp; omega
  rw [patch, List.append_assoc, List.drop_left' htake, List.take_left]

theorem getElem?_patch (h : off + fresh.length ≤ bytes.length) (i : Nat) :
    (patch off fresh bytes)[i]? =
      if off ≤ i ∧ i < off + fresh.length then fresh[i - off]? else bytes[i]? := by
  have htake : (bytes.take off).length = off := by simp; omega
  have hfront : (bytes.take off ++ fresh).length = off + fresh.length := by
    rw [List.length_append, htake]
  rw [patch]
  split
  · rw [List.getElem?_append_left (by omega), List.getElem?_append_right (by omega), htake]
  · by_cases hbefore : i < off
    · rw [List.append_assoc, List.getElem?_append_left (by omega), List.getElem?_take,
        if_pos hbefore]
    · rw [List.getElem?_append_right (by omega), hfront, List.getElem?_drop]
      congr 1
      omega

theorem window_patch_of_disjoint {start len : Nat} (h : off + fresh.length ≤ bytes.length)
    (hapart : start + len ≤ off ∨ off + fresh.length ≤ start) :
    ((patch off fresh bytes).drop start).take len = (bytes.drop start).take len := by
  apply List.ext_getElem?
  intro i
  simp only [List.getElem?_take, List.getElem?_drop, getElem?_patch h]
  split
  · rw [if_neg (by omega)]
  · rfl

/-- What is written over is lost. -/
theorem patch_patch {old : Bytes} (h : off + fresh.length ≤ bytes.length)
    (hold : old.length = fresh.length) :
    patch off fresh (patch off old bytes) = patch off fresh bytes := by
  have hlen := length_patch (hold ▸ h)
  apply List.ext_getElem?
  intro i
  rw [getElem?_patch (hlen ▸ h), getElem?_patch (hold ▸ h), getElem?_patch h, hold]
  split
  · rfl
  · rfl

theorem patch_comm {place : Nat} {other : Bytes} (h : off + fresh.length ≤ bytes.length)
    (hother : place + other.length ≤ bytes.length)
    (hapart : off + fresh.length ≤ place ∨ place + other.length ≤ off) :
    patch off fresh (patch place other bytes) = patch place other (patch off fresh bytes) := by
  have hlen := length_patch h
  have hlenOther := length_patch hother
  apply List.ext_getElem?
  intro i
  rw [getElem?_patch (hlenOther ▸ h), getElem?_patch hother, getElem?_patch (hlen ▸ hother),
    getElem?_patch h]
  by_cases hin : off ≤ i ∧ i < off + fresh.length
  · have hout : ¬(place ≤ i ∧ i < place + other.length) := by omega
    rw [if_pos hin, if_neg hout, if_pos hin]
  · rw [if_neg hin, if_neg hin]

end patch

end Bytes

end ApuScore

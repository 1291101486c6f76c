import ApuScore.Archive.Gzip
import ApuScore.Proofs.Timeline
/-
  A gzip member is read alike with more fuel and with more bytes behind it.

  The blocks of a stream are read with fuel, and a reader that runs out of bits or of fuel
  says that the stream is incomplete. This file

  1. says what becomes of a source when it is read: no bits come back, and a reader that was
     not cut short reads the same from a longer source (`Steady`). Some readers spend a bit
     at least (`Spends`);
  2. shows this for each reader, along its own steps;
  3. compares readers on short sources (`EqBelow`): each symbol and each block spends a bit,
     so fuel above the bits of a stream changes nothing (`inflate_eq_blocks`);
  4. concludes for streams (`Deflate.inflate_append`) and members (`Gzip.inflate_append`).
-/

namespace ApuScore

namespace Deflate

variable {α β : Type}

/-! ## Readers -/

namespace Source

def bits (s : Source) : Nat := s.count + 8 * s.bytes.length

/-- The same with `more` at its end. -/
def extend (s : Source) (more : Bytes) : Source := { s with bytes := s.bytes ++ more }

end Source

theorem bind_ok {r : Reader α} {f : α → Reader β} {s left : Source} {a : α}
    (h : r s = .ok (a, left)) : (r >>= f) s = f a left := by
  show (r s >>= fun x => f x.1 x.2) = _
  rw [h]
  rfl

theorem bind_error {r : Reader α} {f : α → Reader β} {s : Source} {e : DeflateError}
    (h : r s = .error e) : (r >>= f) s = .error e := by
  show (r s >>= fun x => f x.1 x.2) = _
  rw [h]
  rfl

theorem of_bind_ok {r : Reader α} {f : α → Reader β} {s left : Source} {b : β}
    (h : (r >>= f) s = .ok (b, left)) : ∃ a mid, r s = .ok (a, mid) ∧ f a mid = .ok (b, left) := by
  cases hr : r s with
  | error e => rw [bind_error hr] at h; cases h
  | ok x => exact ⟨x.1, x.2, rfl, by rwa [bind_ok hr] at h⟩

/-- `r` gives no bits back, and bytes that it does not reach do not matter. -/
structure Steady (r : Reader α) : Prop where
  bits_le : ∀ {s a left}, r s = .ok (a, left) → left.bits ≤ s.bits
  extend : ∀ {s} more, r s ≠ .error .incomplete →
    r (s.extend more) = (r s).map fun x => (x.1, x.2.extend more)

namespace Steady

theorem pure (a : α) : Steady (Pure.pure a : Reader α) where
  bits_le h := by cases h; exact Nat.le_refl _
  extend _ _ := rfl

theorem throw (e : DeflateError) : Steady (MonadExcept.throw e : Reader α) where
  bits_le h := nomatch h
  extend _ _ := rfl

theorem bind {r : Reader α} {f : α → Reader β} (hr : Steady r) (hf : ∀ a, Steady (f a)) :
    Steady (r >>= f) where
  bits_le h := by
    obtain ⟨a, mid, hmid, hleft⟩ := of_bind_ok h
    exact Nat.le_trans ((hf a).bits_le hleft) (hr.bits_le hmid)
  extend {s} more h := by
    cases hrs : r s with
    | error e =>
      have hne : r s ≠ .error .incomplete := fun hcut => h (bind_error hcut)
      rw [bind_error hrs]
      exact bind_error (by rw [hr.extend more hne, hrs]; rfl)
    | ok x =>
      have hmore : r (s.extend more) = .ok (x.1, x.2.extend more) := by
        rw [hr.extend more (by rw [hrs]; exact nofun), hrs]
        rfl
      rw [bind_ok hrs] at h ⊢
      rw [bind_ok hmore]
      exact (hf x.1).extend more h

theorem ite {c : Prop} [Decidable c] {r r' : Reader α} (h : Steady r) (h' : Steady r') :
    Steady (if c then r else r') := by
  by_cases hc : c
  · rwa [if_pos hc]
  · rwa [if_neg hc]

theorem mapM {f : β → Reader α} (hf : ∀ b, Steady (f b)) (l : List β) : Steady (l.mapM f) := by
  induction l with
  | nil => exact pure []
  | cons b l ih =>
    rw [List.mapM_cons]
    exact (hf b).bind fun _ => ih.bind fun _ => pure _

theorem foldlM {f : α → β → Reader α} (hf : ∀ a b, Steady (f a b)) (l : List β) (a : α) :
    Steady (l.foldlM f a) := by
  induction l generalizing a with
  | nil => exact pure a
  | cons b l ih => exact (hf a b).bind ih

end Steady

/-- `r` reads a bit at least. -/
def Spends (r : Reader α) : Prop := ∀ {s a left}, r s = .ok (a, left) → left.bits < s.bits

theorem Spends.bind {r : Reader α} {f : α → Reader β} (hr : Spends r) (hf : ∀ a, Steady (f a)) :
    Spends (r >>= f) := by
  intro s b left h
  obtain ⟨a, mid, hmid, hleft⟩ := of_bind_ok h
  exact Nat.lt_of_le_of_lt ((hf a).bits_le hleft) (hr hmid)

theorem spends_bit : Spends bit := by
  rintro ⟨held, count, bytes⟩ b left h
  cases count with
  | succ count => cases h; simp [Source.bits]
  | zero =>
    cases bytes with
    | nil => cases h
    | cons byte rest =>
      cases h
      simp only [Source.bits, List.length_cons]
      omega

theorem steady_bit : Steady bit where
  bits_le h := Nat.le_of_lt (spends_bit h)
  extend {s} more h := by
    obtain ⟨held, count, bytes⟩ := s
    cases count with
    | succ count => rfl
    | zero =>
      cases bytes with
      | nil => exact absurd rfl h
      | cons byte rest => rfl

theorem steady_number (width : Nat) : Steady (number width) := by
  induction width with
  | zero => exact .pure 0
  | succ width ih => exact steady_bit.bind fun _ => ih.bind fun _ => .pure _

theorem steady_wholeBytes (len : Nat) : Steady (wholeBytes len) where
  bits_le {s a left} h := by
    simp only [wholeBytes] at h
    split at h
    · cases h
      simp only [Source.bits, List.length_drop]
      omega
    · cases h
  extend {s} more h := by
    have hlen : len ≤ s.bytes.length :=
      Nat.le_of_not_lt fun hlt => h (if_neg (by rw [List.length_take]; omega))
    simp [wholeBytes, Source.extend, List.take_append_of_le_length hlen,
      List.drop_append_of_le_length hlen, hlen, Except.map]

theorem steady_demand (ok : Bool) : Steady (demand ok) := (Steady.pure ()).ite (.throw .corrupt)

/-! ## Codes -/

theorem steady_symbolFrom (c : Code) (ahead : Nat) : Steady (c.symbolFrom ahead) := by
  induction c generalizing ahead with
  | nil => exact .throw .corrupt
  | cons here longer ih =>
    refine steady_bit.bind fun b => ?_
    dsimp only
    cases here[2 * ahead + b]? with
    | some symbol => exact .pure symbol
    | none => exact ih _

theorem steady_symbol (c : Code) : Steady c.symbol := steady_symbolFrom c 0

theorem spends_symbol (c : Code) : Spends c.symbol := by
  cases c with
  | nil => exact nofun
  | cons here longer =>
    refine spends_bit.bind fun b => ?_
    dsimp only
    cases here[2 * 0 + b]? with
    | some symbol => exact .pure symbol
    | none => exact steady_symbolFrom longer _

theorem steady_lengthRun (c : Code) (last? : Option Nat) : Steady (lengthRun c last?) := by
  refine (steady_symbol c).bind fun symbol => ?_
  split
  · cases last? with
    | none => exact .throw .corrupt
    | some last => exact (steady_number 2).bind fun _ => .pure _
  · exact (steady_number 3).bind fun _ => .pure _
  · exact (steady_number 7).bind fun _ => .pure _
  · exact .pure _

theorem steady_codeLengths (c : Code) (wanted : Nat) : Steady (codeLengths c wanted) := by
  refine Steady.bind (.foldlM (fun found _ => Steady.ite ?_ (.pure found)) _ _) fun _ =>
    (steady_demand _).bind fun _ => .pure _
  exact (steady_lengthRun c _).bind fun _ => .pure _

theorem steady_describedCodes : Steady describedCodes :=
  (steady_number 5).bind fun _ => (steady_number 5).bind fun _ => (steady_number 4).bind fun _ =>
  (steady_demand _).bind fun _ =>
  (Steady.mapM (fun _ => steady_number 3) _).bind fun _ =>
  (steady_demand _).bind fun _ =>
  (steady_codeLengths _ _).bind fun _ =>
  (steady_demand _).bind fun _ => .pure _

/-! ## Blocks -/

theorem steady_lengthOf (i : Nat) : Steady (lengthOf i) :=
  (Steady.pure _).ite <| Steady.ite ((steady_number _).bind fun _ => .pure _) <|
    (Steady.pure _).ite (.throw .corrupt)

theorem steady_distanceOf (i : Nat) : Steady (distanceOf i) :=
  (Steady.pure _).ite <| Steady.ite ((steady_number _).bind fun _ => .pure _) (.throw .corrupt)

theorem steady_coded (codes : Codes) (fuel : Nat) (out : Array UInt8) :
    Steady (coded codes fuel out) := by
  induction fuel generalizing out with
  | zero => exact .throw .incomplete
  | succ fuel ih =>
    refine (steady_symbol _).bind fun symbol => (ih _).ite <| (Steady.pure out).ite ?_
    exact (steady_lengthOf _).bind fun _ => (steady_symbol _).bind fun _ =>
      (steady_distanceOf _).bind fun _ => (steady_demand _).bind fun _ => ih _

theorem steady_plain (out : Array UInt8) : Steady (plain out) :=
  (steady_wholeBytes 4).bind fun _ => (steady_demand _).bind fun _ =>
  (steady_wholeBytes _).bind fun _ => .pure _

theorem steady_block (fuel kind : Nat) (out : Array UInt8) : Steady (block fuel kind out) := by
  unfold block
  split
  · exact steady_plain out
  · exact steady_coded _ _ out
  · exact steady_describedCodes.bind fun _ => steady_coded _ _ out
  · exact .throw .corrupt

theorem steady_blocks (fuel : Nat) (out : Array UInt8) : Steady (blocks fuel out) := by
  induction fuel generalizing out with
  | zero => exact .throw .incomplete
  | succ fuel ih =>
    exact steady_bit.bind fun _ => (steady_number 2).bind fun _ =>
      (steady_block _ _ out).bind fun out => (Steady.pure out).ite (ih out)

/-! ## Fuel -/

/-- The two read the same from fewer than `n` bits. -/
def EqBelow (n : Nat) (r r' : Reader α) : Prop := ∀ s, s.bits < n → r s = r' s

namespace EqBelow

theorem refl (n : Nat) (r : Reader α) : EqBelow n r r := fun _ _ => rfl

theorem bind {n : Nat} {r r' : Reader α} {f f' : α → Reader β} (h : EqBelow n r r')
    (hr : Steady r) (hf : ∀ a, EqBelow n (f a) (f' a)) : EqBelow n (r >>= f) (r' >>= f') := by
  intro s hs
  have hrs := h s hs
  cases hx : r s with
  | error e => rw [bind_error hx, bind_error (hrs ▸ hx)]
  | ok x =>
    rw [bind_ok hx, bind_ok (hrs ▸ hx)]
    exact hf x.1 x.2 (Nat.lt_of_le_of_lt (hr.bits_le hx) hs)

/-- A bit that is spent first makes room for one more. -/
theorem bind_spends {n : Nat} {r : Reader α} {f f' : α → Reader β} (hr : Spends r)
    (hf : ∀ a, EqBelow n (f a) (f' a)) : EqBelow (n + 1) (r >>= f) (r >>= f') := by
  intro s hs
  cases hx : r s with
  | error e => rw [bind_error hx, bind_error hx]
  | ok x =>
    rw [bind_ok hx, bind_ok hx]
    exact hf x.1 x.2 (by have := hr hx; omega)

theorem ite {n : Nat} {c : Prop} [Decidable c] {r r' t t' : Reader α} (h : EqBelow n r r')
    (h' : EqBelow n t t') : EqBelow n (if c then r else t) (if c then r' else t') := by
  by_cases hc : c
  · rwa [if_pos hc, if_pos hc]
  · rwa [if_neg hc, if_neg hc]

end EqBelow

theorem coded_add (codes : Codes) (fuel extra : Nat) (out : Array UInt8) :
    EqBelow fuel (coded codes (fuel + extra) out) (coded codes fuel out) := by
  induction fuel generalizing out with
  | zero => exact fun s hs => absurd hs (Nat.not_lt_zero _)
  | succ fuel ih =>
    rw [Nat.add_right_comm]
    refine .bind_spends (spends_symbol _) fun symbol => (ih _).ite <| (EqBelow.refl _ _).ite ?_
    refine (EqBelow.refl _ _).bind (steady_lengthOf _) fun len => ?_
    refine (EqBelow.refl _ _).bind (steady_symbol _) fun symbol => ?_
    refine (EqBelow.refl _ _).bind (steady_distanceOf _) fun distance => ?_
    exact (EqBelow.refl _ _).bind (steady_demand _) fun _ => ih _

theorem block_add (fuel extra kind : Nat) (out : Array UInt8) :
    EqBelow fuel (block (fuel + extra) kind out) (block fuel kind out) := by
  unfold block
  split
  · exact .refl _ _
  · exact coded_add _ fuel extra out
  · exact (EqBelow.refl _ _).bind steady_describedCodes fun codes => coded_add codes fuel extra out
  · exact .refl _ _

/-- More fuel than there are bits changes nothing. -/
theorem blocks_add (fuel extra : Nat) (out : Array UInt8) :
    EqBelow fuel (blocks (fuel + extra) out) (blocks fuel out) := by
  induction fuel generalizing out with
  | zero => exact fun s hs => absurd hs (Nat.not_lt_zero _)
  | succ fuel ih =>
    rw [Nat.add_right_comm]
    refine .bind_spends spends_bit fun last => ?_
    refine (EqBelow.refl _ _).bind (steady_number 2) fun kind => ?_
    refine (block_add fuel extra kind out).bind (steady_block _ _ _) fun out => ?_
    exact (EqBelow.refl _ _).ite (ih out)

/-- Any fuel above the bits of a stream inflates it alike. -/
theorem inflate_eq_blocks {bytes : Bytes} {fuel : Nat} (h : 8 * bytes.length < fuel) :
    inflate bytes =
      (blocks fuel #[] { bytes := bytes }).map fun x => (x.1.toList, x.2.bytes) := by
  obtain ⟨extra, rfl⟩ := Nat.exists_eq_add_of_le (Nat.succ_le_of_lt h)
  rw [blocks_add _ extra #[] { bytes := bytes } (by simp [Source.bits])]
  show (blocks (8 * bytes.length + 1) #[] { bytes := bytes } >>= fun x =>
    Except.ok (x.1.toList, x.2.bytes)) = _
  cases blocks (8 * bytes.length + 1) #[] { bytes := bytes } <;> rfl

/-- A stream that is not cut short holds the same, or is as corrupt, whatever follows. -/
theorem inflate_append {bytes : Bytes} (more : Bytes) (h : inflate bytes ≠ .error .incomplete) :
    inflate (bytes ++ more) = (inflate bytes).map fun x => (x.1, x.2 ++ more) := by
  -- The longer stream has more fuel, and that is enough for both.
  have hfuel : 8 * bytes.length < 8 * (bytes ++ more).length + 1 := by
    rw [List.length_append]
    omega
  rw [inflate_eq_blocks hfuel] at h ⊢
  rw [inflate_eq_blocks (Nat.lt_succ_self _)]
  have hext := (steady_blocks (8 * (bytes ++ more).length + 1) #[]).extend
    (s := { bytes := bytes }) more fun hcut => h (by rw [hcut]; rfl)
  have hsource : ({ bytes := bytes } : Source).extend more = { bytes := bytes ++ more } := rfl
  rw [← hsource, hext]
  cases blocks (8 * (bytes ++ more).length + 1) #[] { bytes := bytes } <;> rfl

-- A byte and four more from one back, with a byte behind the stream.
example : (inflate [0x4B, 0x4C, 0x04, 0x02, 0x00, 0x2A]).toOption =
    some ([97, 97, 97, 97, 97], [0x2A]) := by
  decide +kernel

end Deflate

/-! ## Members -/

namespace Gzip

theorem take_append {len : Nat} {bytes head rest : Bytes} (more : Bytes)
    (h : take len bytes = .ok (head, rest)) :
    take len (bytes ++ more) = .ok (head, rest ++ more) := by
  simp only [take] at h
  split at h
  · next hlen =>
    cases h
    have hle : len ≤ bytes.length := by
      rw [List.length_take] at hlen
      omega
    simp [take, List.take_append_of_le_length hle, List.drop_append_of_le_length hle, hle]
  · cases h

/-- What `drop` leaves of a string is followed by what follows the string. -/
def Forward (drop : Bytes → Except GzipError Bytes) : Prop :=
  ∀ {bytes rest} more, drop bytes = .ok rest → drop (bytes ++ more) = .ok (rest ++ more)

theorem forward_dropExtra : Forward dropExtra := by
  intro bytes rest more h
  obtain ⟨⟨len, tail⟩, hlen, h⟩ := bind_eq_ok.mp h
  obtain ⟨⟨field, rest⟩, hfield, h⟩ := bind_eq_ok.mp h
  cases h
  exact bind_eq_ok.mpr ⟨_, take_append more hlen, bind_eq_ok.mpr ⟨_, take_append more hfield, rfl⟩⟩

theorem forward_dropText : Forward dropText := by
  intro bytes rest more h
  simp only [dropText] at h
  split at h
  · cases h
  next hmax =>
    split at h
    · cases h
    next zero tail hdrop =>
      cases h
      -- The text ends in front of the zero byte, so it is the text of the longer string.
      have hlt : (bytes.takeWhile (· != 0)).length < bytes.length := by
        have := congrArg List.length hdrop
        rw [List.length_drop, List.length_cons] at this
        omega
      have htext : (bytes ++ more).takeWhile (· != 0) = bytes.takeWhile (· != 0) := by
        rw [List.takeWhile_append, if_neg (Nat.ne_of_lt hlt)]
      simp only [dropText, htext, if_neg hmax,
        List.drop_append_of_le_length (Nat.le_of_lt hlt), hdrop, List.cons_append]

theorem forward_dropSum (header : Bytes) : Forward (dropSum header) := by
  intro bytes rest more h
  obtain ⟨⟨sum, tail⟩, hsum, h⟩ := bind_eq_ok.mp h
  obtain ⟨_, hok, h⟩ := bind_eq_ok.mp h
  cases h
  exact bind_eq_ok.mpr ⟨_, take_append more hsum, bind_eq_ok.mpr ⟨_, hok, rfl⟩⟩

theorem Forward.dropIf {drop : Bytes → Except GzipError Bytes} (h : Forward drop)
    (present : Bool) : Forward (dropIf present drop) := by
  intro bytes rest more hrest
  cases present with
  | true => exact h more hrest
  | false => cases hrest; rfl

theorem forward_dropHeader : Forward dropHeader := by
  intro bytes rest more h
  obtain ⟨⟨start, rest₀⟩, hstart, h⟩ := bind_eq_ok.mp h
  obtain ⟨_, hok, h⟩ := bind_eq_ok.mp h
  obtain ⟨rest₁, hextra, h⟩ := bind_eq_ok.mp h
  obtain ⟨rest₂, hname, h⟩ := bind_eq_ok.mp h
  obtain ⟨rest₃, hcomment, hsum⟩ := bind_eq_ok.mp h
  refine bind_eq_ok.mpr ⟨_, take_append more hstart, bind_eq_ok.mpr ⟨_, hok, ?_⟩⟩
  refine bind_eq_ok.mpr ⟨_, forward_dropExtra.dropIf _ more hextra, ?_⟩
  refine bind_eq_ok.mpr ⟨_, forward_dropText.dropIf _ more hname, ?_⟩
  refine bind_eq_ok.mpr ⟨_, forward_dropText.dropIf _ more hcomment, ?_⟩
  have hheader : (bytes ++ more).take ((bytes ++ more).length - (rest₃ ++ more).length) =
      bytes.take (bytes.length - rest₃.length) := by
    rw [List.length_append, List.length_append, Nat.add_sub_add_right,
      List.take_append_of_le_length (Nat.sub_le _ _)]
  rw [hheader]
  exact Forward.dropIf (forward_dropSum _) _ more hsum

/-- Bytes behind a member do not matter. -/
theorem inflate_append {bytes data : Bytes} (more : Bytes) (h : inflate bytes = .ok data) :
    inflate (bytes ++ more) = .ok data := by
  obtain ⟨stream, hstream, h⟩ := bind_eq_ok.mp h
  obtain ⟨⟨data, rest⟩, hdata, h⟩ := bind_eq_ok.mp h
  obtain ⟨⟨trailer, tail⟩, htrailer, h⟩ := bind_eq_ok.mp h
  have hinflate : Deflate.inflate stream = .ok (data, rest) := by
    cases hres : Deflate.inflate stream with
    | error e => rw [hres] at hdata; cases hdata
    | ok x => rw [hres] at hdata; cases hdata; rfl
  have hmore : Deflate.inflate (stream ++ more) = .ok (data, rest ++ more) := by
    rw [Deflate.inflate_append more (by rw [hinflate]; exact nofun), hinflate]
    rfl
  refine bind_eq_ok.mpr ⟨_, forward_dropHeader more hstream, ?_⟩
  refine bind_eq_ok.mpr ⟨(data, rest ++ more), by rw [hmore]; rfl, ?_⟩
  exact bind_eq_ok.mpr ⟨_, take_append more htrailer, h⟩

end Gzip

end ApuScore

import Mathlib.Data.List.Chain
import ApuScore.Proofs.Acceptance
import ApuScore.Proofs.Codec
import ApuScore.RoundTrip
/-
  Reading a trace and writing it again.

  Reading joins waits that touch and writing does not, so one pass is enough to settle a
  trace and a second one changes nothing: joined steps stay as they are when they are
  joined again (`joinWaits_joinWaits`). That gives `roundTrip_registers`, for every trace
  that is read, however it is spelled.

  A trace that was written may still change in its first pass. It stays byte for byte
  exactly if its log is seamless: of two waits in a row the first fills its commands and
  the second is not empty (`Event.Seamless`, `pieces_joinWaits`). That gives
  `roundTrip_encode`.
-/

namespace ApuScore

/-! ## Joining twice -/

namespace Trace

theorem joinWaits_joinWait (s : Step RegisterOp) (rest : List (Step RegisterOp)) :
    joinWaits (joinWait s rest) = joinWait s (joinWaits rest) := by
  cases s with
  | act a => rfl
  | wait m =>
    cases rest with
    | nil => rfl
    | cons next rest =>
      cases next with
      | act a => rfl
      | wait n => exact (joinWait_wait_wait m n (joinWaits rest)).symm

theorem joinWaits_joinWaits (steps : List (Step RegisterOp)) :
    joinWaits (joinWaits steps) = joinWaits steps := by
  induction steps with
  | nil => rfl
  | cons s rest ih => rw [joinWaits_cons, joinWaits_joinWait, ih]

theorem joinWaits_wait (n : Nat) (rest : List (Step RegisterOp)) :
    ∃ k tail, n ≤ k ∧ joinWaits (.wait n :: rest) = .wait k :: tail := by
  rw [joinWaits_cons]
  rcases joinWaits rest with _ | ⟨next, tail⟩
  · exact ⟨n, [], Nat.le_refl n, rfl⟩
  · cases next with
    | act a => exact ⟨n, .act a :: tail, Nat.le_refl n, rfl⟩
    | wait m => exact ⟨n + m, tail, Nat.le_add_right n m, rfl⟩

/-- Two steps that are not both waits. -/
def Apart (s next : Step RegisterOp) : Prop :=
  s.toEvent.isWait = false ∨ next.toEvent.isWait = false

theorem isChain_joinWaits (steps : List (Step RegisterOp)) :
    (joinWaits steps).IsChain Apart := by
  induction steps with
  | nil => exact .nil
  | cons s rest ih =>
    rw [joinWaits_cons]
    generalize joinWaits rest = joined at ih
    cases s with
    | act a =>
      apply ih.cons
      intro next _
      exact .inl rfl
    | wait m =>
      cases joined with
      | nil => exact .singleton _
      | cons next tail =>
        cases next with
        | act a => exact ih.cons_cons (.inr rfl)
        | wait n =>
          apply List.IsChain.imp_head _ ih
          intro after h
          exact h

end Trace

/-! ## Seamless logs -/

/-- Whether two events in a row are written as if they were joined: of two waits, the
first fills its commands and the second is not empty. -/
def Event.Seamless {α : Type} : Event α → Event α → Prop
  | .wait m, .wait n => 0 < m ∧ longestWait ∣ m ∧ 0 < n
  | _, _ => True

instance Event.decidableSeamless {α : Type} : ∀ e f : Event α, Decidable (e.Seamless f)
  | .wait m, .wait n => inferInstanceAs (Decidable (0 < m ∧ longestWait ∣ m ∧ 0 < n))
  | .wait _, .clock _ | .wait _, .act _ | .clock _, _ | .act _, _ => .isTrue trivial

/-- Two steps in a row are seamless if their events are. -/
def Step.Seamless {α : Type} (s next : Step α) : Prop := s.toEvent.Seamless next.toEvent

theorem Trace.Apart.seamless {s next : Step RegisterOp} (h : Apart s next) : s.Seamless next := by
  cases s with
  | act a => trivial
  | wait m =>
    cases next with
    | act a => trivial
    | wait n =>
      rcases h with h | h
      · cases h
      · cases h

/-- The last piece of a wait; the others fill their commands. -/
def lastPiece (n : Nat) : Nat := n - (n - 1) / longestWait * longestWait

theorem waitPieces_eq (n : Nat) :
    waitPieces n = List.replicate ((n - 1) / longestWait) longestWait ++ [lastPiece n] := rfl

/-- A wait that fills its commands parts from the wait behind it where its commands
end. -/
theorem waitPieces_add {m n : Nat} (hm : 0 < m) (hfull : longestWait ∣ m) (hn : 0 < n) :
    waitPieces (m + n) = waitPieces m ++ waitPieces n := by
  have hlast : lastPiece m = longestWait ∧ lastPiece (m + n) = lastPiece n := by
    rw [longestWait] at hfull
    simp only [lastPiece, longestWait]
    omega
  have hcount : (m + n - 1) / longestWait =
      (m - 1) / longestWait + 1 + (n - 1) / longestWait := by
    rw [longestWait] at hfull ⊢
    omega
  calc waitPieces (m + n)
    _ = List.replicate ((m - 1) / longestWait + 1) longestWait ++
          (List.replicate ((n - 1) / longestWait) longestWait ++ [lastPiece n]) := by
      rw [waitPieces_eq, hcount, hlast.2, List.replicate_add, List.append_assoc]
    _ = waitPieces m ++ waitPieces n := by
      rw [List.replicate_succ', waitPieces_eq, waitPieces_eq, hlast.1]

theorem Step.pieces_ne_nil (s : Step RegisterOp) : s.pieces ≠ [] := by
  cases s with
  | act a => exact List.cons_ne_nil _ _
  | wait n =>
    intro h
    have hpieces := List.map_eq_nil_iff.mp h
    exact List.cons_ne_nil _ _ (List.append_eq_nil_iff.mp hpieces).2

theorem Step.pieces_wait (n : Nat) : (Step.wait n : Step RegisterOp).pieces =
    List.replicate ((n - 1) / longestWait) (.wait longestWait) ++ [.wait (lastPiece n)] := by
  rw [Step.pieces, waitPieces_eq, List.map_append, List.map_replicate, List.map_singleton]

theorem lastPiece_pos {n : Nat} : 0 < lastPiece n ↔ 0 < n := by
  rw [lastPiece, longestWait]
  omega

theorem dvd_lastPiece {n : Nat} : longestWait ∣ lastPiece n ↔ longestWait ∣ n := by
  rw [lastPiece, longestWait]
  omega

theorem Step.isChain_pieces (s : Step RegisterOp) : s.pieces.IsChain Step.Seamless := by
  cases s with
  | act a => exact .singleton _
  | wait n =>
    rw [Step.pieces_wait]
    have hfull : (Step.wait longestWait : Step RegisterOp).Seamless (.wait longestWait) :=
      ⟨by decide, Nat.dvd_refl _, by decide⟩
    apply (List.isChain_replicate_of_rel _ hfull).append (.singleton _)
    intro x hx y hy
    have hmem := List.mem_of_getLast? hx
    cases hy
    rw [List.mem_replicate] at hmem
    obtain ⟨hcount, rfl⟩ := hmem
    refine ⟨by decide, Nat.dvd_refl _, lastPiece_pos.mpr ?_⟩
    apply Nat.pos_of_ne_zero
    rintro rfl
    exact hcount rfl

/-- Pieces of two steps meet without a seam if the steps do. -/
theorem Step.seamless_pieces (s next : Step RegisterOp) :
    (∀ x ∈ s.pieces.getLast?, ∀ y ∈ next.pieces.head?, x.Seamless y) ↔ s.Seamless next := by
  have hlast : ∀ n, (Step.wait n : Step RegisterOp).pieces.getLast? =
      some (.wait (lastPiece n)) := by
    intro n
    rw [Step.pieces_wait, List.getLast?_concat]
  have hhead : ∀ n, ∃ k, (Step.wait n : Step RegisterOp).pieces.head? = some (.wait k) ∧
      (0 < k ↔ 0 < n) := by
    intro n
    rw [Step.pieces_wait]
    cases hcount : (n - 1) / longestWait with
    | zero => exact ⟨lastPiece n, rfl, lastPiece_pos⟩
    | succ count =>
      refine ⟨longestWait, rfl, ?_⟩
      rw [longestWait] at hcount ⊢
      omega
  cases s with
  | act a =>
    refine ⟨fun _ => trivial, fun _ x hx y _ => ?_⟩
    cases hx
    trivial
  | wait m =>
    cases next with
    | act a =>
      refine ⟨fun _ => trivial, fun _ x _ y hy => ?_⟩
      cases hy
      cases x <;> trivial
    | wait n =>
      obtain ⟨k, hk, hpos⟩ := hhead n
      rw [hlast, hk]
      simp only [Option.mem_some_iff, forall_eq', Step.Seamless, Step.toEvent, Event.Seamless,
        lastPiece_pos, dvd_lastPiece, hpos]

theorem isChain_flatMap_pieces (steps : List (Step RegisterOp)) :
    (steps.flatMap Step.pieces).IsChain Step.Seamless ↔ steps.IsChain Step.Seamless := by
  have hne : [] ∉ steps.map Step.pieces := by
    intro h
    obtain ⟨s, -, hs⟩ := List.mem_map.mp h
    exact s.pieces_ne_nil hs
  rw [List.flatMap_def, List.isChain_flatten hne, List.isChain_map]
  simp only [Step.seamless_pieces, List.forall_mem_map, Step.isChain_pieces, implies_true, true_and]

/-- Joining changes no command exactly if there is no seam. -/
theorem pieces_joinWaits (steps : List (Step RegisterOp)) :
    (Trace.joinWaits steps).flatMap Step.pieces = steps.flatMap Step.pieces ↔
      steps.IsChain Step.Seamless := by
  constructor
  · intro h
    rw [← isChain_flatMap_pieces, ← h, isChain_flatMap_pieces]
    exact (Trace.isChain_joinWaits steps).imp fun _ _ => Trace.Apart.seamless
  · intro h
    induction steps with
    | nil => rfl
    | cons s rest ih =>
      have hrest := ih h.of_cons
      rw [Trace.joinWaits_cons, List.flatMap_cons, ← hrest]
      cases s with
      | act a => rfl
      | wait m =>
        cases rest with
        | nil => rfl
        | cons next rest =>
          cases next with
          | act a => rfl
          | wait n =>
            obtain ⟨hm, hfull, hn⟩ := h.rel
            obtain ⟨k, tail, hk, hjoin⟩ := Trace.joinWaits_wait n rest
            rw [hjoin, Trace.joinWait, List.flatMap_cons, List.flatMap_cons, ← List.append_assoc,
              Step.pieces, Step.pieces, Step.pieces,
              waitPieces_add hm hfull (Nat.lt_of_lt_of_le hn hk), List.map_append]

/-! ## Written again -/

theorem waitPieces_of_le {n : Nat} (h : n ≤ longestWait) : waitPieces n = [n] := by
  have hfull : (n - 1) / longestWait = 0 := by
    rw [longestWait] at h ⊢
    omega
  rw [waitPieces, hfull, List.replicate_zero, List.nil_append, Nat.zero_mul, Nat.sub_zero]

theorem Step.bytes_pieces (s : Step RegisterOp) : s.pieces.flatMap Step.bytes = s.bytes := by
  cases s with
  | act a => exact List.append_nil _
  | wait n =>
    rw [Step.pieces, List.flatMap_map, Step.bytes]
    apply List.flatMap_congr
    intro k hk
    rw [Step.bytes, waitPieces_of_le (waitPieces_le n k hk)]
    exact List.append_nil _

namespace Trace

/-- Steps are written as the same commands exactly if they have the same pieces. -/
theorem body_eq_body {steps other : List (Step RegisterOp)}
    (hlen : (body other).length ≤ 0xFFFFFFFF) :
    body steps = body other ↔ steps.flatMap Step.pieces = other.flatMap Step.pieces := by
  have hpieces : ∀ l : List (Step RegisterOp),
      body l = (l.flatMap Step.pieces).flatMap Step.bytes ++ [0x66] := by
    intro l
    rw [body, List.flatMap_assoc]
    simp only [Step.bytes_pieces]
  constructor
  · intro h
    have hread := stepsFrom_body other 0 hlen
    rw [← h, stepsFrom_body steps 0 (h ▸ hlen)] at hread
    exact Except.ok.inj hread
  · intro h
    rw [hpieces, hpieces, h]

theorem length_bytes_wait (n : Nat) : (Step.wait n : Step RegisterOp).bytes.length =
    ((n - 1) / longestWait + 1) * 3 := by
  have hpieces : ∀ ns : List Nat, (ns.flatMap waitBytes).length = ns.length * 3 := by
    intro ns
    induction ns with
    | nil => rfl
    | cons k ns ih =>
      rw [List.flatMap_cons, List.length_append, ih, waitBytes, List.length_cons, Bytes.length_le,
        List.length_cons, Nat.succ_mul, Nat.add_comm]
  rw [Step.bytes, hpieces, waitPieces, List.length_append, List.length_replicate]
  rfl

theorem length_body_joinWaits (steps : List (Step RegisterOp)) :
    (body (joinWaits steps)).length ≤ (body steps).length := by
  have hjoin : ∀ (s : Step RegisterOp) (rest : List (Step RegisterOp)),
      ((joinWait s rest).flatMap Step.bytes).length ≤
        s.bytes.length + (rest.flatMap Step.bytes).length := by
    intro s rest
    unfold joinWait
    split
    · rename_i m n rest
      rw [List.flatMap_cons, List.flatMap_cons, List.length_append, List.length_append,
        length_bytes_wait, length_bytes_wait, length_bytes_wait, longestWait]
      omega
    · rw [List.flatMap_cons, List.length_append]
  have hsteps : ((joinWaits steps).flatMap Step.bytes).length ≤
      (steps.flatMap Step.bytes).length := by
    induction steps with
    | nil => exact Nat.le_refl _
    | cons s rest ih =>
      calc ((joinWaits (s :: rest)).flatMap Step.bytes).length
        _ ≤ s.bytes.length + ((joinWaits rest).flatMap Step.bytes).length := hjoin s _
        _ ≤ s.bytes.length + (rest.flatMap Step.bytes).length := Nat.add_le_add_left ih _
        _ = ((s :: rest).flatMap Step.bytes).length := by
          rw [List.flatMap_cons, List.length_append]
  rw [body, body, List.length_append, List.length_append]
  exact Nat.add_le_add_right hsteps _

theorem read_totalSamples {bytes : Bytes} {log : RegisterLog} (h : decode bytes = .ok log) :
    HeaderField.totalSamples.read bytes = .ok (waitTotal log) := by
  have htotal := waitTotal_decode h
  obtain ⟨clock, steps, rest, hwell, -⟩ := decode_eq_ok.mp h
  exact HeaderField.read_eq_ok.mpr ⟨Nat.le_trans (by decide) hwell.fields, htotal⟩

end Trace

theorem roundTrip_of_decode {bytes : Bytes} {log : RegisterLog} (h : Trace.decode bytes = .ok log)
    (settings : Settings) : roundTrip bytes .registers settings = Trace.encode log := by
  rw [roundTrip, h]
  rfl

/-! ## One pass settles a trace -/

/-- Every trace that is read can be written again. What is then written is read as the
same log, declares the same samples, and is what it is itself written as. -/
theorem roundTrip_registers {bytes : Bytes} {log : RegisterLog}
    (h : Trace.decode bytes = .ok log) :
    ∃ fresh, Trace.encode log = .ok fresh ∧
      (∀ settings, roundTrip bytes .registers settings = .ok fresh) ∧
      (fresh.length ≤ 0x100000003 →
        Trace.decode fresh = .ok log ∧
        HeaderField.totalSamples.read bytes = .ok (waitTotal log) ∧
        HeaderField.totalSamples.read fresh = .ok (waitTotal log) ∧
        ∀ settings, roundTrip fresh .registers settings = .ok fresh) := by
  obtain ⟨clock, steps, rest, hwell, hlog⟩ := Trace.decode_eq_ok.mp h
  have htotal : totalSamples (Trace.joinWaits steps) ≤ 0xFFFFFFFF := by
    rw [Trace.totalSamples_joinWaits, hwell.total]
    exact Trace.value_le _ rfl bytes
  obtain ⟨fresh, hfresh⟩ := Trace.ofTimeline_isOk_iff.mpr
    (show totalSamples (Timeline.mk clock (Trace.joinWaits steps)).steps ≤ _ from htotal)
  have hencode : Trace.encode log = .ok fresh := Trace.encode_eq_ok.mpr ⟨_, hlog, hfresh⟩
  refine ⟨fresh, hencode, fun settings => (roundTrip_of_decode h settings).trans hencode, ?_⟩
  intro hlen
  have hagain : Trace.decode fresh = .ok log := by
    rw [Trace.decode_ofTimeline hfresh hlen, Trace.joinWaits_joinWaits, hlog]
  exact ⟨hagain, Trace.read_totalSamples h, Trace.read_totalSamples hagain,
    fun settings => (roundTrip_of_decode hagain settings).trans hencode⟩

/-- A trace with every kind of wait, in front of and behind a write, with another data
offset, a tag block, a loop, and bytes behind the end marker. -/
theorem roundTrip_registers_spellings :
    let log : RegisterLog := [.clock .ntsc, .wait 1639, .act (.write 0x15 0x0F), .wait 70000]
    let bytes : Bytes := identTag ++ Bytes.le 4 0xA5 ++ Bytes.le 4 0x161 ++
      List.replicate 8 0 ++ Bytes.le 4 0x92 ++ Bytes.le 4 71639 ++ Bytes.le 4 0x7C ++
      Bytes.le 4 5 ++ List.replicate 16 0 ++ Bytes.le 4 0x5C ++ List.replicate 76 0 ++
      Bytes.le 4 1789773 ++ List.replicate 8 0 ++ [0x62, 0x7F, 0x70, 0x63] ++
      [0x61, 0x05, 0x00] ++ [0xB4, 0x15, 0x0F] ++ [0x61, 0x70, 0x11] ++ [0x61, 0x00, 0x00] ++
      [0x61, 0xFF, 0xFF] ++ [0x61, 0x01, 0x00] ++ [0x66, 0x62, 0xB4]
    Trace.decode bytes = .ok log ∧
      ∃ fresh, Trace.encode log = .ok fresh ∧ fresh ≠ bytes ∧
        roundTrip bytes .registers {} = .ok fresh ∧ Trace.decode fresh = .ok log ∧
        HeaderField.totalSamples.read fresh = .ok 71639 ∧
        roundTrip fresh .registers {} = .ok fresh := by
  intro log bytes
  have hread : Trace.decode bytes = .ok log := toOption_eq_some.mp (by decide +kernel)
  obtain ⟨fresh, hfresh, hfirst, hsettled⟩ := roundTrip_registers hread
  have hlen : fresh.length = 205 := by
    cases hfresh
    decide +kernel
  have hdiffers : fresh ≠ bytes := by
    intro hsame
    have hlong : bytes.length = 169 := by decide +kernel
    rw [hsame, hlong] at hlen
    cases hlen
  obtain ⟨hagain, -, htotal, hsecond⟩ := hsettled (by rw [hlen]; decide)
  exact ⟨hread, fresh, hfresh, hdiffers, hfirst {}, hagain, htotal, hsecond {}⟩

/-! ## The first pass -/

theorem isChain_toEvents (t : Timeline RegisterOp) :
    t.toEvents.IsChain Event.Seamless ↔ t.steps.IsChain Step.Seamless := by
  have hsteps : (t.steps.map Step.toEvent).IsChain Event.Seamless ↔
      t.steps.IsChain Step.Seamless := List.isChain_map _
  rw [Timeline.toEvents, List.isChain_cons, hsteps]
  exact ⟨fun h => h.2, fun h => ⟨fun _ _ => trivial, h⟩⟩

namespace Trace

theorem ofTimeline_eq_ok {t : Timeline RegisterOp} {bytes : Bytes} :
    ofTimeline t = .ok bytes ↔ totalSamples t.steps ≤ 0xFFFFFFFF ∧
      bytes = headerBytes t.clock (totalSamples t.steps) (headerSize + (body t.steps).length) ++
        body t.steps := by
  unfold ofTimeline
  dsimp only
  rw [admit_eq_ok, Except.ok.injEq]
  exact and_congr_right fun _ => eq_comm

/-- The joined steps of what was written are written as a trace that is no longer, and as
the same trace exactly if there is no seam. -/
theorem ofTimeline_joinWaits {t : Timeline RegisterOp} {bytes : Bytes}
    (h : ofTimeline t = .ok bytes) (hlen : bytes.length ≤ 0x100000003) :
    ∃ again, ofTimeline ⟨t.clock, joinWaits t.steps⟩ = .ok again ∧
      again.length ≤ bytes.length ∧ (again = bytes ↔ t.steps.IsChain Step.Seamless) := by
  obtain ⟨htotal, rfl⟩ := ofTimeline_eq_ok.mp h
  have hjoined := totalSamples_joinWaits t.steps
  have hbody := length_body_joinWaits t.steps
  simp only [List.length_append, length_headerBytes] at hlen
  have hcommands : (body t.steps).length ≤ 0xFFFFFFFF := by
    rw [headerSize] at hlen
    omega
  refine ⟨_, ofTimeline_eq_ok.mpr ⟨Nat.le_trans (Nat.le_of_eq hjoined) htotal, rfl⟩, ?_, ?_⟩
  · simp only [List.length_append, length_headerBytes]
    omega
  · rw [← pieces_joinWaits, ← body_eq_body hcommands, hjoined]
    constructor
    · intro hsame
      exact (List.append_inj hsame (by rw [length_headerBytes, length_headerBytes])).2
    · intro hsame
      rw [hsame]

end Trace

/-- A trace that was written can be read and written again, gets no longer by that and
stays as it is from then on. It stays as it is from the start exactly if its log is
seamless. -/
theorem roundTrip_encode {log : RegisterLog} {bytes : Bytes} (h : Trace.encode log = .ok bytes)
    (hlen : bytes.length ≤ 0x100000003) (settings : Settings) :
    ∃ again, roundTrip bytes .registers settings = .ok again ∧
      Trace.encode (mergeWaits log) = .ok again ∧ again.length ≤ bytes.length ∧
      roundTrip again .registers settings = .ok again ∧
      (again = bytes ↔ log.IsChain Event.Seamless) := by
  obtain ⟨t, rfl, ht⟩ := Trace.encode_eq_ok.mp h
  obtain ⟨again, hagain, hshort, hsame⟩ := Trace.ofTimeline_joinWaits ht hlen
  have hencode : Trace.encode (mergeWaits t.toEvents) = .ok again :=
    Trace.encode_eq_ok.mpr ⟨_, Trace.mergeWaits_toEvents t, hagain⟩
  have hfirst : Trace.decode bytes = .ok (mergeWaits t.toEvents) := by
    rw [Trace.decode_ofTimeline ht hlen, Trace.mergeWaits_toEvents]
  have hsecond : Trace.decode again = .ok (mergeWaits t.toEvents) := by
    rw [Trace.decode_ofTimeline hagain (Nat.le_trans hshort hlen), Trace.joinWaits_joinWaits,
      Trace.mergeWaits_toEvents]
  refine ⟨again, ?_, hencode, hshort, ?_, ?_⟩
  · exact (roundTrip_of_decode hfirst settings).trans hencode
  · exact (roundTrip_of_decode hsecond settings).trans hencode
  · rw [hsame, isChain_toEvents]

/-- A log whose touching waits are seamless: the first one takes two full commands. -/
theorem roundTrip_encode_full :
    let log : RegisterLog := [.clock .pal, .wait 131070, .wait 5, .act (.write 0x15 0x0F),
      .wait 0]
    ∃ bytes, Trace.encode log = .ok bytes ∧ roundTrip bytes .registers {} = .ok bytes := by
  intro log
  obtain ⟨bytes, hbytes⟩ : ∃ bytes, Trace.encode log = .ok bytes := ⟨_, rfl⟩
  have hlen : bytes.length ≤ 0x100000003 := by
    cases hbytes
    decide +kernel
  have hseamless : log.IsChain Event.Seamless := by decide
  obtain ⟨again, hagain, -, -, -, hsame⟩ := roundTrip_encode hbytes hlen {}
  rw [hsame.mpr hseamless] at hagain
  exact ⟨bytes, hbytes, hagain⟩

/-- Two waits that touch are written as two commands and come back as one. So do the
waits of a trace that came through the score, which writes one for each frame. -/
theorem roundTrip_encode_seam :
    let trace : List (Step RegisterOp) → Bytes := fun steps =>
      Trace.headerBytes .ntsc 2 (Trace.headerSize + (Trace.body steps).length) ++
        Trace.body steps
    let parted := trace [.wait 1, .wait 1]
    let joined := trace [.wait 2]
    Trace.encode [.clock .ntsc, .wait 1, .wait 1] = .ok parted ∧
      parted.length ≤ 0x100000003 ∧
      roundTrip parted .registers {} = .ok joined ∧ joined ≠ parted ∧
      ∃ played, roundTrip joined .raw {} = .ok played ∧ played.length ≤ 0x100000003 ∧
        roundTrip played .registers {} ≠ .ok played := by
  intro trace parted joined
  have hplayed : (roundTrip joined .raw {}).toOption.any (fun played =>
      played.length ≤ 0x100000003 ∧ (roundTrip played .registers {}).toOption ≠ some played) := by
    decide +kernel
  obtain ⟨played, hsome, hlast⟩ := (Option.any_eq_true _ _).mp hplayed
  obtain ⟨hlen, hdiffers⟩ := of_decide_eq_true hlast
  refine ⟨rfl, by decide +kernel, toOption_eq_some.mp (by decide +kernel), by decide +kernel,
    played, toOption_eq_some.mp hsome, hlen, ?_⟩
  intro hsame
  exact hdiffers (toOption_eq_some.mpr hsame)

end ApuScore

import ApuScore.Proofs.Trails
import ApuScore.Proofs.Pruning
/-
  The compact cycle on registers.

  A log that is taken apart, pruned, regrouped and assembled comes back with other
  physical writes. This file

  1. shows that the atoms that regrouping chooses are never taken up again
     (`grouped_regrouped`), so assembly keeps its shadow in step with the hardware;
  2. follows the values of the kept writes beside those of all writes: they agree on
     every parameter that pruning does not ignore (`values_keptSteps`);
  3. reads agreement of values as agreement of masked bytes (`masked_eq`), and concludes
     that the cycle loses no register state (`registerTrail_compacted`).
-/

namespace ApuScore

/-! ## Atoms -/

/-- The atom that is being filled has the last key of the run, and its atom is larger
than all before it. -/
def Grouping.Ends (g : Grouping) (keys : List WriteKey) : Prop :=
  keys = [] ∧ g.register = none ∨
    ∃ front k, keys = front ++ [k] ∧ g.register = some k.place ∧ k.atom = g.atom ∧
      ∀ q ∈ front, q.atom < g.atom

/-- The next write has the last key of the run, or a new one behind it. -/
theorem Grouping.Ends.add {g : Grouping} {keys : List WriteKey} (h : g.Ends keys) (c : Channel)
    (off : UInt8) (param : Param) :
    (WriteKey.mk c off (g.add (c, off) param).atom).Follows keys ∧
      (g.add (c, off) param).Ends (touchKey keys ⟨c, off, (g.add (c, off) param).atom⟩) := by
  have hfresh : ∀ atom, (∀ k ∈ keys, k.atom < atom) → (⟨c, off, atom⟩ : WriteKey) ∉ keys := by
    intro atom hlt hmem
    exact Nat.lt_irrefl _ (hlt _ hmem)
  unfold Grouping.add
  split
  · -- a new atom, above all before it
    rename_i hbreaks
    have hlt : ∀ k ∈ keys, k.atom < g.atom + 1 := by
      intro k hk
      rcases h with ⟨rfl, -⟩ | ⟨front, last, rfl, -, hatom, hfront⟩
      · cases hk
      · rcases List.mem_append.mp hk with hk | hk
        · exact Nat.lt_succ_of_lt (hfront k hk)
        · rw [List.mem_singleton.mp hk, hatom]
          exact Nat.lt_succ_self _
    have hnot := hfresh _ hlt
    refine ⟨WriteKey.follows_of_notMem hnot, .inr ⟨keys, ⟨c, off, g.atom + 1⟩, ?_, rfl, rfl, hlt⟩⟩
    rw [touchKey, if_neg hnot]
  · rename_i hjoins
    rcases h with ⟨rfl, hnone⟩ | ⟨front, last, rfl, hregister, hatom, hfront⟩
    · refine ⟨WriteKey.follows_of_notMem List.not_mem_nil, .inr ⟨[], _, rfl, rfl, rfl, ?_⟩⟩
      intro q hq
      cases hq
    · -- the register has not moved, so the key is the last one
      have hplace : last.place = (c, off) := by
        simp only [breaks, hregister, Option.any_some, Bool.or_eq_true, not_or] at hjoins
        simpa using hjoins.1
      have hlast : (⟨c, off, g.atom⟩ : WriteKey) = last := by
        obtain ⟨rfl, rfl⟩ := Prod.mk.inj hplace
        rw [← hatom]
      have hnot : last ∉ front := by
        intro hmem
        exact Nat.lt_irrefl _ (hatom ▸ hfront last hmem)
      dsimp only
      rw [hlast]
      refine ⟨WriteKey.follows_last hnot, .inr ⟨front, last, ?_, by rw [hplace], hatom, hfront⟩⟩
      simp [touchKey]

theorem grouped_regrouped {steps : List (Step ParamWrite)} {g : Grouping} {keys : List WriteKey}
    (h : g.Ends keys) : Grouped keys (regrouped g steps) := by
  induction steps generalizing g keys with
  | nil => trivial
  | cons step rest ih =>
    cases step with
    | wait n => exact ih (.inl ⟨rfl, rfl⟩)
    | act w =>
      obtain ⟨hfollows, hends⟩ := h.add w.channel ((w.channel.offset? w.param).getD 0) w.param
      exact ⟨hfollows, ih hends⟩

/-! ## Values -/

/-- The values of the parameters that pruning does not ignore. -/
def heardValues (m : Channel → Param → UInt8) : Channel → Param → UInt8 :=
  fun c p => if ignored c p then 0 else m c p

/-- Left-out writes set nothing that was not so before. -/
theorem values_keptSteps {steps : List (Step ParamWrite)} {s : Values}
    {m k : Channel → Param → UInt8} (hkept : ∀ c p, ignored c p = false → k c p = m c p)
    (hvalues : ∀ c p, ignored c p = false → acting c p = false → s.get c p = m c p) :
    (trail Change.onto k ((keptSteps s steps).map (Step.mapAct ParamWrite.change))).map
        heardValues =
      (trail Change.onto m (steps.map (Step.mapAct ParamWrite.change))).map heardValues := by
  have hheard : ∀ {k m : Channel → Param → UInt8},
      (∀ c p, ignored c p = false → k c p = m c p) → heardValues k = heardValues m := by
    intro k m h
    funext c p
    unfold heardValues
    split
    · rfl
    · rename_i hnot
      exact h c p (by simpa using hnot)
  induction steps generalizing s m k with
  | nil => simp [keptSteps, trail, Trail.map, hheard hkept]
  | cons step rest ih =>
    cases step with
    | wait n =>
      have htail := ih hkept hvalues
      simp only [Trail.map, Trail.mk.injEq] at htail
      simp [keptSteps, trail, Step.mapAct, Trail.map, htail, hheard hkept]
    | act w =>
      have hbehind : ∀ c p, ignored c p = false → acting c p = false →
          (s.behind w).get c p = (w.change.onto m) c p := by
        intro c p hignored hacting
        rw [Values.behind, Values.get_set, hvalues c p hignored hacting]
        simp [Change.onto, ParamWrite.change, eq_comm]
      rw [keptSteps]
      cases hw : kept s w with
      | true =>
        have hboth : ∀ c p, ignored c p = false →
            (w.change.onto k) c p = (w.change.onto m) c p := by
          intro c p hignored
          simp [Change.onto, hkept c p hignored]
        simpa [Step.mapAct, trail] using ih hboth hbehind
      | false =>
        -- the write repeats a value, or nobody listens to it
        have hsame : ∀ c p, ignored c p = false → k c p = (w.change.onto m) c p := by
          intro c p hignored
          rw [Change.onto]
          split
          · rename_i hsets
            obtain ⟨rfl, rfl⟩ : w.channel = c ∧ w.param = p := hsets
            rcases not_kept hw with ⟨hvalue, hacting⟩ | hnever
            · rw [hkept _ _ hignored, ← hvalues _ _ hignored hacting]
              exact hvalue
            · rw [hnever] at hignored
              cases hignored
          · exact hkept c p hignored
        simpa [Step.mapAct, trail] using ih hsame hbehind

/-! ## Bytes -/

/-- The bits of a register's named fields, without the enable of the sample channel and
the IRQ inhibit. -/
def heardBits (register : UInt8) : UInt8 :=
  fieldBits (registerFields register) &&&
    ~~~(if register = 0x15 then 0x10 else if register = 0x17 then 0x40 else 0)

/-- The byte of every register, with the bits that are heard. -/
def Registers.masked (r : Registers) (register : UInt8) : UInt8 :=
  (r.read? register).getD 0 &&& heardBits register

theorem exists_field_of_heardBits {register : UInt8} {i : Nat} (hi : i < 8)
    (h : bit (heardBits register) i = true) :
    ∃ c off, Channel.ofRegister? register = some (c, off) ∧
      ∃ f ∈ registerFields register, f.covers i = true ∧ ignored c f.param = false := by
  have htable : ∀ register, ∀ i < 8, bit (heardBits register) i = true →
      ∃ place ∈ Channel.ofRegister? register, ∃ f ∈ registerFields register,
        f.covers i = true ∧ ignored place.1 f.param = false :=
    forall_byte (by decide +kernel)
  obtain ⟨⟨c, off⟩, hplace, f, hf, hcovers, hignored⟩ := htable register i hi h
  exact ⟨c, off, hplace, f, hf, hcovers, hignored⟩

theorem masked_eq {r r' : Registers} (h : heardValues r.value = heardValues r'.value) :
    r.masked = r'.masked := by
  funext register
  apply ext_bit
  intro i hi
  rw [Registers.masked, Registers.masked, bit_and, bit_and]
  cases hbit : bit (heardBits register) i with
  | false => rw [Bool.and_false, Bool.and_false]
  | true =>
    obtain ⟨c, off, hplace, f, hf, hcovers, hignored⟩ := exists_field_of_heardBits hi hbit
    obtain ⟨hlow, hhigh⟩ := of_decide_eq_true hcovers
    obtain ⟨hbase, -, -⟩ := Channel.ofRegister?_spec hplace
    have hfind := Channel.find?_eq_some (fieldsAt?_of_ofRegister? hplace) hf
    -- the bit is one of the field's value
    have hread : ∀ r : Registers,
        bit (heardValues r.value c f.param) (i - f.low) = bit ((r.read? register).getD 0) i := by
      intro r
      have hvalue : heardValues r.value c f.param = f.extract ((r.read? register).getD 0) := by
        simp [heardValues, hignored, Registers.value, hfind, Registers.byteAt, hbase]
      rw [hvalue, BitField.bit_extract (registerFields_fit register f hf),
        Nat.add_sub_cancel' hlow]
      simp
      omega
    rw [← hread r, ← hread r', h]

theorem Trail.map_congr {σ τ υ : Type} {view : σ → τ} {again : σ → υ}
    (h : ∀ s s', view s = view s' → again s = again s') {t t' : Trail σ}
    (heq : t.map view = t'.map view) : t.map again = t'.map again := by
  obtain ⟨waits, last⟩ := t
  obtain ⟨waits', last'⟩ := t'
  simp only [Trail.map, Trail.mk.injEq] at heq ⊢
  obtain ⟨hwaits, hlast⟩ := heq
  refine ⟨?_, h _ _ hlast⟩
  induction waits generalizing waits' with
  | nil => simp_all
  | cons w waits ih =>
    cases waits' with
    | nil => cases hwaits
    | cons w' waits' =>
      obtain ⟨hfirst, hrest⟩ := List.cons_eq_cons.mp hwaits
      obtain ⟨hn, hview⟩ := Prod.mk.inj hfirst
      rw [List.map_cons, List.map_cons, ih waits' hrest, hn, h _ _ hview]

/-! ## The compact cycle -/

/-- What the compact cycle makes of a log that is taken apart: the changes, the parameter
writes with new atoms, and the register writes, whose values are those of the kept
writes and whose fields are those of the physical writes. -/
theorem compacted {t : Timeline RegisterOp} {steps : List (Step ParamWrite)}
    (h : disassembleFrom {} [] t.steps = .ok steps) :
    ∃ changes raw, prune (Timeline.toEvents ⟨t.clock, steps⟩) = .ok changes ∧
      regroup changes = .ok (Timeline.toEvents
        ⟨t.clock, regrouped {} (keptSteps Values.initial steps)⟩) ∧
      assemble (Timeline.toEvents ⟨t.clock, regrouped {} (keptSteps Values.initial steps)⟩) =
        .ok (Timeline.toEvents ⟨t.clock, raw⟩) ∧
      (∀ step ∈ raw, step.Known) ∧
      (registerTrail raw).map Registers.value =
        trail Change.onto Registers.zero.value
          ((keptSteps Values.initial steps).map (Step.mapAct ParamWrite.change)) ∧
      raw.flatMap changesOf =
        (physical Registers.zero [] (regrouped {} (keptSteps Values.initial steps))).map
          (Step.mapAct ParamWrite.change) := by
  have htaken : ∀ w ∈ writesIn (keptSteps Values.initial steps), w.taken = true :=
    fun w hw => taken_disassembled h w (writesIn_keptSteps _ _ w hw)
  have hplaced := placed_regrouped {} htaken
  obtain ⟨raw, hraw, htrail⟩ := assembleFrom_trail hplaced owned_nil
    (grouped_regrouped (.inl ⟨rfl, rfl⟩)) (show Registers.zero.store [] = Registers.zero from rfl)
  obtain ⟨r, raw', hraw', hknown, hphysical⟩ :=
    assembleFrom_physical hplaced Registers.zero owned_nil
  obtain ⟨rfl, rfl⟩ : _ ∧ raw' = raw := by
    rw [hraw] at hraw'
    obtain ⟨hr, hout⟩ := Prod.mk.inj hraw'
    exact ⟨hr, (Except.ok.inj hout).symm⟩
  refine ⟨_, raw', prune_toEvents ⟨t.clock, steps⟩, regroup_toEvents t.clock htaken, ?_, hknown,
    ?_, hphysical⟩
  · simp only [assemble, assembleOver, Timeline.ofEvents_toEvents, hraw]
    rfl
  · rw [registerTrail, htrail, values_putTrail hplaced, map_change_regrouped]

/-- What pruning compares with at the start is what a cleared file holds, where it
matters. -/
theorem get_initial_eq {c : Channel} {p : Param} (hignored : ignored c p = false)
    (hacting : acting c p = false) : Values.initial.get c p = Registers.zero.value c p := by
  have htable : ∀ p ∈ Param.all, ignored c p = false → acting c p = false →
      Values.initial.get c p = Registers.zero.value c p := by
    cases c <;> decide +kernel
  exact htable p p.mem_all hignored hacting

/-- The compact cycle of a log that is taken apart succeeds. The log that comes back has
the same clock and the same waits in the same order, and at every wait and at the end its
register writes leave the same byte in every register, in all bits of its named fields
but the enable of the sample channel and the IRQ inhibit. -/
theorem registerTrail_compacted {log : RegisterLog} {params : ParamLog}
    (h : disassemble log = .ok params) :
    ∃ changes again raw, prune params = .ok changes ∧ regroup changes = .ok again ∧
      assemble again = .ok raw ∧
      ∃ t t' : Timeline RegisterOp, log = t.toEvents ∧ raw = t'.toEvents ∧ t'.clock = t.clock ∧
        (registerTrail t'.steps).map Registers.masked =
          (registerTrail t.steps).map Registers.masked := by
  obtain ⟨t, steps, rfl, hsteps, rfl⟩ := disassemble_eq_ok.mp h
  obtain ⟨changes, raw, hchanges, hagain, hraw, -, htrail, -⟩ := compacted hsteps
  refine ⟨changes, _, _, hchanges, hagain, hraw, t, ⟨t.clock, raw⟩, rfl, rfl, rfl, ?_⟩
  have hheard : (registerTrail raw).map (heardValues ∘ Registers.value) =
      (registerTrail t.steps).map (heardValues ∘ Registers.value) := by
    have hknown := disassembleFrom_isOk_iff.mp ⟨steps, hsteps⟩
    have hall : (registerTrail t.steps).map Registers.value =
        trail Change.onto Registers.zero.value (steps.map (Step.mapAct ParamWrite.change)) := by
      rw [registerTrail, values_registerTrail hknown, map_change_disassembleFrom hsteps]
    rw [← Trail.map_map, ← Trail.map_map, htrail, hall]
    exact values_keptSteps (fun _ _ _ => rfl) fun c p => get_initial_eq
  exact Trail.map_congr (fun r r' => masked_eq) hheard

/-- A log that repeats bytes, writes one register twice in a run, sets bits that nobody
hears and writes the sweep: two writes fewer come back, and they leave the same heard
bits. -/
theorem registerTrail_compacted_repeated :
    let steps : List (Step RegisterOp) := [.act (.write 0x15 0x1F), .act (.write 0x00 0x7F),
      .act (.write 0x01 0x88), .act (.write 0x17 0x40), .wait 3, .act (.write 0x00 0x7F),
      .act (.write 0x08 0x81), .act (.write 0x00 0x5F), .act (.write 0x00 0x50), .wait 0,
      .act (.write 0x10 0x0F), .act (.write 0x17 0xC0)]
    let again : List (Step RegisterOp) := [.act (.write 0x15 0x0F), .act (.write 0x00 0x7F),
      .act (.write 0x01 0x88), .act (.write 0x17 0x00), .wait 3, .act (.write 0x08 0x81),
      .act (.write 0x00 0x50), .wait 0, .act (.write 0x10 0x0F), .act (.write 0x17 0x80)]
    (disassemble (Timeline.toEvents ⟨.pal, steps⟩) >>= prune >>= regroup >>= assemble) =
        .ok (Timeline.toEvents ⟨.pal, again⟩) ∧
      (registerTrail again).map Registers.masked = (registerTrail steps).map Registers.masked := by
  intro steps again
  have hcycle : (disassemble (Timeline.toEvents ⟨.pal, steps⟩) >>= prune >>= regroup >>=
      assemble) = .ok (Timeline.toEvents ⟨.pal, again⟩) := rfl
  obtain ⟨params, hparams⟩ : ∃ params,
    disassemble (Timeline.toEvents ⟨.pal, steps⟩) = .ok params := ⟨_, rfl⟩
  obtain ⟨changes, regroups, raw, hchanges, hagain, hraw, t, t', ht, rfl, -, htrail⟩ :=
    registerTrail_compacted hparams
  rw [hparams] at hcycle
  simp only [bind, Except.bind, hchanges, hagain, hraw] at hcycle
  refine ⟨by simp only [hparams, bind, Except.bind, hchanges, hagain, hraw, hcycle], ?_⟩
  have hsteps : steps = t.steps := congrArg Timeline.steps (Timeline.toEvents_inj.mp ht)
  have hagain : t'.steps = again :=
    congrArg Timeline.steps (Timeline.toEvents_inj.mp (Except.ok.inj hcycle))
  rw [hsteps, ← hagain]
  exact htrail

end ApuScore

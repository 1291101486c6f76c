import Mathlib.Data.List.Dedup
import ApuScore.Proofs.Atoms
/-
  Assembly keeps the hardware in step with the shadow.

  A log that is assembled over a file has only writes that the layout knows
  (`placed_assembled`). If its runs are tidy, the register writes that come out leave, at
  every wait and at the end, the file with all parameter writes so far merged into it, and
  that is the file handed back. Every register is written once in each run for each atom
  that the run uses on it (`OncePerAtom`), since the physical writes of a run have the keys
  of its writes, each once (`once_closeRun`).
-/

namespace ApuScore

/-! ## What is assembled -/

theorem placed_of_assemble {r : Registers} {w : ParamWrite} {out : Registers × PendingWrite}
    (h : w.assemble r = .ok out) : w.Placed ∧ w.taken = true := by
  unfold ParamWrite.assemble at h
  cases hfind : w.channel.find? w.param with
  | none => simp only [hfind, reduceCtorEq] at h
  | some place =>
    obtain ⟨offset, field⟩ := place
    simp only [hfind] at h
    split at h
    · cases h
    · rename_i hoffset
      split at h
      · rename_i hrange
        constructor
        · rw [ParamWrite.Placed, Channel.offset?, hfind, Option.map_some,
            Decidable.not_not.mp hoffset]
        · rw [ParamWrite.taken, Channel.takes, hfind]
          exact decide_eq_true hrange
      · cases h

theorem placed_assembled {steps : List (Step ParamWrite)} {r r' : Registers}
    {run : List PendingWrite} {found : List (List (Step RegisterOp))}
    {out : List (Step RegisterOp)} (h : assembleFrom r run found steps = (r', .ok out)) :
    ∀ w ∈ writesIn steps, w.Placed ∧ w.taken = true := by
  induction steps generalizing r run found with
  | nil => exact fun w hw => nomatch hw
  | cons step rest ih =>
    cases step with
    | wait n => exact ih h
    | act w =>
      rw [assembleFrom] at h
      cases hw : w.assemble r with
      | error e =>
        rw [hw] at h
        cases h
      | ok next =>
        rw [hw] at h
        exact List.forall_mem_cons.mpr ⟨placed_of_assemble hw, ih h⟩

theorem assembleOver_eq_ok {r r' : Registers} {log : ParamLog} {raw : RegisterLog} :
    assembleOver r log = (r', .ok raw) ↔
      ∃ (t : Timeline ParamWrite) (steps : List (Step RegisterOp)), log = t.toEvents ∧
        assembleFrom r [] [] t.steps = (r', .ok steps) ∧
        raw = Timeline.toEvents ⟨t.clock, steps⟩ := by
  constructor
  · intro h
    cases ht : Timeline.ofEvents log with
    | error e =>
      simp only [assembleOver, ht, Prod.mk.injEq, reduceCtorEq, and_false] at h
    | ok t =>
      simp only [assembleOver, ht, Prod.mk.injEq] at h
      obtain ⟨rfl, h⟩ := h
      cases hsteps : (assembleFrom r [] [] t.steps).2 with
      | error e =>
        rw [hsteps] at h
        cases h
      | ok steps =>
        rw [hsteps] at h
        cases h
        exact ⟨t, steps, Timeline.eq_toEvents ht, Prod.ext rfl hsteps, rfl⟩
  · intro h
    obtain ⟨t, steps, rfl, hsteps, rfl⟩ := h
    simp only [assembleOver, Timeline.ofEvents_toEvents, hsteps]
    rfl

/-! ## Physical writes -/

def WriteKey.register (k : WriteKey) : UInt8 := k.channel.base + k.offset

def RegisterOp.hits (register : UInt8) : RegisterOp → Bool
  | .write other _ => other == register
  | .data _ _ => false

/-- The operations write each register once for each atom that the writes use on it. -/
def OncePerAtom (writes : List ParamWrite) (ops : List RegisterOp) : Prop :=
  ∀ register, ops.countP (RegisterOp.hits register) =
    ((writes.filter (·.key.register == register)).map ParamWrite.atom).dedup.length

theorem WriteKey.Owned.place_eq {k l : WriteKey} (hk : k.Owned) (hl : l.Owned)
    (h : k.register = l.register) : k.place = l.place := by
  rw [Owned] at hk hl
  rw [register, register] at h
  rw [h, hl] at hk
  exact (Option.some.inj hk).symm

theorem countP_keysOf {writes : List ParamWrite} (h : ∀ w ∈ writes, w.key.Owned)
    (register : UInt8) : (keysOf writes).countP (·.register == register) =
      ((writes.filter (·.key.register == register)).map ParamWrite.atom).dedup.length := by
  have hkey : ∀ k, k ∈ (keysOf writes).filter (·.register == register) ↔
      ∃ w ∈ writes, w.key.register = register ∧ w.key = k := by
    intro k
    rw [List.mem_filter, mem_keysOf, beq_iff_eq]
    constructor
    · rintro ⟨⟨w, hw, rfl⟩, hregister⟩
      exact ⟨w, hw, hregister, rfl⟩
    · rintro ⟨w, hw, hregister, rfl⟩
      exact ⟨⟨w, hw, rfl⟩, hregister⟩
  have hnodup : (((keysOf writes).filter (·.register == register)).map WriteKey.atom).Nodup := by
    apply List.Nodup.map_on _ ((nodup_keysOf writes).filter _)
    intro k hk l hl hatom
    obtain ⟨u, hu, huregister, rfl⟩ := (hkey k).mp hk
    obtain ⟨w, hw, hwregister, rfl⟩ := (hkey l).mp hl
    exact key_eq_of_atom ((h u hu).place_eq (h w hw) (huregister.trans hwregister.symm)) hatom
  have hmem : ∀ atom,
      atom ∈ ((keysOf writes).filter (·.register == register)).map WriteKey.atom ↔
        atom ∈ ((writes.filter (·.key.register == register)).map ParamWrite.atom).dedup := by
    intro atom
    simp only [List.mem_dedup, List.mem_map, List.mem_filter, beq_iff_eq, hkey]
    constructor
    · rintro ⟨_, ⟨w, hw, hregister, rfl⟩, rfl⟩
      exact ⟨w, ⟨hw, hregister⟩, rfl⟩
    · rintro ⟨w, ⟨hw, hregister⟩, rfl⟩
      exact ⟨w.key, ⟨w, hw, hregister, rfl⟩, rfl⟩
  calc (keysOf writes).countP (·.register == register)
    _ = (((keysOf writes).filter (·.register == register)).map WriteKey.atom).length := by
      rw [List.countP_eq_length_filter, List.length_map]
    _ = _ := ((List.perm_ext_iff_of_nodup hnodup (List.nodup_dedup _)).mpr hmem).length_eq

/-- The open run holds the physical writes of `writes`. -/
structure Gathered (writes : List ParamWrite) (run : List PendingWrite) : Prop where
  known : ∀ w ∈ writes, w.key.Owned
  owned : ∀ p ∈ run, p.Owned
  keys : run.map PendingWrite.key = keysOf writes

namespace Gathered

variable {writes : List ParamWrite} {run : List PendingWrite}

theorem nil : Gathered [] [] := ⟨fun _ hw => (nomatch hw), owned_nil, rfl⟩

theorem merge (h : Gathered writes run) {w : ParamWrite} (hw : w.key.Owned) {p : PendingWrite}
    (hp : p.Owned) (hkey : p.key = w.key) :
    Gathered (writes ++ [w]) (ApuScore.merge p run) where
  known := List.forall_mem_append.mpr ⟨h.known, List.forall_mem_singleton.mpr hw⟩
  owned := owned_merge h.owned hp
  keys := by rw [map_key_merge, h.keys, hkey, keysOf_concat]

theorem once (h : Gathered writes run) :
    OncePerAtom writes (run.map fun p => .write p.register p.byte) := by
  intro register
  have hregister : ∀ p ∈ run, p.register = p.key.register := by
    intro p hp
    obtain ⟨hbase, -, -⟩ := Channel.ofRegister?_spec (h.owned p hp)
    exact hbase.symm
  rw [← countP_keysOf h.known, ← h.keys, List.countP_map, List.countP_map]
  apply List.countP_congr
  intro p hp
  rw [Function.comp_apply, Function.comp_apply, RegisterOp.hits, hregister p hp]

end Gathered

theorem runsFrom_closeRun (run : List PendingWrite) (rest : List (Step RegisterOp)) :
    runsFrom [] (closeRun run ++ rest) =
      runsFrom (run.map fun p => .write p.register p.byte) rest := by
  have hclose : closeRun run =
      (run.map fun p => RegisterOp.write p.register p.byte).map .act := by
    rw [closeRun, List.map_map]
    rfl
  rw [hclose, runsFrom_acts, List.nil_append]

/-- In every run each register is written once for each atom; `front` are the writes of the
open run so far. -/
theorem once_assembled {steps : List (Step ParamWrite)}
    (h : ∀ w ∈ writesIn steps, w.Placed ∧ w.taken = true) {front : List ParamWrite}
    {run : List PendingWrite} (hrun : Gathered front run) {r r' : Registers}
    {raw : List (Step RegisterOp)} (hraw : assembleFrom r run [] steps = (r', .ok raw)) :
    List.Forall₂ OncePerAtom (runsFrom front steps) (runsFrom [] raw) := by
  induction steps generalizing front run r raw with
  | nil =>
    cases hraw
    rw [List.reverse_singleton, List.flatten_singleton, ← List.append_nil (closeRun run),
      runsFrom_closeRun]
    exact .cons hrun.once .nil
  | cons step rest ih =>
    cases step with
    | wait n =>
      obtain ⟨tail, htail, rfl⟩ := assembleFrom_wait_eq_ok.mp hraw
      rw [runsFrom_closeRun]
      exact .cons hrun.once (ih h Gathered.nil htail)
    | act w =>
      obtain ⟨⟨hplaced, htaken⟩, hrest⟩ := List.forall_mem_cons.mp
        (show ∀ x ∈ w :: writesIn rest, x.Placed ∧ x.taken = true from h)
      have hkey : w.key.Owned := owned_key hplaced htaken
      have hentry : ((r.put w).entry w.key).Owned := hkey
      rw [assembleFrom_act rest (assemble_eq hplaced htaken)] at hraw
      exact ih hrest (hrun.merge hkey hentry rfl) hraw

/-! ## In step -/

/-- A log whose runs are tidy, assembled over a file `r`: the register writes that come
out leave, over a copy of `r`, at every wait and at the end what the parameter writes so
far leave when they are merged into `r`, and at the end the file that is handed back; and
each run writes each register once for each atom that it uses there. Logs that were taken
apart, regrouped or scribed are tidy. -/
theorem trail_assembleOver :
    (∀ (r r' : Registers) (log : ParamLog) (raw : RegisterLog),
      assembleOver r log = (r', .ok raw) → TidyLog log →
      (∃ (t : Timeline ParamWrite) (t' : Timeline RegisterOp), log = t.toEvents ∧
        raw = t'.toEvents ∧ t'.clock = t.clock ∧
        trail Registers.after r t'.steps = trail Registers.put r t.steps ∧
        r' = (trail Registers.after r t'.steps).last) ∧
      List.Forall₂ OncePerAtom (runsOf log) (runsOf raw)) ∧
    (∀ (log : RegisterLog) (params : ParamLog), disassemble log = .ok params →
      TidyLog params) ∧
    (∀ (log : ChangeLog) (params : ParamLog), regroup log = .ok params → TidyLog params) ∧
    ∀ s : RawScore, TidyLog s.scribe := by
  refine ⟨?_, fun log params => tidy_disassemble, fun log params => tidy_regroup, tidy_scribe⟩
  intro r r' log raw h htidy
  obtain ⟨t, steps, rfl, hsteps, rfl⟩ := assembleOver_eq_ok.mp h
  have hplaced := placed_assembled hsteps
  have honce := once_assembled hplaced Gathered.nil hsteps
  have hgrouped : Grouped [] t.steps := by
    rw [TidyLog, runsOf_toEvents] at htidy
    exact grouped_of_tidy htidy
  obtain ⟨raw, hraw, htrail⟩ :=
    assembleFrom_trail hplaced owned_nil hgrouped (show r.store [] = r from rfl)
  rw [hsteps] at hraw
  obtain ⟨hlast, hout⟩ := Prod.mk.inj hraw
  cases hout
  refine ⟨⟨t, ⟨t.clock, steps⟩, rfl, rfl, rfl, htrail, ?_⟩, ?_⟩
  · rw [htrail, hlast]
  · rw [runsOf_toEvents, runsOf_toEvents]
    exact honce

/-- Over a file that is not clear, a run that writes a register under two atoms, the lower
one last: two of its physical writes go to that register. -/
theorem trail_assembleOver_twice :
    let r := Registers.ofBytes [0xFF, 0x08, 0x12]
    let steps : List (Step ParamWrite) := [.act (.place .pulse1 .duty 1 3),
      .act (.place .pulse1 .timerLow 0x34 3), .act (.place .pulse1 .volume 5 3),
      .act (.place .pulse1 .duty 2 0), .act (.place .pulse1 .sweepShift 4 0), .wait 2, .wait 0,
      .act (.place .pulse1 .volume 9 3), .wait 1]
    let out : List (Step RegisterOp) := [.act (.write 0 0x75), .act (.write 2 0x34),
      .act (.write 0 0xB5), .act (.write 1 0x0C), .wait 2, .wait 0, .act (.write 0 0xB9), .wait 1]
    let last := Registers.ofBytes [0xB9, 0x0C, 0x34]
    let log : ParamLog := Timeline.toEvents ⟨.pal, steps⟩
    let raw : RegisterLog := Timeline.toEvents ⟨.pal, out⟩
    assembleOver r log = (last, .ok raw) ∧
      trail Registers.after r out = trail Registers.put r steps ∧
      (trail Registers.after r out).last = last ∧
      List.Forall₂ OncePerAtom (runsOf log) (runsOf raw) := by
  intro r steps out last log raw
  have hassembled : assembleOver r log = (last, .ok raw) :=
    Prod.ext (by decide +kernel) (toOption_eq_some.mp (by decide +kernel))
  have htidy : TidyLog log := by
    have hfirst : Tidy ([.place .pulse1 .duty 1 3, .place .pulse1 .timerLow 0x34 3,
        .place .pulse1 .volume 5 3] ++
          [.place .pulse1 .duty 2 0, .place .pulse1 .sweepShift 4 0]) :=
      tidy_append (by decide) (by decide)
    have hlater : ∀ run ∈ [[], [ParamWrite.place .pulse1 .volume 9 3], []], Tidy run := by
      intro run hrun
      apply tidy_of_pairwise
      revert run
      decide
    exact List.forall_mem_cons.mpr ⟨hfirst, hlater⟩
  obtain ⟨⟨t, t', ht, ht', -, htrail, hlast⟩, honce⟩ :=
    trail_assembleOver.1 r last log raw hassembled htidy
  obtain rfl := Timeline.toEvents_inj.mp ht
  obtain rfl := Timeline.toEvents_inj.mp ht'
  exact ⟨hassembled, htrail, hlast.symm, honce⟩

end ApuScore

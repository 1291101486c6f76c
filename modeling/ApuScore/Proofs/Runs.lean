import ApuScore.Proofs.Shadow
import ApuScore.Proofs.Schedule
import ApuScore.Proofs.Reassembly
/-
  Replaying a log that was assembled and taken apart again.

  Such a log plays the physical writes of every run, each as the writes of all fields
  of its register (`physical`, `replay_disassemble_assemble`). A replay does not look
  at atoms and offsets (`batches_bare`). A run whose writes share an atom is a list of
  keys in the order of their first writes, each with the byte that the file holds at
  the end (`gather_lay`).
-/

namespace ApuScore

/-! ## Writes without atoms and offsets -/

def Change.bare (c : Change) : ParamWrite := ⟨c.channel, c.param, c.value, 0, 0⟩

/-- The write without its atom and its offset. -/
def ParamWrite.bare (w : ParamWrite) : ParamWrite := w.change.bare

theorem Apu.setAll_bare (writes : List ParamWrite) (a : Apu) :
    a.setAll (writes.map ParamWrite.bare) = a.setAll writes := by
  rw [setAll, List.foldl_map]
  rfl

theorem batches_bare (pending : List ParamWrite) (steps : List (Step ParamWrite)) :
    batches (pending.map ParamWrite.bare) (steps.map (Step.mapAct ParamWrite.bare)) =
      (batches pending steps).map (List.map ParamWrite.bare) := by
  induction pending, steps using batches.induct with
  | case1 pending => rfl
  | case2 pending w rest ih =>
    rw [List.map_append] at ih
    exact ih
  | case3 pending rest ih => exact ih
  | case4 pending n rest ih =>
    rw [List.map_cons, Step.mapAct, batches, batches, List.map_cons, List.map_append,
      List.map_replicate]
    rw [List.map_nil] at ih ⊢
    rw [ih]

theorem played_bare (a : Apu) (writes : List (List ParamWrite)) :
    played a (writes.map (List.map ParamWrite.bare)) = played a writes := by
  induction writes generalizing a with
  | nil => rfl
  | cons first rest ih => rw [List.map_cons, played_cons, played_cons, Apu.setAll_bare, ih]

theorem played_steps_bare (steps : List (Step ParamWrite)) (a : Apu) :
    played a (batches [] (steps.map (Step.mapAct ParamWrite.bare))) =
      played a (batches [] steps) := by
  have hbatches := batches_bare [] steps
  rw [List.map_nil] at hbatches
  rw [hbatches, played_bare]

theorem map_bare (steps : List (Step ParamWrite)) :
    steps.map (Step.mapAct ParamWrite.bare) =
      (steps.map (Step.mapAct ParamWrite.change)).map (Step.mapAct Change.bare) := by
  rw [List.map_map]
  apply List.map_congr_left
  intro s _
  cases s <;> rfl

theorem played_congr {steps other : List (Step ParamWrite)}
    (h : steps.map (Step.mapAct ParamWrite.change) = other.map (Step.mapAct ParamWrite.change))
    (a : Apu) : played a (batches [] steps) = played a (batches [] other) := by
  rw [← played_steps_bare steps, ← played_steps_bare other, map_bare, map_bare, h]

theorem totalSamples_mapAct {α β : Type} (f : α → β) (steps : List (Step α)) :
    totalSamples (steps.map (Step.mapAct f)) = totalSamples steps := by
  induction steps with
  | nil => rfl
  | cons s rest ih =>
    rw [List.map_cons, totalSamples_cons, totalSamples_cons, ih]
    cases s <;> rfl

/-- Every write of a log that was taken apart is placed where the layout has it, and it is
accepted: a field reads no value that does not fit it. -/
theorem placed_disassembled {s : AtomState} {steps : List (Step RegisterOp)}
    {out : List (Step ParamWrite)} (h : disassembleFrom s [] steps = .ok out) :
    ∀ w ∈ writesIn out, w.Placed ∧ w.taken = true := by
  induction steps generalizing s out with
  | nil =>
    cases h
    intro w hw
    cases hw
  | cons step rest ih =>
    obtain ⟨s', front, tail, hstep, htail, rfl⟩ := disassembleFrom_cons.mp h
    rw [writesIn_append, List.forall_mem_append]
    refine ⟨?_, ih htail⟩
    cases step with
    | wait n =>
      cases hstep
      intro w hw
      cases hw
    | act op =>
      cases op with
      | data kind payload =>
        cases hstep
        intro w hw
        cases hw
      | write register value =>
        cases hplace : Channel.ofRegister? register with
        | none => simp only [disassembleStep, hplace, reduceCtorEq] at hstep
        | some place =>
          obtain ⟨c, off⟩ := place
          simp only [disassembleStep, hplace, Except.ok.injEq, Prod.mk.injEq] at hstep
          obtain ⟨rfl, rfl⟩ := hstep
          rw [writesIn_acts]
          intro w hw
          rw [splitByte, fieldsAt?_of_ofRegister? hplace, Option.getD_some] at hw
          obtain ⟨f, hf, rfl⟩ := List.mem_map.mp hw
          have hfind := Channel.find?_eq_some (fieldsAt?_of_ofRegister? hplace) hf
          have hrange := BitField.extract_lt (registerFields_fit register f hf) value
          constructor
          · simp only [ParamWrite.Placed, Channel.offset?, hfind, Option.map_some]
          · simp only [ParamWrite.taken, Channel.takes, hfind, hrange, decide_true]

theorem taken_disassembled {s : AtomState} {steps : List (Step RegisterOp)}
    {out : List (Step ParamWrite)} (h : disassembleFrom s [] steps = .ok out) :
    ∀ w ∈ writesIn out, w.taken = true :=
  fun w hw => (placed_disassembled h w hw).2

/-! ## Runs as keys -/

def ParamWrite.key (w : ParamWrite) : WriteKey := ⟨w.channel, w.offset, w.atom⟩

/-- The physical write of a key, with the byte that the file holds. -/
def Registers.entry (r : Registers) (k : WriteKey) : PendingWrite :=
  ⟨k, k.channel.base + k.offset, r.byteAt k.channel k.offset⟩

theorem assemble_eq {r : Registers} {w : ParamWrite} (hplaced : w.Placed)
    (htaken : w.taken = true) : w.assemble r = .ok (r.put w, (r.put w).entry w.key) := by
  obtain ⟨f, hfind, hrange⟩ := ParamWrite.exists_field hplaced htaken
  obtain ⟨-, hlt, -⟩ := Channel.find?_spec hfind
  have hbyte : (r.put w).byteAt w.channel w.offset =
      f.insert (r.byteAt w.channel w.offset) w.value := by
    rw [Registers.put_eq hfind, Registers.byteAt, Registers.read?_write_self r _ hlt]
    rfl
  have hset : r.set w.channel w.offset f w.value =
      (r.put w, w.channel.base + w.offset, (r.put w).byteAt w.channel w.offset) := by
    rw [hbyte, Registers.put_eq hfind]
    rfl
  simp only [ParamWrite.assemble, hfind, ne_eq, not_true_eq_false, if_false, hrange, if_true, hset]
  rfl

/-- The file and the open run behind more writes. -/
def gather (s : Registers × List PendingWrite) (writes : List ParamWrite) :
    Registers × List PendingWrite :=
  writes.foldl (fun s w => (s.1.put w, merge ((s.1.put w).entry w.key) s.2)) s

theorem gather_fst (s : Registers × List PendingWrite) (writes : List ParamWrite) :
    (gather s writes).1 = writes.foldl Registers.put s.1 := by
  induction writes generalizing s with
  | nil => rfl
  | cons w writes ih => exact ih _

theorem gather_append (s : Registers × List PendingWrite) (front rest : List ParamWrite) :
    gather s (front ++ rest) = gather (gather s front) rest :=
  List.foldl_append

/-- The keys with one more in the order of first writes. -/
def touchKey (keys : List WriteKey) (k : WriteKey) : List WriteKey :=
  if k ∈ keys then keys else keys ++ [k]

/-- A key of the open atom with its byte in the file `r`; those of other atoms are
done, with their bytes in the file `old`. -/
def lay (old r : Registers) (k : WriteKey) : PendingWrite :=
  (if k.atom = 0 then r else old).entry k

/-- The key stands for a register of its channel. -/
def WriteKey.Owned (k : WriteKey) : Prop :=
  Channel.ofRegister? (k.channel.base + k.offset) = some (k.channel, k.offset)

theorem owned_key {w : ParamWrite} (hplaced : w.Placed) (htaken : w.taken = true) :
    w.key.Owned := by
  obtain ⟨f, hfind, -⟩ := ParamWrite.exists_field hplaced htaken
  exact (Channel.find?_spec hfind).2.2

theorem lay_put {old r : Registers} {w : ParamWrite} (hplaced : w.Placed)
    (htaken : w.taken = true) (hatom : w.atom = 0) {k : WriteKey} (hk : k.Owned)
    (hne : k ≠ w.key) : lay old (r.put w) k = lay old r k := by
  unfold lay
  split
  · rename_i hopen
    have hplace : (k.channel, k.offset) ≠ (w.channel, w.offset) := by
      intro heq
      apply hne
      obtain ⟨c, off, atom⟩ := k
      cases heq
      rw [ParamWrite.key, hatom, ← hopen]
    rw [Registers.entry, Registers.byteAt_put_of_ne hplaced htaken hk hplace]
    rfl
  · rfl

theorem merge_lay {old r : Registers} {w : ParamWrite} (hplaced : w.Placed)
    (htaken : w.taken = true) (hatom : w.atom = 0) {keys : List WriteKey}
    (howned : ∀ k ∈ keys, k.Owned) (hnodup : keys.Nodup) :
    merge ((r.put w).entry w.key) (keys.map (lay old r)) =
      (touchKey keys w.key).map (lay old (r.put w)) := by
  have hlast : (r.put w).entry w.key = lay old (r.put w) w.key := by
    rw [lay, if_pos (show w.key.atom = 0 from hatom)]
  have hsame : ∀ ks : List WriteKey, (∀ k ∈ ks, k.Owned) → w.key ∉ ks →
      ks.map (lay old r) = ks.map (lay old (r.put w)) := by
    intro ks hks hnot
    apply List.map_congr_left
    intro k hk
    have hne : k ≠ w.key := fun heq => hnot (heq ▸ hk)
    exact (lay_put hplaced htaken hatom (hks k hk) hne).symm
  unfold touchKey
  induction keys with
  | nil => rw [if_neg List.not_mem_nil, hlast]; rfl
  | cons k keys ih =>
    rw [List.forall_mem_cons] at howned
    obtain ⟨hnot, hnodup⟩ := List.nodup_cons.mp hnodup
    rw [List.map_cons, merge]
    by_cases hk : k = w.key
    · -- the key's byte is replaced, and it does not come again
      subst hk
      rw [if_pos (show (lay old r w.key).key = ((r.put w).entry w.key).key from rfl),
        if_pos List.mem_cons_self, List.map_cons, hsame keys howned.2 hnot, ← hlast]
      rfl
    · have hmem : w.key ∈ k :: keys ↔ w.key ∈ keys := by
        rw [List.mem_cons, or_iff_right fun heq => hk heq.symm]
      rw [if_neg (show ¬ (lay old r k).key = ((r.put w).entry w.key).key from hk),
        ih howned.2 hnodup, ← lay_put hplaced htaken hatom howned.1 hk]
      simp only [hmem]
      split <;> rfl

theorem owned_touchKey {keys : List WriteKey} {k : WriteKey} (h : ∀ x ∈ keys, x.Owned)
    (hk : k.Owned) : ∀ x ∈ touchKey keys k, x.Owned := by
  unfold touchKey
  split
  · exact h
  · exact List.forall_mem_append.mpr ⟨h, List.forall_mem_singleton.mpr hk⟩

theorem nodup_touchKey {keys : List WriteKey} (h : keys.Nodup) (k : WriteKey) :
    (touchKey keys k).Nodup := by
  unfold touchKey
  split
  · exact h
  · rename_i hnot
    rw [List.nodup_append]
    refine ⟨h, List.nodup_cons.mpr ⟨List.not_mem_nil, List.nodup_nil⟩, ?_⟩
    intro x hx y hy heq
    rw [List.mem_singleton.mp hy] at heq
    exact hnot (heq ▸ hx)

/-- A run of writes of one atom: the keys in the order of their first writes, with the
bytes that the file holds behind all of them. -/
theorem gather_lay {old : Registers} {writes : List ParamWrite}
    (h : ∀ w ∈ writes, w.Placed ∧ w.taken = true) (hatom : ∀ w ∈ writes, w.atom = 0)
    {keys : List WriteKey} (howned : ∀ k ∈ keys, k.Owned) (hnodup : keys.Nodup) (r : Registers) :
    (gather (r, keys.map (lay old r)) writes).2 =
      ((writes.map ParamWrite.key).foldl touchKey keys).map
        (lay old (writes.foldl Registers.put r)) := by
  induction writes generalizing keys r with
  | nil => rfl
  | cons w writes ih =>
    rw [List.forall_mem_cons] at h hatom
    obtain ⟨⟨hplaced, htaken⟩, hrest⟩ := h
    rw [gather, List.foldl_cons]
    dsimp only
    rw [merge_lay hplaced htaken hatom.1 howned hnodup]
    exact ih hrest hatom.2 (owned_touchKey howned (owned_key hplaced htaken))
      (nodup_touchKey hnodup _) _

/-! ## Physical writes -/

/-- The writes of all fields of the register that a physical write goes to. -/
def PendingWrite.writes (p : PendingWrite) : List ParamWrite :=
  splitByte p.key.channel p.key.offset p.byte 0

/-- The steps behind an open run, with every run as its physical writes. -/
def physical : Registers → List PendingWrite → List (Step ParamWrite) → List (Step ParamWrite)
  | _, run, [] => (run.flatMap PendingWrite.writes).map .act
  | r, run, .wait n :: rest =>
    (run.flatMap PendingWrite.writes).map .act ++ .wait n :: physical r [] rest
  | r, run, .act w :: rest => physical (r.put w) (merge ((r.put w).entry w.key) run) rest

theorem physical_acts (s : Registers × List PendingWrite) (writes : List ParamWrite)
    (rest : List (Step ParamWrite)) :
    physical s.1 s.2 (writes.map .act ++ rest) =
      physical (gather s writes).1 (gather s writes).2 rest := by
  induction writes generalizing s with
  | nil => rfl
  | cons w writes ih => exact ih (s.1.put w, merge ((s.1.put w).entry w.key) s.2)

def PendingWrite.Owned (p : PendingWrite) : Prop :=
  Channel.ofRegister? p.register = some (p.key.channel, p.key.offset)

theorem owned_nil : ∀ p ∈ ([] : List PendingWrite), p.Owned :=
  fun _ h => nomatch h

theorem forall_merge {P : PendingWrite → Prop} {p : PendingWrite} {run : List PendingWrite}
    (hbyte : ∀ q byte, P q → P { q with byte := byte }) (h : ∀ q ∈ run, P q) (hp : P p) :
    ∀ q ∈ merge p run, P q := by
  induction run with
  | nil => exact List.forall_mem_singleton.mpr hp
  | cons q run ih =>
    rw [List.forall_mem_cons] at h
    rw [merge]
    split
    · exact List.forall_mem_cons.mpr ⟨hbyte q p.byte h.1, h.2⟩
    · exact List.forall_mem_cons.mpr ⟨h.1, ih h.2⟩

theorem owned_merge {p : PendingWrite} {run : List PendingWrite} (h : ∀ q ∈ run, q.Owned)
    (hp : p.Owned) : ∀ q ∈ merge p run, q.Owned :=
  forall_merge (fun _ _ hq => hq) h hp

theorem flatMap_changesOf_closeRun {run : List PendingWrite} (h : ∀ p ∈ run, p.Owned) :
    (closeRun run).flatMap changesOf =
      ((run.flatMap PendingWrite.writes).map .act).map (Step.mapAct ParamWrite.change) := by
  induction run with
  | nil => rfl
  | cons p run ih =>
    rw [List.forall_mem_cons] at h
    have hp : changesOf (.act (.write p.register p.byte)) =
        (p.writes.map .act).map (Step.mapAct ParamWrite.change) := by
      have hfields := fieldsAt?_of_ofRegister? h.1
      simp only [changesOf, show Channel.ofRegister? p.register = some _ from h.1,
        PendingWrite.writes, splitByte, hfields, Option.getD_some, List.map_map]
      rfl
    rw [closeRun, List.map_cons, List.flatMap_cons, hp, List.flatMap_cons, List.map_append,
      List.map_append]
    exact congrArg (_ ++ ·) (ih h.2)

theorem known_closeRun {run : List PendingWrite} (h : ∀ p ∈ run, p.Owned) :
    ∀ step ∈ closeRun run, step.Known := by
  intro step hstep
  obtain ⟨p, hp, rfl⟩ := List.mem_map.mp hstep
  intro register value heq
  cases heq
  rw [show Channel.ofRegister? p.register = some _ from h p hp]
  rfl

/-- Accepted writes are assembled to register writes that disassemble, and that make
the changes of the physical writes. -/
theorem assembleFrom_physical {steps : List (Step ParamWrite)}
    (h : ∀ w ∈ writesIn steps, w.Placed ∧ w.taken = true) (r : Registers)
    {run : List PendingWrite} (hrun : ∀ p ∈ run, p.Owned) :
    ∃ r' raw, assembleFrom r run [] steps = (r', .ok raw) ∧ (∀ step ∈ raw, step.Known) ∧
      raw.flatMap changesOf = (physical r run steps).map (Step.mapAct ParamWrite.change) := by
  induction steps generalizing r run with
  | nil => exact ⟨r, closeRun run, by simp only [assembleFrom, List.reverse_singleton,
      List.flatten_cons, List.flatten_nil, List.append_nil], known_closeRun hrun,
      flatMap_changesOf_closeRun hrun⟩
  | cons step rest ih =>
    cases step with
    | wait n =>
      obtain ⟨r', raw, hraw, hknown, hchanges⟩ := ih h r owned_nil
      refine ⟨r', closeRun run ++ .wait n :: raw, assembleFrom_wait hraw, ?_, ?_⟩
      · rw [List.forall_mem_append, List.forall_mem_cons]
        exact ⟨known_closeRun hrun, Step.known_wait n, hknown⟩
      · rw [List.flatMap_append, flatMap_changesOf_closeRun hrun, List.flatMap_cons, hchanges,
          physical, List.map_append]
        rfl
    | act w =>
      obtain ⟨⟨hplaced, htaken⟩, hrest⟩ := List.forall_mem_cons.mp
        (show ∀ x ∈ w :: writesIn rest, x.Placed ∧ x.taken = true from h)
      -- a write joins the entry of its key, with the register as it now stands
      have howned : ((r.put w).entry w.key).Owned := owned_key hplaced htaken
      obtain ⟨r', raw, hraw, hknown, hchanges⟩ := ih hrest (r.put w) (owned_merge hrun howned)
      exact ⟨r', raw, by rw [assembleFrom_act rest (assemble_eq hplaced htaken), hraw], hknown,
        hchanges⟩

theorem totalSamples_acts {α : Type} (writes : List α) :
    totalSamples (writes.map Step.act) = 0 := by
  induction writes with
  | nil => rfl
  | cons w writes ih =>
    rw [List.map_cons, totalSamples_cons, ih]
    rfl

theorem totalSamples_physical (r : Registers) (run : List PendingWrite)
    (steps : List (Step ParamWrite)) :
    totalSamples (physical r run steps) = totalSamples steps := by
  induction steps generalizing r run with
  | nil => exact totalSamples_acts _
  | cons step rest ih =>
    cases step with
    | wait n =>
      rw [physical, totalSamples_append, totalSamples_acts, totalSamples_cons, ih, Nat.zero_add,
        totalSamples_cons]
    | act w =>
      rw [physical, ih, totalSamples_cons]
      exact (Nat.zero_add _).symm

/-- A log of accepted writes is assembled, taken apart again and replayed, as the log of
its physical writes. -/
theorem replay_disassemble_assemble {t : Timeline ParamWrite}
    (h : ∀ w ∈ writesIn t.steps, w.Placed ∧ w.taken = true) :
    ∃ raw params, assemble t.toEvents = .ok raw ∧ disassemble raw = .ok params ∧
      replay params = .ok ⟨t.clock, floatOf sampleRate, totalSamples t.steps,
        (played (Apu.new t.clock) (batches [] (physical Registers.zero [] t.steps))).map
          Apu.frame⟩ := by
  obtain ⟨r, raw, hraw, hknown, hchanges⟩ := assembleFrom_physical h Registers.zero owned_nil
  obtain ⟨out, hout⟩ := disassembleFrom_isOk_iff.mpr hknown
  have hsame := (map_change_disassembleFrom hout).trans hchanges
  have htotal : totalSamples out = totalSamples t.steps := by
    rw [← totalSamples_mapAct ParamWrite.change out, hsame, totalSamples_mapAct,
      totalSamples_physical]
  refine ⟨Timeline.toEvents ⟨t.clock, raw⟩, Timeline.toEvents ⟨t.clock, out⟩, ?_,
    disassemble_eq_ok.mpr ⟨_, out, rfl, hout, rfl⟩,
    replay_eq_ok.mpr ⟨⟨t.clock, out⟩, rfl, taken_disassembled hout, ?_⟩⟩
  · simp only [assemble, assembleOver, Timeline.ofEvents_toEvents, hraw]
    rfl
  · rw [htotal, played_congr hsame]

end ApuScore

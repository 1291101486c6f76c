import ApuScore.Proofs.Runs
/-
  The register file along a log.

  A log leaves a trail: the state of the register file at every wait, with the wait, and
  the state at the end. This file

  1. defines trails over any state (`trail`) and carries them through views of the state
     and changes of the steps (`map_trail`, `trail_flatMap`);
  2. reads the trail of a register log as parameter values (`values_registerTrail`): a
     written byte sets the values of its register's fields;
  3. proves that assembly keeps the shadow in step with the hardware: the register writes
     that come out leave, at every wait, the file that the parameter writes leave
     (`assembleFrom_trail`), as long as no atom of a register is taken up again once
     another one has written there (`Grouped`).
-/

namespace ApuScore

/-! ## Trails -/

/-- The states at the waits of steps, with the waits, and the state at the end. -/
structure Trail (σ : Type) where
  waits : List (Nat × σ)
  last : σ
  deriving DecidableEq, Repr

def Trail.map {σ τ : Type} (view : σ → τ) (t : Trail σ) : Trail τ :=
  ⟨t.waits.map fun w => (w.1, view w.2), view t.last⟩

section trail

variable {α β σ τ : Type}

/-- The trail of steps from a state on, when actions take the state on by `f`. -/
def trail (f : σ → α → σ) (s : σ) : List (Step α) → Trail σ
  | [] => ⟨[], s⟩
  | .wait n :: rest => ⟨(n, s) :: (trail f s rest).waits, (trail f s rest).last⟩
  | .act a :: rest => trail f (f s a) rest

/-- The steps of the actions that an action stands for. -/
def Step.expand (actions : α → List β) : Step α → List (Step β)
  | .wait n => [.wait n]
  | .act a => (actions a).map .act

variable {f : σ → α → σ} {s : σ}

theorem trail_acts (f : σ → α → σ) (s : σ) (actions : List α) (rest : List (Step α)) :
    trail f s (actions.map .act ++ rest) = trail f (actions.foldl f s) rest := by
  induction actions generalizing s with
  | nil => rfl
  | cons a actions ih => exact ih (f s a)

theorem trail_mapAct (f : σ → β → σ) (h : α → β) (s : σ) (steps : List (Step α)) :
    trail f s (steps.map (Step.mapAct h)) = trail (fun s a => f s (h a)) s steps := by
  induction steps generalizing s with
  | nil => rfl
  | cons step rest ih =>
    cases step with
    | wait n => simp only [List.map_cons, Step.mapAct, trail, ih]
    | act a => exact ih (f s (h a))

/-- A view that follows every action follows the trail. -/
theorem map_trail {g : τ → α → τ} {view : σ → τ} {steps : List (Step α)}
    (h : ∀ s, ∀ a, Step.act a ∈ steps → view (f s a) = g (view s) a) :
    (trail f s steps).map view = trail g (view s) steps := by
  induction steps generalizing s with
  | nil => rfl
  | cons step rest ih =>
    have hrest := fun s a ha => h s a (List.mem_cons_of_mem step ha)
    cases step with
    | wait n =>
      rw [trail, trail, ← ih hrest]
      rfl
    | act a => rw [trail, ih hrest, h s a List.mem_cons_self, trail]

/-- Actions that stand for several others leave the trail of all of them. -/
theorem trail_flatMap (g : σ → β → σ) (actions : α → List β) (s : σ) (steps : List (Step α)) :
    trail g s (steps.flatMap (Step.expand actions)) =
      trail (fun s a => (actions a).foldl g s) s steps := by
  induction steps generalizing s with
  | nil => rfl
  | cons step rest ih =>
    cases step with
    | wait n =>
      rw [List.flatMap_cons, trail, ← ih]
      rfl
    | act a => rw [List.flatMap_cons, Step.expand, trail_acts, trail, ih]

def Trail.behind (n : Nat) (s : σ) (t : Trail σ) : Trail σ := ⟨(n, s) :: t.waits, t.last⟩

theorem trail_wait (f : σ → α → σ) (s : σ) (n : Nat) (rest : List (Step α)) :
    trail f s (.wait n :: rest) = (trail f s rest).behind n s := rfl

theorem Trail.map_behind (view : σ → τ) (n : Nat) (s : σ) (t : Trail σ) :
    (t.behind n s).map view = (t.map view).behind n (view s) := rfl

theorem Trail.behind_inj {n n' : Nat} {s s' : σ} {t t' : Trail σ} :
    t.behind n s = t'.behind n' s' ↔ (n = n' ∧ s = s') ∧ t = t' := by
  cases t
  cases t'
  simp [behind, and_assoc]

theorem Trail.map_map {υ : Type} (view : σ → τ) (again : τ → υ) (t : Trail σ) :
    (t.map view).map again = t.map (again ∘ view) := by
  simp [Trail.map, Function.comp_def]

end trail

/-! ## The file as values -/

def Registers.after (r : Registers) : RegisterOp → Registers
  | .write register byte => r.write register byte
  | .data _ _ => r

/-- The trail of a register log's steps over a cleared file. -/
def registerTrail (steps : List (Step RegisterOp)) : Trail Registers :=
  trail Registers.after Registers.zero steps

/-- Values of all parameters, and the values behind a change. -/
def Change.onto (m : Channel → Param → UInt8) (w : Change) : Channel → Param → UInt8 :=
  fun c p => if w.channel = c ∧ w.param = p then w.value else m c p

def RegisterOp.changes : RegisterOp → List Change
  | .data _ _ => []
  | .write register byte =>
    match Channel.ofRegister? register with
    | none => []
    | some (c, _) => (registerFields register).map fun f => ⟨c, f.param, f.extract byte⟩

theorem changesOf_eq : changesOf = Step.expand RegisterOp.changes := by
  funext step
  cases step with
  | wait n => rfl
  | act op =>
    cases op with
    | data kind payload => rfl
    | write register byte =>
      cases hplace : Channel.ofRegister? register <;>
        simp [changesOf, Step.expand, RegisterOp.changes, hplace]

namespace Registers

theorem mem_registerFields {c : Channel} {p : Param} {off : UInt8} {f : BitField}
    (h : c.find? p = some (off, f)) : f ∈ registerFields (c.base + off) ∧ f.param = p := by
  have htable : ∀ q ∈ Param.all, ∀ place ∈ c.find? q,
      place.2 ∈ registerFields (c.base + place.1) ∧ place.2.param = q := by
    cases c <;> decide +kernel
  exact htable p p.mem_all (off, f) h

end Registers

section onto

variable {c : Channel} {p : Param} {changes : List Change}

theorem foldl_onto_of_notMem (h : ∀ w ∈ changes, ¬(w.channel = c ∧ w.param = p))
    (m : Channel → Param → UInt8) : (changes.foldl Change.onto m) c p = m c p := by
  induction changes generalizing m with
  | nil => rfl
  | cons w changes ih =>
    rw [List.forall_mem_cons] at h
    rw [List.foldl_cons, ih h.2, Change.onto, if_neg h.1]

theorem foldl_onto_of_mem {value : UInt8} (hmem : ∃ w ∈ changes, w.channel = c ∧ w.param = p)
    (h : ∀ w ∈ changes, w.channel = c ∧ w.param = p → w.value = value)
    (m : Channel → Param → UInt8) : (changes.foldl Change.onto m) c p = value := by
  induction changes generalizing m with
  | nil => simp at hmem
  | cons w changes ih =>
    rw [List.forall_mem_cons] at h
    rw [List.foldl_cons]
    by_cases hlater : ∃ w ∈ changes, w.channel = c ∧ w.param = p
    · exact ih hlater h.2 _
    · -- no later change sets the parameter
      have hw : w.channel = c ∧ w.param = p := by
        obtain ⟨x, hx, hsets⟩ := hmem
        rcases List.mem_cons.mp hx with rfl | hx
        · exact hsets
        · exact absurd ⟨x, hx, hsets⟩ hlater
      rw [foldl_onto_of_notMem (fun x hx hsets => hlater ⟨x, hx, hsets⟩), Change.onto, if_pos hw,
        h.1 hw]

end onto

theorem Registers.value_write {register : UInt8} {c : Channel} {off : UInt8}
    (h : Channel.ofRegister? register = some (c, off)) (r : Registers) (byte : UInt8) :
    (r.write register byte).value =
      (RegisterOp.write register byte).changes.foldl Change.onto r.value := by
  obtain ⟨hbase, hlt, -⟩ := Channel.ofRegister?_spec h
  have hchanges : (RegisterOp.write register byte).changes =
      (registerFields register).map fun f => ⟨c, f.param, f.extract byte⟩ := by
    rw [RegisterOp.changes, h]
  have hfind : ∀ f ∈ registerFields register, c.find? f.param = some (off, f) :=
    fun f hf => Channel.find?_eq_some (fieldsAt?_of_ofRegister? h) hf
  funext c' p
  rw [hchanges]
  by_cases hsets : ∃ f ∈ registerFields register, c = c' ∧ f.param = p
  · obtain ⟨f, hf, rfl, rfl⟩ := hsets
    have hvalue : (r.write register byte).value c f.param = f.extract byte := by
      simp only [value, byteAt, hfind f hf, hbase, read?_write_self r byte hlt, Option.getD_some]
    rw [hvalue, foldl_onto_of_mem ⟨_, List.mem_map.mpr ⟨f, hf, rfl⟩, rfl, rfl⟩]
    intro w hw hsame
    obtain ⟨g, hg, rfl⟩ := List.mem_map.mp hw
    have hplace := hfind g hg
    rw [show g.param = f.param from hsame.2, hfind f hf] at hplace
    cases hplace
    rfl
  · rw [foldl_onto_of_notMem]
    · -- the parameter lies in another register, or nowhere
      unfold value
      cases hfound : c'.find? p with
      | none => rfl
      | some place =>
        obtain ⟨off', g⟩ := place
        have hne : register ≠ c'.base + off' := by
          rintro rfl
          obtain ⟨hg, hparam⟩ := mem_registerFields hfound
          obtain ⟨-, -, howner⟩ := Channel.find?_spec hfound
          rw [h] at howner
          cases howner
          exact hsets ⟨g, hg, rfl, hparam⟩
        simp only [byteAt, read?_write_of_ne r byte hne]
    · intro w hw hsame
      obtain ⟨f, hf, rfl⟩ := List.mem_map.mp hw
      exact hsets ⟨f, hf, hsame⟩

theorem values_registerTrail {steps : List (Step RegisterOp)} (h : ∀ step ∈ steps, step.Known)
    (r : Registers) :
    (trail Registers.after r steps).map Registers.value =
      trail Change.onto r.value (steps.flatMap changesOf) := by
  rw [changesOf_eq, trail_flatMap]
  apply map_trail
  intro r op hop
  cases op with
  | data kind payload => rfl
  | write register byte =>
    obtain ⟨place, hplace⟩ := Option.isSome_iff_exists.mp (h _ hop register byte rfl)
    exact Registers.value_write hplace r byte

theorem values_putTrail {steps : List (Step ParamWrite)}
    (h : ∀ w ∈ writesIn steps, w.Placed ∧ w.taken = true) (r : Registers) :
    (trail Registers.put r steps).map Registers.value =
      trail Change.onto r.value (steps.map (Step.mapAct ParamWrite.change)) := by
  rw [trail_mapAct]
  apply map_trail
  intro r w hw
  obtain ⟨hplaced, htaken⟩ := h w (List.mem_filterMap.mpr ⟨_, hw, rfl⟩)
  funext c p
  exact Registers.value_put hplaced htaken c p

/-! ## Assembly keeps the shadow -/

/-- The file behind the physical writes of a run. -/
def Registers.store (r : Registers) (run : List PendingWrite) : Registers :=
  run.foldl (fun r p => r.write p.register p.byte) r

def WriteKey.place (k : WriteKey) : Channel × UInt8 := (k.channel, k.offset)

/-- Whether no other key of the register comes behind the key. -/
def WriteKey.Follows (k : WriteKey) (keys : List WriteKey) : Prop :=
  ∀ front behind, keys = front ++ k :: behind → ∀ other ∈ behind, other.place ≠ k.place

/-- Within every run, no atom of a register is taken up again once another one has
written there; `keys` are the keys of the run so far. -/
def Grouped (keys : List WriteKey) : List (Step ParamWrite) → Prop
  | [] => True
  | .wait _ :: rest => Grouped [] rest
  | .act w :: rest => w.key.Follows keys ∧ Grouped (touchKey keys w.key) rest

theorem WriteKey.follows_of_notMem {k : WriteKey} {keys : List WriteKey} (h : k ∉ keys) :
    k.Follows keys := by
  rintro front behind rfl
  simp at h

theorem WriteKey.follows_last {k : WriteKey} {keys : List WriteKey} (h : k ∉ keys) :
    k.Follows (keys ++ [k]) := by
  intro front behind heq
  have hbehind : behind = [] := by
    rcases List.eq_nil_or_concat behind with hnil | ⟨init, last, rfl⟩
    · exact hnil
    · -- the key would come twice
      rw [List.concat_eq_append, ← List.cons_append, ← List.append_assoc] at heq
      obtain ⟨hkeys, -⟩ := List.append_inj' heq rfl
      exact absurd (hkeys ▸ List.mem_append_right front List.mem_cons_self) h
  simp [hbehind]

theorem WriteKey.Follows.tail {k first : WriteKey} {keys : List WriteKey}
    (h : k.Follows (first :: keys)) : k.Follows keys := by
  rintro front behind rfl
  exact h (first :: front) behind rfl

theorem map_key_merge (p : PendingWrite) (run : List PendingWrite) :
    (merge p run).map PendingWrite.key = touchKey (run.map PendingWrite.key) p.key := by
  induction run with
  | nil => rfl
  | cons q run ih =>
    rw [merge, touchKey]
    by_cases hkey : q.key = p.key
    · simp [hkey]
    · rw [touchKey] at ih
      have hne : p.key ≠ q.key := fun heq => hkey heq.symm
      simp only [hkey, if_false, List.map_cons, ih, List.mem_cons, hne, false_or]
      split <;> rfl

namespace Registers

theorem write_comm (r : Registers) {register other : UInt8} (byte next : UInt8)
    (h : register ≠ other) : (r.write register byte).write other next =
      (r.write other next).write register byte := by
  have hne : register.toNat ≠ other.toNat := fun heq => h (UInt8.toNat_inj.mp heq)
  simp only [write, mk.injEq]
  apply Vector.ext
  intro i hi
  simp only [Vector.getElem_setIfInBounds]
  split <;> split <;> first | rfl | omega

/-- A write to a register that a run does not write can come before the run. -/
theorem store_write {run : List PendingWrite} {register : UInt8}
    (h : ∀ p ∈ run, p.register ≠ register) (r : Registers) (byte : UInt8) :
    (r.write register byte).store run = (r.store run).write register byte := by
  induction run generalizing r with
  | nil => rfl
  | cons p run ih =>
    rw [List.forall_mem_cons] at h
    have hcomm := r.write_comm byte p.byte h.1.symm
    show ((r.write register byte).write p.register p.byte).store run = _
    rw [hcomm, ih h.2]
    rfl

end Registers

theorem PendingWrite.Owned.register_eq {p q : PendingWrite} (hp : p.Owned) (hq : q.Owned) :
    p.register = q.register ↔ p.key.place = q.key.place := by
  obtain ⟨hpbase, -, -⟩ := Channel.ofRegister?_spec hp
  obtain ⟨hqbase, -, -⟩ := Channel.ofRegister?_spec hq
  constructor
  · intro heq
    rw [Owned, heq, show Channel.ofRegister? q.register = _ from hq] at hp
    exact (Option.some.inj hp).symm
  · intro heq
    obtain ⟨hchannel, hoffset⟩ := Prod.mk.inj heq
    rw [← hpbase, ← hqbase, hchannel, hoffset]

/-- A write that joins a run takes effect behind the whole run: what lies behind its key
goes to other registers. -/
theorem store_merge {p : PendingWrite} {run : List PendingWrite} (howned : ∀ q ∈ run, q.Owned)
    (hp : p.Owned) (hfollows : p.key.Follows (run.map PendingWrite.key)) (r : Registers) :
    r.store (merge p run) = (r.store run).write p.register p.byte := by
  induction run generalizing r with
  | nil => rfl
  | cons q run ih =>
    rw [List.forall_mem_cons] at howned
    rw [merge]
    by_cases hkey : q.key = p.key
    · have hregister : q.register = p.register :=
        (howned.1.register_eq hp).mpr (congrArg WriteKey.place hkey)
      have hbehind : ∀ x ∈ run, x.register ≠ p.register := by
        intro x hx heq
        have hplace := hfollows [] (run.map PendingWrite.key) (by rw [← hkey]; rfl) x.key
          (List.mem_map_of_mem hx)
        exact hplace (((howned.2 x hx).register_eq hp).mp heq)
      have hhides : (r.store (q :: run)).write p.register p.byte =
          (r.store run).write p.register p.byte := by
        show ((r.write q.register q.byte).store run).write p.register p.byte = _
        rw [hregister, Registers.store_write hbehind, Registers.write_write]
      rw [if_pos hkey, hhides, ← Registers.store_write hbehind, ← hregister]
      rfl
    · rw [if_neg hkey]
      exact ih howned.2 hfollows.tail (r.write q.register q.byte)

theorem trail_closeRun (run : List PendingWrite) (r : Registers) (rest : List (Step RegisterOp)) :
    trail Registers.after r (closeRun run ++ rest) = trail Registers.after (r.store run) rest := by
  induction run generalizing r with
  | nil => rfl
  | cons p run ih => exact ih (r.write p.register p.byte)

/-- Assembled writes leave the trail that the parameter writes leave, and the file that
assembly hands back is the one at its end; `r` is the shadow behind the open run over
`old`. -/
theorem assembleFrom_trail {steps : List (Step ParamWrite)}
    (h : ∀ w ∈ writesIn steps, w.Placed ∧ w.taken = true) {run : List PendingWrite}
    (howned : ∀ p ∈ run, p.Owned) (hgrouped : Grouped (run.map PendingWrite.key) steps)
    {old r : Registers} (hrun : old.store run = r) :
    ∃ raw, assembleFrom r run [] steps = ((trail Registers.put r steps).last, .ok raw) ∧
      trail Registers.after old raw = trail Registers.put r steps := by
  induction steps generalizing run old r with
  | nil =>
    refine ⟨closeRun run, by simp [assembleFrom, trail], ?_⟩
    rw [← List.append_nil (closeRun run), trail_closeRun, hrun]
    rfl
  | cons step rest ih =>
    cases step with
    | wait n =>
      obtain ⟨raw, hraw, htrail⟩ := ih h owned_nil hgrouped (show r.store [] = r from rfl)
      refine ⟨closeRun run ++ .wait n :: raw, assembleFrom_wait hraw, ?_⟩
      rw [trail_closeRun, hrun, trail, htrail, trail]
    | act w =>
      obtain ⟨⟨hplaced, htaken⟩, hrest⟩ := List.forall_mem_cons.mp
        (show ∀ x ∈ w :: writesIn rest, x.Placed ∧ x.taken = true from h)
      have hentry : ((r.put w).entry w.key).Owned := owned_key hplaced htaken
      -- the byte that joins the run is the one that the shadow now holds
      have hstore : old.store (merge ((r.put w).entry w.key) run) = r.put w := by
        obtain ⟨f, hfind, -⟩ := ParamWrite.exists_field hplaced htaken
        obtain ⟨-, hlt, -⟩ := Channel.find?_spec hfind
        rw [store_merge howned hentry hgrouped.1, hrun, Registers.put_eq hfind]
        simp only [Registers.entry, ParamWrite.key, Registers.byteAt,
          Registers.read?_write_self r _ hlt, Option.getD_some]
      have hkeys : Grouped ((merge ((r.put w).entry w.key) run).map PendingWrite.key) rest := by
        rw [map_key_merge]
        exact hgrouped.2
      obtain ⟨raw, hraw, htrail⟩ := ih hrest (owned_merge howned hentry) hkeys hstore
      exact ⟨raw, by rw [assembleFrom_act rest (assemble_eq hplaced htaken), hraw]; rfl, htrail⟩

end ApuScore

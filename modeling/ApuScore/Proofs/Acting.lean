import ApuScore.Proofs.Cores
/-
  The acting writes of a log through the compact cycle.

  Pruning, regrouping and assembly run side by side, one parameter write at a time
  (`Cycle.take`). A register that holds an acting parameter comes through as one
  physical write with a key of its own: the acting parameters come first among those
  that are not ignored, and pruning keeps each of them, so a second write to the register
  opens a new atom. Other registers may merge and come back with fields that were left
  out, but none of those acts. This file

  1. follows one register write through the cycle (`Cycle.Ready.takeAll`);
  2. follows a whole log (`Cycle.Ready.trail_back`): at every wait the register
     writes that come back have made the same acting changes;
  3. concludes that the cycle is inaudible as long as no sweep is written
     (`replay_compacted`).
-/

namespace ApuScore

/-! ## The acting fields of a register -/

theorem not_ignored_of_acting {c : Channel} {p : Param} (h : acting c p = true) :
    ignored c p = false := by
  rcases acting_eq_true h with ⟨⟨v, rfl⟩, rfl⟩ | ⟨rfl, v, rfl⟩ | ⟨rfl, rfl⟩
  · cases v <;> rfl
  · cases v <;> rfl
  · rfl

theorem kept_of_acting {s : Values} {w : ParamWrite} (h : acting w.channel w.param = true) :
    kept s w = true := by
  simp [kept, h, not_ignored_of_acting h]

theorem not_kept_of_ignored {s : Values} {w : ParamWrite}
    (h : ignored w.channel w.param = true) : kept s w = false := by
  simp [kept, h]

theorem exists_first_acting {register : UInt8} {c : Channel} {off : UInt8}
    (h : Channel.ofRegister? register = some (c, off)) {f : BitField}
    (hf : f ∈ registerFields register) (hacting : acting c f.param = true) :
    ∃ front first behind, registerFields register = front ++ first :: behind ∧
      (∀ g ∈ front, ignored c g.param = true) ∧ acting c first.param = true := by
  have htable : ∀ register, ∀ place ∈ Channel.ofRegister? register,
      (registerFields register).any (fun f => acting place.1 f.param) = true →
        ∃ g ∈ (registerFields register).find? (fun f => !ignored place.1 f.param),
          acting place.1 g.param = true :=
    forall_byte (by decide +kernel)
  obtain ⟨g, hg, hgacting⟩ :=
    htable register (c, off) h (List.any_eq_true.mpr ⟨f, hf, hacting⟩)
  obtain ⟨-, front, behind, hfields, hfront⟩ := List.find?_eq_some_iff_append.mp hg
  refine ⟨front, g, behind, hfields, ?_, hgacting⟩
  intro x hx
  simpa using hfront x hx

theorem nodup_registerFields (register : UInt8) :
    ((registerFields register).map BitField.param).Nodup := by
  have htable : ∀ register, ((registerFields register).map BitField.param).Nodup :=
    forall_byte (by decide +kernel)
  exact htable register

theorem Grouping.register_add (g : Grouping) (register : Channel × UInt8) (param : Param) :
    (g.add register param).register = some register := by
  unfold add
  split <;> rfl

def PendingWrite.acts (p : PendingWrite) : List Change := actingOf (p.writes.map ParamWrite.change)

theorem actingOf_flatMap_writes (run : List PendingWrite) :
    actingOf ((run.flatMap PendingWrite.writes).map ParamWrite.change) =
      run.flatMap PendingWrite.acts := by
  induction run with
  | nil => rfl
  | cons p run ih =>
    rw [actingOf] at ih
    rw [List.flatMap_cons, List.map_append, actingOf, List.filter_append, ih]
    rfl

/-! ## The cycle one write at a time -/

/-- The state of pruning, regrouping and assembly. -/
structure Cycle where
  values : Values
  group : Grouping
  shadow : Registers
  run : List PendingWrite

namespace Cycle

def take (k : Cycle) (w : ParamWrite) : Cycle :=
  if kept k.values w then
    let offset := (w.channel.offset? w.param).getD 0
    let next := k.group.add (w.channel, offset) w.param
    let shadow := k.shadow.put ⟨w.channel, w.param, w.value, next.atom, offset⟩
    { values := k.values.behind w
      group := next
      shadow := shadow
      run := merge (shadow.entry ⟨w.channel, offset, next.atom⟩) k.run }
  else { k with values := k.values.behind w }

def close (k : Cycle) : Cycle := { k with group := {}, run := [] }

/-- The physical writes that come back for the steps, behind the open run. -/
def back (k : Cycle) (steps : List (Step ParamWrite)) : List (Step ParamWrite) :=
  physical k.shadow k.run (regrouped k.group (keptSteps k.values steps))

def acts (k : Cycle) : List Change := k.run.flatMap PendingWrite.acts

theorem back_act (k : Cycle) (w : ParamWrite) (rest : List (Step ParamWrite)) :
    k.back (.act w :: rest) = (k.take w).back rest := by
  rw [back, keptSteps, take]
  split <;> rfl

theorem back_acts (k : Cycle) (writes : List ParamWrite) (rest : List (Step ParamWrite)) :
    k.back (writes.map .act ++ rest) = (writes.foldl take k).back rest := by
  induction writes generalizing k with
  | nil => rfl
  | cons w writes ih => exact (k.back_act w _).trans (ih (k.take w))

theorem back_wait (k : Cycle) (n : Nat) (rest : List (Step ParamWrite)) :
    k.back (.wait n :: rest) =
      (k.run.flatMap PendingWrite.writes).map .act ++ .wait n :: k.close.back rest := rfl

/-- The atom that is being filled has the last key of the run, and it sets all acting
parameters of its register. -/
structure Ready (k : Cycle) : Prop where
  ends : k.group.Ends (k.run.map PendingWrite.key)
  empty : k.group.register = none → k.group.params = []
  full : ∀ c off, k.group.register = some (c, off) → ∀ f ∈ registerFields (c.base + off),
    acting c f.param = true → (c, f.param) ∈ k.group.params

theorem ready_close (k : Cycle) : k.close.Ready := by
  refine ⟨.inl ⟨rfl, rfl⟩, fun _ => rfl, ?_⟩
  intro c off h
  cases h

/-! ## Registers without acting fields -/

theorem splitByte_eq {c : Channel} {off : UInt8}
    (hplace : Channel.ofRegister? (c.base + off) = some (c, off)) (byte : UInt8) (atom : Nat) :
    splitByte c off byte atom =
      (registerFields (c.base + off)).map (fieldWrite c off byte atom) := by
  rw [splitByte, fieldsAt?_of_ofRegister? hplace]
  rfl

section quiet

variable {c : Channel} {off : UInt8}
  (hplace : Channel.ofRegister? (c.base + off) = some (c, off))
  (hquiet : ∀ f ∈ registerFields (c.base + off), acting c f.param = false)
include hplace hquiet

theorem actingOf_splitByte (byte : UInt8) (atom : Nat) :
    actingOf ((splitByte c off byte atom).map ParamWrite.change) = [] := by
  rw [actingOf, List.filter_eq_nil_iff, splitByte_eq hplace]
  simp only [List.map_map, List.forall_mem_map]
  exact fun f hf => Bool.eq_false_iff.mp (hquiet f hf)

theorem acts_eq_nil {p : PendingWrite} (h : p.key.place = (c, off)) : p.acts = [] := by
  obtain ⟨rfl, rfl⟩ := Prod.mk.inj h
  exact actingOf_splitByte hplace hquiet p.byte 0

/-- A physical write without acting fields adds nothing that acts and hides nothing that
does. -/
theorem acts_merge {p : PendingWrite} (h : p.key.place = (c, off)) (run : List PendingWrite) :
    (merge p run).flatMap PendingWrite.acts = run.flatMap PendingWrite.acts := by
  induction run with
  | nil => simp [merge, acts_eq_nil hplace hquiet h]
  | cons q run ih =>
    rw [merge]
    split
    · rename_i hkey
      have hq : q.key.place = (c, off) := by rw [hkey, h]
      have hnew : PendingWrite.acts { q with byte := p.byte } = [] :=
        acts_eq_nil hplace hquiet hq
      rw [List.flatMap_cons, List.flatMap_cons, hnew, acts_eq_nil hplace hquiet hq]
    · rw [List.flatMap_cons, List.flatMap_cons, ih]

theorem Ready.take_quiet {k : Cycle} (h : k.Ready) {w : ParamWrite} (hchannel : w.channel = c)
    (hoffset : w.channel.offset? w.param = some off) :
    (k.take w).Ready ∧ (k.take w).acts = k.acts := by
  subst hchannel
  rw [take, hoffset, Option.getD_some]
  split
  · have hregister := k.group.register_add (w.channel, off) w.param
    refine ⟨⟨?_, ?_, ?_⟩, acts_merge hplace hquiet rfl k.run⟩
    · dsimp only
      rw [map_key_merge]
      exact (h.ends.add w.channel off w.param).2
    · intro hnone
      rw [hregister] at hnone
      cases hnone
    · -- the register has no acting field to look for
      intro c' off' hsame f hf hacting
      rw [hregister] at hsame
      cases hsame
      rw [hquiet f hf] at hacting
      cases hacting
  · exact ⟨⟨h.ends, h.empty, h.full⟩, rfl⟩

theorem Ready.takeAll_quiet {k : Cycle} (h : k.Ready) {writes : List ParamWrite}
    (hwrites : ∀ w ∈ writes, w.channel = c ∧ w.channel.offset? w.param = some off) :
    (writes.foldl take k).Ready ∧ (writes.foldl take k).acts = k.acts := by
  induction writes generalizing k with
  | nil => exact ⟨h, rfl⟩
  | cons w writes ih =>
    rw [List.forall_mem_cons] at hwrites
    obtain ⟨hready, hacts⟩ := h.take_quiet hplace hquiet hwrites.1.1 hwrites.1.2
    rw [List.foldl_cons, ← hacts]
    exact ih hready hwrites.2

end quiet

/-! ## Registers with acting fields -/

section loud

variable {c : Channel} {off byte : UInt8} {k : Cycle} {f : BitField}

/-- An acting field opens an atom that sets nothing else and has no key in the run. -/
theorem Ready.opens (h : k.Ready) (hf : f ∈ registerFields (c.base + off))
    (hacting : acting c f.param = true) :
    (k.group.add (c, off) f.param).params = [(c, f.param)] ∧
      ∀ p ∈ k.run, p.key ≠ ⟨c, off, (k.group.add (c, off) f.param).atom⟩ := by
  have hmem : ∀ p ∈ k.run, p.key ∈ k.run.map PendingWrite.key :=
    fun p hp => List.mem_map_of_mem hp
  rcases h.ends with ⟨hnil, hnone⟩ | ⟨front, last, hkeys, hregister, hatom, hfront⟩
  · -- nothing is open
    have hrun : k.run = [] := List.map_eq_nil_iff.mp hnil
    refine ⟨?_, by simp [hrun]⟩
    simp [Grouping.add, Grouping.breaks, hnone, h.empty hnone]
  · have hbreaks : k.group.breaks (c, off) f.param = true := by
      by_cases hplace : last.place = (c, off)
      · rw [hplace] at hregister
        simp [Grouping.breaks, h.full c off hregister f hf hacting]
      · simp [Grouping.breaks, hregister, hplace]
    rw [Grouping.add, if_pos hbreaks]
    refine ⟨rfl, ?_⟩
    intro p hp hkey
    have hle : p.key.atom ≤ k.group.atom := by
      have hp := hmem p hp
      rw [hkeys] at hp
      rcases List.mem_append.mp hp with hp | hp
      · exact Nat.le_of_lt (hfront _ hp)
      · rw [List.mem_singleton.mp hp]
        exact Nat.le_of_eq hatom
    rw [hkey] at hle
    exact Nat.lt_irrefl _ hle

/-- The run ends with the physical write of the register that is being taken apart, whose
fields in `done` are through. -/
structure Filling (c : Channel) (off byte : UInt8) (front : List PendingWrite)
    (done : List BitField) (k : Cycle) : Prop where
  run : k.run = front ++ [k.shadow.entry ⟨c, off, k.group.atom⟩]
  fresh : ∀ p ∈ front, p.key ≠ ⟨c, off, k.group.atom⟩
  ends : k.group.Ends (k.run.map PendingWrite.key)
  register : k.group.register = some (c, off)
  params : ∀ x ∈ k.group.params, ∃ f ∈ done, x = (c, f.param)
  full : ∀ f ∈ done, acting c f.param = true → (c, f.param) ∈ k.group.params
  value : ∀ f ∈ done, acting c f.param = true → k.shadow.value c f.param = f.extract byte

theorem Filling.skip {front : List PendingWrite} {done : List BitField}
    (h : Filling c off byte front done k) {atom : Nat}
    (hkept : kept k.values (fieldWrite c off byte atom f) = false) :
    Filling c off byte front (done ++ [f]) (k.take (fieldWrite c off byte atom f)) := by
  have hquiet : ¬ acting c f.param = true := by
    intro hacting
    rw [kept_of_acting (w := fieldWrite c off byte atom f) hacting] at hkept
    cases hkept
  have hmore : ∀ {P : BitField → Prop}, (∀ g ∈ done, acting c g.param = true → P g) →
      ∀ g ∈ done ++ [f], acting c g.param = true → P g := by
    intro P hdone g hg hacting
    rcases List.mem_append.mp hg with hg | hg
    · exact hdone g hg hacting
    · rw [List.mem_singleton.mp hg] at hacting
      exact absurd hacting hquiet
  rw [take, hkept]
  exact { h with
    params := fun x hx => (h.params x hx).imp fun g hg => ⟨List.mem_append_left _ hg.1, hg.2⟩
    full := hmore h.full
    value := hmore h.value }

section field

variable (hplace : Channel.ofRegister? (c.base + off) = some (c, off)) (byte : UInt8) (atom : Nat)
  (hf : f ∈ registerFields (c.base + off))
include hplace hf

theorem value_fieldWrite (r : Registers) (p : Param) :
    (r.put (fieldWrite c off byte atom f)).value c p =
      if f.param = p then f.extract byte else r.value c p := by
  have hfind := Channel.find?_eq_some (fieldsAt?_of_ofRegister? hplace) hf
  have hrange := BitField.extract_lt (registerFields_fit _ f hf) byte
  have hplaced : (fieldWrite c off byte atom f).Placed := by
    simp [ParamWrite.Placed, fieldWrite, Channel.offset?, hfind]
  have htaken : (fieldWrite c off byte atom f).taken = true := by
    simp [ParamWrite.taken, fieldWrite, Channel.takes, hfind, hrange]
  rw [Registers.value_put hplaced htaken]
  simp [fieldWrite]

theorem offset?_fieldWrite :
    (fieldWrite c off byte atom f).channel.offset? (fieldWrite c off byte atom f).param =
      some off := by
  have hfind := Channel.find?_eq_some (fieldsAt?_of_ofRegister? hplace) hf
  simp [fieldWrite, Channel.offset?, hfind]

theorem take_fieldWrite (hkept : kept k.values (fieldWrite c off byte atom f) = true) :
    k.take (fieldWrite c off byte atom f) =
      { values := k.values.behind (fieldWrite c off byte atom f)
        group := k.group.add (c, off) f.param
        shadow := k.shadow.put (fieldWrite c off byte (k.group.add (c, off) f.param).atom f)
        run := merge ((k.shadow.put (fieldWrite c off byte
          (k.group.add (c, off) f.param).atom f)).entry
            ⟨c, off, (k.group.add (c, off) f.param).atom⟩) k.run } := by
  rw [take, if_pos hkept, offset?_fieldWrite hplace byte atom hf, Option.getD_some]
  rfl

theorem Ready.first (h : k.Ready) (hacting : acting c f.param = true) :
    Filling c off byte k.run [f] (k.take (fieldWrite c off byte atom f)) := by
  obtain ⟨hparams, hfresh⟩ := h.opens hf hacting
  have hrun := merge_fresh (w := (k.shadow.put (fieldWrite c off byte
    (k.group.add (c, off) f.param).atom f)).entry ⟨c, off, (k.group.add (c, off) f.param).atom⟩)
      hfresh
  rw [take_fieldWrite hplace byte atom hf (kept_of_acting hacting)]
  constructor
  · exact hrun
  · exact hfresh
  · dsimp only
    rw [map_key_merge]
    exact (h.ends.add c off f.param).2
  · exact k.group.register_add (c, off) f.param
  · simp [hparams]
  · simp [hparams]
  · simp [value_fieldWrite hplace byte _ hf]

/-- A field whose write stays joins the physical write of the fields before it. -/
theorem Filling.join {front : List PendingWrite} {done : List BitField}
    (h : Filling c off byte front done k) (hnew : f.param ∉ done.map BitField.param)
    (hkept : kept k.values (fieldWrite c off byte atom f) = true) :
    Filling c off byte front (done ++ [f]) (k.take (fieldWrite c off byte atom f)) := by
  have hnot : (c, f.param) ∉ k.group.params := by
    intro hmem
    obtain ⟨g, hg, heq⟩ := h.params _ hmem
    rw [(Prod.mk.inj heq).2] at hnew
    exact hnew (List.mem_map_of_mem hg)
  have hadd : k.group.add (c, off) f.param =
      { k.group with register := some (c, off), params := (c, f.param) :: k.group.params } := by
    simp [Grouping.add, Grouping.breaks, h.register, hnot]
  rw [take_fieldWrite hplace byte atom hf hkept, hadd]
  dsimp only
  generalize hput : k.shadow.put (fieldWrite c off byte k.group.atom f) = shadow
  have hrun : merge (shadow.entry ⟨c, off, k.group.atom⟩) k.run =
      front ++ [shadow.entry ⟨c, off, k.group.atom⟩] := by
    rw [h.run]
    exact merge_last _ _ _ h.fresh
  have hvalue : ∀ p, shadow.value c p =
      if f.param = p then f.extract byte else k.shadow.value c p := by
    intro p
    rw [← hput, value_fieldWrite hplace byte _ hf]
  refine ⟨hrun, h.fresh, ?_, rfl, ?_, ?_, ?_⟩
  · have hends := h.ends
    rw [h.run, List.map_append, Grouping.Ends, h.register] at hends
    rw [hrun, List.map_append]
    exact hends
  · intro x hx
    rcases List.mem_cons.mp hx with rfl | hx
    · exact ⟨f, by simp, rfl⟩
    · obtain ⟨g, hg, rfl⟩ := h.params x hx
      exact ⟨g, List.mem_append_left _ hg, rfl⟩
  · intro g hg hacting
    rcases List.mem_append.mp hg with hg | hg
    · exact List.mem_cons_of_mem _ (h.full g hg hacting)
    · rw [List.mem_singleton.mp hg]
      exact List.mem_cons_self
  · intro g hg hacting
    dsimp only
    rw [hvalue]
    rcases List.mem_append.mp hg with hg | hg
    · have hne : f.param ≠ g.param := fun heq => hnew (heq ▸ List.mem_map_of_mem hg)
      rw [if_neg hne]
      exact h.value g hg hacting
    · rw [List.mem_singleton.mp hg, if_pos rfl]

end field

theorem Filling.takeAll (hplace : Channel.ofRegister? (c.base + off) = some (c, off))
    (atom : Nat) {front : List PendingWrite} {done fields : List BitField}
    (h : Filling c off byte front done k) (hsub : ∀ f ∈ fields, f ∈ registerFields (c.base + off))
    (hnodup : ((done ++ fields).map BitField.param).Nodup) :
    Filling c off byte front (done ++ fields)
      ((fields.map (fieldWrite c off byte atom)).foldl take k) := by
  induction fields generalizing done k with
  | nil => simpa using h
  | cons f fields ih =>
    rw [List.forall_mem_cons] at hsub
    have hnew : f.param ∉ done.map BitField.param := by
      rw [List.map_append, List.map_cons, List.nodup_append] at hnodup
      exact fun hmem => hnodup.2.2 _ hmem _ List.mem_cons_self rfl
    have hnext : Filling c off byte front (done ++ [f])
        (k.take (fieldWrite c off byte atom f)) := by
      cases hkept : kept k.values (fieldWrite c off byte atom f) with
      | false => exact h.skip hkept
      | true => exact h.join hplace byte atom hsub.1 hnew hkept
    rw [List.append_cons] at hnodup ⊢
    exact ih hnext hsub.2 hnodup

theorem takeAll_ignored {writes : List ParamWrite}
    (h : ∀ w ∈ writes, ignored w.channel w.param = true) (k : Cycle) :
    ∃ values, writes.foldl take k = { k with values := values } := by
  induction writes generalizing k with
  | nil => exact ⟨k.values, rfl⟩
  | cons w writes ih =>
    rw [List.forall_mem_cons] at h
    obtain ⟨values, hvalues⟩ := ih h.2 (k.take w)
    refine ⟨values, ?_⟩
    rw [List.foldl_cons, hvalues, take, not_kept_of_ignored h.1]
    rfl

/-- The physical write of a register has the acting changes of the byte that the register
was written. -/
theorem acts_entry (hplace : Channel.ofRegister? (c.base + off) = some (c, off)) {r : Registers}
    (h : ∀ f ∈ registerFields (c.base + off), acting c f.param = true →
      r.value c f.param = f.extract byte) (atom key : Nat) :
    (r.entry ⟨c, off, key⟩).acts =
      actingOf ((splitByte c off byte atom).map ParamWrite.change) := by
  have hread : ∀ f ∈ registerFields (c.base + off),
      r.value c f.param = f.extract (r.byteAt c off) := by
    intro f hf
    have hfind := Channel.find?_eq_some (fieldsAt?_of_ofRegister? hplace) hf
    simp [Registers.value, hfind]
  show actingOf ((splitByte c off (r.byteAt c off) 0).map ParamWrite.change) = _
  rw [splitByte_eq hplace, splitByte_eq hplace, List.map_map, List.map_map, actingOf, actingOf,
    List.filter_map, List.filter_map]
  apply List.map_congr_left
  intro f hf
  obtain ⟨hf, hacting⟩ := List.mem_filter.mp hf
  simp only [Function.comp_apply, fieldWrite, ParamWrite.change]
  rw [← hread f hf, h f hf hacting]

/-- A write to a register with an acting field, through the cycle: its acting changes join
those of the run. -/
theorem Ready.takeAll_loud (h : k.Ready)
    (hplace : Channel.ofRegister? (c.base + off) = some (c, off)) {f : BitField}
    (hf : f ∈ registerFields (c.base + off)) (hacting : acting c f.param = true) (atom : Nat) :
    ((splitByte c off byte atom).foldl take k).Ready ∧
      ((splitByte c off byte atom).foldl take k).acts =
        k.acts ++ actingOf ((splitByte c off byte atom).map ParamWrite.change) := by
  obtain ⟨front, first, behind, hfields, hfront, hfirst⟩ := exists_first_acting hplace hf hacting
  have hsub : ∀ g ∈ first :: behind, g ∈ registerFields (c.base + off) := by
    intro g hg
    rw [hfields]
    exact List.mem_append_right front hg
  have hnodup : (([first] ++ behind).map BitField.param).Nodup := by
    have hall := nodup_registerFields (c.base + off)
    rw [hfields, List.map_append] at hall
    exact (List.nodup_append.mp hall).2.1
  have hignored : ∀ w ∈ front.map (fieldWrite c off byte atom),
      ignored w.channel w.param = true := by
    intro w hw
    obtain ⟨g, hg, rfl⟩ := List.mem_map.mp hw
    exact hfront g hg
  obtain ⟨values, hvalues⟩ := takeAll_ignored hignored k
  have hstart : Ready { k with values := values } := ⟨h.ends, h.empty, h.full⟩
  have hfill := (hstart.first hplace byte atom (hsub first List.mem_cons_self) hfirst).takeAll
    hplace atom (fun g hg => hsub g (List.mem_cons_of_mem first hg)) hnodup
  have htake : (splitByte c off byte atom).foldl take k =
      (behind.map (fieldWrite c off byte atom)).foldl take
        (take { k with values := values } (fieldWrite c off byte atom first)) := by
    rw [splitByte_eq hplace, hfields, List.map_append, List.foldl_append, hvalues]
    rfl
  rw [← htake] at hfill
  generalize (splitByte c off byte atom).foldl take k = k' at hfill ⊢
  -- an acting field is not among the ignored ones in front
  have hdone : ∀ g ∈ registerFields (c.base + off), acting c g.param = true →
      g ∈ [first] ++ behind := by
    intro g hg hgacting
    rw [hfields] at hg
    rcases List.mem_append.mp hg with hg | hg
    · have hboth := hfront g hg
      rw [not_ignored_of_acting hgacting] at hboth
      cases hboth
    · exact hg
  refine ⟨⟨hfill.ends, ?_, ?_⟩, ?_⟩
  · intro hnone
    rw [hfill.register] at hnone
    cases hnone
  · intro c' off' hregister g hg hgacting
    rw [hfill.register] at hregister
    cases hregister
    exact hfill.full g (hdone g hg hgacting) hgacting
  · rw [acts, hfill.run, List.flatMap_append, List.flatMap_singleton,
      acts_entry hplace (fun g hg hgacting => hfill.value g (hdone g hg hgacting) hgacting) atom]
    rfl

end loud

theorem Ready.takeAll {k : Cycle} (h : k.Ready) {register : UInt8} {c : Channel} {off : UInt8}
    (hplace : Channel.ofRegister? register = some (c, off)) (byte : UInt8) (atom : Nat) :
    ((splitByte c off byte atom).foldl take k).Ready ∧
      ((splitByte c off byte atom).foldl take k).acts =
        k.acts ++ actingOf ((splitByte c off byte atom).map ParamWrite.change) := by
  obtain ⟨rfl, -, -⟩ := Channel.ofRegister?_spec hplace
  by_cases hquiet : ∀ f ∈ registerFields (c.base + off), acting c f.param = false
  · have hwrites : ∀ w ∈ splitByte c off byte atom,
        w.channel = c ∧ w.channel.offset? w.param = some off := by
      intro w hw
      rw [splitByte_eq hplace] at hw
      obtain ⟨f, hf, rfl⟩ := List.mem_map.mp hw
      exact ⟨rfl, offset?_fieldWrite hplace byte atom hf⟩
    rw [actingOf_splitByte hplace hquiet, List.append_nil]
    exact h.takeAll_quiet hplace hquiet hwrites
  · obtain ⟨f, hf, hacting⟩ : ∃ f ∈ registerFields (c.base + off), acting c f.param = true := by
      simpa using hquiet
    exact h.takeAll_loud hplace hf hacting atom

/-- A log that was taken apart, through the cycle: at every wait the acting changes are
those of the log. -/
theorem Ready.trail_back {k : Cycle} (h : k.Ready) {s : AtomState} {steps : List (Step RegisterOp)}
    {out : List (Step ParamWrite)} (hout : disassembleFrom s [] steps = .ok out)
    (acts : List Change) :
    trail (fun acts w => hearActing acts (ParamWrite.change w)) acts (k.back out) =
      trail (fun acts w => hearActing acts w.change) (acts ++ k.acts) out := by
  have hrun : ∀ (k : Cycle) (acts : List Change) (rest : List (Step ParamWrite)),
      trail (fun acts w => hearActing acts (ParamWrite.change w)) acts
          ((k.run.flatMap PendingWrite.writes).map .act ++ rest) =
        trail (fun acts w => hearActing acts w.change) (acts ++ k.acts) rest := by
    intro k acts rest
    rw [trail_acts, foldl_hearActing, actingOf_flatMap_writes]
    rfl
  induction steps generalizing k s out acts with
  | nil =>
    cases hout
    have hback := hrun k acts []
    rw [List.append_nil] at hback
    exact hback
  | cons step rest ih =>
    obtain ⟨s', front, tail, hstep, htail, rfl⟩ := disassembleFrom_cons.mp hout
    cases step with
    | wait n =>
      cases hstep
      rw [List.singleton_append, back_wait, hrun, trail_wait, trail_wait, ih k.ready_close htail]
      simp [Cycle.acts, close]
    | act op =>
      cases op with
      | data kind payload =>
        cases hstep
        exact ih h htail acts
      | write register value =>
        cases hplace : Channel.ofRegister? register with
        | none => simp only [disassembleStep, hplace, reduceCtorEq] at hstep
        | some place =>
          obtain ⟨c, off⟩ := place
          simp only [disassembleStep, hplace, Except.ok.injEq, Prod.mk.injEq] at hstep
          obtain ⟨rfl, rfl⟩ := hstep
          obtain ⟨hready, hacts⟩ := h.takeAll hplace value (s.touch (c, off)).atom
          rw [back_acts, ih hready htail, hacts, trail_acts, foldl_hearActing, List.append_assoc]

end Cycle

/-! ## Sweeps -/

theorem sweeps_registerFields {register : UInt8} (h1 : register ≠ 0x01) (h5 : register ≠ 0x05) :
    ∀ f ∈ registerFields register, f.param.sweeps = false := by
  have htable : ∀ register, register ≠ 0x01 → register ≠ 0x05 →
      ∀ f ∈ registerFields register, f.param.sweeps = false :=
    forall_byte (by decide +kernel)
  exact htable register h1 h5

theorem quiet_disassembled {s : AtomState} {steps : List (Step RegisterOp)}
    {out : List (Step ParamWrite)} (hout : disassembleFrom s [] steps = .ok out)
    (h : ∀ value, .act (.write 0x01 value) ∉ steps ∧ .act (.write 0x05 value) ∉ steps) :
    ∀ w ∈ writesIn out, w.param.sweeps = false := by
  have hchanges := map_change_disassembleFrom hout
  intro w hw
  have hmem : Step.act w.change ∈ out.map (Step.mapAct ParamWrite.change) :=
    List.mem_map.mpr ⟨.act w, mem_writesIn.mp hw, rfl⟩
  rw [hchanges, List.mem_flatMap] at hmem
  obtain ⟨step, hstep, hmem⟩ := hmem
  cases step with
  | wait n => cases List.mem_singleton.mp hmem
  | act op =>
    cases op with
    | data kind payload => cases hmem
    | write register value =>
      have hregister : register ≠ 0x01 ∧ register ≠ 0x05 := by
        constructor <;> rintro rfl
        · exact (h value).1 hstep
        · exact (h value).2 hstep
      simp only [changesOf] at hmem
      cases hplace : Channel.ofRegister? register with
      | none => simp [hplace] at hmem
      | some place =>
        simp only [hplace, List.mem_map, Step.act.injEq] at hmem
        obtain ⟨f, hf, hchange⟩ := hmem
        have hparam : f.param = w.param := congrArg Change.param hchange
        rw [← hparam]
        exact sweeps_registerFields hregister.1 hregister.2 f hf

def WriteKey.Plain (k : WriteKey) : Prop :=
  ∀ f ∈ (k.channel.fieldsAt? k.offset).getD [], f.param.sweeps = false

/-- A register holds nothing but a sweep, or no part of one. -/
theorem plain_key {w : ParamWrite} (hplaced : w.Placed) (htaken : w.taken = true)
    (h : w.param.sweeps = false) : w.key.Plain := by
  obtain ⟨f, hfind, -⟩ := ParamWrite.exists_field hplaced htaken
  have htable : ∀ c : Channel, ∀ p ∈ Param.all, p.sweeps = false → ∀ place ∈ c.find? p,
      ∀ f ∈ (c.fieldsAt? place.1).getD [], f.param.sweeps = false := by
    intro c
    cases c <;> decide +kernel
  exact htable _ _ w.param.mem_all h _ hfind

theorem plain_writes {run : List PendingWrite} (h : ∀ p ∈ run, p.key.Plain) :
    ∀ w ∈ run.flatMap PendingWrite.writes, w.param.sweeps = false := by
  intro w hw
  obtain ⟨p, hp, hw⟩ := List.mem_flatMap.mp hw
  obtain ⟨f, hf, rfl⟩ := List.mem_map.mp hw
  exact h p hp f hf

theorem quiet_physical {steps : List (Step ParamWrite)}
    (h : ∀ w ∈ writesIn steps, w.Placed ∧ w.taken = true)
    (hsweep : ∀ w ∈ writesIn steps, w.param.sweeps = false) (r : Registers)
    {run : List PendingWrite} (hrun : ∀ p ∈ run, p.key.Plain) :
    ∀ w ∈ writesIn (physical r run steps), w.param.sweeps = false := by
  induction steps generalizing r run with
  | nil =>
    rw [physical, writesIn_acts]
    exact plain_writes hrun
  | cons step rest ih =>
    cases step with
    | wait n =>
      rw [physical, writesIn_append, writesIn_acts, writesIn_wait, List.forall_mem_append]
      exact ⟨plain_writes hrun, ih h hsweep r (by simp)⟩
    | act w =>
      obtain ⟨⟨hplaced, htaken⟩, hrest⟩ := List.forall_mem_cons.mp
        (show ∀ x ∈ w :: writesIn rest, x.Placed ∧ x.taken = true from h)
      obtain ⟨hfirst, hquiet⟩ := List.forall_mem_cons.mp
        (show ∀ x ∈ w :: writesIn rest, x.param.sweeps = false from hsweep)
      exact ih hrest hquiet (r.put w)
        (forall_merge (fun _ _ hq => hq) hrun (plain_key hplaced htaken hfirst))

/-! ## The inaudible cycle -/

theorem recalls_new (v : Voice) (clock : Clock) :
    v.Recalls (Registers.zero.value v.channel) {} (Apu.new clock) := by
  have hzero : Registers.zero.value v.channel = Values.initial.get v.channel := by
    rw [Values.get_initial]
    funext p
    have htable : ∀ p ∈ Param.all, Registers.zero.value v.channel p = 0 := by
      cases v <;> decide +kernel
    exact htable p p.mem_all
  rw [hzero]
  exact Voice.Recalls.new v clock

theorem played_compacted {t : Timeline RegisterOp} {steps : List (Step ParamWrite)}
    (hsteps : disassembleFrom {} [] t.steps = .ok steps)
    (h : ∀ value, .act (.write 0x01 value) ∉ t.steps ∧ .act (.write 0x05 value) ∉ t.steps) :
    played (Apu.new t.clock) (batches []
        (physical Registers.zero [] (regrouped {} (keptSteps Values.initial steps)))) =
      played (Apu.new t.clock) (batches [] steps) := by
  have hquiet := quiet_disassembled hsteps h
  have htaken : ∀ w ∈ writesIn (keptSteps Values.initial steps), w.taken = true :=
    fun w hw => taken_disassembled hsteps w (writesIn_keptSteps _ _ w hw)
  have hagain : ∀ w ∈ writesIn (regrouped {} (keptSteps Values.initial steps)),
      w.param.sweeps = false := by
    intro w hw
    obtain ⟨x, hx, hchange⟩ := exists_write (map_change_regrouped {} _) w hw
    rw [← show x.param = w.param from congrArg Change.param hchange]
    exact hquiet x (writesIn_keptSteps _ _ x hx)
  have hback := quiet_physical (placed_regrouped {} htaken) hagain Registers.zero
    (show ∀ p ∈ ([] : List PendingWrite), p.key.Plain by simp)
  -- the acting changes by the cycle, the values by the file that the bytes leave
  have hacts : trail hearActing [] ((physical Registers.zero []
      (regrouped {} (keptSteps Values.initial steps))).map (Step.mapAct ParamWrite.change)) =
        trail hearActing [] (steps.map (Step.mapAct ParamWrite.change)) := by
    rw [trail_mapAct, trail_mapAct]
    exact (Cycle.ready_close ⟨Values.initial, {}, Registers.zero, []⟩).trail_back hsteps []
  obtain ⟨changes, raw, -, -, -, hknown, htrail, hphysical⟩ := compacted hsteps
  rw [registerTrail, values_registerTrail hknown, hphysical] at htrail
  have hstart : Told (Apu.new t.clock).step [] Registers.zero.value
      ((Apu.new t.clock).step.setAll []) :=
    .start fun v => (recalls_new v t.clock).step
  refine played_eq_of_trails [] hquiet hback hstart hstart hacts ?_
  rw [htrail]
  exact values_keptSteps (fun _ _ _ => rfl) fun c p => get_initial_eq

/-- As long as no sweep register is written, the compact cycle of a log that is taken
apart is inaudible: the cycle succeeds, and the log that comes back is replayed to the same
score, with the same clock, the same number of samples and the same four slots at every
sample. -/
theorem replay_compacted {log : RegisterLog} {params : ParamLog}
    (h : disassemble log = .ok params)
    (hsweep : ∀ value, .act (.write 0x01 value) ∉ log ∧ .act (.write 0x05 value) ∉ log) :
    ∃ changes again raw back s, prune params = .ok changes ∧ regroup changes = .ok again ∧
      assemble again = .ok raw ∧ disassemble raw = .ok back ∧ replay params = .ok s ∧
      replay back = .ok s := by
  obtain ⟨t, steps, rfl, hsteps, rfl⟩ := disassemble_eq_ok.mp h
  have htaken := taken_disassembled hsteps
  have hkept : ∀ w ∈ writesIn (keptSteps Values.initial steps), w.taken = true :=
    fun w hw => htaken w (writesIn_keptSteps _ _ w hw)
  have hquiet : ∀ value, .act (.write 0x01 value) ∉ t.steps ∧
      .act (.write 0x05 value) ∉ t.steps := by
    intro value
    have hmem : ∀ op, Step.act op ∈ t.steps → Event.act op ∈ t.toEvents :=
      fun op hop => List.mem_cons_of_mem _ (List.mem_map.mpr ⟨_, hop, rfl⟩)
    exact ⟨fun hop => (hsweep value).1 (hmem _ hop), fun hop => (hsweep value).2 (hmem _ hop)⟩
  obtain ⟨raw, back, hraw, hback, hreplay⟩ := replay_disassemble_assemble
    (t := ⟨t.clock, regrouped {} (keptSteps Values.initial steps)⟩) (placed_regrouped {} hkept)
  rw [played_compacted hsteps hquiet, totalSamples_regrouped, totalSamples_keptSteps] at hreplay
  exact ⟨_, _, raw, back, _, prune_toEvents ⟨t.clock, steps⟩, regroup_toEvents t.clock hkept, hraw,
    hback, replay_eq_ok.mpr ⟨⟨t.clock, steps⟩, rfl, htaken, rfl⟩, hreplay⟩

/-- A log that enables the voices and loads a counter again and again, repeats a volume and
a period byte, writes one register twice in a run and sets bits that nobody hears: two
writes fewer come back, and they play the same score. -/
theorem replay_compacted_repeated :
    let log : RegisterLog := [.clock .pal, .act (.write 0x15 0x1F), .act (.write 0x00 0x7F),
      .act (.write 0x02 0x40), .act (.write 0x03 0x09), .act (.write 0x03 0x11),
      .act (.write 0x17 0x40), .wait 2, .act (.write 0x00 0x7F), .act (.write 0x02 0x40),
      .act (.write 0x03 0x11), .act (.write 0x0B 0xF8), .act (.write 0x15 0x1E), .wait 1]
    let raw : RegisterLog := [.clock .pal, .act (.write 0x15 0x0F), .act (.write 0x00 0x7F),
      .act (.write 0x02 0x40), .act (.write 0x03 0x09), .act (.write 0x03 0x11),
      .act (.write 0x17 0x00), .wait 2, .act (.write 0x03 0x11), .act (.write 0x0B 0xF8),
      .act (.write 0x15 0x0E), .wait 1]
    (disassemble log >>= prune >>= regroup >>= assemble) = .ok raw ∧
      ∃ s, (disassemble log >>= replay) = .ok s ∧ (disassemble raw >>= replay) = .ok s := by
  intro log raw
  have hcycle : (disassemble log >>= prune >>= regroup >>= assemble) = .ok raw := rfl
  refine ⟨hcycle, ?_⟩
  obtain ⟨params, hparams⟩ : ∃ params, disassemble log = .ok params := ⟨_, rfl⟩
  obtain ⟨changes, again, raw', back, s, hchanges, hagain, hraw, hback, hreplay, hsame⟩ :=
    replay_compacted hparams (by simp [log])
  rw [hparams] at hcycle
  simp only [bind, Except.bind, hchanges, hagain, hraw] at hcycle
  cases hcycle
  refine ⟨s, ?_, ?_⟩
  · rw [hparams]
    exact hreplay
  · rw [hback]
    exact hsame

end ApuScore

import ApuScore.Proofs.Bytes
import ApuScore.Proofs.Waits
import ApuScore.Proofs.Grammar
/-
  Commands read back.

  Every command that is written is a form of its step, so a written body is a stream of
  its steps' pieces (`stream_body`), and the reader ends at its end marker
  (`stepsFrom_body`). A payload is skipped by its length and never looked at; what counts
  is that its length fits four bytes (`Step.Writable`).
-/

namespace ApuScore

theorem form_waitBytes {n : Nat} (h : n ≤ longestWait) : CommandForm (waitBytes n) (.wait n) := by
  have hform := CommandForm.wait (Bytes.length_le 2 n)
  rwa [Bytes.ofLe_le (Nat.lt_succ_of_le h)] at hform

theorem form_dataBytes (kind : UInt8) {payload : Bytes} (h : payload.length ≤ 0xFFFFFFFF) :
    CommandForm (0x67 :: 0x66 :: kind :: (Bytes.le 4 payload.length ++ payload))
      (.act (.data kind payload)) :=
  .data kind (Bytes.length_le 4 _) (Bytes.ofLe_le (Nat.lt_succ_of_le h)).symm

/-- The size of the step's payload, if it has one, can be written in four bytes. -/
def Step.Writable : Step RegisterOp → Prop
  | .act (.data _ payload) => payload.length ≤ 0xFFFFFFFF
  | _ => True

theorem CommandForm.writable {bytes : Bytes} {s : Step RegisterOp} (h : CommandForm bytes s) :
    s.Writable := by
  cases h with
  | @data kind size payload hsize hpayload =>
    rw [Step.Writable, hpayload]
    exact Nat.le_of_lt_succ (Bytes.ofLe_lt (Nat.le_of_eq hsize))
  | _ => trivial

theorem writable_of_length_bytes {s : Step RegisterOp} (h : s.bytes.length ≤ 0xFFFFFFFF) :
    s.Writable := by
  cases s with
  | wait n => trivial
  | act op =>
    cases op with
    | write register value => trivial
    | data kind payload =>
      simp only [Step.bytes, List.length_append, List.length_cons] at h
      rw [Step.Writable]
      omega

section

variable {bytes rest : Bytes} {steps : List (Step RegisterOp)} (h : CommandStream bytes steps rest)
include h

theorem CommandStream.writable : ∀ s ∈ steps, s.Writable := by
  induction h with
  | stop rest =>
    intro s hs
    cases hs
  | step hform _ ih => exact List.forall_mem_cons.mpr ⟨hform.writable, ih⟩

theorem stream_waits {ns : List Nat} (hns : ∀ n ∈ ns, n ≤ longestWait) :
    CommandStream (ns.flatMap waitBytes ++ bytes) (ns.map .wait ++ steps) rest := by
  induction ns with
  | nil => exact h
  | cons n ns ih =>
    rw [List.forall_mem_cons] at hns
    rw [List.flatMap_cons, List.append_assoc]
    exact .step (form_waitBytes hns.1) (ih hns.2)

theorem stream_step {s : Step RegisterOp} (hs : s.Writable) :
    CommandStream (s.bytes ++ bytes) (s.pieces ++ steps) rest := by
  cases s with
  | wait n => exact stream_waits h (waitPieces_le n)
  | act op =>
    cases op with
    | write register value => exact .step (.write register value) h
    | data kind payload => exact .step (form_dataBytes kind hs) h

end

namespace Trace

theorem stream_body {steps : List (Step RegisterOp)} (h : ∀ s ∈ steps, s.Writable) :
    CommandStream (body steps) (steps.flatMap Step.pieces) [] := by
  induction steps with
  | nil => exact .stop []
  | cons s steps ih =>
    rw [List.forall_mem_cons] at h
    have hsplit : body (s :: steps) = s.bytes ++ body steps := by
      rw [body, List.flatMap_cons, List.append_assoc]
      rfl
    rw [hsplit, List.flatMap_cons]
    exact stream_step (ih h.2) h.1

/-- The reader finds the pieces of every step up to the end marker. -/
theorem stepsFrom_body (steps : List (Step RegisterOp)) (off : Nat)
    (h : (body steps).length ≤ 0xFFFFFFFF) :
    stepsFrom off 0 [] (body steps) = .ok (steps.flatMap Step.pieces) := by
  refine stepsFrom_eq_ok.mpr ⟨[], stream_body ?_⟩
  intro s hs
  apply writable_of_length_bytes
  have hle := (List.sublist_flatten_of_mem (List.mem_map_of_mem (f := Step.bytes) hs)).length_le
  rw [body, List.length_append, List.flatMap_def] at h
  omega

end Trace

end ApuScore

import LAppS.Rfc6455.Fragments
import LAppS.Rfc6455.Unique

/-!
# Messages one after the other

A stream of data messages, each in one frame or in several.
-/

namespace LAppS.Rfc6455

/-- The frames carry these messages in their order. -/
inductive CarriesAll : List Frame → List (OpCode × List UInt8) → Prop where
  | nil : CarriesAll [] []
  | cons {fs gs : List Frame} {m : OpCode × List UInt8} {ms : List (OpCode × List UInt8)}
      (first : Carries none fs m.1 m.2) (rest : CarriesAll gs ms) : CarriesAll (fs ++ gs) (m :: ms)

def Event.ofMessage (m : OpCode × List UInt8) : Event := .message m.1 m.2

variable {fs gs : List Frame} {ms : List (OpCode × List UInt8)} {limit : Nat} {pd : Pending}

theorem withinSeq_append : WithinSeq limit pd (fs ++ gs) ↔ WithinSeq limit pd fs ∧ WithinSeq limit (pendingAfter pd fs) gs := by
  induction fs generalizing pd with
  | nil => exact (and_iff_right trivial).symm
  | cons f fs ih =>
    rw [List.cons_append, WithinSeq, WithinSeq, ih, and_assoc]
    rfl

namespace CarriesAll

theorem stays (h : CarriesAll fs ms) : ∀ f ∈ fs, f.endsStream = false := by
  induction h with
  | nil => exact fun f hf => absurd hf List.not_mem_nil
  | cons first rest ih =>
    intro f hf
    rcases List.mem_append.mp hf with hf | hf
    · exact endsStream_of_data (first.control_free f hf)
    · exact ih f hf

theorem legalSeq (h : CarriesAll fs ms) : LegalSeq none fs := by
  induction h with
  | nil => trivial
  | cons first rest ih =>
    refine (legalSeq_append fun f hf => endsStream_of_data (first.control_free f hf)).mpr ⟨first.legalSeq, ?_⟩
    rw [first.assemble.2]
    exact ih

theorem withinSeq (h : CarriesAll fs ms) (short : ∀ m ∈ ms, m.2.length ≤ limit) : WithinSeq limit none fs := by
  induction h with
  | nil => trivial
  | cons first rest ih =>
    obtain ⟨head, tail⟩ := List.forall_mem_cons.mp short
    refine withinSeq_append.mpr ⟨first.withinSeq head, ?_⟩
    rw [first.assemble.2]
    exact ih tail

theorem assemble (h : CarriesAll fs ms) : Rfc6455.assemble none fs = ms.map Event.ofMessage := by
  induction h with
  | nil => rfl
  | cons first rest ih =>
    rw [assemble_append, first.assemble.1, first.assemble.2, ih]
    rfl

end CarriesAll

end LAppS.Rfc6455

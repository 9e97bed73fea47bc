import LAppS.Rfc6455.Frame

/-!
# Unique reading

The bytes of a sequence of unmasked frames determine the frames, up to the key that they do not have.
-/

namespace LAppS.Rfc6455
open Bytes

/-- A frame without its masking key. -/
def Frame.unkeyed (f : Frame) : Frame := { f with key := fun _ => 0 }

theorem Frame.unkeyed_eq {f g : Frame} (fin : f.fin = g.fin) (opcode : f.opcode = g.opcode) (form : f.form = g.form)
    (payload : f.payload = g.payload) : f.unkeyed = g.unkeyed := by
  obtain ⟨_, _, _, _, _, _⟩ := f
  obtain ⟨_, _, _, _, _, _⟩ := g
  subst fin opcode form payload
  rfl

theorem lengthCode_inj {f g : Frame} (h : f.lengthCode = g.lengthCode) : f.form = g.form := by
  have hf := f.fits
  have hg := g.fits
  have := congrArg UInt8.toNat h
  unfold Frame.lengthCode at this
  cases hform : f.form <;> cases gform : g.form <;> rw [hform] at hf this <;> rw [gform] at hg this <;>
    simp [LengthForm.Fits] at this hf hg ⊢ <;> omega

theorem extended_length {f g : Frame} (form : f.form = g.form) : f.extended.length = g.extended.length := by
  unfold Frame.extended
  rw [form]
  cases g.form <;> simp

/-- The length code and the extended length determine the length. -/
theorem length_inj {f g : Frame} (code : f.lengthCode = g.lengthCode) (extended : f.extended = g.extended) :
    f.payload.length = g.payload.length := by
  have hf := f.fits
  have hg := g.fits
  have form := lengthCode_inj code
  unfold Frame.lengthCode at code
  unfold Frame.extended at extended
  rw [form] at code extended hf
  cases gform : g.form <;> rw [gform] at code extended hf hg <;>
    dsimp only at code extended
  · have := congrArg UInt8.toNat code
    simp [LengthForm.Fits] at this hf hg
    omega
  · rw [← beToNat_beBytes hf, ← beToNat_beBytes hg, extended]
  · rw [← beToNat_beBytes hf, ← beToNat_beBytes hg, extended]

theorem encode_append_inj {f g : Frame} {xs ys : List UInt8} (h : f.encode false ++ xs = g.encode false ++ ys) :
    f.unkeyed = g.unkeyed ∧ xs = ys := by
  simp only [Frame.encode, Frame.header, Bool.false_eq_true, if_false, List.append_nil, List.cons_append,
    List.append_assoc] at h
  obtain ⟨first, h⟩ := List.cons.inj h
  obtain ⟨second, h⟩ := List.cons.inj h
  have code : f.lengthCode = g.lengthCode := by
    rw [← (secondByte_bits false f).2, second, (secondByte_bits false g).2]
  obtain ⟨extended, h⟩ := List.append_inj h (extended_length (lengthCode_inj code))
  obtain ⟨payload, rest⟩ := List.append_inj h (length_inj code extended)
  refine ⟨Frame.unkeyed_eq ?_ ?_ (lengthCode_inj code) payload, rest⟩
  · rw [← firstByte_fin f, first, firstByte_fin g]
  · rw [← firstByte_opcode f, first, firstByte_opcode g]

/-- Two sequences of frames with the same bytes are the same up to keys. -/
theorem encodeAll_inj {fs gs : List Frame} (h : encodeAll false fs = encodeAll false gs) :
    fs.map Frame.unkeyed = gs.map Frame.unkeyed := by
  induction fs generalizing gs with
  | nil =>
    cases gs with
    | nil => rfl
    | cons g gs => exact absurd (List.append_eq_nil_iff.mp h.symm).1 (g.encode_ne_nil false)
  | cons f fs ih =>
    cases gs with
    | nil => exact absurd (List.append_eq_nil_iff.mp h).1 (f.encode_ne_nil false)
    | cons g gs =>
      obtain ⟨hf, hfs⟩ := encode_append_inj h
      rw [List.map_cons, List.map_cons, hf, ih hfs]

/-- Legality does not depend on keys. -/
theorem legalSeq_unkeyed (pd : Pending) (fs : List Frame) : LegalSeq pd (fs.map Frame.unkeyed) ↔ LegalSeq pd fs := by
  induction fs generalizing pd with
  | nil => rfl
  | cons f fs ih =>
    rw [List.map_cons, LegalSeq, LegalSeq, List.map_eq_nil_iff]
    exact and_congr Iff.rfl (and_congr Iff.rfl (ih _))

/-- Whether a stream is legal can be told from its bytes. -/
theorem legalSeq_of_encodeAll {fs gs : List Frame} (h : encodeAll false fs = encodeAll false gs)
    (legal : LegalSeq none fs) : LegalSeq none gs := by
  rw [← legalSeq_unkeyed, ← encodeAll_inj h, legalSeq_unkeyed]
  exact legal

theorem legalSeq_append {pd : Pending} {fs gs : List Frame} (stays : ∀ f ∈ fs, f.endsStream = false) :
    LegalSeq pd (fs ++ gs) ↔ LegalSeq pd fs ∧ LegalSeq (pendingAfter pd fs) gs := by
  induction fs generalizing pd with
  | nil => simp [LegalSeq, pendingAfter]
  | cons f fs ih =>
    have goesOn : f.endsStream ≠ true := by simp [stays f List.mem_cons_self]
    rw [List.cons_append, LegalSeq, LegalSeq, ih (fun g hg => stays g (List.mem_cons_of_mem _ hg))]
    simp [goesOn, pendingAfter, and_assoc]

theorem assemble_append (pd : Pending) (fs gs : List Frame) :
    assemble pd (fs ++ gs) = assemble pd fs ++ assemble (pendingAfter pd fs) gs := by
  induction fs generalizing pd with
  | nil => rfl
  | cons f fs ih =>
    rw [List.cons_append, assemble, assemble, ih, List.append_assoc]
    rfl

theorem pendingAfter_append (pd : Pending) (fs gs : List Frame) :
    pendingAfter pd (fs ++ gs) = pendingAfter (pendingAfter pd fs) gs := List.foldl_append

end LAppS.Rfc6455

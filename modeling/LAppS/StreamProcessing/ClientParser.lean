import LAppS.Rfc6455.Lazy
import LAppS.StreamProcessing.Drain

/-!
# The client parser

The client parser reads the key states of the masked format although its frames have no key, and asks for
more input before it looks at a payload, even an empty one. It delivers every message of a legal stream,
but a message whose last frame is empty only with the byte that follows it.
-/

namespace LAppS.StreamProcessing
open Rfc6455 Bytes DefiniteCloseCode

variable {presz limit : Nat} {fs : List Frame} {chunks : List (List UInt8)}

/-- Over a prefix of a legal stream the client parser delivers what the lazy decoder reports. -/
theorem client_received (hlimit : limit < 2 ^ 64) (legal : LegalSeq none fs) (within : WithinSeq limit none fs)
    (nonempty : [] ∉ chunks) (hinitial : chunks.flatten <+: encodeAll false fs) :
    (received .client presz limit chunks).1 =
      (Decoder.run (Role.config .client limit) {} chunks.flatten).2 := by
  obtain ⟨rest, hrest⟩ := hinitial
  have along := along_encodeAll (clear_permits .client hlimit) legal within
  have here : Decoder.Along (Role.config .client limit) (Clear limit) {} chunks.flatten := by
    have split : encodeAll (Role.config .client limit).masked fs = chunks.flatten ++ rest := hrest.symm
    rw [split, Decoder.along_append] at along
    exact along.1
  rw [received_run presz nonempty here]

/-- Over a prefix of a legal stream the messages of the complete frames have been delivered, exactly when the
prefix does not end with an empty frame that completes a message. -/
theorem client_prompt_at (presz : Nat) (hlimit : limit < 2 ^ 64) (legal : LegalSeq none fs)
    (within : WithinSeq limit none fs) (nonempty : [] ∉ chunks) (hinitial : chunks.flatten <+: encodeAll false fs) :
    (received .client presz limit chunks).1 = assemble none (completeIn false fs chunks.flatten.length) ↔
      ¬EmptyEndsAt false fs chunks.flatten.length := by
  have bytes : chunks.flatten = (encodeAll false fs).take chunks.flatten.length := List.prefix_iff_eq_take.mp hinitial
  have delivered : (received .client presz limit chunks).1 = _ :=
    client_received hlimit legal within nonempty hinitial
  have complete : (Decoder.run (Role.config .client limit).eagerly {}
      ((encodeAll false fs).take chunks.flatten.length)).2 = _ :=
    run_take (P := fun _ => True) (fun _ _ _ _ _ => trivial) legal within (.inl rfl) _
  have exactly : (Decoder.settle (Decoder.run (Role.config .client limit) {}
      ((encodeAll false fs).take chunks.flatten.length)).1).2 = [] ↔ _ :=
    settle_take rfl legal within hinitial.length_le
  rw [← bytes] at complete exactly
  have behind : _ ++ _ = (Decoder.run (Role.config .client limit).eagerly {} chunks.flatten).2 :=
    (Prod.mk.inj (Decoder.settled_run rfl {} chunks.flatten)).2
  have eager : (Decoder.run (Role.config .client limit) {} chunks.flatten).2 ++
      (Decoder.settle (Decoder.run (Role.config .client limit) {} chunks.flatten).1).2 =
      assemble none (completeIn false fs chunks.flatten.length) := behind.trans complete
  rw [delivered, ← eager, List.self_eq_append_right]
  exact exactly

theorem flatten_take_initial (chunks : List (List UInt8)) (n : Nat) : (chunks.take n).flatten <+: chunks.flatten := by
  refine ⟨(chunks.drop n).flatten, ?_⟩
  rw [← List.flatten_append, List.take_append_drop]

/-- After every chunk the messages of the frames that are complete by then have been delivered, exactly when
no frame without payload that completes a message ends with a chunk. -/
theorem client_prompt_iff (presz limit : Nat) (fs : List Frame) (chunks : List (List UInt8))
    (hlimit : limit < 2 ^ 64) (legal : LegalSeq none fs) (within : WithinSeq limit none fs)
    (nonempty : [] ∉ chunks) (stream : chunks.flatten = encodeAll false fs) :
    (∀ n, (received .client presz limit (chunks.take n)).1 =
        assemble none (completeIn false fs (chunks.take n).flatten.length)) ↔
      ∀ n, ¬EmptyEndsAt false fs (chunks.take n).flatten.length := by
  refine forall_congr' fun n => ?_
  exact client_prompt_at presz hlimit legal within (fun h => nonempty (List.mem_of_mem_take h))
    (stream ▸ flatten_take_initial chunks n)

/-- A ping without payload. -/
def emptyPing : Frame := ⟨true, .ping, .seven, fun _ => 0, [], LengthForm.fits_nil⟩

/-- An unfragmented text. -/
def shortText : Frame := ⟨true, .text, .seven, fun _ => 0, [104, 105], by simp [LengthForm.Fits]⟩

/-- The text in two chunks, cut inside the header. -/
def textChunks : List (List UInt8) := [[0x81], [0x02, 104, 105]]

theorem shortText_not_empty (n : Nat) : ¬EmptyEndsAt false [shortText] n := by
  rintro ⟨before, f, after, heq, -, hempty, -⟩
  have hf : f ∈ [shortText] := by rw [heq]; simp
  rw [List.mem_singleton.mp hf] at hempty
  cases hempty

/-- The text is delivered with its last byte. -/
theorem client_prompt_text :
    encodeAll false [shortText] = textChunks.flatten ∧
    ∀ n, (received .client 512 1024 (textChunks.take n)).1 =
      assemble none (completeIn false [shortText] (textChunks.take n).flatten.length) :=
  ⟨by decide,
    (client_prompt_iff 512 1024 [shortText] textChunks (by decide) ⟨rfl, nofun, trivial⟩
      ⟨⟨by decide, nofun⟩, trivial⟩ (by decide) (by decide)).mpr fun _ => shortText_not_empty _⟩

/-- A ping without payload is not delivered with its last byte. -/
theorem client_prompt_counterexample :
    encodeAll false [emptyPing] = [0x89, 0x00] ∧ LegalSeq none [emptyPing] ∧ WithinSeq 1024 none [emptyPing] ∧
    (received .client 512 1024 [[0x89, 0x00]]).1 = [] ∧
    assemble none (completeIn false [emptyPing] 2) = [.message .ping []] := by
  refine ⟨by decide, ⟨⟨rfl, by decide⟩, nofun, trivial⟩, ⟨⟨by decide, nofun⟩, trivial⟩, ?_, by decide⟩
  decide +kernel

end LAppS.StreamProcessing

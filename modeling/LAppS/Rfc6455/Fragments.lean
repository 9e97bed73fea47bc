import LAppS.Rfc6455.Decoding

/-!
# One message as a sequence of frames

`Carries pd fs op payload`: the data frames `fs`, sent one after the other while `pd` is under way, complete
the message `(op, payload)` with their last frame and no message before it.
-/

namespace LAppS.Rfc6455
open Decoder

inductive Carries : Pending → List Frame → OpCode → List UInt8 → Prop where
  | last {pd : Pending} {f : Frame} {op : OpCode} {payload : List UInt8} (legal : f.Legal pd)
      (data : f.opcode.isControl = false) (completes : f.next pd = (none, [.message op payload])) :
      Carries pd [f] op payload
  | more {pd : Pending} {f : Frame} {fs : List Frame} {op : OpCode} {payload : List UInt8} (legal : f.Legal pd)
      (fragment : f.fin = false) (rest : Carries (f.next pd).1 fs op payload) :
      Carries pd (f :: fs) op payload

variable {pd : Pending} {f : Frame} {fs gs : List Frame} {op : OpCode} {payload : List UInt8} {limit : Nat}

theorem Frame.Legal.data_of_fragment (legal : f.Legal pd) (fragment : f.fin = false) :
    f.opcode.isControl = false := by
  unfold Frame.Legal at legal
  revert legal
  cases f.opcode <;> simp [OpCode.isControl, fragment]

theorem endsStream_of_data (data : f.opcode.isControl = false) : f.endsStream = false := by
  unfold Frame.endsStream
  cases h : f.opcode <;> simp_all [OpCode.isControl]

theorem Carries.ne_nil (h : Carries pd fs op payload) : fs ≠ [] := by
  cases h <;> simp

theorem Carries.control_free (h : Carries pd fs op payload) : ∀ f ∈ fs, f.opcode.isControl = false := by
  induction h with
  | last legal data completes =>
    intro f hf
    rwa [List.mem_singleton.mp hf]
  | more legal fragment rest ih =>
    intro f hf
    rcases List.mem_cons.mp hf with rfl | hf
    · exact legal.data_of_fragment fragment
    · exact ih f hf

/-- After a fragment a message is under way. -/
theorem next_isSome (legal : f.Legal pd) (fragment : f.fin = false) :
    (f.next pd).1.isSome = true := by
  obtain ⟨fin, op, form, key, payload, fits⟩ := f
  obtain rfl : fin = false := fragment
  cases op <;> simp only [Frame.Legal] at legal
  case continuation =>
    obtain ⟨m, rfl⟩ := Option.isSome_iff_exists.mp legal
    rfl
  case text | binary => rfl
  case close | ping | pong => exact absurd legal.1 (by simp)

theorem Carries.legalSeq (h : Carries pd fs op payload) : LegalSeq pd fs := by
  induction h with
  | last legal data completes => exact ⟨legal, fun _ => rfl, trivial⟩
  | more legal fragment rest ih =>
    have stays := endsStream_of_data (legal.data_of_fragment fragment)
    refine ⟨legal, fun ends => ?_, ih⟩
    rw [stays] at ends
    cases ends

theorem Carries.assemble (h : Carries pd fs op payload) :
    assemble pd fs = [.message op payload] ∧ pendingAfter pd fs = none := by
  induction h with
  | last legal data completes => simp [Rfc6455.assemble, pendingAfter, completes]
  | more legal fragment rest ih =>
    have quiet := (next_nil legal).mpr fragment
    exact ⟨by rw [Rfc6455.assemble, quiet, ih.1]; rfl, ih.2⟩

/-- Before the last frame there is no message. -/
theorem Carries.assemble_initial (h : Carries pd fs op payload) (hg : gs <+: fs) (proper : gs ≠ fs) :
    Rfc6455.assemble pd gs = [] := by
  induction h generalizing gs with
  | last legal data completes =>
    obtain ⟨rest, hrest⟩ := hg
    cases gs with
    | nil => rfl
    | cons g gs =>
      obtain ⟨rfl, htail⟩ := List.cons.inj hrest
      obtain ⟨rfl, rfl⟩ := List.append_eq_nil_iff.mp htail
      exact absurd rfl proper
  | more legal fragment rest ih =>
    cases gs with
    | nil => rfl
    | cons g gs =>
      obtain ⟨rfl, htail⟩ := List.cons_prefix_cons.mp hg
      have quiet := (next_nil legal).mpr fragment
      rw [Rfc6455.assemble, quiet, ih htail (fun h => proper (by rw [h]))]
      rfl

theorem next_used (legal : f.Legal pd) (fragment : f.fin = false) :
    used ⟨.start, (f.next pd).1⟩ = (if f.opcode = .continuation then used ⟨.start, pd⟩ else 0) + f.payload.length := by
  obtain ⟨fin, op, form, key, payload, fits⟩ := f
  cases op <;> simp only [Frame.Legal] at legal
  case continuation =>
    obtain ⟨⟨op, acc⟩, rfl⟩ := Option.isSome_iff_exists.mp legal
    obtain rfl : fin = false := fragment
    simp [Frame.next, used]
  case text | binary =>
    obtain rfl : fin = false := fragment
    simp [Frame.next, used]
  case close | ping | pong => exact absurd (legal.1.symm.trans fragment) (by simp)

theorem next_last (legal : f.Legal pd) (data : f.opcode.isControl = false)
    (completes : f.next pd = (none, [.message op payload])) :
    (if f.opcode = .continuation then used ⟨.start, pd⟩ else 0) + f.payload.length = payload.length := by
  obtain ⟨fin, op', form, key, bytes, fits⟩ := f
  cases op' <;> simp only [Frame.Legal, OpCode.isControl] at legal data
  case continuation =>
    obtain ⟨⟨op', acc⟩, rfl⟩ := Option.isSome_iff_exists.mp legal
    cases fin <;> simp [Frame.next] at completes
    simp [← completes.2, used]
  case text | binary =>
    cases fin <;> simp [Frame.next] at completes
    simp [← completes.2.2]
  case close | ping | pong => cases data

theorem within_of_total (h : (if f.opcode = .continuation then used ⟨.start, pd⟩ else 0) + f.payload.length ≤ limit) :
    f.Within limit pd := by
  refine ⟨by omega, fun hop m hm => ?_⟩
  rw [if_pos hop] at h
  cases hm
  exact h

theorem none_of_first (legal : f.Legal pd) (data : f.opcode.isControl = false)
    (first : f.opcode ≠ .continuation) : pd = none := by
  unfold Frame.Legal at legal
  revert legal data first
  cases f.opcode <;> simp [OpCode.isControl]

theorem used_le_total (legal : f.Legal pd) (data : f.opcode.isControl = false) :
    used ⟨.start, pd⟩ ≤ (if f.opcode = .continuation then used ⟨.start, pd⟩ else 0) + f.payload.length := by
  split
  · omega
  · rename_i first
    rw [none_of_first legal data first]
    exact Nat.zero_le _

theorem Carries.used_le (h : Carries pd fs op payload) : used ⟨.start, pd⟩ ≤ payload.length := by
  induction h with
  | last legal data completes => exact next_last legal data completes ▸ used_le_total legal data
  | more legal fragment rest ih =>
    rw [next_used legal fragment] at ih
    exact (used_le_total legal (legal.data_of_fragment fragment)).trans ih

/-- The frames stay within a limit that the message stays within. -/
theorem Carries.withinSeq (h : Carries pd fs op payload) (hlen : payload.length ≤ limit) :
    WithinSeq limit pd fs := by
  induction h with
  | last legal data completes => exact ⟨within_of_total (next_last legal data completes ▸ hlen), trivial⟩
  | more legal fragment rest ih =>
    have used := rest.used_le
    rw [next_used legal fragment] at used
    exact ⟨within_of_total (used.trans hlen), ih hlen⟩

/-! ### Complete frames -/

theorem completeIn_initial (masked : Bool) (fs : List Frame) (k : Nat) : completeIn masked fs k <+: fs := by
  induction fs generalizing k with
  | nil => exact List.prefix_rfl
  | cons f fs ih =>
    rw [completeIn]
    split
    · exact List.cons_prefix_cons.mpr ⟨rfl, ih _⟩
    · exact List.nil_prefix

theorem completeIn_all (masked : Bool) (fs : List Frame) :
    completeIn masked fs (encodeAll masked fs).length = fs := by
  induction fs with
  | nil => rfl
  | cons f fs ih =>
    rw [completeIn, encodeAll_cons, List.length_append, if_pos (Nat.le_add_right _ _), Nat.add_sub_cancel_left, ih]

theorem encodeAll_completeIn (masked : Bool) (fs : List Frame) (k : Nat) :
    (encodeAll masked (completeIn masked fs k)).length ≤ k := by
  induction fs generalizing k with
  | nil => exact Nat.zero_le _
  | cons f fs ih =>
    rw [completeIn]
    split
    · have := ih (k - (f.encode masked).length)
      rw [encodeAll_cons, List.length_append]
      omega
    · exact Nat.zero_le _

/-- After a proper part of the stream some frame is not complete. -/
theorem completeIn_ne {masked : Bool} {k : Nat} (h : k < (encodeAll masked fs).length) :
    completeIn masked fs k ≠ fs := by
  intro all
  have := encodeAll_completeIn masked fs k
  rw [all] at this
  omega

end LAppS.Rfc6455

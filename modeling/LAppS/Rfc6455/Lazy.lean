import LAppS.Rfc6455.Decoding

/-!
# Lazy and eager decoders

A lazy decoder, which completes a frame without payload only when the next byte arrives, is behind the
eager one by at most that frame, and exactly where such a frame ends.
-/

namespace LAppS.Rfc6455
open Bytes Decoder

variable {cfg : Config} {P : Decoder → Prop} {pd : Pending} {f : Frame} {d : Decoder}

/-- The same decoder, prompt about empty payloads. -/
def Config.eagerly (cfg : Config) : Config := { cfg with eager := true }

def Phase.isLazy : Phase → Bool
  | .ready _ _ 0 _ => true
  | _ => false

namespace Decoder

/-- What the eager decoder has done and the lazy one still has to do. -/
def settle (d : Decoder) : Decoder × List Event :=
  match d.phase with
  | .ready fin op 0 _ => d.empty fin op
  | _ => (d, [])

/-- A result with the rest done. -/
def settled (r : Decoder × List Event) : Decoder × List Event :=
  ((settle r.1).1, r.2 ++ (settle r.1).2)

theorem settle_eq (h : d.phase.isLazy = false) : settle d = (d, []) := by
  unfold settle
  split
  · rename_i hp
    rw [hp] at h
    cases h
  · rfl

theorem settled_eq {r : Decoder × List Event} (h : r.1.phase.isLazy = false) : settled r = r := by
  simp [settled, settle_eq h]

theorem complete_isLazy (d : Decoder) (kind : Kind) (payload : List UInt8) :
    (d.complete kind payload).1.phase.isLazy = false := by rw [complete_phase]; rfl

theorem empty_isLazy (d : Decoder) (fin : Bool) (op : OpCode) : (d.empty fin op).1.phase.isLazy = false := by
  rcases d.empty_phase fin op with h | h <;> rw [h] <;> rfl

theorem startByte_isLazy (d : Decoder) (b : UInt8) : (d.startByte b).1.phase.isLazy = false := by
  unfold startByte
  dsimp only
  split
  · rfl
  · split <;> rfl

theorem bodyByte_isLazy (d : Decoder) (kind : Kind) (len : Nat) (key : Fin 4 → UInt8) (got : List UInt8)
    (b : UInt8) : (d.bodyByte kind len key got b).1.phase.isLazy = false := by
  unfold bodyByte
  dsimp only
  split
  · rfl
  · exact complete_isLazy ..

theorem settled_headerDone (lazy : cfg.eager = false) (d : Decoder) (fin : Bool) (op : OpCode) (len : Nat)
    (key : Fin 4 → UInt8) :
    settled (d.headerDone cfg fin op len key) = d.headerDone cfg.eagerly fin op len key := by
  cases len with
  | zero =>
    simp only [headerDone, lazy, Config.eagerly, Bool.and_false, Bool.false_eq_true, if_false, Bool.and_true,
      decide_true, if_true]
    rfl
  | succ len => rfl

theorem settled_lengthDone (lazy : cfg.eager = false) (d : Decoder) (fin : Bool) (op : OpCode) (len : Nat) :
    settled (d.lengthDone cfg fin op len) = d.lengthDone cfg.eagerly fin op len := by
  unfold lengthDone
  cases hm : cfg.masked with
  | true => simp [Config.eagerly, hm, settled, settle]
  | false =>
    simp only [Config.eagerly, hm, Bool.false_eq_true, if_false]
    exact settled_headerDone lazy d fin op len _

theorem settled_secondByte (lazy : cfg.eager = false) (d : Decoder) (fin : Bool) (op : OpCode) (b : UInt8) :
    settled (d.secondByte cfg fin op b) = d.secondByte cfg.eagerly fin op b := by
  unfold secondByte
  simp only [apply_ite settled, settled_lengthDone lazy]
  rfl

theorem settled_extendedByte (lazy : cfg.eager = false) (d : Decoder) (fin : Bool) (op : OpCode) (width : Nat)
    (got : List UInt8) (b : UInt8) :
    settled (d.extendedByte cfg fin op width got b) = d.extendedByte cfg.eagerly fin op width got b := by
  unfold extendedByte
  simp only [apply_ite settled, settled_lengthDone lazy]
  rfl

theorem settled_keyByte (lazy : cfg.eager = false) (d : Decoder) (fin : Bool) (op : OpCode) (len : Nat)
    (got : List UInt8) (b : UInt8) :
    settled (d.keyByte cfg fin op len got b) = d.keyByte cfg.eagerly fin op len got b := by
  unfold keyByte
  simp only [apply_ite settled, settled_headerDone lazy]
  rfl

theorem settled_readyByte (d : Decoder) (fin : Bool) (op : OpCode) (len : Nat) (key : Fin 4 → UInt8) (b : UInt8)
    (nonempty : len ≠ 0) :
    settled (d.readyByte cfg fin op len key b) = d.readyByte cfg.eagerly fin op len key b := by
  unfold readyByte
  cases classify d.pending fin op len with
  | error code => rfl
  | ok kind =>
    simp only [nonempty, if_false, apply_ite settled, settled_eq (bodyByte_isLazy ..)]
    rfl

/-- Where no empty payload is under way the two decoders do the same. -/
theorem step_eagerly (h : d.phase = .start ∨ d.phase = .closed) (b : UInt8) :
    step cfg.eagerly d b = step cfg d b ∧ (step cfg d b).1.phase.isLazy = false := by
  obtain ⟨phase, pd⟩ := d
  rcases h with rfl | rfl
  · exact ⟨rfl, startByte_isLazy ..⟩
  · exact ⟨rfl, rfl⟩

/-- A byte of the lazy decoder, with the rest done before and after it, is a byte of the eager one. -/
theorem settled_step (lazy : cfg.eager = false) (d : Decoder) (b : UInt8) :
    settled (step cfg d b) =
      ((step cfg.eagerly (settle d).1 b).1, (settle d).2 ++ (step cfg.eagerly (settle d).1 b).2) := by
  obtain ⟨phase, pd⟩ := d
  cases phase with
  | start => exact settled_eq (startByte_isLazy ..)
  | second fin op => exact settled_secondByte lazy _ fin op b
  | extended fin op width got => exact settled_extendedByte lazy _ fin op width got b
  | key fin op len got => exact settled_keyByte lazy _ fin op len got b
  | ready fin op len key =>
    cases len with
    | zero =>
      obtain ⟨same, hlazy⟩ := @step_eagerly cfg _ (empty_phase ⟨.ready fin op 0 key, pd⟩ fin op) b
      have two : step cfg ⟨.ready fin op 0 key, pd⟩ b = _ := readyByte_empty cfg ⟨.ready fin op 0 key, pd⟩ fin op key b
      have rest : settle ⟨.ready fin op 0 key, pd⟩ = empty ⟨.ready fin op 0 key, pd⟩ fin op := rfl
      rw [two, rest, same]
      exact settled_eq hlazy
    | succ len => exact settled_readyByte _ fin op _ key b (Nat.succ_ne_zero len)
  | body kind len key got => exact settled_eq (bodyByte_isLazy ..)
  | closed => rfl

/-- After any bytes the lazy decoder is behind the eager one by at most an empty frame. -/
theorem settled_run (lazy : cfg.eager = false) (d : Decoder) (bs : List UInt8) :
    settled (run cfg d bs) =
      ((run cfg.eagerly (settle d).1 bs).1, (settle d).2 ++ (run cfg.eagerly (settle d).1 bs).2) := by
  induction bs generalizing d with
  | nil => simp [settled]
  | cons b bs ih =>
    have here := settled_step lazy d b
    have later := ih (step cfg d b).1
    obtain ⟨hstate, hevents⟩ := Prod.mk.inj here
    obtain ⟨hstate', hevents'⟩ := Prod.mk.inj later
    simp only [settled, run] at hstate hevents hstate' hevents' ⊢
    rw [List.append_assoc, hevents', hstate', hstate, ← List.append_assoc, hevents, List.append_assoc]

/-- A lazy state goes on as the eager decoder's state does. -/
theorem run_lazy (fin : Bool) (op : OpCode) (key : Fin 4 → UInt8) (b : UInt8) (bs : List UInt8) :
    (run cfg ⟨.ready fin op 0 key, pd⟩ (b :: bs)).1 = (run cfg (empty ⟨.start, pd⟩ fin op).1 (b :: bs)).1 := by
  have two : step cfg ⟨.ready fin op 0 key, pd⟩ b = _ := readyByte_empty cfg ⟨.ready fin op 0 key, pd⟩ fin op key b
  have same : empty ⟨.ready fin op 0 key, pd⟩ fin op = empty ⟨.start, pd⟩ fin op := rfl
  simp only [run, two, same]

theorem along_lazy {fin : Bool} {op : OpCode} {key : Fin 4 → UInt8} {bs : List UInt8}
    (hP : P ⟨.ready fin op 0 key, pd⟩) (along : Along cfg P (empty ⟨.start, pd⟩ fin op).1 bs) :
    Along cfg P ⟨.ready fin op 0 key, pd⟩ bs := by
  cases bs with
  | nil => trivial
  | cons b bs =>
    have two : step cfg ⟨.ready fin op 0 key, pd⟩ b = _ := readyByte_empty cfg ⟨.ready fin op 0 key, pd⟩ fin op key b
    refine ⟨hP, ?_⟩
    rw [two]
    exact along.2

/-! ### One report at a time -/

theorem complete_reports (d : Decoder) (kind : Kind) (payload : List UInt8) :
    (d.complete kind payload).2.length ≤ 1 := by
  unfold complete
  split <;> simp

theorem empty_reports (d : Decoder) (fin : Bool) (op : OpCode) : (d.empty fin op).2.length ≤ 1 := by
  unfold empty
  split
  · simp [fail]
  · exact complete_reports ..

theorem lengthDone_reports (d : Decoder) (fin : Bool) (op : OpCode) (len : Nat) :
    (d.lengthDone cfg fin op len).2.length ≤ 1 := by
  unfold lengthDone headerDone
  split
  · simp
  · split
    · exact empty_reports ..
    · simp

/-- Where no empty payload is under way, a byte makes at most one report. -/
theorem step_reports (h : d.phase.isLazy = false) (b : UInt8) : (step cfg d b).2.length ≤ 1 := by
  obtain ⟨phase, pd⟩ := d
  cases phase with
  | start =>
    simp only [step, startByte, fail]
    repeat' split
    all_goals simp
  | second fin op =>
    simp only [step, secondByte, fail]
    split
    · simp
    · split
      · exact lengthDone_reports ..
      · split <;> simp
  | extended fin op width got =>
    simp only [step, extendedByte, fail]
    split
    · simp
    · split
      · simp
      · exact lengthDone_reports ..
  | key fin op len got =>
    simp only [step, keyByte, headerDone]
    split
    · simp
    · split
      · exact empty_reports ..
      · simp
  | ready fin op len key =>
    have hlen : len ≠ 0 := by
      rintro rfl
      cases h
    simp only [step, readyByte, bodyByte, fail, hlen, if_false]
    repeat' split
    all_goals first
      | exact complete_reports ..
      | simp
  | body kind len key got =>
    simp only [step, bodyByte]
    split
    · simp
    · exact complete_reports ..
  | closed => simp [step]

theorem settle_isLazy (d : Decoder) : (settle d).1.phase.isLazy = false := by
  by_cases h : d.phase.isLazy = false
  · rw [settle_eq h]
    exact h
  · unfold settle
    split
    · exact empty_isLazy ..
    · rename_i hready
      revert h hready
      cases d.phase with
      | ready fin op len key => cases len <;> simp [Phase.isLazy]
      | _ => simp [Phase.isLazy]

/-- A lazy decoder that reports something with a byte is not behind after it. -/
theorem settle_of_reports (lazy : cfg.eager = false) (here : (settle d).2 = []) {b : UInt8}
    (reports : (step cfg d b).2 ≠ []) : (settle (step cfg d b).1).2 = [] := by
  have both := (Prod.mk.inj (settled_step lazy d b)).2
  rw [here, List.nil_append] at both
  have one := @step_reports cfg.eagerly _ (settle_isLazy d) b
  rw [← both, List.length_append] at one
  have := List.length_pos_iff.mpr reports
  exact List.eq_nil_of_length_eq_zero (by omega)

end Decoder

/-- The lazy decoder after a legal frame without payload. -/
theorem frame_lazy (lazy : cfg.eager = false) (hP : ∀ phase, Phase.OfFrame f phase → P ⟨phase, pd⟩)
    (legal : f.Legal pd) (within : f.Within cfg.limit pd) (nothing : f.payload = []) :
    Quiet cfg P ⟨.start, pd⟩ (f.encode cfg.masked) ⟨.ready f.fin f.opcode 0 (f.usedKey cfg.masked), pd⟩ := by
  have header := @header_ends cfg _ _ _ hP legal.defined fun _ => within.1
  have waits : headerDone cfg ⟨.start, pd⟩ f.fin f.opcode f.payload.length (f.usedKey cfg.masked) =
      (⟨.ready f.fin f.opcode 0 (f.usedKey cfg.masked), pd⟩, []) := by
    simp [headerDone, nothing, lazy]
  rw [waits] at header
  simpa [Frame.encode, nothing, maskFrom] using header.quiet

/-- Lazy or not, the decoder stays inside the frames. -/
theorem along_encodeAll (permits : Permits cfg P) {fs : List Frame} (legal : LegalSeq pd fs)
    (within : WithinSeq cfg.limit pd fs) : Along cfg P ⟨.start, pd⟩ (encodeAll cfg.masked fs) := by
  induction fs generalizing pd with
  | nil => trivial
  | cons f fs ih =>
    obtain ⟨hf, last, hfs⟩ := legal
    have hP := fun phase => permits pd f phase within.1
    have rest : Along cfg P (f.result pd).1 (encodeAll cfg.masked fs) := by
      cases hends : f.endsStream with
      | true =>
        obtain rfl := last hends
        trivial
      | false =>
        have state : (f.result pd).1 = ⟨.start, (f.next pd).1⟩ := by simp [Frame.result, hends]
        rw [state]
        exact ih hfs within.2
    rw [encodeAll_cons, along_append]
    by_cases prompt : cfg.eager = true ∨ f.payload ≠ []
    · have ends := @frame_ends cfg _ _ _ hP hf (fun _ => within.1.1) (within_used within.1) prompt
      exact ⟨ends.along, by rw [ends.run]; exact rest⟩
    · simp only [not_or, Bool.not_eq_true, ne_eq, not_not] at prompt
      have quiet := frame_lazy prompt.1 hP hf within.1 prompt.2
      refine ⟨quiet.along, ?_⟩
      rw [quiet.run]
      refine along_lazy (hP _ ?_) (by rw [empty_legal hf prompt.2]; exact rest)
      rintro x hx
      cases hx
      rw [prompt.2]
      rfl

/-- A frame without payload that completes a message ends with the `k`-th byte of the stream. -/
def EmptyEndsAt (masked : Bool) (fs : List Frame) (k : Nat) : Prop :=
  ∃ before f after, fs = before ++ f :: after ∧ f.fin = true ∧ f.payload = [] ∧
    (encodeAll masked (before ++ [f])).length = k

theorem emptyEndsAt_cons (masked : Bool) (f : Frame) (fs : List Frame) (k : Nat) :
    EmptyEndsAt masked (f :: fs) k ↔
      (f.fin = true ∧ f.payload = [] ∧ (f.encode masked).length = k) ∨
      ((f.encode masked).length ≤ k ∧ EmptyEndsAt masked fs (k - (f.encode masked).length)) := by
  constructor
  · rintro ⟨before, g, after, heq, hfin, hempty, hlen⟩
    cases before with
    | nil =>
      obtain ⟨rfl, rfl⟩ := List.cons.inj heq
      exact .inl ⟨hfin, hempty, by simpa using hlen⟩
    | cons h before =>
      obtain ⟨rfl, rfl⟩ := List.cons.inj heq
      rw [List.cons_append, encodeAll_cons, List.length_append] at hlen
      exact .inr ⟨by omega, before, g, after, rfl, hfin, hempty, by omega⟩
  · rintro (⟨hfin, hempty, hlen⟩ | ⟨hle, before, g, after, rfl, hfin, hempty, hlen⟩)
    · exact ⟨[], f, fs, rfl, hfin, hempty, by simpa using hlen⟩
    · refine ⟨f :: before, g, after, rfl, hfin, hempty, ?_⟩
      rw [List.cons_append, encodeAll_cons, List.length_append, hlen]
      omega

theorem not_emptyEndsAt_zero (masked : Bool) (fs : List Frame) : ¬EmptyEndsAt masked fs 0 := by
  rintro ⟨before, f, after, -, -, -, hlen⟩
  have := f.encode_ne_nil masked
  simp [encodeAll_append] at hlen
  exact this hlen.2

/-- The lazy decoder is behind exactly where an empty frame ends. -/
theorem settle_take (lazy : cfg.eager = false) {fs : List Frame} (legal : LegalSeq pd fs)
    (within : WithinSeq cfg.limit pd fs) {k : Nat} (hk : k ≤ (encodeAll cfg.masked fs).length) :
    (settle (run cfg ⟨.start, pd⟩ ((encodeAll cfg.masked fs).take k)).1).2 = [] ↔
      ¬EmptyEndsAt cfg.masked fs k := by
  induction fs generalizing pd k with
  | nil =>
    have none_ends : ¬EmptyEndsAt cfg.masked [] k := by
      rintro ⟨before, f, after, heq, -⟩
      simp at heq
    simp [none_ends, settle]
  | cons f fs ih =>
    obtain ⟨hf, last, hfs⟩ := legal
    rw [encodeAll_cons, List.length_append] at hk
    rw [encodeAll_cons, emptyEndsAt_cons]
    have whole : f.payload ≠ [] →
        Ends cfg (fun _ => True) ⟨.start, pd⟩ (f.encode cfg.masked) (f.result pd) := fun h =>
      frame_ends (fun _ _ => trivial) hf (fun _ => within.1.1) (within_used within.1) (.inr h)
    have waits := frame_lazy (P := fun _ => True) lazy (fun _ _ => trivial) hf within.1
    rcases Nat.lt_trichotomy k (f.encode cfg.masked).length with hlt | heq | hgt
    · -- inside the frame even the eager decoder has reported nothing
      have eager := @frame_ends cfg.eagerly (fun _ => True) _ _ (fun _ _ => trivial) hf
        (fun _ => within.1.1) (within_used within.1) (.inl rfl)
      have quiet := eager.take hlt
      have behind := settled_run lazy ⟨.start, pd⟩ ((f.encode cfg.masked).take k)
      have events : _ ++ _ = _ := (Prod.mk.inj behind).2
      rw [List.take_append_of_le_length hlt.le]
      have nothing : (settle (run cfg ⟨.start, pd⟩ ((f.encode cfg.masked).take k)).1).2 = [] :=
        (List.append_eq_nil_iff.mp (events.trans quiet)).2
      simp only [nothing, true_iff]
      omega
    · subst heq
      rw [List.take_left, Nat.sub_self]
      simp only [not_emptyEndsAt_zero, and_false, or_false, and_true]
      by_cases hempty : f.payload = []
      · rw [(waits hempty).run]
        show (empty ⟨.start, pd⟩ f.fin f.opcode).2 = [] ↔ _
        rw [empty_legal hf hempty]
        simpa [hempty, Frame.result] using next_nil hf
      · have done : (settle (f.result pd).1).2 = [] := by
          rw [settle_eq]
          unfold Frame.result
          cases f.endsStream <;> rfl
        rw [(whole hempty).run]
        simp [done, hempty]
    · rw [List.take_append, List.take_of_length_le hgt.le, run_append]
      obtain ⟨b, bs, hbs⟩ : ∃ b bs, (encodeAll cfg.masked fs).take (k - (f.encode cfg.masked).length) = b :: bs :=
        List.exists_cons_of_length_pos (by rw [List.length_take]; omega)
      have stays : f.endsStream = false := by
        by_contra h
        obtain rfl := last (by simpa using h)
        simp at hbs
      have state : (f.result pd).1 = ⟨.start, (f.next pd).1⟩ := by simp [Frame.result, stays]
      have later : (run cfg (run cfg ⟨.start, pd⟩ (f.encode cfg.masked)).1 (b :: bs)).1 =
          (run cfg ⟨.start, (f.next pd).1⟩ (b :: bs)).1 := by
        by_cases hempty : f.payload = []
        · rw [(waits hempty).run, run_lazy, empty_legal hf hempty, state]
        · rw [(whole hempty).run, state]
      rw [hbs]
      dsimp only
      rw [later, ← hbs, ih hfs within.2 (by omega)]
      have hle : (f.encode cfg.masked).length ≤ k := hgt.le
      simp [hgt.ne, hle]

end LAppS.Rfc6455

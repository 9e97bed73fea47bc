import LAppS.Rfc6455.Decoder

/-!
# Decoding frames

The decoder over the bytes of legal frames: it reports nothing before the last byte of a frame and, if it
is eager, there what the frame means.
-/

namespace LAppS.Rfc6455
open Bytes

namespace Decoder

/-- The decoder goes over the bytes without a report, and `P` holds before each of them. -/
structure Quiet (cfg : Config) (P : Decoder → Prop) (d : Decoder) (bs : List UInt8) (d' : Decoder) : Prop where
  run : run cfg d bs = (d', [])
  along : Along cfg P d bs

/-- The decoder reports nothing before the last of the bytes, which has the result `r`. -/
structure Ends (cfg : Config) (P : Decoder → Prop) (d : Decoder) (bs : List UInt8)
    (r : Decoder × List Event) : Prop where
  exists_last : ∃ pre b m, bs = pre ++ [b] ∧ Quiet cfg P d pre m ∧ P m ∧ step cfg m b = r

variable {cfg : Config} {P : Decoder → Prop} {d d' : Decoder} {r : Decoder × List Event}

theorem Quiet.nil (d : Decoder) : Quiet cfg P d [] d := ⟨rfl, trivial⟩

theorem Quiet.append {d'' : Decoder} {xs ys : List UInt8} (hx : Quiet cfg P d xs d')
    (hy : Quiet cfg P d' ys d'') : Quiet cfg P d (xs ++ ys) d'' := by
  refine ⟨?_, (along_append ..).mpr ⟨hx.along, ?_⟩⟩
  · rw [run_append, hx.run, hy.run]; rfl
  · rw [hx.run]; exact hy.along

theorem Quiet.single {b : UInt8} (hP : P d) (h : step cfg d b = (d', [])) : Quiet cfg P d [b] d' :=
  ⟨by rw [run_singleton, h], hP, trivial⟩

theorem Quiet.cons {d'' : Decoder} {b : UInt8} {bs : List UInt8} (hP : P d) (h : step cfg d b = (d', []))
    (hbs : Quiet cfg P d' bs d'') : Quiet cfg P d (b :: bs) d'' :=
  (Quiet.single hP h).append hbs

theorem Quiet.uncons {b : UInt8} {bs : List UInt8} (h : Quiet cfg P d (b :: bs) d') :
    ∃ m, P d ∧ step cfg d b = (m, []) ∧ Quiet cfg P m bs d' := by
  obtain ⟨hrun, hP, along⟩ := h
  obtain ⟨hd, hevents⟩ := Prod.mk.inj hrun
  obtain ⟨quiet, later⟩ := List.append_eq_nil_iff.mp hevents
  exact ⟨(step cfg d b).1, hP, Prod.ext rfl quiet, Prod.ext hd later, along⟩

theorem Quiet.ends {xs ys : List UInt8} (hx : Quiet cfg P d xs d') (hy : Ends cfg P d' ys r) :
    Ends cfg P d (xs ++ ys) r := by
  obtain ⟨pre, b, m, rfl, hpre, hm, hstep⟩ := hy
  exact ⟨xs ++ pre, b, m, by rw [List.append_assoc], hx.append hpre, hm, hstep⟩

theorem Ends.single {b : UInt8} (hP : P d) (h : step cfg d b = r) : Ends cfg P d [b] r :=
  ⟨[], b, d, rfl, .nil d, hP, h⟩

theorem Ends.run {bs : List UInt8} (h : Ends cfg P d bs r) : run cfg d bs = r := by
  obtain ⟨pre, b, m, rfl, hpre, -, hstep⟩ := h
  rw [run_append, hpre.run, run_singleton, hstep]
  rfl

theorem Ends.along {bs : List UInt8} (h : Ends cfg P d bs r) : Along cfg P d bs := by
  obtain ⟨pre, b, m, rfl, hpre, hm, -⟩ := h
  refine (along_append ..).mpr ⟨hpre.along, ?_⟩
  rw [hpre.run]
  exact ⟨hm, trivial⟩

/-- An end without report is quiet altogether. -/
theorem Ends.quiet {bs : List UInt8} (h : Ends cfg P d bs (d', [])) : Quiet cfg P d bs d' := ⟨h.run, h.along⟩

theorem Ends.take {bs : List UInt8} (h : Ends cfg P d bs r) {k : Nat} (hk : k < bs.length) :
    (Decoder.run cfg d (bs.take k)).2 = [] := by
  obtain ⟨pre, b, m, rfl, hpre, -, -⟩ := h
  simp only [List.length_append, List.length_singleton] at hk
  rw [List.take_append_of_le_length (by omega)]
  refine @quiet_initial cfg _ _ (pre.drop k) ?_
  rw [List.take_append_drop, hpre.run]

end Decoder

open Decoder

/-- The opcode and the length a phase between header and payload is about. -/
def Phase.known : Phase → Option (OpCode × Nat)
  | .key _ op len _ | .ready _ op len _ => some (op, len)
  | _ => none

/-- A phase that the bytes of `f` can lead to. -/
def Phase.OfFrame (f : Frame) (phase : Phase) : Prop :=
  ∀ x ∈ phase.known, x = (f.opcode, f.payload.length)

variable {cfg : Config} {P : Decoder → Prop} {pd : Pending} {f : Frame}

/-! ### The header of a frame -/

theorem extended_quiet {fin : Bool} {op : OpCode} {width : Nat}
    (hP : ∀ got, P ⟨.extended fin op width got, pd⟩) (got mid : List UInt8)
    (short : got.length + mid.length < width) :
    Quiet cfg P ⟨.extended fin op width got, pd⟩ mid ⟨.extended fin op width (got ++ mid), pd⟩ := by
  induction mid generalizing got with
  | nil => simpa using Quiet.nil _
  | cons b mid ih =>
    rw [List.length_cons] at short
    have next := ih (got ++ [b]) (by simp; omega)
    rw [List.append_assoc, List.singleton_append] at next
    refine .cons (hP got) ?_ next
    simp only [step, extendedByte]
    rw [if_pos (by omega)]

theorem key_quiet {fin : Bool} {op : OpCode} {len : Nat}
    (hP : ∀ got, got.length < 3 → P ⟨.key fin op len got, pd⟩) (got mid : List UInt8) (short : got.length + mid.length ≤ 3) :
    Quiet cfg P ⟨.key fin op len got, pd⟩ mid ⟨.key fin op len (got ++ mid), pd⟩ := by
  induction mid generalizing got with
  | nil => simpa using Quiet.nil _
  | cons b mid ih =>
    rw [List.length_cons] at short
    have next := ih (got ++ [b]) (by simp; omega)
    rw [List.append_assoc, List.singleton_append] at next
    refine .cons (hP got (by omega)) ?_ next
    simp only [step, keyByte]
    rw [if_pos (by omega)]

/-- An opcode that RFC 6455 defines. -/
def OpCode.Defined (op : OpCode) : Prop := (op.isControl || op.isData || decide (op = .continuation)) = true

theorem Frame.Legal.defined (legal : f.Legal pd) : f.opcode.Defined := by
  unfold Frame.Legal at legal
  unfold OpCode.Defined
  revert legal
  cases f.opcode <;> simp [OpCode.isControl, OpCode.isData]

theorem step_firstByte (defined : f.opcode.Defined) :
    step cfg ⟨.start, pd⟩ f.firstByte = (⟨.second f.fin f.opcode, pd⟩, []) := by
  simp only [step, startByte, firstByte_rsv, firstByte_opcode, firstByte_fin, Bool.false_eq_true, if_false]
  exact if_pos defined

/-- The bytes up to the payload length. -/
def Frame.lengthBytes (masked : Bool) (f : Frame) : List UInt8 :=
  f.firstByte :: f.secondByte masked :: f.extended

theorem step_secondByte :
    step cfg ⟨.second f.fin f.opcode, pd⟩ (f.secondByte cfg.masked) =
      match f.form with
      | .seven => lengthDone cfg ⟨.start, pd⟩ f.fin f.opcode f.payload.length
      | .sixteen => (⟨.extended f.fin f.opcode 2 [], pd⟩, [])
      | .sixtyFour => (⟨.extended f.fin f.opcode 8 [], pd⟩, []) := by
  obtain ⟨hmask, hlen⟩ := secondByte_bits cfg.masked f
  have fits := f.fits
  simp only [step, Decoder.secondByte, hmask, hlen, bne_self_eq_false, Bool.false_eq_true, if_false]
  unfold Frame.lengthCode
  cases form : f.form with
  | seven =>
    rw [form] at fits
    have small : f.payload.length ≤ 125 := fits
    dsimp only
    rw [toNat_ofNat_byte, Nat.mod_eq_of_lt (by omega), if_pos (by omega)]
    rfl
  | sixteen => rfl
  | sixtyFour => rfl

/-- The last byte of an extended length. -/
theorem extended_ends {fin : Bool} {op : OpCode} {width len : Nat}
    (hP : ∀ got, P ⟨.extended fin op width got, pd⟩) (positive : 0 < width) (fits : len < 256 ^ width)
    (limit : len ≤ cfg.limit) :
    Ends cfg P ⟨.extended fin op width [], pd⟩ (beBytes width len)
      (lengthDone cfg ⟨.start, pd⟩ fin op len) := by
  have hlen : (beBytes width len).length = width := length_beBytes width len
  have hne : beBytes width len ≠ [] := by
    intro h
    rw [h] at hlen
    simp at hlen
    omega
  have hsplit := (List.dropLast_concat_getLast hne).symm
  have hmid := @extended_quiet cfg _ _ _ _ _ hP [] (beBytes width len).dropLast (by simp; omega)
  refine ⟨_, _, _, hsplit, hmid, hP _, ?_⟩
  simp only [step, extendedByte, List.nil_append]
  rw [if_neg (by simp; omega), ← hsplit, beToNat_beBytes fits, if_neg (by omega)]
  rfl

theorem lengthBytes_ends (hP : ∀ phase, phase.known = none → P ⟨phase, pd⟩) (defined : f.opcode.Defined)
    (limit : f.form ≠ .seven → f.payload.length ≤ cfg.limit) :
    Ends cfg P ⟨.start, pd⟩ (f.lengthBytes cfg.masked)
      (lengthDone cfg ⟨.start, pd⟩ f.fin f.opcode f.payload.length) := by
  have first : Quiet cfg P ⟨.start, pd⟩ [f.firstByte] ⟨.second f.fin f.opcode, pd⟩ :=
    .single (hP _ rfl) (step_firstByte defined)
  have second := @step_secondByte cfg pd f
  have fits := f.fits
  unfold Frame.lengthBytes Frame.extended
  cases form : f.form with
  | seven =>
    rw [form] at second
    exact first.ends (.single (hP _ rfl) second)
  | sixteen =>
    rw [form] at second fits
    exact (first.append (.single (hP _ rfl) second)).ends
      (extended_ends (fun _ => hP _ rfl) (by decide) fits (limit (by simp [form])))
  | sixtyFour =>
    rw [form] at second fits
    exact (first.append (.single (hP _ rfl) second)).ends
      (extended_ends (fun _ => hP _ rfl) (by decide) fits (limit (by simp [form])))

/-- The key the payload of a frame is masked with. -/
def Frame.usedKey (masked : Bool) (f : Frame) : Fin 4 → UInt8 := if masked then f.key else fun _ => 0

theorem header_ends (hP : ∀ phase, Phase.OfFrame f phase → P ⟨phase, pd⟩) (defined : f.opcode.Defined)
    (limit : f.form ≠ .seven → f.payload.length ≤ cfg.limit) :
    Ends cfg P ⟨.start, pd⟩ (f.header cfg.masked)
      (headerDone cfg ⟨.start, pd⟩ f.fin f.opcode f.payload.length (f.usedKey cfg.masked)) := by
  have length := @lengthBytes_ends cfg _ pd f
    (fun phase h => hP phase (by intro x hx; rw [h] at hx; cases hx)) defined limit
  unfold Frame.usedKey
  cases masked : cfg.masked with
  | false =>
    simp only [lengthDone, masked, Bool.false_eq_true, if_false] at length
    simpa [Frame.header, Frame.lengthBytes] using length
  | true =>
    simp only [lengthDone, masked, if_true] at length
    have hkey : ∀ got, P ⟨.key f.fin f.opcode f.payload.length got, pd⟩ := by
      intro got
      refine hP _ fun x hx => ?_
      cases hx
      rfl
    have three := @key_quiet cfg _ _ _ _ _ (fun got _ => hkey got) [] [f.key 0, f.key 1, f.key 2] (by simp)
    have last : Ends cfg P ⟨.key f.fin f.opcode f.payload.length ([] ++ [f.key 0, f.key 1, f.key 2]), pd⟩
        [f.key 3] (headerDone cfg ⟨.start, pd⟩ f.fin f.opcode f.payload.length f.key) := by
      refine .single (hkey _) ?_
      have whole : (fun i : Fin 4 => ([f.key 0, f.key 1, f.key 2] ++ [f.key 3])[i]!) = f.key := by
        funext i
        rcases i with ⟨_ | _ | _ | _ | i, hi⟩
        · rfl
        · rfl
        · rfl
        · rfl
        · omega
      simp only [step, keyByte, List.nil_append, List.length_cons, List.length_nil]
      rw [if_neg (by omega), whole]
      rfl
    have := (length.quiet.append three).ends last
    simpa [Frame.header, Frame.lengthBytes, Frame.keyBytes] using this

/-! ### The payload -/

theorem body_quiet {kind : Kind} {len : Nat} {key : Fin 4 → UInt8}
    (hP : ∀ got, P ⟨.body kind len key got, pd⟩) (got mid : List UInt8)
    (short : got.length + mid.length < len) :
    Quiet cfg P ⟨.body kind len key got, pd⟩ mid
      ⟨.body kind len key (got ++ maskFrom key got.length mid), pd⟩ := by
  induction mid generalizing got with
  | nil => simpa [maskFrom] using Quiet.nil _
  | cons b mid ih =>
    rw [List.length_cons] at short
    have next := ih (got ++ maskFrom key got.length [b]) (by simp; omega)
    have assoc : got ++ maskFrom key got.length [b] ++
        maskFrom key (got ++ maskFrom key got.length [b]).length mid = got ++ maskFrom key got.length (b :: mid) := by
      rw [List.append_assoc, List.length_append, length_maskFrom, List.length_singleton]
      rfl
    rw [assoc] at next
    refine .cons (hP got) ?_ next
    simp only [step, bodyByte]
    rw [if_pos (by simp; omega)]

/-- A payload that is not empty, from the end of the header to its last byte. -/
theorem payload_ends {fin : Bool} {op : OpCode} {kind : Kind} {key : Fin 4 → UInt8} {ws : List UInt8}
    (hP : ∀ phase, (∀ x ∈ phase.known, x = (op, ws.length)) → P ⟨phase, pd⟩)
    (accepted : classify pd fin op ws.length = .ok kind)
    (limit : kind.isContinuation = true → used ⟨.start, pd⟩ + ws.length ≤ cfg.limit) (nonempty : ws ≠ []) :
    Ends cfg P ⟨.ready fin op ws.length key, pd⟩ ws (complete ⟨.start, pd⟩ kind (maskFrom key 0 ws)) := by
  have hlen : ws.length ≠ 0 := fun h => nonempty (List.length_eq_zero_iff.mp h)
  have hready : P ⟨.ready fin op ws.length key, pd⟩ := by
    refine hP _ fun x hx => ?_
    cases hx
    rfl
  have hbody : ∀ got, P ⟨.body kind ws.length key got, pd⟩ := fun got => hP _ (by intro x hx; cases hx)
  have first : ∀ b, step cfg ⟨.ready fin op ws.length key, pd⟩ b =
      bodyByte ⟨.start, pd⟩ kind ws.length key [] b := by
    intro b
    have within : ¬(kind.isContinuation && decide (used ⟨.ready fin op ws.length key, pd⟩ + ws.length > cfg.limit)) = true := by
      simp only [Bool.and_eq_true, decide_eq_true_eq, not_and, not_lt]
      exact limit
    simp only [step, readyByte, accepted, hlen, if_false]
    rw [if_neg within]
    rfl
  have hsplit := (List.dropLast_concat_getLast nonempty).symm
  cases hmid : ws.dropLast with
  | nil =>
    rw [hmid, List.nil_append] at hsplit
    have one : ws.length = 1 := by rw [hsplit]; rfl
    refine ⟨[], _, _, hsplit, .nil _, hready, ?_⟩
    rw [first, bodyByte, List.nil_append, List.length_nil, ← hsplit, if_neg (by simp)]
  | cons b mid =>
    rw [hmid] at hsplit
    have len : ws.length = mid.length + 2 := by rw [hsplit]; simp
    have begun : Quiet cfg P ⟨.ready fin op ws.length key, pd⟩ [b] ⟨.body kind ws.length key (maskFrom key 0 [b]), pd⟩ := by
      refine .single hready ?_
      rw [first, bodyByte, List.nil_append, List.length_nil, if_pos (by simp; omega)]
    have inside := @body_quiet cfg _ _ _ _ _ hbody (maskFrom key 0 [b]) mid (by simp; omega)
    refine ⟨_, _, _, hsplit, begun.append inside, hbody _, ?_⟩
    have whole : maskFrom key 0 [b] ++ maskFrom key (maskFrom key 0 [b]).length mid = maskFrom key 0 (b :: mid) := by
      rw [length_maskFrom]; rfl
    simp only [step, bodyByte, whole]
    have last : maskFrom key 0 (b :: mid) ++ maskFrom key (maskFrom key 0 (b :: mid)).length [ws.getLast nonempty] =
        maskFrom key 0 ws := by
      conv => rhs; rw [hsplit]
      rw [maskFrom_append, length_maskFrom, Nat.zero_add]
    rw [last, if_neg (by simp)]
    rfl

/-! ### Whole frames -/

theorem classify_legal (legal : f.Legal pd) (stays : f.endsStream = false) :
    ∃ kind, classify pd f.fin f.opcode f.payload.length = .ok kind ∧
      (kind.isContinuation = true → f.opcode = .continuation) ∧
      complete ⟨.start, pd⟩ kind f.payload = (⟨.start, (f.next pd).1⟩, (f.next pd).2) := by
  obtain ⟨fin, op, form, key, payload, fits⟩ := f
  cases op <;> simp only [Frame.Legal, Frame.endsStream] at legal stays
  case continuation =>
    obtain ⟨⟨op, acc⟩, rfl⟩ := Option.isSome_iff_exists.mp legal
    cases fin
    · exact ⟨.middle, rfl, fun _ => rfl, rfl⟩
    · exact ⟨.last, rfl, fun _ => rfl, rfl⟩
  case text | binary =>
    subst legal
    cases fin
    · exact ⟨.first _, rfl, by simp [Kind.isContinuation], rfl⟩
    · exact ⟨.single _, rfl, by simp [Kind.isContinuation], rfl⟩
  case close =>
    obtain ⟨rfl, small⟩ := legal
    have hne : payload ≠ [] := by simpa using stays
    refine ⟨.single .close, ?_, by simp [Kind.isContinuation], by simp [complete, Frame.next, hne]⟩
    simp [classify, OpCode.isControl, hne, small]
  case ping | pong =>
    obtain ⟨rfl, small⟩ := legal
    refine ⟨.single _, ?_, by simp [Kind.isContinuation], rfl⟩
    simp [classify, OpCode.isControl, small]

theorem classify_endsStream (legal : f.Legal pd) (ends : f.endsStream = true) :
    classify pd f.fin f.opcode 0 = .error 1000 ∧ f.next pd = (pd, [.fail 1000]) ∧ f.payload = [] := by
  obtain ⟨fin, op, form, key, payload, fits⟩ := f
  simp only [Frame.endsStream, Bool.and_eq_true, beq_iff_eq, List.isEmpty_iff] at ends
  obtain ⟨rfl, rfl⟩ := ends
  obtain ⟨rfl, -⟩ := legal
  exact ⟨rfl, rfl, rfl⟩

theorem next_nil (legal : f.Legal pd) : (f.next pd).2 = [] ↔ f.fin = false := by
  obtain ⟨fin, op, form, key, payload, fits⟩ := f
  cases op <;> simp only [Frame.Legal] at legal
  case continuation =>
    obtain ⟨⟨op, acc⟩, rfl⟩ := Option.isSome_iff_exists.mp legal
    cases fin <;> simp [Frame.next]
  case text | binary => cases fin <;> simp [Frame.next]
  case close =>
    obtain ⟨rfl, -⟩ := legal
    by_cases h : payload = [] <;> simp [Frame.next, h]
  case ping | pong =>
    obtain ⟨rfl, -⟩ := legal
    simp [Frame.next]

/-- The decoder after a frame, and its report. -/
def Frame.result (pd : Pending) (f : Frame) : Decoder × List Event :=
  (⟨if f.endsStream then .closed else .start, (f.next pd).1⟩, (f.next pd).2)

theorem within_used (within : f.Within cfg.limit pd) (continuation : f.opcode = .continuation) :
    used ⟨.start, pd⟩ + f.payload.length ≤ cfg.limit := by
  cases pd with
  | none => simpa [used] using within.1
  | some m => exact within.2 continuation m rfl

theorem empty_legal (legal : f.Legal pd) (nothing : f.payload = []) :
    empty ⟨.start, pd⟩ f.fin f.opcode = f.result pd := by
  unfold empty Frame.result
  cases ends : f.endsStream with
  | true =>
    obtain ⟨rejected, next, -⟩ := classify_endsStream legal ends
    rw [rejected, next]
    rfl
  | false =>
    obtain ⟨kind, accepted, -, completed⟩ := classify_legal legal ends
    rw [nothing] at completed accepted
    simp only [List.length_nil] at accepted
    rw [accepted]
    exact completed

/-- A legal frame has its meaning at its last byte. Seven-bit lengths are not held to the limit. -/
theorem frame_ends (hP : ∀ phase, Phase.OfFrame f phase → P ⟨phase, pd⟩) (legal : f.Legal pd)
    (single : f.form ≠ .seven → f.payload.length ≤ cfg.limit)
    (total : f.opcode = .continuation → used ⟨.start, pd⟩ + f.payload.length ≤ cfg.limit)
    (prompt : cfg.eager = true ∨ f.payload ≠ []) :
    Ends cfg P ⟨.start, pd⟩ (f.encode cfg.masked) (f.result pd) := by
  have header := @header_ends cfg _ _ _ hP legal.defined single
  unfold Frame.encode
  by_cases nothing : f.payload = []
  · have done : headerDone cfg ⟨.start, pd⟩ f.fin f.opcode f.payload.length (f.usedKey cfg.masked) =
        f.result pd := by
      rw [← empty_legal legal nothing]
      simp [headerDone, nothing, prompt.resolve_right (absurd nothing)]
    rw [done] at header
    simpa [nothing, maskFrom] using header
  · have stays : f.endsStream = false := by simp [Frame.endsStream, nothing]
    obtain ⟨kind, accepted, continuation, completed⟩ := classify_legal legal stays
    have waits : headerDone cfg ⟨.start, pd⟩ f.fin f.opcode f.payload.length (f.usedKey cfg.masked) =
        (⟨.ready f.fin f.opcode f.payload.length (f.usedKey cfg.masked), pd⟩, []) := by
      simp [headerDone, nothing]
    rw [waits] at header
    have wire : (if cfg.masked then maskFrom f.key 0 f.payload else f.payload) =
        maskFrom (f.usedKey cfg.masked) 0 f.payload := by
      unfold Frame.usedKey
      split
      · rfl
      · rw [maskFrom_zero]
    have hlen : (maskFrom (f.usedKey cfg.masked) 0 f.payload).length = f.payload.length := length_maskFrom ..
    rw [← hlen] at header accepted
    have payload := @payload_ends cfg _ _ _ _ _ (f.usedKey cfg.masked) _
      (fun phase h => hP phase (by rwa [hlen] at h)) accepted
      (fun hk => by rw [hlen]; exact total (continuation hk))
      (by intro h; exact nothing (by simpa using congrArg List.length h))
    rw [maskFrom_maskFrom, completed] at payload
    rw [wire]
    have whole := header.quiet.ends payload
    simpa [Frame.result, stays] using whole

/-! ### Sequences of frames -/

/-- The frames ask for the end of the connection. -/
def closes (fs : List Frame) : Bool := fs.any Frame.endsStream

/-- `P` holds in every state inside a frame that stays within the limit. -/
def Permits (cfg : Config) (P : Decoder → Prop) : Prop :=
  ∀ (pd : Pending) (f : Frame) (phase : Phase), f.Within cfg.limit pd → Phase.OfFrame f phase → P ⟨phase, pd⟩

/-- Each frame of the sequence is complete at its last byte. -/
def Prompt (cfg : Config) (fs : List Frame) : Prop := cfg.eager = true ∨ ∀ f ∈ fs, f.payload ≠ []

theorem Prompt.head {fs : List Frame} (h : Prompt cfg (f :: fs)) : cfg.eager = true ∨ f.payload ≠ [] :=
  h.imp_right fun h => h f List.mem_cons_self

theorem Prompt.tail {fs : List Frame} (h : Prompt cfg (f :: fs)) : Prompt cfg fs :=
  h.imp_right fun h g hg => h g (List.mem_cons_of_mem _ hg)

/-- Decoding a legal sequence of frames assembles its messages. -/
theorem run_encodeAll (permits : Permits cfg P) {fs : List Frame} (legal : LegalSeq pd fs)
    (within : WithinSeq cfg.limit pd fs) (prompt : Prompt cfg fs) :
    run cfg ⟨.start, pd⟩ (encodeAll cfg.masked fs) =
        (⟨if closes fs then .closed else .start, pendingAfter pd fs⟩, assemble pd fs) ∧
      Along cfg P ⟨.start, pd⟩ (encodeAll cfg.masked fs) := by
  induction fs generalizing pd with
  | nil => exact ⟨rfl, trivial⟩
  | cons f fs ih =>
    obtain ⟨hf, last, hfs⟩ := legal
    have ends := @frame_ends cfg _ _ _ (fun phase => permits pd f phase within.1) hf
      (fun _ => within.1.1) (within_used within.1) prompt.head
    obtain ⟨hrun, halong⟩ := ih hfs within.2 prompt.tail
    rw [encodeAll_cons, run_append, along_append, ends.run]
    cases hends : f.endsStream with
    | true =>
      obtain rfl := last hends
      simp [Frame.result, hends, closes, pendingAfter, assemble, ends.along, Along]
    | false =>
      have state : (f.result pd).1 = ⟨.start, (f.next pd).1⟩ := by simp [Frame.result, hends]
      rw [state, hrun]
      exact ⟨by simp [closes, hends, pendingAfter, assemble, Frame.result], ends.along, halong⟩

/-- The frames whose last byte is among the first `k` bytes of the stream. -/
def completeIn (masked : Bool) : List Frame → Nat → List Frame
  | [], _ => []
  | f :: fs, k =>
    if (f.encode masked).length ≤ k then f :: completeIn masked fs (k - (f.encode masked).length) else []

/-- After any number of bytes, the messages of the frames that are complete have been reported. -/
theorem run_take (permits : Permits cfg P) {fs : List Frame} (legal : LegalSeq pd fs)
    (within : WithinSeq cfg.limit pd fs) (prompt : Prompt cfg fs) (k : Nat) :
    (run cfg ⟨.start, pd⟩ ((encodeAll cfg.masked fs).take k)).2 =
      assemble pd (completeIn cfg.masked fs k) := by
  induction fs generalizing pd k with
  | nil => simp [completeIn, assemble]
  | cons f fs ih =>
    obtain ⟨hf, last, hfs⟩ := legal
    have ends := @frame_ends cfg _ _ _ (fun phase => permits pd f phase within.1) hf
      (fun _ => within.1.1) (within_used within.1) prompt.head
    rw [encodeAll_cons, completeIn]
    split <;> rename_i hk
    · rw [List.take_append, List.take_of_length_le hk, run_append, ends.run, assemble]
      cases hends : f.endsStream with
      | true =>
        obtain rfl := last hends
        simp [Frame.result, completeIn, assemble]
      | false =>
        have state : (f.result pd).1 = ⟨.start, (f.next pd).1⟩ := by simp [Frame.result, hends]
        rw [state, ih hfs within.2 prompt.tail]
        rfl
    · rw [List.take_append_of_le_length (by omega), ends.take (by omega)]
      rfl

end LAppS.Rfc6455

import LAppS.Rfc6455.Frame

/-!
# A byte-at-a-time decoder

The receiver of RFC 6455 as an automaton over single bytes, without buffers, cursors or chunks.
A header is judged when its payload begins. An `eager` decoder completes a frame with an empty
payload at the last byte of the header, the other kind only when the next byte arrives.
-/

namespace LAppS.Rfc6455
open Bytes

structure Config where
  masked : Bool
  eager : Bool
  limit : Nat

/-- The place of a frame in its message. -/
inductive Kind where
  | single (op : OpCode)
  | first (op : OpCode)
  | middle
  | last
  deriving DecidableEq, Repr

def Kind.isContinuation : Kind → Bool
  | .middle | .last => true
  | _ => false

inductive Phase where
  | start
  | second (fin : Bool) (op : OpCode)
  | extended (fin : Bool) (op : OpCode) (width : Nat) (got : List UInt8)
  | key (fin : Bool) (op : OpCode) (len : Nat) (got : List UInt8)
  | ready (fin : Bool) (op : OpCode) (len : Nat) (key : Fin 4 → UInt8)
  | body (kind : Kind) (len : Nat) (key : Fin 4 → UInt8) (got : List UInt8)
  | closed

structure Decoder where
  phase : Phase := .start
  pending : Pending := none

namespace Decoder

def fail (d : Decoder) (code : CloseCode) : Decoder × List Event :=
  ({ d with phase := .closed }, [.fail code])

/-- Section 5.4 and 5.5: the kind of a frame, or the status code that fails the connection. An
empty Close asks for a normal closure. -/
def classify (pending : Pending) (fin : Bool) (op : OpCode) (len : Nat) : Except CloseCode Kind :=
  if op.isControl then
    if !fin then .error 1002
    else if len = 0 then if op = .close then .error 1000 else .ok (.single op)
    else if len > 125 then .error 1002
    else .ok (.single op)
  else if op.isData && pending.isNone then .ok (if fin then .single op else .first op)
  else if op = .continuation && pending.isSome then .ok (if fin then .last else .middle)
  else .error 1002

/-- The frame is complete. -/
def complete (d : Decoder) (kind : Kind) (payload : List UInt8) : Decoder × List Event :=
  match kind, d.pending with
  | .single op, pending => (⟨.start, pending⟩, [.message op payload])
  | .first op, _ => (⟨.start, some (op, payload)⟩, [])
  | .middle, some (op, acc) => (⟨.start, some (op, acc ++ payload)⟩, [])
  | .last, some (op, acc) => (⟨.start, none⟩, [.message op (acc ++ payload)])
  | _, none => (⟨.start, none⟩, [])

def empty (d : Decoder) (fin : Bool) (op : OpCode) : Decoder × List Event :=
  match classify d.pending fin op 0 with
  | .error code => d.fail code
  | .ok kind => d.complete kind []

def headerDone (cfg : Config) (d : Decoder) (fin : Bool) (op : OpCode) (len : Nat)
    (key : Fin 4 → UInt8) : Decoder × List Event :=
  if len = 0 && cfg.eager then d.empty fin op else ({ d with phase := .ready fin op len key }, [])

def lengthDone (cfg : Config) (d : Decoder) (fin : Bool) (op : OpCode) (len : Nat) :
    Decoder × List Event :=
  if cfg.masked then ({ d with phase := .key fin op len [] }, [])
  else d.headerDone cfg fin op len (fun _ => 0)

def startByte (d : Decoder) (b : UInt8) : Decoder × List Event :=
  let op := OpCode.ofByte b
  if b &&& 112 != 0 then d.fail 1002
  else if op.isControl || op.isData || op = .continuation then
    ({ d with phase := .second (b &&& 128 != 0) op }, [])
  else d.fail 1003

def secondByte (cfg : Config) (d : Decoder) (fin : Bool) (op : OpCode) (b : UInt8) :
    Decoder × List Event :=
  if (b &&& 128 != 0) != cfg.masked then d.fail 1002
  else
    let code := (b &&& 127).toNat
    if code < 126 then d.lengthDone cfg fin op code
    else if code = 126 then ({ d with phase := .extended fin op 2 [] }, [])
    else ({ d with phase := .extended fin op 8 [] }, [])

def extendedByte (cfg : Config) (d : Decoder) (fin : Bool) (op : OpCode) (width : Nat)
    (got : List UInt8) (b : UInt8) : Decoder × List Event :=
  if got.length + 1 < width then ({ d with phase := .extended fin op width (got ++ [b]) }, [])
  else
    let len := beToNat (got ++ [b])
    if len > cfg.limit then d.fail 1009 else d.lengthDone cfg fin op len

def keyByte (cfg : Config) (d : Decoder) (fin : Bool) (op : OpCode) (len : Nat) (got : List UInt8)
    (b : UInt8) : Decoder × List Event :=
  if got.length < 3 then ({ d with phase := .key fin op len (got ++ [b]) }, [])
  else d.headerDone cfg fin op len (fun i => (got ++ [b])[i]!)

def bodyByte (d : Decoder) (kind : Kind) (len : Nat) (key : Fin 4 → UInt8) (got : List UInt8)
    (b : UInt8) : Decoder × List Event :=
  let got' := got ++ maskFrom key got.length [b]
  if got'.length < len then ({ d with phase := .body kind len key got' }, [])
  else d.complete kind got'

/-- The size of the message under way. -/
def used (d : Decoder) : Nat := (d.pending.map (·.2.length)).getD 0

/-- The first byte after a header. -/
def readyByte (cfg : Config) (d : Decoder) (fin : Bool) (op : OpCode) (len : Nat)
    (key : Fin 4 → UInt8) (b : UInt8) : Decoder × List Event :=
  match classify d.pending fin op len with
  | .error code => d.fail code
  | .ok kind =>
    if len = 0 then
      let r := d.complete kind []
      ((r.1.startByte b).1, r.2 ++ (r.1.startByte b).2)
    else if kind.isContinuation && d.used + len > cfg.limit then d.fail 1009
    else d.bodyByte kind len key [] b

def step (cfg : Config) (d : Decoder) (b : UInt8) : Decoder × List Event :=
  match d.phase with
  | .start => d.startByte b
  | .second fin op => d.secondByte cfg fin op b
  | .extended fin op width got => d.extendedByte cfg fin op width got b
  | .key fin op len got => d.keyByte cfg fin op len got b
  | .ready fin op len key => d.readyByte cfg fin op len key b
  | .body kind len key got => d.bodyByte kind len key got b
  | .closed => (d, [])

def run (cfg : Config) : Decoder → List UInt8 → Decoder × List Event
  | d, [] => (d, [])
  | d, b :: bs => ((run cfg (step cfg d b).1 bs).1, (step cfg d b).2 ++ (run cfg (step cfg d b).1 bs).2)

/-! ### Runs -/

variable (cfg : Config)

@[simp] theorem run_nil (d : Decoder) : run cfg d [] = (d, []) := rfl

@[simp] theorem run_singleton (d : Decoder) (b : UInt8) : run cfg d [b] = step cfg d b := by
  simp [run]

theorem run_append (d : Decoder) (xs ys : List UInt8) :
    run cfg d (xs ++ ys) =
      ((run cfg (run cfg d xs).1 ys).1, (run cfg d xs).2 ++ (run cfg (run cfg d xs).1 ys).2) := by
  induction xs generalizing d with
  | nil => rfl
  | cons x xs ih => simp [run, ih]

/-- A run that reports nothing reports nothing before it ends. -/
theorem quiet_initial {d : Decoder} {xs ys : List UInt8} (quiet : (run cfg d (xs ++ ys)).2 = []) :
    (run cfg d xs).2 = [] := by
  rw [run_append] at quiet
  exact (List.append_eq_nil_iff.mp quiet).1

theorem run_closed (d : Decoder) (h : d.phase = .closed) (bs : List UInt8) : run cfg d bs = (d, []) := by
  induction bs with
  | nil => rfl
  | cons b bs ih => simp [run, step, h, ih]

/-- Before each of the bytes `P` holds. -/
def Along (P : Decoder → Prop) : Decoder → List UInt8 → Prop
  | _, [] => True
  | d, b :: bs => P d ∧ Along P (step cfg d b).1 bs

theorem along_append {P : Decoder → Prop} (d : Decoder) (xs ys : List UInt8) :
    Along cfg P d (xs ++ ys) ↔ Along cfg P d xs ∧ Along cfg P (run cfg d xs).1 ys := by
  induction xs generalizing d with
  | nil => simp [Along]
  | cons x xs ih => simp [Along, run, ih, and_assoc]

theorem complete_phase (d : Decoder) (kind : Kind) (payload : List UInt8) :
    (d.complete kind payload).1.phase = .start := by
  unfold complete
  split <;> rfl

theorem empty_phase (d : Decoder) (fin : Bool) (op : OpCode) :
    (d.empty fin op).1.phase = .start ∨ (d.empty fin op).1.phase = .closed := by
  unfold empty
  split
  · exact .inr rfl
  · exact .inl (complete_phase ..)

/-- A header without payload, completed: what the eager decoder has done already. -/
theorem readyByte_empty (d : Decoder) (fin : Bool) (op : OpCode) (key : Fin 4 → UInt8) (b : UInt8) :
    d.readyByte cfg fin op 0 key b =
      ((step cfg (d.empty fin op).1 b).1, (d.empty fin op).2 ++ (step cfg (d.empty fin op).1 b).2) := by
  unfold readyByte empty
  cases classify d.pending fin op 0 with
  | error code => simp [fail, step]
  | ok kind =>
    simp [step, complete_phase]

/-! ### Sizes -/

/-- The message under way and the frame under way stay within the limit, together if they belong together. -/
def Bounded (limit : Nat) (d : Decoder) : Prop :=
  d.used ≤ limit ∧
    match d.phase with
    | .key _ _ len _ | .ready _ _ len _ => len ≤ limit
    | .body kind len _ got =>
      got.length < len ∧ len ≤ limit ∧ (kind.isContinuation = true → d.used + len ≤ limit)
    | _ => True

variable {cfg} {d : Decoder}

theorem bounded_fail {limit : Nat} (h : d.used ≤ limit) (code : CloseCode) : Bounded limit (d.fail code).1 :=
  ⟨h, trivial⟩

theorem bounded_complete {limit : Nat} {kind : Kind} {payload : List UInt8} (h : d.used ≤ limit)
    (len : payload.length ≤ limit) (sum : kind.isContinuation = true → d.used + payload.length ≤ limit) :
    Bounded limit (d.complete kind payload).1 := by
  obtain ⟨phase, pending⟩ := d
  cases kind with
  | single op => exact ⟨h, trivial⟩
  | first op => exact ⟨len, trivial⟩
  | middle =>
    cases pending with
    | none => exact ⟨h, trivial⟩
    | some m => exact ⟨by simpa [used, complete] using sum rfl, trivial⟩
  | last =>
    cases pending with
    | none => exact ⟨h, trivial⟩
    | some m => exact ⟨by simp [used, complete], trivial⟩

theorem bounded_empty {limit : Nat} (h : d.used ≤ limit) (fin : Bool) (op : OpCode) :
    Bounded limit (d.empty fin op).1 := by
  unfold empty
  split
  · exact bounded_fail h _
  · exact bounded_complete h (Nat.zero_le _) fun _ => h

theorem bounded_headerDone {limit len : Nat} (h : d.used ≤ limit) (hlen : len ≤ limit) (fin : Bool) (op : OpCode)
    (key : Fin 4 → UInt8) : Bounded limit (d.headerDone cfg fin op len key).1 := by
  unfold headerDone
  split
  · exact bounded_empty h fin op
  · exact ⟨h, hlen⟩

theorem bounded_lengthDone {limit len : Nat} (h : d.used ≤ limit) (hlen : len ≤ limit) (fin : Bool)
    (op : OpCode) : Bounded limit (d.lengthDone cfg fin op len).1 := by
  unfold lengthDone
  split
  · exact ⟨h, hlen⟩
  · exact bounded_headerDone h hlen fin op _

theorem bounded_startByte {limit : Nat} (h : d.used ≤ limit) (b : UInt8) : Bounded limit (d.startByte b).1 := by
  unfold startByte
  dsimp only
  split
  · exact bounded_fail h _
  · split
    · exact ⟨h, trivial⟩
    · exact bounded_fail h _

theorem bounded_bodyByte {limit len : Nat} {kind : Kind} {got : List UInt8} (h : d.used ≤ limit)
    (more : got.length < len) (hlen : len ≤ limit) (sum : kind.isContinuation = true → d.used + len ≤ limit)
    (key : Fin 4 → UInt8) (b : UInt8) : Bounded limit (d.bodyByte kind len key got b).1 := by
  unfold bodyByte
  dsimp only
  split <;> rename_i hmore
  · exact ⟨h, hmore, hlen, sum⟩
  · have whole : (got ++ maskFrom key got.length [b]).length ≤ len := by simpa using Nat.succ_le_of_lt more
    exact bounded_complete h (whole.trans hlen) fun hk => (Nat.add_le_add_left whole _).trans (sum hk)

/-- A bound of at least 125 holds for the frames with a seven-bit length too, which are not checked. -/
theorem step_bounded {size : Nat} (h125 : 125 ≤ size) (within : cfg.limit ≤ size) (h : Bounded size d) (b : UInt8) :
    Bounded size (step cfg d b).1 := by
  obtain ⟨phase, pending⟩ := d
  obtain ⟨hused, hphase⟩ := h
  cases phase with
  | start => exact bounded_startByte hused b
  | second fin op =>
    unfold step secondByte
    dsimp only
    split
    · exact bounded_fail hused _
    · split
      · exact bounded_lengthDone hused (by omega) fin op
      · split <;> exact ⟨hused, trivial⟩
  | extended fin op width got =>
    unfold step extendedByte
    dsimp only
    split
    · exact ⟨hused, trivial⟩
    · split <;> rename_i hlen
      · exact bounded_fail hused _
      · exact bounded_lengthDone hused ((Nat.le_of_not_lt hlen).trans within) fin op
  | key fin op len got =>
    unfold step keyByte
    dsimp only
    split
    · exact ⟨hused, hphase⟩
    · exact bounded_headerDone hused hphase fin op _
  | ready fin op len key =>
    unfold step readyByte
    dsimp only
    split
    · exact bounded_fail hused _
    · split <;> rename_i hz
      · exact bounded_startByte
          (@bounded_complete _ _ _ [] hused (Nat.zero_le _) fun _ => hused).1 b
      · split <;> rename_i hbig
        · exact bounded_fail hused _
        · refine bounded_bodyByte hused (Nat.pos_of_ne_zero hz) hphase (fun hk => ?_) key b
          by_contra hgt
          exact hbig (by simp [hk]; omega)
  | body kind len key got => exact bounded_bodyByte hused hphase.1 hphase.2.1 hphase.2.2 key b
  | closed => exact ⟨hused, trivial⟩

theorem run_bounded {size : Nat} (h125 : 125 ≤ size) (within : cfg.limit ≤ size) (bs : List UInt8) {d : Decoder}
    (h : Bounded size d) : Bounded size (run cfg d bs).1 := by
  induction bs generalizing d with
  | nil => exact h
  | cons b bs ih => exact ih (step_bounded h125 within h b)

/-! ### What is reported -/

def Proper (d : Decoder) : Prop :=
  (∀ m ∈ d.pending, m.1.isData = true) ∧
    match d.phase with
    | .body (.single op) _ _ _ => (op.isControl || op.isData) = true
    | .body (.first op) _ _ _ => op.isData = true
    | _ => True

/-- The state is proper, the messages have an opcode that messages can have, and a failure is the end. -/
structure Reported (r : Decoder × List Event) : Prop where
  state : Proper r.1
  events : ∀ op payload, .message op payload ∈ r.2 → (op.isControl || op.isData) = true
  fails : ∀ code, .fail code ∈ r.2 → r.1.phase = .closed

theorem Reported.quiet (h : Proper d) : Reported (d, []) := ⟨h, by simp, by simp⟩

theorem reported_fail (h : ∀ m ∈ d.pending, m.1.isData = true) (code : CloseCode) : Reported (d.fail code) :=
  ⟨⟨h, trivial⟩, by simp [fail], fun _ _ => rfl⟩

theorem classify_kind {pending : Pending} {fin : Bool} {op : OpCode} {len : Nat} {kind : Kind}
    (h : classify pending fin op len = .ok kind) :
    (∀ op, kind = .single op → (op.isControl || op.isData) = true) ∧ ∀ op, kind = .first op → op.isData = true := by
  unfold classify at h
  split at h
  next control =>
    have single : kind = .single op := by
      repeat' split at h
      all_goals simp_all
    subst single
    simp [control]
  · split at h
    next data =>
      rw [Bool.and_eq_true] at data
      cases fin <;> cases h <;> simp [data.1]
    · split at h
      · cases fin <;> cases h <;> simp
      · cases h

theorem reported_complete (h : ∀ m ∈ d.pending, m.1.isData = true) {kind : Kind}
    (single : ∀ op, kind = .single op → (op.isControl || op.isData) = true)
    (first : ∀ op, kind = .first op → op.isData = true) (payload : List UInt8) : Reported (d.complete kind payload) := by
  obtain ⟨phase, pending⟩ := d
  cases kind with
  | single op => exact ⟨⟨h, trivial⟩, by simpa [complete] using single op rfl, by simp [complete]⟩
  | first op => exact .quiet ⟨by simp [first op rfl], trivial⟩
  | middle =>
    cases pending with
    | none => exact .quiet ⟨h, trivial⟩
    | some m => exact .quiet ⟨by simpa using h m rfl, trivial⟩
  | last =>
    cases pending with
    | none => exact .quiet ⟨h, trivial⟩
    | some m =>
      have data : m.1.isData = true := h m rfl
      exact ⟨⟨by simp [complete], trivial⟩, by simp [complete, data], by simp [complete]⟩

theorem reported_empty (h : ∀ m ∈ d.pending, m.1.isData = true) (fin : Bool) (op : OpCode) :
    Reported (d.empty fin op) := by
  unfold empty
  split
  · exact reported_fail h _
  next kind classified =>
    obtain ⟨single, first⟩ := classify_kind classified
    exact reported_complete h single first []

theorem reported_headerDone (h : ∀ m ∈ d.pending, m.1.isData = true) (fin : Bool) (op : OpCode) (len : Nat)
    (key : Fin 4 → UInt8) : Reported (d.headerDone cfg fin op len key) := by
  unfold headerDone
  split
  · exact reported_empty h fin op
  · exact .quiet ⟨h, trivial⟩

theorem reported_lengthDone (h : ∀ m ∈ d.pending, m.1.isData = true) (fin : Bool) (op : OpCode) (len : Nat) :
    Reported (d.lengthDone cfg fin op len) := by
  unfold lengthDone
  split
  · exact .quiet ⟨h, trivial⟩
  · exact reported_headerDone h fin op len _

theorem reported_startByte (h : ∀ m ∈ d.pending, m.1.isData = true) (b : UInt8) : Reported (d.startByte b) := by
  unfold startByte
  dsimp only
  split
  · exact reported_fail h _
  · split
    · exact .quiet ⟨h, trivial⟩
    · exact reported_fail h _

theorem reported_bodyByte (h : ∀ m ∈ d.pending, m.1.isData = true) {kind : Kind}
    (single : ∀ op, kind = .single op → (op.isControl || op.isData) = true)
    (first : ∀ op, kind = .first op → op.isData = true) (len : Nat) (key : Fin 4 → UInt8) (got : List UInt8) (b : UInt8) :
    Reported (d.bodyByte kind len key got b) := by
  unfold bodyByte
  dsimp only
  split
  · refine .quiet ⟨h, ?_⟩
    cases kind with
    | single op => exact single op rfl
    | first op => exact first op rfl
    | middle => trivial
    | last => trivial
  · exact reported_complete h single first _

theorem step_reported (h : Proper d) (b : UInt8) : Reported (step cfg d b) := by
  obtain ⟨phase, pending⟩ := d
  obtain ⟨hpending, hphase⟩ := h
  cases phase with
  | start => exact reported_startByte hpending b
  | second fin op =>
    unfold step secondByte
    dsimp only
    split
    · exact reported_fail hpending _
    · split
      · exact reported_lengthDone hpending fin op _
      · split <;> exact .quiet ⟨hpending, trivial⟩
  | extended fin op width got =>
    unfold step extendedByte
    dsimp only
    split
    · exact .quiet ⟨hpending, trivial⟩
    · split
      · exact reported_fail hpending _
      · exact reported_lengthDone hpending fin op _
  | key fin op len got =>
    unfold step keyByte
    dsimp only
    split
    · exact .quiet ⟨hpending, trivial⟩
    · exact reported_headerDone hpending fin op len _
  | ready fin op len key =>
    unfold step readyByte
    dsimp only
    split
    · exact reported_fail hpending _
    next kind classified =>
      obtain ⟨single, first⟩ := classify_kind classified
      split
      · have done := @reported_complete ⟨.ready fin op len key, pending⟩ hpending _ single first []
        have begun := reported_startByte done.state.1 b
        refine ⟨begun.state, fun op payload member => ?_, fun code member => ?_⟩
        · rcases List.mem_append.mp member with here | next
          · exact done.events op payload here
          · exact begun.events op payload next
        · rcases List.mem_append.mp member with here | next
          · have closed := done.fails code here
            rw [complete_phase] at closed
            cases closed
          · exact begun.fails code next
      · split
        · exact reported_fail hpending _
        · exact reported_bodyByte hpending single first len key [] b
  | body kind len key got =>
    refine reported_bodyByte hpending ?_ ?_ len key got b
    · rintro op rfl
      exact hphase
    · rintro op rfl
      exact hphase
  | closed => exact .quiet ⟨hpending, trivial⟩

theorem run_reported (bs : List UInt8) (h : Proper d) : Reported (run cfg d bs) := by
  induction bs generalizing d with
  | nil => exact .quiet h
  | cons b bs ih =>
    have here : Reported (step cfg d b) := step_reported h b
    have rest := ih here.state
    refine ⟨rest.state, fun op payload member => ?_, fun code member => ?_⟩
    · rcases List.mem_append.mp member with first | later
      · exact here.events op payload first
      · exact rest.events op payload later
    · rcases List.mem_append.mp member with first | later
      · rw [run, run_closed cfg _ (here.fails code first)]
        exact here.fails code first
      · exact rest.fails code later

end Decoder
end LAppS.Rfc6455

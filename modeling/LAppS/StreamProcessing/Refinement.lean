import LAppS.Rfc6455.Decoder
import LAppS.StreamProcessing.Payload

/-!
# The parsers refine the decoder

`Rel` ties a suspended parser to a state of the byte-at-a-time decoder. One byte of the stream moves
both: `parse` continues behind that byte, takes a message or closes exactly as the decoder's step says.
-/

namespace LAppS.StreamProcessing
open Rfc6455 Bytes DefiniteCloseCode

/-- The decoder a parser implements. The client parser is lazy about empty payloads. -/
def Role.config (role : Role) (limit : Nat) : Config := ⟨role.requiresMask, role == .server, limit⟩

/-! ### The relation -/

/-- What a parser keeps between frames: the opcode stack and the fragments so far. -/
structure Held (limit : Nat) (p : Parser) (pending : Pending) : Prop where
  limit : p.mMaxMSGSize = limit
  opcodes : p.opcodes = (pending.map (·.1)).toList
  frames : ∀ m ∈ pending, p.messageFrames = m.2

/-- A header that is being read. -/
structure Opened (p : Parser) (fin : Bool) (op : OpCode) : Prop where
  fin : p.mHeader.fin = fin
  opcode : p.mHeader.opcode = op
  fseq : p.mHeader.fseq = .single
  ready : p.mPLBytesReady = 0

/-- A buffer of the right size that holds the earlier fragments and the payload bytes so far. -/
structure Filled (buf acc : List UInt8) (len : Nat) (got : List UInt8) : Prop where
  size : buf.length = acc.length + len
  bytes : buf.take (acc.length + got.length) = acc ++ got

inductive Stored (limit : Nat) (p : Parser) (len : Nat) (got : List UInt8) : Pending → Kind → Prop where
  | single {pending : Pending} {op : OpCode} (held : Held limit p pending)
      (fseq : p.mHeader.fseq = .single) (opcode : p.mHeader.opcode = op)
      (filled : Filled p.message [] len got) : Stored limit p len got pending (.single op)
  | first {op : OpCode} (max : p.mMaxMSGSize = limit) (fseq : p.mHeader.fseq = .first)
      (opcodes : p.opcodes = [op]) (filled : Filled p.messageFrames [] len got) :
      Stored limit p len got none (.first op)
  | middle {op : OpCode} {acc : List UInt8} (max : p.mMaxMSGSize = limit)
      (fseq : p.mHeader.fseq = .middle) (opcodes : p.opcodes = [op])
      (filled : Filled p.messageFrames acc len got) : Stored limit p len got (some (op, acc)) .middle
  | last {op : OpCode} {acc : List UInt8} (max : p.mMaxMSGSize = limit)
      (fseq : p.mHeader.fseq = .last) (opcode : p.mHeader.opcode = op) (opcodes : p.opcodes = [])
      (filled : Filled p.messageFrames acc len got) : Stored limit p len got (some (op, acc)) .last

/-- A payload of which `got` is stored and more is to come. -/
structure InBody (role : Role) (limit : Nat) (p : Parser) (pending : Pending) (kind : Kind) (len : Nat)
    (key : Fin 4 → UInt8) (got : List UInt8) : Prop where
  size : p.mHeader.msgSize = len
  ready : p.mPLBytesReady = got.length
  more : got.length < len
  key : KeyHeld role p key
  stored : Stored limit p len got pending kind

inductive Rel (role : Role) (limit : Nat) (p : Parser) : Decoder → Prop where
  | start {pending : Pending} (held : Held limit p pending)
      (state : p.mState = .init ∨ p.mState = .header1stByte ∧ p.mHeader = {} ∧ p.mPLBytesReady = 0) :
      Rel role limit p ⟨.start, pending⟩
  | second {pending : Pending} {fin : Bool} {op : OpCode} (held : Held limit p pending)
      (opened : Opened p fin op) (state : p.mState = .header2dnByte) :
      Rel role limit p ⟨.second fin op, pending⟩
  | short0 {pending : Pending} {fin : Bool} {op : OpCode} (held : Held limit p pending)
      (opened : Opened p fin op) (state : p.mState = .readShortSize0) :
      Rel role limit p ⟨.extended fin op 2 [], pending⟩
  | short1 {pending : Pending} {fin : Bool} {op : OpCode} (held : Held limit p pending)
      (opened : Opened p fin op) (state : p.mState = .readShortSize1) :
      Rel role limit p ⟨.extended fin op 2 [p.mHeader.mediumSize 0], pending⟩
  | long {pending : Pending} {fin : Bool} {op : OpCode} (i : Fin 8) (held : Held limit p pending)
      (opened : Opened p fin op) (state : p.mState = .readLongSize i) :
      Rel role limit p ⟨.extended fin op 8 ((List.ofFn p.mHeader.largeSize).take i), pending⟩
  | key {pending : Pending} {fin : Bool} {op : OpCode} (i : Fin 4) (server : role = .server)
      (held : Held limit p pending) (opened : Opened p fin op) (state : p.mState = .readMask i) :
      Rel role limit p ⟨.key fin op p.mHeader.msgSize ((List.ofFn p.mHeader.mask).take i), pending⟩
  | masked {pending : Pending} {fin : Bool} {op : OpCode} (server : role = .server)
      (held : Held limit p pending) (opened : Opened p fin op) (state : p.mState = .validate)
      (nonempty : p.mHeader.msgSize ≠ 0) (MASK : p.MASK = keyWord p.mHeader.mask) :
      Rel role limit p ⟨.ready fin op p.mHeader.msgSize p.mHeader.mask, pending⟩
  | unmasked {pending : Pending} {fin : Bool} {op : OpCode} (client : role = .client)
      (held : Held limit p pending) (opened : Opened p fin op) (state : p.mState = .readMask 0) :
      Rel role limit p ⟨.ready fin op p.mHeader.msgSize (fun _ => 0), pending⟩
  | body {pending : Pending} {kind : Kind} {len : Nat} {key : Fin 4 → UInt8} {got : List UInt8}
      (state : p.mState = .payload) (started : got ≠ [])
      (inBody : InBody role limit p pending kind len key got) :
      Rel role limit p ⟨.body kind len key got, pending⟩

/-- How `parse` on the stream from `c` goes with a step of the decoder, which leaves the stream at `c'`. -/
inductive Follows (role : Role) (limit : Nat) (s : List UInt8) (p : Parser) (c c' : Nat) :
    Decoder × List Event → Prop where
  | moves {p' : Parser} {d : Decoder} (rel : Rel role limit p' d)
      (inside : c' < s.length → parse role p s c = parse role p' s c')
      (atEnd : c' = s.length → ∃ r, parse role p s c = .ok (r, p') ∧ r.directive = .more) :
      Follows role limit s p c c' (d, [])
  | message {q p' : Parser} {op : OpCode} {payload : List UInt8} {d : Decoder}
      (ready : parse role p s c = .ok (⟨c', .takeReadyMessage, normal⟩, q))
      (taken : role.getMessage q = .ok (⟨op, payload⟩, p')) (rel : Rel role limit p' d) :
      Follows role limit s p c c' (d, [.message op payload])
  | close {q : Parser} {r : Result} {d : Decoder} (result : parse role p s c = .ok (r, q))
      (directive : r.directive = .closeWithCode) (closed : d.phase = .closed) :
      Follows role limit s p c c' (d, [.fail r.cCode])

variable {role : Role} {limit : Nat} {s : List UInt8} {p q : Parser} {c c' : Nat} {r : Result}
  {pending : Pending} {kind : Kind} {len : Nat} {key : Fin 4 → UInt8} {got : List UInt8}

theorem Follows.congr {p₀ : Parser} {c₀ : Nat} {x : Decoder × List Event}
    (hp : parse role p₀ s c₀ = parse role p s c) (h : Follows role limit s p c c' x) :
    Follows role limit s p₀ c₀ c' x := by
  cases h with
  | moves rel inside atEnd => exact .moves rel (fun h => hp.trans (inside h)) (fun h => hp ▸ atEnd h)
  | message ready taken rel => exact .message (hp.trans ready) taken rel
  | close result directive closed => exact .close (hp.trans result) directive closed

/-! ### `parse` by the results of the switch -/

theorem parse_congr {p' : Parser} (h : toDone role p s c = toDone role p' s c') :
    parse role p s c = parse role p' s c' := by
  rw [parse_eq role p, parse_eq role p', h]

theorem parse_stop (h : toDone role p s c = .ok (r, q)) (stop : r.directive ≠ .continue_) :
    parse role p s c = .ok (r, q) := by
  rw [parse_eq, h]
  dsimp only
  rw [if_neg stop]

theorem parse_done (h : toDone role p s c = .ok (⟨c', .continue_, normal⟩, q))
    (completes : q.mHeader.fseq = .single ∨ q.mHeader.fseq = .last) :
    parse role p s c = .ok (⟨c', .takeReadyMessage, normal⟩, { q with mState := .messageReady }) := by
  have decided : decideOnDone q c' = (⟨c', .takeReadyMessage, normal⟩, { q with mState := .messageReady }) := by
    unfold decideOnDone
    rcases completes with hf | hf <;> rw [hf]
  rw [parse_eq, h]
  dsimp only
  rw [decided, if_pos rfl, if_neg (by simp)]

theorem parse_fragment (h : toDone role p s c = .ok (⟨c', .continue_, normal⟩, q))
    (fragment : q.mHeader.fseq = .first ∨ q.mHeader.fseq = .middle) :
    parse role p s c = parse role { q with mState := .init } s c' := by
  have decided : decideOnDone q c' = (⟨c', .continue_, normal⟩, { q with mState := .init }) := by
    unfold decideOnDone
    rcases fragment with hf | hf <;> rw [hf]
  rw [parse_eq, h]
  dsimp only
  rw [decided, if_pos rfl, if_pos rfl]

theorem follows_close {d : Decoder} (h : toDone role p s c = .ok (r, q))
    (close : r.directive = .closeWithCode) : Follows role limit s p c c' (d.fail r.cCode) :=
  .close (parse_stop h (by rw [close]; simp)) close rfl

/-- The switch moves on to a later state of the parser, or stops there for more input. -/
theorem follows_moves {d : Decoder} (rel : Rel role limit q d)
    (inside : c' < s.length → toDone role p s c = toDone role q s c')
    (atEnd : c' = s.length → ∃ r, toDone role p s c = .ok (r, q) ∧ r.directive = .more) :
    Follows role limit s p c c' (d, []) := by
  refine .moves rel (fun h => parse_congr (inside h)) fun h => ?_
  obtain ⟨r, hr, more⟩ := atEnd h
  exact ⟨r, parse_stop hr (by rw [more]; simp), more⟩

/-! ### A complete frame -/

theorem Filled.put {buf acc : List UInt8} (filled : Filled buf acc len got) (more : got.length < len)
    (x : UInt8) : Filled (buf.set (acc.length + got.length) x) acc len (got ++ [x]) := by
  obtain ⟨size, bytes⟩ := filled
  have hlt : acc.length + got.length < buf.length := by omega
  refine ⟨by rw [List.length_set, size], ?_⟩
  rw [List.length_append, List.length_singleton, ← Nat.add_assoc,
    List.take_succ_eq_append_getElem (by simpa using hlt), List.getElem_set_self,
    List.take_set_of_le (Nat.le_refl _), bytes, List.append_assoc]

theorem Filled.full {buf acc : List UInt8} (filled : Filled buf acc len got) (full : got.length = len) :
    buf = acc ++ got := by
  rw [← filled.bytes, full, ← filled.size, List.take_length]

theorem Held.of_eq {p' : Parser} (held : Held limit p pending) (hmax : p'.mMaxMSGSize = p.mMaxMSGSize)
    (hops : p'.opcodes = p.opcodes) (hframes : p'.messageFrames = p.messageFrames) :
    Held limit p' pending :=
  ⟨hmax.trans held.limit, hops.trans held.opcodes, fun m hm => hframes.trans (held.frames m hm)⟩

theorem getMessage_single {op : OpCode} (role : Role) (fseq : q.mHeader.fseq = .single)
    (opcode : q.mHeader.opcode = op) (payload : q.message = got) :
    role.getMessage { q with mState := .messageReady } =
      .ok (⟨op, got⟩,
        { q with mState := .init, message := q.getBuffer.1, mBufferQueue := q.getBuffer.2 }) := by
  cases role <;>
    simp [Role.getMessage, WSStreamServerParser.getMessage, WSStreamClientParser.getMessage, fseq,
      opcode, payload, Parser.getBuffer]

theorem getMessage_last {op : OpCode} (role : Role) (fseq : q.mHeader.fseq = .last)
    (opcode : q.mHeader.opcode = op) (payload : q.messageFrames = got) :
    role.getMessage { q with mState := .messageReady } =
      .ok (⟨op, got⟩,
        { q with mState := .init, messageFrames := q.getBuffer.1, mBufferQueue := q.getBuffer.2 }) := by
  cases role <;>
    simp [Role.getMessage, WSStreamServerParser.getMessage, WSStreamClientParser.getMessage, fseq,
      opcode, payload, Parser.getBuffer]

/-- After a fragment `parse` starts over, and at the end of the stream stops at once. -/
theorem follows_fragment {d : Decoder} (h : toDone role p s c = .ok (⟨c', .continue_, normal⟩, q))
    (fragment : q.mHeader.fseq = .first ∨ q.mHeader.fseq = .middle) (held : Held limit q d.pending)
    (start : d.phase = .start) : Follows role limit s p c c' (d, []) := by
  have restart : toDone role { q with mState := .init } s c' = toDone role q.reset s c' := rfl
  have again : parse role p s c = parse role q.reset s c' :=
    (parse_fragment h fragment).trans (parse_congr restart)
  have rel : Rel role limit q.reset ⟨.start, d.pending⟩ :=
    .start (held.of_eq rfl rfl rfl) (.inr ⟨rfl, rfl, rfl⟩)
  obtain ⟨phase, pending⟩ := d
  obtain rfl := start
  refine .moves rel (fun _ => again) fun hend => ⟨⟨0, .more, normal⟩, ?_, rfl⟩
  have stops : toDone role q.reset s c' = .ok (⟨0, .more, normal⟩, q.reset) := by
    simp [toDone, Parser.reset, fromHeader1, andThen, getHeader1stByte, hend]
  rw [again, parse_stop stops (by simp)]

/-- The switch reaches `DONE` with the whole payload stored. -/
theorem follows_complete (d : Decoder) (h : toDone role p s c = .ok (⟨c', .continue_, normal⟩, q))
    (stored : Stored limit q len got d.pending kind) (full : got.length = len) :
    Follows role limit s p c c' (d.complete kind got) := by
  obtain ⟨phase, pending⟩ := d
  cases stored with
  | single held fseq opcode filled =>
    have taken := getMessage_single role fseq opcode (filled.full full)
    exact .message (parse_done h (.inl fseq)) taken (.start (held.of_eq rfl rfl rfl) (.inl rfl))
  | first max fseq opcodes filled =>
    refine follows_fragment h (.inl fseq) ⟨max, opcodes, ?_⟩ rfl
    rintro m ⟨⟩
    exact filled.full full
  | middle max fseq opcodes filled =>
    refine follows_fragment h (.inr fseq) ⟨max, opcodes, ?_⟩ rfl
    rintro m ⟨⟩
    exact filled.full full
  | last max fseq opcode opcodes filled =>
    have taken := getMessage_last role fseq opcode (filled.full full)
    exact .message (parse_done h (.inr fseq)) taken (.start ⟨max, opcodes, by simp⟩ (.inl rfl))

/-! ### A byte of the payload -/

/-- The parser with one more payload byte stored. -/
def put (p : Parser) (x : UInt8) : Parser :=
  match p.mHeader.fseq with
  | .single => { p with message := p.message.set p.mPLBytesReady x, mPLBytesReady := p.mPLBytesReady + 1 }
  | .first | .middle | .last => { p with
      messageFrames :=
        p.messageFrames.set (p.messageFrames.length - p.mHeader.msgSize + p.mPLBytesReady) x
      mPLBytesReady := p.mPLBytesReady + 1 }

@[simp] theorem put_header (p : Parser) (x : UInt8) : (put p x).mHeader = p.mHeader := by
  unfold put; split <;> rfl

@[simp] theorem put_ready (p : Parser) (x : UInt8) : (put p x).mPLBytesReady = p.mPLBytesReady + 1 := by
  unfold put; split <;> rfl

@[simp] theorem put_state (p : Parser) (x : UInt8) : (put p x).mState = p.mState := by
  unfold put; split <;> rfl

@[simp] theorem put_MASK (p : Parser) (x : UInt8) : (put p x).MASK = p.MASK := by
  unfold put; split <;> rfl

theorem keyHeld_put (held : KeyHeld role p key) (x : UInt8) : KeyHeld role (put p x) key := by
  cases role with
  | server => simpa [KeyHeld] using held
  | client => exact held

theorem stored_put (stored : Stored limit p len got pending kind) (size : p.mHeader.msgSize = len)
    (ready : p.mPLBytesReady = got.length) (more : got.length < len) (x : UInt8) :
    Stored limit (put p x) len (got ++ [x]) pending kind := by
  cases stored with
  | single held fseq opcode filled =>
    have hput := filled.put more x
    simp only [List.length_nil, Nat.zero_add, ← ready] at hput
    simp only [put, fseq]
    exact .single (held.of_eq rfl rfl rfl) fseq opcode hput
  | first max fseq opcodes filled =>
    have used : p.messageFrames.length - p.mHeader.msgSize = 0 := by simp [filled.size, size]
    have hput := filled.put more x
    simp only [put, fseq, used]
    simp only [List.length_nil, ← ready] at hput
    exact .first max fseq opcodes hput
  | middle max fseq opcodes filled =>
    rename_i op acc
    have used : p.messageFrames.length - p.mHeader.msgSize = acc.length := by rw [filled.size, size]; omega
    have hput := filled.put more x
    simp only [put, fseq, used]
    rw [← ready] at hput
    exact .middle max fseq opcodes hput
  | last max fseq opcode opcodes filled =>
    rename_i op acc
    have used : p.messageFrames.length - p.mHeader.msgSize = acc.length := by rw [filled.size, size]; omega
    have hput := filled.put more x
    simp only [put, fseq, used]
    rw [← ready] at hput
    exact .last max fseq opcode opcodes hput

theorem stored_state (stored : Stored limit p len got pending kind) (state : State) :
    Stored limit { p with mState := state } len got pending kind := by
  cases stored with
  | single held fseq opcode filled => exact .single (held.of_eq rfl rfl rfl) fseq opcode filled
  | first max fseq opcodes filled => exact .first max fseq opcodes filled
  | middle max fseq opcodes filled => exact .middle max fseq opcodes filled
  | last max fseq opcode opcodes filled => exact .last max fseq opcode opcodes filled

theorem storePayload_one (held : KeyHeld role p key) (hr : p.mPLBytesReady < p.mHeader.msgSize)
    (hc : c < s.length) (last : p.mPLBytesReady + 1 = p.mHeader.msgSize ∨ c + 1 = s.length) :
    storePayload role p s c =
      payloadRead role (put p (s[c]! ^^^ key (Fin.ofNat 4 p.mPLBytesReady))) s (c + 1) := by
  unfold storePayload put
  cases hf : p.mHeader.fseq <;> simp only [store_one _ s held hr hc last, Nat.zero_add]

theorem storePayload_succ (held : KeyHeld role p key) (hr : p.mPLBytesReady < p.mHeader.msgSize)
    (hc : c < s.length) :
    storePayload role p s c =
      storePayload role (put p (s[c]! ^^^ key (Fin.ofNat 4 p.mPLBytesReady))) s (c + 1) := by
  have step := fun base buf => store_succ base s held
    (keyHeld_put held (s[c]! ^^^ key (Fin.ofNat 4 p.mPLBytesReady))) (by rw [put_header])
    (put_ready _ _) hr hc buf
  unfold storePayload
  rw [put_header]
  cases hf : p.mHeader.fseq <;> simp only [step] <;> simp only [put, hf, Nat.zero_add, List.length_set]

theorem processPayload_started (started : p.mPLBytesReady ≠ 0) :
    processPayload role p s c = storePayload role p s c := by
  have sized : sizeBuffer p s c = some p := by
    unfold sizeBuffer
    dsimp only
    split <;> simp [started]
  rw [processPayload, sized]

/-- One byte of the payload, from wherever the switch came to store it. -/
theorem follows_bodyByte (d : Decoder) {p₁ : Parser} (hc : c < s.length)
    (h : toDone role p s c = .ok (storePayload role p₁ s c)) (state : p₁.mState = .payload)
    (inBody : InBody role limit p₁ d.pending kind len key got) :
    Follows role limit s p c (c + 1) (d.bodyByte kind len key got s[c]!) := by
  obtain ⟨size, ready, more, held, stored⟩ := inBody
  have hr : p₁.mPLBytesReady < p₁.mHeader.msgSize := by rw [ready, size]; exact more
  have byte : maskFrom key got.length [s[c]!] = [s[c]! ^^^ key (Fin.ofNat 4 p₁.mPLBytesReady)] := by
    rw [ready]; rfl
  have held' := keyHeld_put held (s[c]! ^^^ key (Fin.ofNat 4 p₁.mPLBytesReady))
  have stored' := stored_put stored size ready more (s[c]! ^^^ key (Fin.ofNat 4 p₁.mPLBytesReady))
  have one := storePayload_one (s := s) (c := c) held hr hc
  have succ := storePayload_succ (s := s) (c := c) held hr hc
  unfold Decoder.bodyByte
  simp only [byte, List.length_append, List.length_singleton]
  generalize hx : put p₁ (s[c]! ^^^ key (Fin.ofNat 4 p₁.mPLBytesReady)) = p' at *
  have size' : p'.mHeader.msgSize = len := by rw [← hx, put_header, size]
  have ready' : p'.mPLBytesReady = got.length + 1 := by rw [← hx, put_ready, ready]
  have state' : p'.mState = .payload := by rw [← hx, put_state, state]
  by_cases hmore : got.length + 1 < len
  · rw [if_pos hmore]
    have inBody' : InBody role limit p' d.pending kind len key
        (got ++ [s[c]! ^^^ key (Fin.ofNat 4 p₁.mPLBytesReady)]) :=
      ⟨size', by simp [ready'], by simpa using hmore, held', stored'⟩
    refine follows_moves (.body state' (by simp) inBody') (fun hin => ?_) fun hend => ?_
    · rw [h, succ, ← processPayload_started (by omega)]
      simp only [toDone, state']
    · refine ⟨⟨0, .more, normal⟩, ?_, rfl⟩
      rw [h, one (.inr hend), payloadRead, if_neg (by omega), if_neg (by omega)]
  · rw [if_neg hmore]
    refine follows_complete d (q := { p' with mState := .done }) ?_ (?_ : Stored limit _ len _ _ _) (by simp; omega)
    · rw [h, one (.inl (by omega)), payloadRead, if_pos (by omega)]
    · exact stored_state stored' .done

/-! ### The header is validated -/

/-- What `validateHeader` makes of an accepted frame. -/
def validated (p : Parser) : Kind → Parser
  | .single _ => { p with mState := .payload }
  | .first op => { p with mState := .payload, mHeader := { p.mHeader with fseq := .first }, opcodes := [op] }
  | .middle => { p with mState := .payload, mHeader := { p.mHeader with fseq := .middle } }
  | .last => { p with
      mState := .payload
      mHeader := { p.mHeader with fseq := .last, opcode := p.opcodes.headD .continuation }
      opcodes := p.opcodes.tail }

variable {fin : Bool} {op : OpCode}

theorem validateHeader_classify (opened : Opened p fin op) (held : Held limit p pending) (c : Nat) :
    validateHeader p c =
      match Decoder.classify pending fin op p.mHeader.msgSize with
      | .error code => (⟨c, .closeWithCode, code⟩, p)
      | .ok kind => (⟨c, .continue_, normal⟩, validated p kind) := by
  obtain ⟨hfin, hop, hfseq, -⟩ := opened
  have hops := held.opcodes
  obtain ⟨_, _, _, ⟨isFin, _, _, _, _, _, _, opcode, _, _, _, _, size⟩, _, _, _, _, _, _⟩ := p
  dsimp only at hfin hop hfseq hops
  subst hfin hop hfseq hops
  unfold validateHeader Decoder.classify
  cases pending <;> cases isFin <;> cases opcode <;> simp [OpCode.isControl, OpCode.isData, validated,
    protocolViolation, normal]
  all_goals
    by_cases hz : size = 0
    · simp [hz]
    · by_cases hl : 125 < size <;> simp [hz, hl]

theorem classify_ok (h : Decoder.classify pending fin op len = .ok kind) :
    kind = .single op ∨ kind = .first op ∧ pending = none ∨
      op = .continuation ∧ pending.isSome ∧ (kind = .middle ∨ kind = .last) := by
  unfold Decoder.classify at h
  cases pending <;> cases fin <;> cases op <;> simp [OpCode.isControl, OpCode.isData] at h
  all_goals
    repeat' split at h
    all_goals simp_all

theorem continuation_of_classify (h : Decoder.classify pending fin op len = .ok kind)
    (continuation : kind.isContinuation = true) : op = .continuation := by
  rcases classify_ok h with rfl | ⟨rfl, -⟩ | ⟨hop, -⟩
  · cases continuation
  · cases continuation
  · exact hop

theorem keyHeld_validated (held : KeyHeld role p key) (kind : Kind) : KeyHeld role (validated p kind) key := by
  cases role with
  | server => cases kind <;> exact held
  | client => exact held

/-- The buffer is sized for an accepted payload. -/
theorem sizeBuffer_validated (opened : Opened p fin op) (held : Held limit p pending)
    (keyed : KeyHeld role p key) (accepted : Decoder.classify pending fin op p.mHeader.msgSize = .ok kind)
    (fits : kind.isContinuation = true → c ≠ s.length →
      Decoder.used ⟨.start, pending⟩ + p.mHeader.msgSize ≤ limit)
    (room : c ≠ s.length ∨ p.mHeader.msgSize = 0) :
    ∃ q, sizeBuffer (validated p kind) s c = some q ∧ q.mState = .payload ∧ q.mPLBytesReady = 0 ∧
      q.mHeader.msgSize = p.mHeader.msgSize ∧ KeyHeld role q key ∧
      Stored limit q p.mHeader.msgSize [] pending kind := by
  have keyed' := keyHeld_validated keyed kind
  rcases classify_ok accepted with rfl | ⟨rfl, rfl⟩ | ⟨rfl, hsome, hkind⟩
  · refine ⟨{ validated p (.single op) with message := resize p.message p.mHeader.msgSize }, ?_, rfl,
      opened.ready, rfl, keyed', ?_⟩
    · simp [sizeBuffer, validated, opened.fseq, opened.ready]
    · exact .single (held.of_eq rfl rfl rfl) opened.fseq opened.opcode ⟨by simp, by simp⟩
  · refine ⟨{ validated p (.first op) with messageFrames := resize p.messageFrames p.mHeader.msgSize }, ?_, rfl,
      opened.ready, rfl, keyed', ?_⟩
    · simp [sizeBuffer, validated, opened.ready]
    · exact .first held.limit rfl rfl ⟨by simp, by simp⟩
  · obtain ⟨⟨op, acc⟩, rfl⟩ := Option.isSome_iff_exists.mp hsome
    have hcont : kind.isContinuation = true := by rcases hkind with rfl | rfl <;> rfl
    have hframes : p.messageFrames = acc := held.frames _ rfl
    have hops : p.opcodes = [op] := held.opcodes
    specialize fits hcont
    simp only [Decoder.used, Option.map_some, Option.getD_some] at fits
    have hlimit : c ≠ s.length → ¬(acc.length + p.mHeader.msgSize) % 2 ^ 64 > p.mMaxMSGSize := by
      intro hc
      rw [held.limit]
      have := Nat.mod_le (acc.length + p.mHeader.msgSize) (2 ^ 64)
      have := fits hc
      omega
    have filled : Filled (resize acc (acc.length + p.mHeader.msgSize)) acc p.mHeader.msgSize [] := by
      refine ⟨by simp, ?_⟩
      rw [List.length_nil, Nat.add_zero, take_resize acc (Nat.le_add_right _ _), List.append_nil]
    have sized : sizeBuffer (validated p kind) s c =
        some { validated p kind with messageFrames := resize acc (acc.length + p.mHeader.msgSize) } := by
      rcases hkind with rfl | rfl <;>
      · simp only [sizeBuffer, validated, opened.ready, hframes, true_and]
        by_cases hc : c = s.length
        · have hz : p.mHeader.msgSize = 0 := room.resolve_left (absurd hc)
          simp [hc, hz]
        · rw [if_pos hc, if_neg (hlimit hc)]
    refine ⟨_, sized, ?_⟩
    rcases hkind with rfl | rfl
    · exact ⟨rfl, opened.ready, rfl, keyed', .middle held.limit rfl hops filled⟩
    · refine ⟨rfl, opened.ready, rfl, keyed', .last held.limit rfl ?_ ?_ filled⟩ <;> simp [validated, hops]

/-- The fragments together are too big. -/
theorem sizeBuffer_tooBig (opened : Opened p fin op) (held : Held limit p pending)
    (accepted : Decoder.classify pending fin op p.mHeader.msgSize = .ok kind)
    (continuation : kind.isContinuation = true)
    (big : limit < Decoder.used ⟨.start, pending⟩ + p.mHeader.msgSize)
    (noWrap : Decoder.used ⟨.start, pending⟩ + p.mHeader.msgSize < 2 ^ 64) (room : c ≠ s.length) :
    sizeBuffer (validated p kind) s c = none := by
  rcases classify_ok accepted with rfl | ⟨rfl, rfl⟩ | ⟨rfl, hsome, hkind⟩
  · cases continuation
  · cases continuation
  · obtain ⟨⟨op, acc⟩, rfl⟩ := Option.isSome_iff_exists.mp hsome
    have hframes : p.messageFrames = acc := held.frames _ rfl
    simp only [Decoder.used, Option.map_some, Option.getD_some] at big noWrap
    have exceeds : (acc.length + p.mHeader.msgSize) % 2 ^ 64 > p.mMaxMSGSize := by
      rw [Nat.mod_eq_of_lt noWrap, held.limit]
      exact big
    rcases hkind with rfl | rfl <;>
    · simp only [sizeBuffer, validated, opened.ready, hframes, true_and]
      rw [if_pos room, if_pos exceeds]

theorem fromValidate_ok (opened : Opened p fin op) (held : Held limit p pending)
    (accepted : Decoder.classify pending fin op p.mHeader.msgSize = .ok kind) :
    fromValidate role s p c = processPayload role (validated p kind) s c := by
  simp [fromValidate, andThen, validateHeader_classify opened held, accepted]

theorem fromValidate_error {code : CloseCode} (opened : Opened p fin op) (held : Held limit p pending)
    (rejected : Decoder.classify pending fin op p.mHeader.msgSize = .error code) :
    fromValidate role s p c = (⟨c, .closeWithCode, code⟩, p) := by
  simp [fromValidate, andThen, validateHeader_classify opened held, rejected]

/-- A frame with an empty payload is complete as soon as its header is validated. -/
theorem follows_empty (d : Decoder) (h : toDone role p s c = .ok (fromValidate role s q c'))
    (opened : Opened q fin op) (held : Held limit q d.pending) (keyed : KeyHeld role q key)
    (empty : q.mHeader.msgSize = 0) (used : op = .continuation → c' ≠ s.length → d.used ≤ limit) :
    Follows role limit s p c c' (d.empty fin op) := by
  unfold Decoder.empty
  split <;> rename_i classified <;> rw [← empty] at classified
  · rw [fromValidate_error opened held classified] at h
    exact follows_close h rfl
  · obtain ⟨q', sized, -, ready, size, keyed', stored⟩ :=
      sizeBuffer_validated (s := s) (c := c') opened held keyed classified
        (fun hk hc => by rw [empty]; exact used (continuation_of_classify classified hk) hc) (.inr empty)
    rw [fromValidate_ok opened held classified, processPayload, sized] at h
    have done : storePayload role q' s c' = (⟨c', .continue_, normal⟩, { q' with mState := .done }) := by
      have nothing := fun base buf => store_empty base s keyed' (by rw [size, empty, ready]) buf c'
      unfold storePayload
      cases hf : q'.mHeader.fseq <;> simp [nothing, payloadRead, size, empty, ready]
    rw [empty] at stored
    exact follows_complete d (h.trans (congrArg _ done)) (stored_state stored .done) rfl

/-- The first byte of a payload. -/
theorem follows_readyByte (d : Decoder) (hc : c < s.length)
    (h : toDone role p s c = .ok (fromValidate role s q c)) (opened : Opened q fin op)
    (held : Held limit q d.pending) (keyed : KeyHeld role q key) (nonempty : q.mHeader.msgSize ≠ 0)
    (noWrap : op = .continuation → d.used + q.mHeader.msgSize < 2 ^ 64) :
    Follows role limit s p c (c + 1)
      (d.readyByte (role.config limit) fin op q.mHeader.msgSize key s[c]!) := by
  unfold Decoder.readyByte
  split <;> rename_i classified
  · rw [fromValidate_error opened held classified] at h
    exact follows_close h rfl
  · rename_i kind
    have hop : kind.isContinuation = true → op = .continuation := continuation_of_classify classified
    rw [fromValidate_ok opened held classified, processPayload] at h
    rw [if_neg nonempty]
    split <;> rename_i hbig
    · simp only [Bool.and_eq_true, decide_eq_true_eq] at hbig
      rw [sizeBuffer_tooBig opened held classified hbig.1 hbig.2 (noWrap (hop hbig.1)) hc.ne] at h
      exact follows_close h rfl
    · have fits : kind.isContinuation = true → c ≠ s.length → d.used + q.mHeader.msgSize ≤ limit := by
        intro hk _
        by_contra hgt
        exact hbig (by simp [hk, Role.config]; omega)
      obtain ⟨q', sized, state, ready, size, keyed', stored⟩ :=
        sizeBuffer_validated (s := s) (c := c) opened held keyed classified fits
          (.inl hc.ne)
      rw [sized] at h
      exact follows_bodyByte d hc h state ⟨size, by simp [ready], by simpa using Nat.pos_of_ne_zero nonempty,
        keyed', stored⟩

/-! ### The header is read -/

theorem toDone_start (state : p.mState = .init ∨ p.mState = .header1stByte ∧ p.mHeader = {} ∧ p.mPLBytesReady = 0) :
    toDone role p s c = .ok (fromHeader1 role s p.reset c) := by
  rcases state with hs | ⟨hs, hh, hr⟩
  · simp only [toDone, hs]
  · have same : p.reset = p := by unfold Parser.reset; rw [← hs, ← hh, ← hr]
    simp only [toDone, hs, same]

theorem rsv_bits (b : UInt8) :
    ((b &&& 64 != 0) || (b &&& 32 != 0) || (b &&& 16 != 0)) = (b &&& 112 != 0) := by
  have all : ∀ n : Fin 256, ((UInt8.ofNat n.val &&& 64 != 0) || (UInt8.ofNat n.val &&& 32 != 0) ||
      (UInt8.ofNat n.val &&& 16 != 0)) = (UInt8.ofNat n.val &&& 112 != 0) := by decide +kernel
  simpa using all ⟨b.toNat, b.toNat_lt⟩

theorem isOpCodeSupported_eq (op : OpCode) :
    isOpCodeSupported op = (op.isControl || op.isData || decide (op = .continuation)) := by
  cases op <;> rfl

theorem fromHeader2_end (hc : c = s.length) : fromHeader2 role s p c = (⟨0, .more, normal⟩, p) := by
  simp [fromHeader2, andThen, getHeader2ndByte, hc]

theorem fromSize_end (hc : c = s.length) : fromSize role s p c = (⟨0, .more, normal⟩, p) := by
  simp [fromSize, andThen, readSIZE, hc]

/-- The parser after a first header byte, whether it is accepted or not. -/
def seenFirst (p : Parser) (b : UInt8) : Parser :=
  { p with
    mHeader := { p.mHeader with
      fin := b &&& 128 != 0
      rsv1 := b &&& 64 != 0
      rsv2 := b &&& 32 != 0
      rsv3 := b &&& 16 != 0
      opcode := OpCode.ofByte b } }

theorem getHeader1stByte_eq (hc : c < s.length) :
    getHeader1stByte p s c =
      if s[c]! &&& 112 != 0 then (⟨c, .closeWithCode, protocolViolation⟩, seenFirst p s[c]!)
      else if (OpCode.ofByte s[c]!).isControl || (OpCode.ofByte s[c]!).isData ||
          decide (OpCode.ofByte s[c]! = .continuation) then
        (⟨c + 1, .continue_, normal⟩, { seenFirst p s[c]! with mState := .header2dnByte })
      else (⟨c, .closeWithCode, noComprende⟩, seenFirst p s[c]!) := by
  simp only [getHeader1stByte, hc, if_true, rsv_bits, isOpCodeSupported_eq, seenFirst]
  congr 1
  cases (OpCode.ofByte s[c]!).isControl || (OpCode.ofByte s[c]!).isData ||
    decide (OpCode.ofByte s[c]! = .continuation) <;> rfl

theorem follows_startByte (d : Decoder) (hc : c < s.length)
    (state : p.mState = .init ∨ p.mState = .header1stByte ∧ p.mHeader = {} ∧ p.mPLBytesReady = 0)
    (held : Held limit p d.pending) : Follows role limit s p c (c + 1) (d.startByte s[c]!) := by
  have h : toDone role p s c = .ok (fromHeader1 role s p.reset c) := toDone_start state
  rw [fromHeader1, getHeader1stByte_eq hc] at h
  by_cases hrsv : s[c]! &&& 112 != 0
  · rw [if_pos hrsv] at h
    rw [Decoder.startByte, if_pos hrsv]
    exact follows_close h rfl
  rw [if_neg hrsv] at h
  rw [Decoder.startByte, if_neg hrsv]
  split at h <;> rename_i hop
  · rw [if_pos hop]
    refine follows_moves (q := { seenFirst p.reset s[c]! with mState := .header2dnByte })
      (.second (held.of_eq rfl rfl rfl) ⟨rfl, rfl, rfl, rfl⟩ rfl) (fun _ => h) fun hend => ?_
    exact ⟨_, h.trans (congrArg _ (fromHeader2_end hend)), rfl⟩
  · rw [if_neg hop]
    exact follows_close h rfl

/-- The payload length is known. -/
theorem follows_lengthDone (d : Decoder)
    (h : toDone role p s c =
      .ok (if c + 1 = s.length then (⟨0, .more, normal⟩, q) else fromMask role s q (c + 1)))
    (state : q.mState = .readMask 0) (opened : Opened q fin op) (held : Held limit q d.pending) :
    Follows role limit s p c (c + 1) (d.lengthDone (role.config limit) fin op q.mHeader.msgSize) := by
  have moves : ∀ {phase : Phase}, Rel role limit q ⟨phase, d.pending⟩ →
      Follows role limit s p c (c + 1) (⟨phase, d.pending⟩, []) := by
    intro phase rel
    refine follows_moves rel (fun hin => ?_) fun hend => ⟨_, h.trans (by rw [if_pos hend]), rfl⟩
    rw [h, if_neg hin.ne]
    simp only [toDone, state]
  cases role with
  | server => exact moves (.key 0 rfl held opened state)
  | client =>
    have lazy : d.lengthDone (Role.config .client limit) fin op q.mHeader.msgSize =
        (⟨.ready fin op q.mHeader.msgSize (fun _ => 0), d.pending⟩, []) := by
      simp [Decoder.lengthDone, Decoder.headerDone, Role.config, Role.requiresMask]
    rw [lazy]
    exact moves (.unmasked rfl held opened state)

/-- The parser after an accepted second header byte. -/
def seenSecond (p : Parser) (b : UInt8) : Parser :=
  let p := { p with mHeader := { p.mHeader with maskFlag := b &&& 128 != 0 } }
  if (b &&& 127).toNat < 126 then
    { p with
      mHeader := { p.mHeader with smallSize := b &&& 127, sizeType := .min, msgSize := (b &&& 127).toNat }
      mState := .readMask 0 }
  else if (b &&& 127).toNat = 126 then
    { p with
      mHeader := { p.mHeader with smallSize := b &&& 127, sizeType := .short }
      mState := .readShortSize0 }
  else
    { p with
      mHeader := { p.mHeader with smallSize := b &&& 127, sizeType := .long }
      mState := .readLongSize 0 }

theorem opened_seenSecond (opened : Opened p fin op) (b : UInt8) : Opened (seenSecond p b) fin op := by
  obtain ⟨hfin, hop, hfseq, hready⟩ := opened
  unfold seenSecond
  dsimp only
  split
  · exact ⟨hfin, hop, hfseq, hready⟩
  · split <;> exact ⟨hfin, hop, hfseq, hready⟩

theorem held_seenSecond (held : Held limit p pending) (b : UInt8) : Held limit (seenSecond p b) pending := by
  unfold seenSecond
  dsimp only
  split
  · exact held.of_eq rfl rfl rfl
  · split <;> exact held.of_eq rfl rfl rfl

theorem follows_secondByte (d : Decoder) (hc : c < s.length) (state : p.mState = .header2dnByte)
    (opened : Opened p fin op) (held : Held limit p d.pending) :
    Follows role limit s p c (c + 1) (d.secondByte (role.config limit) fin op s[c]!) := by
  have h : toDone role p s c = .ok (fromHeader2 role s p c) := by simp only [toDone, state]
  unfold Decoder.secondByte
  by_cases hmask : ((s[c]! &&& 128 != 0) != role.requiresMask) = true
  · simp only [fromHeader2, andThen, getHeader2ndByte, hc, hmask, if_true, reduceCtorEq, if_false] at h
    simp only [Role.config, hmask, if_true]
    exact follows_close h rfl
  have accepted : getHeader2ndByte role p s c = (⟨c + 1, .continue_, normal⟩, seenSecond p s[c]!) := by
    simp only [getHeader2ndByte, hc, hmask, if_true, Bool.false_eq_true, if_false, seenSecond]
  rw [fromHeader2, accepted, andThen, if_pos rfl] at h
  dsimp only at h
  have opened' := opened_seenSecond opened s[c]!
  have held' := held_seenSecond held s[c]!
  rw [if_neg (by simpa [Role.config] using hmask)]
  dsimp only
  by_cases hsmall : (s[c]! &&& 127).toNat < 126
  · rw [if_pos hsmall]
    have state' : (seenSecond p s[c]!).mState = .readMask 0 := by simp only [seenSecond, hsmall, if_true]
    have size : (seenSecond p s[c]!).mHeader.msgSize = (s[c]! &&& 127).toNat := by
      simp only [seenSecond, hsmall, if_true]
    rw [← size]
    refine follows_lengthDone d (h.trans (congrArg _ ?_)) state' opened' held'
    split <;> rename_i hend
    · exact fromSize_end hend
    · have hin : c + 1 < s.length := by omega
      simp only [fromSize, andThen, readSIZE, hin, if_true, state']
  · rw [if_neg hsmall]
    by_cases hshort : (s[c]! &&& 127).toNat = 126
    · rw [if_pos hshort]
      have state' : (seenSecond p s[c]!).mState = .readShortSize0 := by
        simp only [seenSecond, hshort, Nat.lt_irrefl, if_false, if_true]
      refine follows_moves (.short0 held' opened' state') (fun _ => ?_) fun hend => ?_
      · rw [h]; simp only [toDone, state']
      · exact ⟨_, h.trans (congrArg _ (fromSize_end hend)), rfl⟩
    · rw [if_neg hshort]
      have state' : (seenSecond p s[c]!).mState = .readLongSize 0 := by
        simp only [seenSecond, hsmall, hshort, if_false]
      refine follows_moves (.long 0 held' opened' state') (fun _ => ?_) fun hend => ?_
      · rw [h]; simp only [toDone, state']
      · exact ⟨_, h.trans (congrArg _ (fromSize_end hend)), rfl⟩

/-- The last byte of an extended length. -/
theorem follows_sizeRead (d : Decoder) {size : Nat}
    (h : toDone role p s c = .ok (andThen (sizeRead q s c size) (fromMask role s)))
    (opened : Opened q fin op) (held : Held limit q d.pending) :
    Follows role limit s p c (c + 1)
      (if size > limit then d.fail 1009 else d.lengthDone (role.config limit) fin op size) := by
  have max := held.limit
  subst max
  rw [sizeRead] at h
  by_cases hbig : size > q.mMaxMSGSize
  · rw [if_pos hbig] at h ⊢
    exact follows_close h rfl
  · rw [if_neg hbig] at h ⊢
    refine follows_lengthDone d (q := { q with
      mHeader := { q.mHeader with msgSize := size }, mState := .readMask 0 }) (h.trans (congrArg _ ?_)) rfl
      ⟨opened.fin, opened.opcode, opened.fseq, opened.ready⟩ (held.of_eq rfl rfl rfl)
    dsimp only
    split <;> rfl

theorem take_ofFn_update {n : Nat} (f : Fin n → UInt8) (i : Fin n) (b : UInt8) :
    (List.ofFn (Function.update f i b)).take (i + 1) = (List.ofFn f).take i ++ [b] := by
  apply List.ext_getElem
  · simp only [List.length_append, List.length_take, List.length_ofFn, List.length_singleton]
    omega
  · intro j hj hj'
    simp only [List.length_take, List.length_ofFn] at hj
    rw [List.getElem_take, List.getElem_ofFn]
    by_cases hji : j = i.val
    · subst hji
      rw [List.getElem_append_right (by simp)]
      simp
    · rw [List.getElem_append_left (by simp; omega), List.getElem_take, List.getElem_ofFn,
        Function.update_of_ne (fun h => hji (congrArg Fin.val h))]

theorem follows_short0 (d : Decoder) (hc : c < s.length) (state : p.mState = .readShortSize0)
    (opened : Opened p fin op) (held : Held limit p d.pending) :
    Follows role limit s p c (c + 1) (d.extendedByte (role.config limit) fin op 2 [] s[c]!) := by
  have h : toDone role p s c = .ok (fromSize role s p c) := by simp only [toDone, state]
  simp only [fromSize, readSIZE, hc, if_true, state, readShortSize0] at h
  have rel : ∀ {q : Parser}, q = { p with
      mHeader := { p.mHeader with mediumSize := Function.update p.mHeader.mediumSize 0 s[c]! }
      mState := .readShortSize1 } → Rel role limit q ⟨.extended fin op 2 [s[c]!], d.pending⟩ := by
    rintro q rfl
    have hrel : Rel role limit { p with
        mHeader := { p.mHeader with mediumSize := Function.update p.mHeader.mediumSize 0 s[c]! }
        mState := .readShortSize1 } _ :=
      .short1 (held.of_eq rfl rfl rfl) ⟨opened.fin, opened.opcode, opened.fseq, opened.ready⟩ rfl
    simpa using hrel
  refine follows_moves (rel rfl) (fun hin => ?_) fun hend => ?_
  · rw [h, if_neg hin.ne]
    simp only [toDone, fromSize, readSIZE, hin, if_true]
  · exact ⟨_, h.trans (by rw [if_pos hend]; rfl), rfl⟩

theorem follows_short1 (d : Decoder) (hc : c < s.length) (state : p.mState = .readShortSize1)
    (opened : Opened p fin op) (held : Held limit p d.pending) :
    Follows role limit s p c (c + 1)
      (d.extendedByte (role.config limit) fin op 2 [p.mHeader.mediumSize 0] s[c]!) := by
  have h : toDone role p s c = .ok (fromSize role s p c) := by simp only [toDone, state]
  simp only [fromSize, readSIZE, hc, if_true, state, readShortSize1] at h
  exact follows_sizeRead d h ⟨opened.fin, opened.opcode, opened.fseq, opened.ready⟩ (held.of_eq rfl rfl rfl)

theorem follows_long (d : Decoder) (i : Fin 8) (hc : c < s.length) (state : p.mState = .readLongSize i)
    (opened : Opened p fin op) (held : Held limit p d.pending) :
    Follows role limit s p c (c + 1)
      (d.extendedByte (role.config limit) fin op 8 ((List.ofFn p.mHeader.largeSize).take i) s[c]!) := by
  have h : toDone role p s c = .ok (fromSize role s p c) := by simp only [toDone, state]
  simp only [fromSize, readSIZE, hc, if_true, state] at h
  rw [readLongSize] at h
  have read := take_ofFn_update p.mHeader.largeSize i s[c]!
  unfold Decoder.extendedByte
  have width : ((List.ofFn p.mHeader.largeSize).take i).length = i := by simp
  rw [width, ← read]
  by_cases hi : i.val < 7
  · rw [if_pos (by omega)]
    rw [dif_pos hi] at h
    refine follows_moves (q := { p with
      mHeader := { p.mHeader with largeSize := Function.update p.mHeader.largeSize i s[c]! }
      mState := .readLongSize ⟨i.val + 1, by omega⟩ })
      (.long ⟨i.val + 1, by omega⟩ (held.of_eq rfl rfl rfl)
        ⟨opened.fin, opened.opcode, opened.fseq, opened.ready⟩ rfl) (fun hin => ?_) fun hend => ?_
    · rw [h, if_neg hin.ne]
      simp only [toDone, fromSize, readSIZE, hin, if_true]
    · exact ⟨_, h.trans (by rw [if_pos hend]; rfl), rfl⟩
  · rw [if_neg (by omega)]
    rw [dif_neg hi] at h
    have whole : (List.ofFn (Function.update p.mHeader.largeSize i s[c]!)).take (i.val + 1) =
        List.ofFn (Function.update p.mHeader.largeSize i s[c]!) := by
      rw [List.take_of_length_le (by simp; omega)]
    rw [whole]
    exact follows_sizeRead d h ⟨opened.fin, opened.opcode, opened.fseq, opened.ready⟩ (held.of_eq rfl rfl rfl)

theorem ofFn_getElem {n : Nat} (f : Fin n → UInt8) : (fun i : Fin n => (List.ofFn f)[i]!) = f := by
  funext i
  simp

/-- The parser with the whole key. -/
def keyed (p : Parser) (mask : Fin 4 → UInt8) : Parser :=
  { p with mHeader := { p.mHeader with mask := mask }, MASK := keyWord mask, mState := .validate }

theorem opened_keyed (opened : Opened p fin op) (mask : Fin 4 → UInt8) : Opened (keyed p mask) fin op :=
  ⟨opened.fin, opened.opcode, opened.fseq, opened.ready⟩

/-- The last byte of the key. -/
theorem toDone_keyed (hc : c < s.length) (state : p.mState = .readMask 3) :
    toDone .server p s c =
      .ok (if c + 1 = s.length ∧ p.mHeader.msgSize ≠ 0 then
          (⟨0, .more, normal⟩, keyed p (Function.update p.mHeader.mask 3 s[c]!))
        else fromValidate .server s (keyed p (Function.update p.mHeader.mask 3 s[c]!)) (c + 1)) := by
  simp only [toDone, state, fromMask, Role.readMASK, readMASK, hc, if_true]
  rw [readMaskByte, dif_neg (by decide)]
  dsimp only [keyed]
  split <;> rfl

theorem follows_keyByte (d : Decoder) (i : Fin 4) (hc : c < s.length) (state : p.mState = .readMask i)
    (opened : Opened p fin op) (held : Held limit p d.pending)
    (used : i = 3 → p.mHeader.msgSize = 0 → op = .continuation → c + 1 ≠ s.length → d.used ≤ limit) :
    Follows .server limit s p c (c + 1)
      (d.keyByte (Role.config .server limit) fin op p.mHeader.msgSize
        ((List.ofFn p.mHeader.mask).take i) s[c]!) := by
  have read := take_ofFn_update p.mHeader.mask i s[c]!
  have width : ((List.ofFn p.mHeader.mask).take i).length = i := by simp
  unfold Decoder.keyByte
  rw [width, ← read]
  by_cases hi : i.val < 3
  · rw [if_pos hi]
    have h : toDone .server p s c = .ok (fromMask .server s p c) := by simp only [toDone, state]
    simp only [fromMask, Role.readMASK, readMASK, hc, if_true, state] at h
    rw [readMaskByte, dif_pos hi] at h
    refine follows_moves (q := { p with
      mHeader := { p.mHeader with mask := Function.update p.mHeader.mask i s[c]! }
      mState := .readMask ⟨i.val + 1, by omega⟩ })
      (.key ⟨i.val + 1, by omega⟩ rfl (held.of_eq rfl rfl rfl)
        ⟨opened.fin, opened.opcode, opened.fseq, opened.ready⟩ rfl) (fun hin => ?_) fun hend => ?_
    · rw [h, if_neg hin.ne]
      simp only [toDone, fromMask, Role.readMASK, readMASK, hin, if_true]
    · exact ⟨_, h.trans (by rw [if_pos hend]; rfl), rfl⟩
  · obtain rfl : i = 3 := by omega
    have h := toDone_keyed hc state
    have whole : (List.ofFn (Function.update p.mHeader.mask 3 s[c]!)).take (3 + 1) =
        List.ofFn (Function.update p.mHeader.mask 3 s[c]!) := List.take_of_length_le (by simp)
    rw [if_neg hi, show ((3 : Fin 4).val + 1) = 3 + 1 from rfl, whole, ofFn_getElem]
    generalize Function.update p.mHeader.mask 3 s[c]! = mask at h ⊢
    have opened' := opened_keyed opened mask
    by_cases hz : p.mHeader.msgSize = 0
    · have eager : d.headerDone (Role.config .server limit) fin op p.mHeader.msgSize mask = d.empty fin op := by
        simp [Decoder.headerDone, Role.config, hz]
      rw [if_neg (by simp [hz])] at h
      rw [eager]
      exact @follows_empty _ _ _ _ _ _ _ mask _ _ d h opened' (held.of_eq rfl rfl rfl) ⟨rfl, rfl⟩ hz (used rfl hz)
    · have waits : d.headerDone (Role.config .server limit) fin op p.mHeader.msgSize mask =
          (⟨.ready fin op p.mHeader.msgSize mask, d.pending⟩, []) := by
        simp [Decoder.headerDone, hz]
      rw [waits]
      refine follows_moves (q := keyed p mask)
        (.masked rfl (held.of_eq rfl rfl rfl) opened' rfl hz rfl) (fun hin => ?_) fun hend => ?_
      · rw [h, if_neg (fun hend => hin.ne hend.1)]
        rfl
      · exact ⟨_, h.trans (by rw [if_pos ⟨hend, hz⟩]), rfl⟩

/-! ### Every byte -/

/-- No check of the fragments' total is special here: at an empty continuation, where it depends on the
chunk whether the check is made, it would succeed, and elsewhere its sum does not wrap. -/
structure Clear (limit : Nat) (d : Decoder) : Prop where
  key : ∀ fin got, d.phase = .key fin .continuation 0 got → got.length = 3 → d.used ≤ limit
  empty : ∀ fin key, d.phase = .ready fin .continuation 0 key → d.used ≤ limit
  noWrap : ∀ fin len key, d.phase = .ready fin .continuation len key → d.used + len < 2 ^ 64

/-- A header without payload that only the next byte completes. -/
def Decoder.Lazy (role : Role) (d : Decoder) : Prop :=
  role = .client ∧ ∃ fin op key, d.phase = .ready fin op 0 key

/-- One byte moves the parser as it moves the decoder. At the end of a buffer the total of an empty continuation is not
checked. -/
theorem follows_step {d : Decoder} (rel : Rel role limit p d)
    (key : c + 1 = s.length ∨ ∀ fin got, d.phase = .key fin .continuation 0 got → got.length = 3 → d.used ≤ limit)
    (noWrap : ∀ fin len key, d.phase = .ready fin .continuation len key → d.used + len < 2 ^ 64)
    (prompt : ¬Decoder.Lazy role d) (hc : c < s.length) :
    Follows role limit s p c (c + 1) (d.step (role.config limit) s[c]!) := by
  cases rel with
  | start held state => exact follows_startByte _ hc state held
  | second held opened state => exact follows_secondByte _ hc state opened held
  | short0 held opened state => exact follows_short0 _ hc state opened held
  | short1 held opened state => exact follows_short1 _ hc state opened held
  | long i held opened state => exact follows_long _ i hc state opened held
  | key i server held opened state =>
    subst server
    refine follows_keyByte _ i hc state opened held ?_
    rintro rfl hz rfl inside
    exact key.resolve_left inside _ _ (by rw [hz]) (by rw [List.length_take, List.length_ofFn]; rfl)
  | masked server held opened state nonempty MASK =>
    subst server
    refine follows_readyByte _ hc (by simp only [toDone, state]) opened held ⟨rfl, MASK⟩ nonempty ?_
    rintro rfl
    exact noWrap _ _ _ rfl
  | unmasked client held opened state =>
    subst client
    have nonempty : p.mHeader.msgSize ≠ 0 := by
      intro hz
      rw [hz] at prompt
      exact prompt ⟨rfl, _, _, _, rfl⟩
    refine follows_readyByte (q := { p with mState := .validate }) _ hc ?_
      ⟨opened.fin, opened.opcode, opened.fseq, opened.ready⟩ (held.of_eq rfl rfl rfl) rfl nonempty ?_
    · simp only [toDone, state]
      rfl
    · rintro rfl
      exact noWrap _ _ _ rfl
  | body state started inBody =>
    refine follows_bodyByte _ hc ?_ state inBody
    have hready : p.mPLBytesReady ≠ 0 := by
      rw [inBody.ready]
      exact fun hz => started (List.length_eq_zero_iff.mp hz)
    rw [← processPayload_started hready]
    simp only [toDone, state]

/-- The client parser completes an empty frame without consuming the byte it was waiting for. -/
theorem follows_lazy {d : Decoder} (rel : Rel .client limit p d) (clear : Clear limit d)
    (hd : d.phase = .ready fin op 0 key) : Follows .client limit s p c c (d.empty fin op) := by
  cases rel with
  | unmasked client held opened state =>
    obtain ⟨rfl, rfl, hz, rfl⟩ := Phase.ready.inj hd
    refine @follows_empty _ _ _ _ { p with mState := .validate } _ _ (fun _ => 0) _ _ _ ?_
      ⟨opened.fin, opened.opcode, opened.fseq, opened.ready⟩ (held.of_eq rfl rfl rfl) rfl hz ?_
    · simp only [toDone, state]
      rfl
    · rintro rfl _
      exact clear.empty _ _ (by rw [hz])
  | masked server => cases server
  | _ => cases hd

end LAppS.StreamProcessing

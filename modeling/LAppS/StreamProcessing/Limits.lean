import LAppS.StreamProcessing.Reassembly

/-!
# The limits of the parsers

Over every sequence of buffers that the drivers feed to a parser, no call of `processPayload` leaves its bounds, and no
message and no collection of fragments exceeds the limit. A 7-bit length is not compared with the limit, so that a message
in one frame of 125 bytes is always accepted.
-/

namespace LAppS.StreamProcessing
open Rfc6455 Bytes DefiniteCloseCode

/-! ### What the drivers reach -/

/-- The parsers that are reached by feeding buffers, up to the first `CLOSE_WITH_CODE`, with the fragments that have
begun. Every buffer has a byte from the cursor on; a message is taken when it is ready; a buffer may be returned. -/
inductive Reached (role : Role) (presz limit : Nat) : List Nat → Parser → Prop where
  | fresh : Reached role presz limit [] (fresh presz limit)
  | more {frags : List Nat} {p q : Parser} {stream : List UInt8} {offset : Nat} {r : Result}
      (reached : Reached role presz limit frags p) (inside : offset < stream.length)
      (parsed : parse role p stream offset = .ok (r, q)) (directive : r.directive = .more) :
      Reached role presz limit ((payloadCalls role p stream offset).foldl begun frags) q
  | message {frags : List Nat} {p q p' : Parser} {stream : List UInt8} {offset : Nat} {r : Result} {m : WSEvent}
      (reached : Reached role presz limit frags p) (inside : offset < stream.length)
      (parsed : parse role p stream offset = .ok (r, q)) (directive : r.directive = .takeReadyMessage)
      (taken : role.getMessage q = .ok (m, p')) :
      Reached role presz limit ((payloadCalls role p stream offset).foldl begun frags) p'
  | returned {frags : List Nat} {p : Parser} (reached : Reached role presz limit frags p) (buff : List UInt8) :
      Reached role presz limit frags (p.returnBuffer buff)

section Reached

variable {role : Role} {presz limit : Nat} {frags : List Nat} {p q : Parser} {stream : List UInt8} {offset : Nat}

theorem Suspended.returnBuffer (s : Suspended limit frags p) (buff : List UInt8) :
    Suspended limit frags (p.returnBuffer buff) := by
  cases s with
  | init state between => exact .init state ⟨between.maxSize, between.depth, between.size, between.collects⟩
  | header header => exact .header (header.keeps header.state header.size rfl rfl rfl rfl rfl)
  | payload state holding started => exact .payload state (holding.keeps rfl rfl rfl rfl rfl holding.ready) started

/-- A message that is ready is handed out, and the parser is between two frames again. -/
theorem Holding.getMessage (role : Role) (h : Holding limit frags q) (ready : q.mState = .messageReady)
    (complete : q.mHeader.fseq = .single ∨ q.mHeader.fseq = .last) :
    ∃ m p, role.getMessage q = .ok (m, p) ∧ m.message = q.frameBuffer ∧ Suspended limit frags p := by
  have taken : role.getMessage q =
      .ok (if q.mHeader.fseq = .single then
        (⟨q.mHeader.opcode, q.message⟩,
          { q with mState := .init, message := q.getBuffer.1, mBufferQueue := q.getBuffer.2 })
      else
        (⟨q.mHeader.opcode, q.messageFrames⟩,
          { q with mState := .init, messageFrames := q.getBuffer.1, mBufferQueue := q.getBuffer.2 })) := by
    cases role with
    | server =>
      simp only [Role.getMessage, WSStreamServerParser.getMessage, ready, if_true]
      split <;> rfl
    | client =>
      simp only [Role.getMessage, WSStreamClientParser.getMessage, ready, if_true]
      split <;> rfl
  rw [taken]
  rcases complete with fseq | fseq
  · rw [if_pos fseq]
    refine ⟨_, _, rfl, ?_, .init rfl ⟨h.maxSize, h.depth, h.size, h.between.collects⟩⟩
    simp only [Parser.frameBuffer, fseq]
  · rw [if_neg (by rw [fseq]; simp)]
    refine ⟨_, _, rfl, ?_, .init rfl ⟨h.maxSize, h.depth, h.size, fun pending => absurd (h.last fseq) pending⟩⟩
    simp only [Parser.frameBuffer, fseq]

theorem Holding.frameBuffer_le (h : Holding limit frags q) : q.frameBuffer.length ≤ bound limit := by
  unfold Parser.frameBuffer
  split
  case h_1 fseq =>
    rw [h.single fseq]
    exact h.size
  all_goals
    rename_i fseq
    have collects := h.collects (.inr (by rw [fseq]; simp))
    rw [collects.length]
    exact collects.le

theorem Ends.getMessage (role : Role) {x : Result × Parser} (ends : Ends limit frags x)
    (directive : x.1.directive = .takeReadyMessage) :
    ∃ m p, role.getMessage x.2 = .ok (m, p) ∧ m.message.length ≤ bound limit ∧ Suspended limit frags p := by
  cases ends with
  | more other => rw [directive] at other; cases other
  | close other => rw [directive] at other; cases other
  | message _ state holding complete =>
    obtain ⟨m, p, taken, buffer, suspended⟩ := holding.getMessage role state complete
    exact ⟨m, p, taken, buffer ▸ holding.frameBuffer_le, suspended⟩

theorem Reached.suspended (small : limit < 2 ^ 63) (reached : Reached role presz limit frags p) :
    Suspended limit frags p := by
  induction reached with
  | fresh => exact .init rfl ⟨rfl, Nat.zero_le _, Nat.zero_le _, fun pending => absurd rfl pending⟩
  | more _ inside parsed directive ih =>
    obtain ⟨x, same, ends, -⟩ := ih.parse small (.inr inside)
    rw [parsed] at same
    cases same
    cases ends with
    | more _ suspended => exact suspended
    | message other => rw [directive] at other; cases other
    | close other => rw [directive] at other; cases other
  | message _ inside parsed directive taken ih =>
    obtain ⟨x, same, ends, -⟩ := ih.parse small (.inr inside)
    rw [parsed] at same
    cases same
    obtain ⟨m, p, same, -, suspended⟩ := ends.getMessage _ directive
    rw [taken] at same
    cases same
    exact suspended
  | returned _ buff ih => exact ih.returnBuffer buff

theorem Reached.parse_ne_error (small : limit < 2 ^ 63) (reached : Reached role presz limit frags p)
    (inside : offset < stream.length) (e : String) : parse role p stream offset ≠ .error e := by
  obtain ⟨x, parsed, -⟩ := (reached.suspended small).parse small (.inr inside)
  rw [parsed]
  simp

theorem Reached.getMessage_ne_error (small : limit < 2 ^ 63) (reached : Reached role presz limit frags p)
    (inside : offset < stream.length) {r : Result} (parsed : parse role p stream offset = .ok (r, q))
    (directive : r.directive = .takeReadyMessage) (e : String) : role.getMessage q ≠ .error e := by
  obtain ⟨x, same, ends, -⟩ := (reached.suspended small).parse small (.inr inside)
  rw [parsed] at same
  cases same
  obtain ⟨m, p', taken, -⟩ := ends.getMessage role directive
  rw [taken]
  simp

/-- The loop of `processInput` feeds its buffer as `Reached` has it: what it leaves is reached unless the connection is
closed, and only its handler throws. -/
theorem drain_reached {σ : Type} {h : Handler σ} {w : σ} (small : limit < 2 ^ 63)
    (reached : Reached role presz limit frags p) (inside : offset < stream.length) :
    ((drain role h w p stream offset).2.2 = .ok .closeWithCode ∨
        ∃ frags, Reached role presz limit frags (drain role h w p stream offset).2.1) ∧
      ∀ e, (drain role h w p stream offset).2.2 = .error e → ∃ w m, (h.onMessage w m).2 = .error e := by
  fun_induction drain role h w p stream offset generalizing frags with
  | case1 w p offset e parsed => exact absurd parsed (reached.parse_ne_error small inside e)
  | case2 w p offset r q parsed directive =>
    exact ⟨.inr ⟨_, reached.more inside parsed directive⟩, fun e thrown => by cases thrown⟩
  | case3 w p offset r q parsed directive e taken =>
    exact absurd taken (reached.getMessage_ne_error small inside parsed directive e)
  | case4 w p offset r q parsed directive m q' taken w' e thrown =>
    refine ⟨.inr ⟨_, reached.message inside parsed directive taken⟩, fun e' same => ⟨w, m, ?_⟩⟩
    obtain rfl : e = e' := Except.error.inj same
    rw [thrown]
  | case5 w p offset r q parsed directive m q' taken w' goOn _ goes ih =>
    exact ih (reached.message inside parsed directive taken) goes.2.2
  | case6 w p offset r q parsed directive m q' taken =>
    exact ⟨.inr ⟨_, reached.message inside parsed directive taken⟩, fun e thrown => by cases thrown⟩
  | case7 => exact ⟨.inl rfl, fun e thrown => by cases thrown⟩
  | case8 w p offset r q parsed directive => exact absurd directive (parse_directive parsed)

end Reached

/-! ### The bounds of a call -/

/-- A call of `processPayload` that stays in its bounds. `processPayloadChecked` checks the reads, the writes, the cursor
and the subtraction. -/
structure InBounds (role : Role) (stream : List UInt8) (call : PayloadCall) : Prop where
  checked : processPayloadChecked role call.parser stream call.cursor =
    some (processPayload role call.parser stream call.cursor)
  readyBefore : call.parser.mPLBytesReady ≤ call.parser.mHeader.msgSize
  readyAfter : (processPayload role call.parser stream call.cursor).2.mPLBytesReady ≤
    (processPayload role call.parser stream call.cursor).2.mHeader.msgSize
  /-- The first call for a frame makes room for all of it. -/
  enlarged : call.opening = true → (call.parser.mHeader.msgSize ≠ 0 → Enlarges call.parser stream call.cursor) ∧
    ∀ q, sizeBuffer call.parser stream call.cursor = some q →
      q.frameBuffer.length = call.parser.used + call.parser.mHeader.msgSize
  /-- No other call changes the size. -/
  kept : call.opening = false → ¬Enlarges call.parser stream call.cursor ∧
    sizeBuffer call.parser stream call.cursor = some call.parser

/-- A call of `parse`. -/
structure ParseCall where
  parser : Parser
  stream : List UInt8
  cursor : Nat

/-- The call returns, a message that is ready can be taken, and no call of `processPayload` leaves its bounds. -/
structure Safe (role : Role) (call : ParseCall) : Prop where
  returns : ∃ r q, parse role call.parser call.stream call.cursor = .ok (r, q) ∧
    (r.directive = .takeReadyMessage → ∃ m p', role.getMessage q = .ok (m, p'))
  inBounds : ∀ c ∈ payloadCalls role call.parser call.stream call.cursor, InBounds role call.stream c

/-- The calls of `parse` that `drain` makes. -/
def drainCalls {σ : Type} (role : Role) (h : Handler σ) (w : σ) (p : Parser) (input : List UInt8) (cursor : Nat) :
    List ParseCall :=
  match _hp : parse role p input cursor with
  | .error _ => [⟨p, input, cursor⟩]
  | .ok (state, q) =>
    match _hd : state.directive with
    | .takeReadyMessage =>
      match _hg : role.getMessage q with
      | .error _ => [⟨p, input, cursor⟩]
      | .ok (message, q') =>
        match h.onMessage w message with
        | (_, .error _) => [⟨p, input, cursor⟩]
        | (w, .ok goOn) =>
          if _hc : goOn = true ∧ (role = .client ∨ 0 < state.cursor) ∧ state.cursor < input.length then
            ⟨p, input, cursor⟩ :: drainCalls role h w q' input state.cursor
          else [⟨p, input, cursor⟩]
    | _ => [⟨p, input, cursor⟩]
termination_by measure p input cursor
decreasing_by
  obtain ⟨ready, lt⟩ := parse_takeReady _hp _hd
  rw [measure, getMessage_init ready _hg, if_pos rfl]
  exact lt

theorem mem_drainCalls {σ : Type} {role : Role} {h : Handler σ} {w : σ} {p : Parser} {input : List UInt8} {cursor : Nat} :
    ⟨p, input, cursor⟩ ∈ drainCalls role h w p input cursor := by
  fun_cases drainCalls role h w p input cursor <;> exact List.mem_cons_self

/-- The calls for chunk after chunk, up to the first `CLOSE_WITH_CODE` or exception. -/
def feedCalls {σ : Type} (role : Role) (h : Handler σ) : σ → Parser → List (List UInt8) → List ParseCall
  | _, _, [] => []
  | w, p, chunk :: chunks =>
    drainCalls role h w p chunk 0 ++
      match drain role h w p chunk 0 with
      | (w, p, .ok .more) => feedCalls role h w p chunks
      | (w, p, .ok .takeReadyMessage) => feedCalls role h w p chunks
      | _ => []

section Guarantees

variable {role : Role} {presz limit : Nat} {frags : List Nat} {p : Parser} {stream : List UInt8} {offset : Nat}
  {call : PayloadCall}

theorem Permitted.ready (h : Permitted limit frags stream call) :
    call.parser.mPLBytesReady ≤ call.parser.mHeader.msgSize := by
  cases h with
  | opens o => exact o.ready ▸ Nat.zero_le _
  | resumes _ holding _ _ => exact holding.ready

theorem Permitted.checked (small : limit < 2 ^ 63) (h : Permitted limit frags stream call) :
    processPayloadChecked role call.parser stream call.cursor =
      some (processPayload role call.parser stream call.cursor) := by
  have sizes := h.sizes small
  unfold processPayloadChecked processPayload
  cases sized : sizeBuffer call.parser stream call.cursor with
  | none => rfl
  | some q =>
    rw [sized] at sizes
    cases sizes with
    | sizes _ holding =>
      exact storePayloadChecked_eq h.inside holding.ready (fun fseq => (holding.single fseq).ge) holding.fragment

theorem Stores.ready {r : Result × Parser} (h : Stores limit frags r) :
    r.2.mPLBytesReady ≤ r.2.mHeader.msgSize := by
  cases h with
  | more _ _ holding => exact holding.ready
  | done _ holding => exact holding.ready

theorem Permitted.inBounds (small : limit < 2 ^ 63) (h : Permitted limit frags stream call) :
    InBounds role stream call := by
  refine ⟨h.checked small, h.ready, ?_, ?_, ?_⟩
  · cases h.processed small with
    | refused _ eq =>
      rw [eq]
      exact h.ready
    | stored _ stores => exact stores.ready
  · intro opening
    have sizes := h.sizes small
    cases h with
    | opens o =>
      refine ⟨fun nonempty => ⟨o.ready, fun _ atEnd => nonempty (o.empty atEnd)⟩, fun q sized => ?_⟩
      rw [sized] at sizes
      cases sizes with
      | sizes _ _ _ _ fits => exact fits rfl
    | resumes => cases opening
  · intro later
    cases h with
    | opens => cases later
    | resumes _ _ started => exact ⟨fun enlarges => started enlarges.1, sizeBuffer_started started⟩

/-- Whatever buffers are fed, no call of `processPayload` leaves its bounds and no exception is thrown. -/
theorem Reached.safe (small : limit < 2 ^ 63) (reached : Reached role presz limit frags p) (inside : offset < stream.length) :
    Safe role ⟨p, stream, offset⟩ := by
  obtain ⟨⟨r, q⟩, parsed, ends, each⟩ := (reached.suspended small).parse small (.inr inside)
  refine ⟨⟨r, q, parsed, ?_⟩, ?_⟩
  · intro directive
    obtain ⟨m, p', taken, -⟩ := ends.getMessage role directive
    exact ⟨m, p', taken⟩
  · intro call member
    obtain ⟨earlier, later, split⟩ := List.append_of_mem member
    rw [split] at each
    exact (Each.split each).1.inBounds small

theorem drainCalls_safe {σ : Type} {h : Handler σ} {w : σ} (small : limit < 2 ^ 63) (reached : Reached role presz limit frags p)
    (inside : offset < stream.length) : ∀ call ∈ drainCalls role h w p stream offset, Safe role call := by
  fun_induction drainCalls role h w p stream offset generalizing frags with
  | case4 w p offset r q parsed directive m q' taken w' goOn called goes ih =>
    intro call member
    obtain rfl | later := List.mem_cons.mp member
    · exact reached.safe small inside
    · exact ih (reached.message inside parsed directive taken) goes.2.2 call later
  | _ =>
    intro call member
    obtain rfl := List.mem_singleton.mp member
    exact reached.safe small inside

theorem feedCalls_safe {σ : Type} {h : Handler σ} {w : σ} {chunks : List (List UInt8)} (small : limit < 2 ^ 63)
    (reached : Reached role presz limit frags p) (nonempty : [] ∉ chunks) :
    ∀ call ∈ feedCalls role h w p chunks, Safe role call := by
  induction chunks generalizing frags p w with
  | nil => simp [feedCalls]
  | cons chunk chunks ih =>
    rw [List.mem_cons, not_or] at nonempty
    have inside : 0 < chunk.length := List.length_pos_iff.mpr (Ne.symm nonempty.1)
    have rest {w' : σ} {p' : Parser} {d : Directive} (drained : drain role h w p chunk 0 = (w', p', .ok d))
        (open_ : d ≠ .closeWithCode) : ∀ call ∈ feedCalls role h w' p' chunks, Safe role call := by
      have left := (drain_reached (h := h) (w := w) small reached inside).1
      rw [drained] at left
      obtain ⟨frags', reached'⟩ := left.resolve_left fun closed => open_ (Except.ok.inj closed)
      exact ih reached' nonempty.2
    intro call member
    rw [feedCalls] at member
    obtain here | later := List.mem_append.mp member
    · exact drainCalls_safe small reached inside call here
    · split at later
      next drained => exact rest drained (by decide) call later
      next drained => exact rest drained (by decide) call later
      next => cases later

/-! ### The limit -/

/-- From the first fragment of a message to the last: another fragment is to come, or the payload of one is under way
or has just been completed. -/
def Collecting (p : Parser) : Prop :=
  p.opcodes ≠ [] ∨ (p.mState = .payload ∨ p.mState = .done ∨ p.mState = .messageReady) ∧ p.mHeader.fseq ≠ .single

theorem Suspended.collects (s : Suspended limit frags p) (collecting : Collecting p) :
    Collects limit frags p.messageFrames := by
  cases s with
  | init state between =>
    apply between.collects
    apply collecting.resolve_right
    simp [state]
  | header header =>
    apply header.between.collects
    apply collecting.resolve_right
    intro h
    exact h.2 header.single
  | payload _ holding _ =>
    apply holding.collects
    exact collecting.imp_right And.right

theorem Suspended.size (s : Suspended limit frags p) : p.mHeader.msgSize ≤ bound limit := by
  cases s with
  | init _ between => exact between.size
  | header header => exact header.size
  | payload _ holding _ => exact holding.size

/-- Only a length that is too big makes `parse` end with it. -/
theorem Ends.tooBig {r : Result × Parser} (ends : Ends limit frags r) (big : bound limit < r.2.mHeader.msgSize) :
    r.1.directive = .closeWithCode ∧ r.1.cCode = messageTooBig := by
  cases ends with
  | more _ suspended => exact absurd suspended.size (Nat.not_le.mpr big)
  | message _ _ holding _ => exact absurd holding.size (Nat.not_le.mpr big)
  | close directive size => exact ⟨directive, size big⟩

/-- A later fragment that would be too big is refused. -/
theorem Permitted.refuses (small : limit < 2 ^ 63) (h : Permitted limit frags stream call)
    (opening : call.opening = true) (later : call.parser.mHeader.fseq = .middle ∨ call.parser.mHeader.fseq = .last)
    (big : bound limit < frags.sum + call.parser.mHeader.msgSize) :
    sizeBuffer call.parser stream call.cursor = none := by
  have sizes := h.sizes small
  cases sized : sizeBuffer call.parser stream call.cursor with
  | none => rfl
  | some q =>
    rw [sized] at sizes
    cases sizes with
    | sizes _ holding header =>
      have history : (begun frags call).sum = frags.sum + call.parser.mHeader.msgSize := by
        rcases later with fseq | fseq <;> simp [begun, opening, fseq]
      have fragment : q.mHeader.fseq ≠ .single := by
        rw [header]
        rcases later with fseq | fseq <;> rw [fseq] <;> simp
      have le := (holding.collects (.inr fragment)).le
      omega

theorem Stores.collects {r : Result × Parser} (h : Stores limit frags r) (collecting : Collecting r.2) :
    Collects limit frags r.2.messageFrames := by
  have pending := collecting.imp_right And.right
  cases h with
  | more _ _ holding => exact holding.collects pending
  | done _ holding => exact holding.collects pending

/-- The limit bounds every message and the buffer of the fragments, whatever is fed. -/
theorem messages_within_limit (small : limit < 2 ^ 63) (reached : Reached role presz limit frags p)
    (inside : offset < stream.length) {r : Result} {q : Parser}
    (parsed : parse role p stream offset = .ok (r, q)) :
    (Collecting p → p.messageFrames.length = frags.sum ∧ frags.sum ≤ max limit 125) ∧
      (∀ m p', r.directive = .takeReadyMessage → role.getMessage q = .ok (m, p') →
        m.message.length ≤ max limit 125) ∧
      (max limit 125 < q.mHeader.msgSize → r.directive = .closeWithCode ∧ r.cCode = messageTooBig) ∧
      ∀ earlier call later, payloadCalls role p stream offset = earlier ++ call :: later →
        call.parser.mHeader.msgSize ≤ max limit 125 ∧
        (call.opening = true → call.parser.mHeader.fseq = .middle ∨ call.parser.mHeader.fseq = .last →
          max limit 125 < (earlier.foldl begun frags).sum + call.parser.mHeader.msgSize →
          r = ⟨call.cursor, .closeWithCode, messageTooBig⟩ ∧ q = call.parser) ∧
        ((processPayload role call.parser stream call.cursor).1.directive ≠ .closeWithCode →
          Collecting (processPayload role call.parser stream call.cursor).2 →
          (processPayload role call.parser stream call.cursor).2.messageFrames.length =
              (begun (earlier.foldl begun frags) call).sum ∧
            (begun (earlier.foldl begun frags) call).sum ≤ max limit 125) := by
  have suspended := reached.suspended small
  obtain ⟨x, same, ends, each⟩ := suspended.parse small (.inr inside)
  rw [parsed] at same
  cases same
  refine ⟨?_, ?_, ends.tooBig, ?_⟩
  · intro collecting
    have collects := suspended.collects collecting
    exact ⟨collects.length, collects.le⟩
  · intro m p' directive taken
    obtain ⟨m, p', same, within, -⟩ := ends.getMessage role directive
    rw [taken] at same
    cases same
    exact within
  · intro earlier call later calls
    rw [calls] at each
    obtain ⟨permitted, refused⟩ := Each.split each
    refine ⟨permitted.size, ?_, ?_⟩
    · intro opening continues big
      exact Prod.mk.inj (refused (permitted.refuses small opening continues big))
    · intro proceeds collecting
      cases permitted.processed small with
      | refused _ eq =>
        rw [eq] at proceeds
        exact absurd rfl proceeds
      | stored _ stores =>
        have collects := stores.collects collecting
        exact ⟨collects.length, collects.le⟩

/-- A frame of 256 bytes for a limit of 200. -/
theorem messages_within_limit_refused :
    ∃ r q, parse .server (fresh 16 200) [130, 254, 1, 0] 0 = .ok (r, q) ∧ max 200 125 < q.mHeader.msgSize ∧
      r.directive = .closeWithCode ∧ r.cCode = messageTooBig := by
  obtain ⟨q, pass, size⟩ : ∃ q, toDone .server (fresh 16 200) [130, 254, 1, 0] 0 =
      .ok (⟨3, .closeWithCode, messageTooBig⟩, q) ∧ q.mHeader.msgSize = 256 := by
    set_option maxRecDepth 4096 in exact ⟨_, rfl, rfl⟩
  have parsed := parse_stop pass (by simp)
  have reached : Reached .server 16 200 [] (fresh 16 200) := .fresh
  have big : max 200 125 < q.mHeader.msgSize := by rw [size]; decide
  exact ⟨_, q, parsed, big, (messages_within_limit (by decide) reached (by decide) parsed).2.2.1 big⟩

end Guarantees

end LAppS.StreamProcessing

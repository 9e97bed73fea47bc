import LAppS.StreamProcessing.Bounds
import LAppS.StreamProcessing.Drain

/-!
# The reassembly of a message

Which calls of `processPayload` a parser makes, whatever buffers it is fed, and what the parser holds at each of them.
A frame is opened by one call and continued by the calls of later buffers. The lengths of the fragments that have been
opened are kept as history.
-/

namespace LAppS.StreamProcessing
open Rfc6455 Bytes DefiniteCloseCode

/-! ### The calls of `processPayload` -/

def maskToValid (role : Role) (stream : List UInt8) (p : Parser) (cursor : Nat) : Result × Parser :=
  andThen (role.readMASK p stream cursor) validateHeader

def sizeToValid (role : Role) (stream : List UInt8) (p : Parser) (cursor : Nat) : Result × Parser :=
  andThen (readSIZE p stream cursor) (maskToValid role stream)

def header2ToValid (role : Role) (stream : List UInt8) (p : Parser) (cursor : Nat) : Result × Parser :=
  andThen (getHeader2ndByte role p stream cursor) (sizeToValid role stream)

def header1ToValid (role : Role) (stream : List UInt8) (p : Parser) (cursor : Nat) : Result × Parser :=
  andThen (getHeader1stByte p stream cursor) (header2ToValid role stream)

/-- The switch up to `PAYLOAD`, which it reaches with `CONTINUE`. -/
def toPayload (role : Role) (p : Parser) (stream : List UInt8) (offset : Nat) : Result × Parser :=
  match p.mState with
  | .init => header1ToValid role stream p.reset offset
  | .header1stByte => header1ToValid role stream p offset
  | .header2dnByte => header2ToValid role stream p offset
  | .readShortSize0 | .readShortSize1 | .readLongSize _ => sizeToValid role stream p offset
  | .readMask _ => maskToValid role stream p offset
  | .validate => validateHeader p offset
  | .payload | .done | .messageReady => (⟨offset, .continue_, normal⟩, p)

/-- A call of `processPayload`: whether it is the first one for its frame, and what it is called with. -/
structure PayloadCall where
  opening : Bool
  parser : Parser
  cursor : Nat

/-- The call that one pass of the switch makes, if any. -/
def payloadCall (role : Role) (p : Parser) (stream : List UInt8) (offset : Nat) : List PayloadCall :=
  let r := toPayload role p stream offset
  if p.mState ≠ .done ∧ p.mState ≠ .messageReady ∧ r.1.directive = .continue_ then
    [⟨p.mState ≠ .payload, r.2, r.1.cursor⟩]
  else []

/-- The calls that `parse` makes, in their order. -/
def payloadCalls (role : Role) (p : Parser) (stream : List UInt8) (offset : Nat) : List PayloadCall :=
  match _h : toDone role p stream offset with
  | .error _ => payloadCall role p stream offset
  | .ok (r, q) =>
    if _hr : r.directive = .continue_ then
      if _hd : (decideOnDone q r.cursor).1.directive = .continue_ then
        payloadCall role p stream offset ++
          payloadCalls role (decideOnDone q r.cursor).2 stream (decideOnDone q r.cursor).1.cursor
      else payloadCall role p stream offset
    else payloadCall role p stream offset
termination_by measure p stream offset
decreasing_by
  have lt := toDone_measure _h _hr
  have ⟨hc, hi⟩ := decideOnDone_continue _hd
  simp only [measure, hc, hi, if_true]
  simp only [measure] at lt
  omega

theorem andThen_assoc (r : Result × Parser) (f g : Parser → Nat → Result × Parser) :
    andThen r (fun p c => andThen (f p c) g) = andThen (andThen r f) g := by
  by_cases h : r.1.directive = .continue_
  · simp only [andThen, if_pos h]
  · simp only [andThen, if_neg h]

section Switch

variable (role : Role) (stream : List UInt8)

theorem fromMask_eq :
    fromMask role stream = fun p c => andThen (maskToValid role stream p c) fun q d => processPayload role q stream d := by
  funext p c
  exact andThen_assoc _ _ _

theorem fromSize_eq :
    fromSize role stream = fun p c => andThen (sizeToValid role stream p c) fun q d => processPayload role q stream d := by
  funext p c
  rw [fromSize, fromMask_eq]
  exact andThen_assoc _ _ _

theorem fromHeader2_eq :
    fromHeader2 role stream =
      fun p c => andThen (header2ToValid role stream p c) fun q d => processPayload role q stream d := by
  funext p c
  rw [fromHeader2, fromSize_eq]
  exact andThen_assoc _ _ _

theorem fromHeader1_eq :
    fromHeader1 role stream =
      fun p c => andThen (header1ToValid role stream p c) fun q d => processPayload role q stream d := by
  funext p c
  rw [fromHeader1, fromHeader2_eq]
  exact andThen_assoc _ _ _

/-- A pass of the switch goes up to `PAYLOAD` and then calls `processPayload`. -/
theorem toDone_eq (p : Parser) (offset : Nat) (undone : p.mState ≠ .done ∧ p.mState ≠ .messageReady) :
    toDone role p stream offset =
      .ok (andThen (toPayload role p stream offset) fun q c => processPayload role q stream c) := by
  cases state : p.mState with
  | done => exact absurd state undone.1
  | messageReady => exact absurd state undone.2
  | init | header1stByte => simp only [toDone, toPayload, state, fromHeader1_eq]
  | header2dnByte => simp only [toDone, toPayload, state, fromHeader2_eq]
  | readShortSize0 | readShortSize1 | readLongSize => simp only [toDone, toPayload, state, fromSize_eq]
  | readMask => simp only [toDone, toPayload, state, fromMask_eq]
  | validate => simp only [toDone, toPayload, state, fromValidate]
  | payload => simp only [toDone, toPayload, state, andThen, if_true]

end Switch

/-! ### What a parser holds between the buffers -/

/-- The lengths of the fragments of the message whose payload has begun, after a call. -/
def begun (frags : List Nat) (call : PayloadCall) : List Nat :=
  if call.opening then
    match call.parser.mHeader.fseq with
    | .single => frags
    | .first => [call.parser.mHeader.msgSize]
    | .middle | .last => frags ++ [call.parser.mHeader.msgSize]
  else frags

/-- A 7-bit length is not compared with `mMaxMSGSize`. -/
def bound (limit : Nat) : Nat := max limit 125

/-- The states from the first byte of a header to its validation. -/
def State.isHeader : State → Bool
  | .header1stByte | .header2dnByte | .readShortSize0 | .readShortSize1 | .readLongSize _ | .readMask _
  | .validate => true
  | .init | .payload | .done | .messageReady => false

/-- `messageFrames` holds the fragments that have begun. -/
structure Collects (limit : Nat) (frags : List Nat) (frames : List UInt8) : Prop where
  length : frames.length = frags.sum
  le : frags.sum ≤ bound limit

/-- Between two frames: a fragmented message may be under way. -/
structure Between (limit : Nat) (frags : List Nat) (p : Parser) : Prop where
  maxSize : p.mMaxMSGSize = limit
  depth : p.opcodes.length ≤ 1
  size : p.mHeader.msgSize ≤ bound limit
  collects : p.opcodes ≠ [] → Collects limit frags p.messageFrames

/-- In a header, whose length is 0 until it is known and whose sequence is the one of a control frame. -/
structure Header (limit : Nat) (frags : List Nat) (p : Parser) : Prop where
  state : p.mState.isHeader = true
  between : Between limit frags p
  ready : p.mPLBytesReady = 0
  single : p.mHeader.fseq = .single

/-- In a payload whose buffer has been sized. -/
structure Holding (limit : Nat) (frags : List Nat) (p : Parser) : Prop where
  maxSize : p.mMaxMSGSize = limit
  depth : p.opcodes.length ≤ 1
  ready : p.mPLBytesReady ≤ p.mHeader.msgSize
  size : p.mHeader.msgSize ≤ bound limit
  single : p.mHeader.fseq = .single → p.message.length = p.mHeader.msgSize
  collects : p.opcodes ≠ [] ∨ p.mHeader.fseq ≠ .single → Collects limit frags p.messageFrames
  fragment : p.mHeader.fseq ≠ .single → p.mHeader.msgSize ≤ p.messageFrames.length
  last : p.mHeader.fseq = .last → p.opcodes = []

/-- Where a parser waits for the next buffer. -/
inductive Suspended (limit : Nat) (frags : List Nat) (p : Parser) : Prop where
  | init (state : p.mState = .init) (between : Between limit frags p)
  | header (header : Header limit frags p)
  | payload (state : p.mState = .payload) (holding : Holding limit frags p) (started : p.mPLBytesReady ≠ 0)

/-- What the call that opens a frame is made with. At the end of the buffer only an empty frame is opened. -/
structure Opens (limit : Nat) (frags : List Nat) (stream : List UInt8) (p : Parser) (cursor : Nat) : Prop where
  state : p.mState = .payload
  maxSize : p.mMaxMSGSize = limit
  depth : p.opcodes.length ≤ 1
  ready : p.mPLBytesReady = 0
  size : p.mHeader.msgSize ≤ bound limit
  inside : cursor ≤ stream.length
  empty : cursor = stream.length → p.mHeader.msgSize = 0
  collects : p.mHeader.fseq ≠ .first → p.opcodes ≠ [] ∨ p.mHeader.fseq ≠ .single → Collects limit frags p.messageFrames
  last : p.mHeader.fseq = .last → p.opcodes = []

section Headers

variable {limit : Nat} {frags : List Nat} {p q : Parser} {role : Role} {stream : List UInt8} {cursor : Nat}

theorem Header.size (h : Header limit frags p) : p.mHeader.msgSize ≤ bound limit := h.between.size

theorem Header.keeps (h : Header limit frags p) (state : q.mState.isHeader = true)
    (size : q.mHeader.msgSize ≤ bound limit) (sameLimit : q.mMaxMSGSize = p.mMaxMSGSize)
    (opcodes : q.opcodes = p.opcodes) (frames : q.messageFrames = p.messageFrames)
    (ready : q.mPLBytesReady = p.mPLBytesReady) (fseq : q.mHeader.fseq = p.mHeader.fseq) : Header limit frags q := by
  refine ⟨state, ⟨sameLimit.trans h.between.maxSize, opcodes ▸ h.between.depth, size, ?_⟩, ready.trans h.ready,
    fseq.trans h.single⟩
  rw [opcodes, frames]
  exact h.between.collects

theorem Between.reset (h : Between limit frags p) : Header limit frags p.reset :=
  ⟨rfl, ⟨h.maxSize, h.depth, Nat.zero_le _, h.collects⟩, rfl, rfl⟩

/-- How a part of the switch before `PAYLOAD` ends. Only a length that is too big closes with its own code. -/
inductive Steps (limit : Nat) (frags : List Nat) (P : Parser → Nat → Prop) (r : Result × Parser) : Prop where
  | more (directive : r.1.directive = .more) (header : Header limit frags r.2)
  | close (directive : r.1.directive = .closeWithCode)
      (size : bound limit < r.2.mHeader.msgSize → r.1.cCode = messageTooBig)
  | go (directive : r.1.directive = .continue_) (holds : P r.2 r.1.cursor)

theorem Steps.andThen {P Q : Parser → Nat → Prop} {r : Result × Parser} {next : Parser → Nat → Result × Parser}
    (first : Steps limit frags P r) (second : ∀ q c, P q c → Steps limit frags Q (next q c)) :
    Steps limit frags Q (andThen r next) := by
  unfold StreamProcessing.andThen
  cases first with
  | more directive header =>
    rw [if_neg (by rw [directive]; simp)]
    exact .more directive header
  | close directive size =>
    rw [if_neg (by rw [directive]; simp)]
    exact .close directive size
  | go directive holds =>
    rw [if_pos directive]
    exact second _ _ holds

/-- Any code is right for a header whose length is within the bound. -/
theorem Steps.refuse {P : Parser → Nat → Prop} {r : Result × Parser} (directive : r.1.directive = .closeWithCode)
    (size : r.2.mHeader.msgSize ≤ bound limit) : Steps limit frags P r :=
  .close directive fun big => absurd big (Nat.not_lt.mpr size)

theorem getHeader1stByte_steps (h : Header limit frags p) :
    Steps limit frags (fun q _ => Header limit frags q) (getHeader1stByte p stream cursor) := by
  unfold getHeader1stByte
  dsimp only
  repeat' split
  · exact Steps.refuse rfl h.size
  · exact Steps.refuse rfl h.size
  · exact .go rfl (h.keeps rfl h.size rfl rfl rfl rfl rfl)
  · exact .more rfl h

theorem getHeader2ndByte_steps (h : Header limit frags p) :
    Steps limit frags (fun q _ => Header limit frags q) (getHeader2ndByte role p stream cursor) := by
  unfold getHeader2ndByte
  dsimp only
  repeat' split
  · exact Steps.refuse rfl h.size
  · rename_i small
    refine .go rfl (h.keeps rfl ?_ rfl rfl rfl rfl rfl)
    have : (stream[cursor]! &&& 127).toNat ≤ bound limit := by
      rw [bound]
      omega
    exact this
  · exact .go rfl (h.keeps rfl h.size rfl rfl rfl rfl rfl)
  · exact .go rfl (h.keeps rfl h.size rfl rfl rfl rfl rfl)
  · exact .more rfl h

theorem sizeRead_steps (h : Header limit frags p) (size : Nat) (inside : cursor < stream.length) :
    Steps limit frags (fun q c => Header limit frags q ∧ c < stream.length) (sizeRead p stream cursor size) := by
  unfold sizeRead
  dsimp only
  split
  · exact .close rfl fun _ => rfl
  · rename_i fits
    rw [h.between.maxSize] at fits
    have within : size ≤ bound limit := (Nat.not_lt.mp fits).trans (Nat.le_max_left _ _)
    split
    · exact .more rfl (h.keeps rfl within rfl rfl rfl rfl rfl)
    · exact .go rfl ⟨h.keeps rfl within rfl rfl rfl rfl rfl, by dsimp only; omega⟩

theorem readLongSize_steps (h : Header limit frags p) (i : Fin 8) (inside : cursor < stream.length) :
    Steps limit frags (fun q c => Header limit frags q ∧ c < stream.length) (readLongSize p stream cursor i) := by
  fun_induction readLongSize p stream cursor i with
  | case1 => exact .more rfl (h.keeps rfl h.size rfl rfl rfl rfl rfl)
  | case2 p cursor i large q hi q' hc ih => exact ih (h.keeps rfl h.size rfl rfl rfl rfl rfl) (by omega)
  | case3 p cursor i large q hi =>
    have header : Header limit frags q := h.keeps h.state h.size rfl rfl rfl rfl rfl
    exact sizeRead_steps header _ inside

theorem readShortSize1_steps (h : Header limit frags p) (inside : cursor < stream.length) :
    Steps limit frags (fun q c => Header limit frags q ∧ c < stream.length) (readShortSize1 p stream cursor) := by
  unfold readShortSize1
  apply sizeRead_steps _ _ inside
  exact h.keeps h.state h.size rfl rfl rfl rfl rfl

/-- After the length there is a byte left in the buffer. -/
theorem readSIZE_steps (h : Header limit frags p) :
    Steps limit frags (fun q c => Header limit frags q ∧ c < stream.length) (readSIZE p stream cursor) := by
  unfold readSIZE
  split
  · rename_i inside
    split
    · unfold readShortSize0
      dsimp only
      split
      · exact .more rfl (h.keeps rfl h.size rfl rfl rfl rfl rfl)
      · apply readShortSize1_steps _ (by omega)
        exact h.keeps rfl h.size rfl rfl rfl rfl rfl
    · exact readShortSize1_steps h inside
    · exact readLongSize_steps h _ inside
    · exact .go rfl ⟨h, inside⟩
  · exact .more rfl h

theorem readMaskByte_steps (h : Header limit frags p) (i : Fin 4) (inside : cursor < stream.length) :
    Steps limit frags
      (fun q c => Header limit frags q ∧ c ≤ stream.length ∧ (c = stream.length → q.mHeader.msgSize = 0))
      (readMaskByte p stream cursor i) := by
  fun_induction readMaskByte p stream cursor i with
  | case1 => exact .more rfl (h.keeps rfl h.size rfl rfl rfl rfl rfl)
  | case2 p cursor i mask q hi q' hc ih => exact ih (h.keeps rfl h.size rfl rfl rfl rfl rfl) (by omega)
  | case3 => exact .more rfl (h.keeps rfl h.size rfl rfl rfl rfl rfl)
  | case4 p cursor i mask q hi q' hc =>
    refine .go rfl ⟨h.keeps rfl h.size rfl rfl rfl rfl rfl, by dsimp only; omega, fun atEnd => ?_⟩
    by_contra nonempty
    exact hc ⟨atEnd, nonempty⟩

theorem role_readMASK_steps (h : Header limit frags p) (inside : cursor < stream.length) :
    Steps limit frags
      (fun q c => Header limit frags q ∧ c ≤ stream.length ∧ (c = stream.length → q.mHeader.msgSize = 0))
      (role.readMASK p stream cursor) := by
  cases role with
  | server =>
    unfold Role.readMASK readMASK
    dsimp only
    rw [if_pos inside]
    split
    · exact readMaskByte_steps h _ inside
    · exact .go rfl ⟨h, inside.le, fun atEnd => absurd atEnd inside.ne⟩
  | client => exact .go rfl ⟨h.keeps rfl h.size rfl rfl rfl rfl rfl, inside.le, fun atEnd => absurd atEnd inside.ne⟩

/-- A valid header opens its frame. -/
theorem validateHeader_steps (h : Header limit frags p) (inside : cursor ≤ stream.length)
    (empty : cursor = stream.length → p.mHeader.msgSize = 0) :
    Steps limit frags (Opens limit frags stream) (validateHeader p cursor) := by
  -- a control frame keeps the sequence that the header began with
  have opens : ∀ q : Parser, q.mState = .payload → q.mMaxMSGSize = p.mMaxMSGSize → q.mPLBytesReady = p.mPLBytesReady →
      q.mHeader.msgSize = p.mHeader.msgSize → q.messageFrames = p.messageFrames → q.opcodes.length ≤ 1 →
      (q.mHeader.fseq ≠ .first → q.opcodes ≠ [] ∨ q.mHeader.fseq ≠ .single → p.opcodes ≠ []) →
      (q.mHeader.fseq = .last → q.opcodes = []) →
      Steps limit frags (Opens limit frags stream) (⟨cursor, .continue_, normal⟩, q) := by
    intro q state maxSize ready size frames depth under last
    refine .go rfl ⟨state, maxSize.trans h.between.maxSize, depth, ready.trans h.ready, size ▸ h.size, inside, ?_, ?_,
      last⟩
    · intro atEnd
      rw [size]
      exact empty atEnd
    · intro notFirst pending
      rw [frames]
      exact h.between.collects (under notFirst pending)
  have control : ∀ q : Parser, q = { p with mState := .payload } →
      Steps limit frags (Opens limit frags stream) (⟨cursor, .continue_, normal⟩, q) := by
    rintro q rfl
    refine opens _ rfl rfl rfl rfl rfl h.between.depth ?_ ?_
    · intro _ pending
      exact pending.resolve_right (fun other => other h.single)
    · intro last
      rw [h.single] at last
      cases last
  unfold validateHeader
  dsimp only
  repeat' split
  · exact Steps.refuse rfl h.size
  · exact opens _ rfl rfl rfl rfl rfl h.between.depth (by simp) (by simp)
  · rename_i valid
    refine opens _ rfl rfl rfl rfl rfl ?_ (by simp) (by simp)
    simp [valid.2.2]
  · rename_i valid
    exact opens _ rfl rfl rfl rfl rfl h.between.depth (fun _ _ => valid.2.2) (by simp)
  · rename_i valid
    have shorter : p.opcodes.tail.length = 0 := by
      have := h.between.depth
      rw [List.length_tail]
      omega
    exact opens _ rfl rfl rfl rfl rfl (by dsimp only; omega) (fun _ _ => valid.2.2)
      (fun _ => List.eq_nil_of_length_eq_zero shorter)
  · exact Steps.refuse rfl h.size
  · exact Steps.refuse rfl h.size
  · exact control _ rfl
  · exact Steps.refuse rfl h.size
  · exact control _ rfl

theorem maskToValid_steps (h : Header limit frags p) (inside : cursor < stream.length) :
    Steps limit frags (Opens limit frags stream) (maskToValid role stream p cursor) :=
  (role_readMASK_steps h inside).andThen fun _ _ read => validateHeader_steps read.1 read.2.1 read.2.2

theorem sizeToValid_steps (h : Header limit frags p) :
    Steps limit frags (Opens limit frags stream) (sizeToValid role stream p cursor) :=
  (readSIZE_steps h).andThen fun _ _ read => maskToValid_steps read.1 read.2

theorem header2ToValid_steps (h : Header limit frags p) :
    Steps limit frags (Opens limit frags stream) (header2ToValid role stream p cursor) :=
  (getHeader2ndByte_steps h).andThen fun _ _ read => sizeToValid_steps read

theorem header1ToValid_steps (h : Header limit frags p) :
    Steps limit frags (Opens limit frags stream) (header1ToValid role stream p cursor) :=
  (getHeader1stByte_steps h).andThen fun _ _ read => header2ToValid_steps read

theorem toPayload_header (h : Header limit frags p) (inside : cursor < stream.length) :
    Steps limit frags (Opens limit frags stream) (toPayload role p stream cursor) := by
  have state := h.state
  unfold toPayload
  split <;> rename_i here <;> rw [here] at state
  case h_2 => exact header1ToValid_steps h
  case h_3 => exact header2ToValid_steps h
  case h_4 | h_5 | h_6 => exact sizeToValid_steps h
  case h_7 => exact maskToValid_steps h inside
  case h_8 => exact validateHeader_steps h inside.le fun atEnd => absurd atEnd inside.ne
  all_goals cases state

end Headers

/-! ### One call -/

/-- The buffer that the payload of the frame goes to. -/
def Parser.frameBuffer (p : Parser) : List UInt8 :=
  match p.mHeader.fseq with
  | .single => p.message
  | .first | .middle | .last => p.messageFrames

/-- How much of that buffer the earlier fragments take. -/
def Parser.used (p : Parser) : Nat :=
  match p.mHeader.fseq with
  | .single | .first => 0
  | .middle | .last => p.messageFrames.length

/-- The condition on which `processPayload` resizes the buffer. -/
def Enlarges (p : Parser) (stream : List UInt8) (cursor : Nat) : Prop :=
  p.mPLBytesReady = 0 ∧ (p.mHeader.fseq = .middle ∨ p.mHeader.fseq = .last → cursor ≠ stream.length)

/-- What a call of `processPayload` may rely on. -/
inductive Permitted (limit : Nat) (frags : List Nat) (stream : List UInt8) : PayloadCall → Prop where
  | opens {p : Parser} {cursor : Nat} (opens : Opens limit frags stream p cursor) :
      Permitted limit frags stream ⟨true, p, cursor⟩
  | resumes {p : Parser} {cursor : Nat} (state : p.mState = .payload) (holding : Holding limit frags p)
      (started : p.mPLBytesReady ≠ 0) (inside : cursor < stream.length) : Permitted limit frags stream ⟨false, p, cursor⟩

/-- What `sizeBuffer` makes of a call: the payload of the frame has begun, unless the fragments are too big. -/
inductive Sizes (limit : Nat) (frags : List Nat) (call : PayloadCall) : Option Parser → Prop where
  | refuses (opening : call.opening = true)
      (later : call.parser.mHeader.fseq = .middle ∨ call.parser.mHeader.fseq = .last)
      (big : limit < frags.sum + call.parser.mHeader.msgSize) : Sizes limit frags call none
  | sizes {q : Parser} (state : q.mState = .payload) (holding : Holding limit (begun frags call) q)
      (header : q.mHeader = call.parser.mHeader) (ready : q.mPLBytesReady = call.parser.mPLBytesReady)
      (fits : call.opening = true → q.frameBuffer.length = call.parser.used + call.parser.mHeader.msgSize) :
      Sizes limit frags call (some q)

section Call

variable {limit : Nat} {frags : List Nat} {p q : Parser} {role : Role} {stream : List UInt8} {cursor : Nat}
  {call : PayloadCall}

theorem bound_lt (small : limit < 2 ^ 63) : bound limit < 2 ^ 63 := by
  rw [bound]
  omega

/-- A later fragment is compared with the limit, unless it is empty and at the end of the buffer. -/
theorem Opens.sizes_later (small : limit < 2 ^ 63) (o : Opens limit frags stream p cursor)
    (later : p.mHeader.fseq = .middle ∨ p.mHeader.fseq = .last) :
    Sizes limit frags ⟨true, p, cursor⟩ (sizeBuffer p stream cursor) := by
  have fragment : p.mHeader.fseq ≠ .single := by rcases later with h | h <;> rw [h] <;> simp
  have collects := o.collects (by rcases later with h | h <;> rw [h] <;> simp) (.inr fragment)
  have history : (begun frags ⟨true, p, cursor⟩).sum = frags.sum + p.mHeader.msgSize := by
    rcases later with h | h <;> simp [begun, h]
  have used : p.used = frags.sum := by
    rw [← collects.length]
    rcases later with h | h <;> simp [Parser.used, h]
  have buffer : ∀ frames, Parser.frameBuffer { p with messageFrames := frames } = frames := by
    intro frames
    rcases later with h | h <;> simp [Parser.frameBuffer, h]
  have eq : sizeBuffer p stream cursor =
      if p.mPLBytesReady = 0 ∧ cursor ≠ stream.length then
        if (p.messageFrames.length + p.mHeader.msgSize) % 2 ^ 64 > p.mMaxMSGSize then none
        else some { p with messageFrames := resize p.messageFrames (p.messageFrames.length + p.mHeader.msgSize) }
      else some p := by
    rcases later with h | h <;> simp only [sizeBuffer, h]
  -- neither summand is big enough to wrap around
  have check : (p.messageFrames.length + p.mHeader.msgSize) % 2 ^ 64 > p.mMaxMSGSize ↔
      limit < frags.sum + p.mHeader.msgSize := by
    have bounded := bound_lt small
    have size := o.size
    have le := collects.le
    rw [collects.length, o.maxSize, Nat.mod_eq_of_lt (by omega)]
  rw [eq]
  split
  · split
    · rename_i big
      exact .refuses rfl later (check.mp big)
    · rename_i within
      rw [check] at within
      have length : (resize p.messageFrames (p.messageFrames.length + p.mHeader.msgSize)).length =
          (begun frags ⟨true, p, cursor⟩).sum := by rw [length_resize, history, collects.length]
      have inLimit : (begun frags ⟨true, p, cursor⟩).sum ≤ bound limit := by
        rw [history, bound]
        omega
      refine .sizes o.state ⟨o.maxSize, o.depth, o.ready ▸ Nat.zero_le _, o.size, fun single => absurd single fragment,
        fun _ => ⟨length, inLimit⟩, ?_, o.last⟩ rfl rfl ?_
      · intro _
        dsimp only
        rw [length_resize]
        omega
      · intro _
        rw [buffer, used, ← collects.length]
        exact length_resize _ _
  · rename_i unsized
    have empty : p.mHeader.msgSize = 0 := by
      apply o.empty
      by_contra inside
      exact unsized ⟨o.ready, inside⟩
    refine .sizes o.state ⟨o.maxSize, o.depth, o.ready ▸ Nat.zero_le _, o.size, fun single => absurd single fragment,
      fun _ => ⟨?_, ?_⟩, fun _ => by omega, o.last⟩ rfl rfl ?_
    · rw [history, collects.length, empty, Nat.add_zero]
    · rw [history, empty, Nat.add_zero]
      exact collects.le
    · intro _
      have own : p.frameBuffer = p.messageFrames := buffer p.messageFrames
      dsimp only
      rw [own, used, empty, collects.length, Nat.add_zero]

theorem Opens.sizes (small : limit < 2 ^ 63) (o : Opens limit frags stream p cursor) :
    Sizes limit frags ⟨true, p, cursor⟩ (sizeBuffer p stream cursor) := by
  cases fseq : p.mHeader.fseq with
  | single =>
    have history : begun frags ⟨true, p, cursor⟩ = frags := by simp [begun, fseq]
    have collects : p.opcodes ≠ [] ∨ p.mHeader.fseq ≠ .single → Collects limit frags p.messageFrames :=
      o.collects (by rw [fseq]; simp)
    have eq : sizeBuffer p stream cursor = some { p with message := resize p.message p.mHeader.msgSize } := by
      simp only [sizeBuffer, fseq, if_pos o.ready]
    rw [eq]
    refine .sizes o.state ⟨o.maxSize, o.depth, o.ready ▸ Nat.zero_le _, o.size, fun _ => length_resize _ _,
      history.symm ▸ collects, fun other => absurd fseq other, o.last⟩ rfl rfl ?_
    intro _
    simp [Parser.frameBuffer, Parser.used, fseq]
  | first =>
    have history : begun frags ⟨true, p, cursor⟩ = [p.mHeader.msgSize] := by simp [begun, fseq]
    have collects : Collects limit [p.mHeader.msgSize] (resize p.messageFrames p.mHeader.msgSize) := by
      constructor
      · rw [length_resize, List.sum_singleton]
      · rw [List.sum_singleton]
        exact o.size
    have eq : sizeBuffer p stream cursor = some { p with messageFrames := resize p.messageFrames p.mHeader.msgSize } := by
      simp only [sizeBuffer, fseq, if_pos o.ready]
    rw [eq]
    refine .sizes o.state ⟨o.maxSize, o.depth, o.ready ▸ Nat.zero_le _, o.size, ?_, fun _ => history.symm ▸ collects,
      fun _ => (length_resize _ _).ge, o.last⟩ rfl rfl ?_
    · intro single
      dsimp only at single
      rw [fseq] at single
      cases single
    · intro _
      simp [Parser.frameBuffer, Parser.used, fseq]
  | middle => exact o.sizes_later small (.inl fseq)
  | last => exact o.sizes_later small (.inr fseq)

/-- A call that continues a frame leaves the size of its buffer. -/
theorem sizeBuffer_started (started : p.mPLBytesReady ≠ 0) : sizeBuffer p stream cursor = some p := by
  unfold sizeBuffer
  dsimp only
  split <;> simp [started]

theorem Permitted.sizes (small : limit < 2 ^ 63) (h : Permitted limit frags stream call) :
    Sizes limit frags call (sizeBuffer call.parser stream call.cursor) := by
  cases h with
  | opens o => exact o.sizes small
  | resumes state holding started inside =>
    rw [sizeBuffer_started started]
    exact .sizes state holding rfl rfl (by simp)

/-- How a call that stores something ends. -/
inductive Stores (limit : Nat) (frags : List Nat) (r : Result × Parser) : Prop where
  | more (directive : r.1.directive = .more) (state : r.2.mState = .payload) (holding : Holding limit frags r.2)
      (started : r.2.mPLBytesReady ≠ 0)
  | done (directive : r.1.directive = .continue_) (holding : Holding limit frags r.2)

theorem Holding.keeps (h : Holding limit frags p) (maxSize : q.mMaxMSGSize = p.mMaxMSGSize)
    (opcodes : q.opcodes = p.opcodes) (header : q.mHeader = p.mHeader) (message : q.message.length = p.message.length)
    (frames : q.messageFrames.length = p.messageFrames.length) (ready : q.mPLBytesReady ≤ q.mHeader.msgSize) :
    Holding limit frags q := by
  refine ⟨maxSize.trans h.maxSize, opcodes ▸ h.depth, ready, header ▸ h.size, ?_, ?_, ?_, ?_⟩
  · rw [header, message]
    exact h.single
  · rw [header, opcodes]
    intro pending
    exact ⟨frames.trans (h.collects pending).length, (h.collects pending).le⟩
  · rw [header, frames]
    exact h.fragment
  · rw [header, opcodes]
    exact h.last

theorem payloadRead_stores (h : Holding limit frags q) (state : q.mState = .payload)
    (progress : q.mPLBytesReady = q.mHeader.msgSize ∨ q.mPLBytesReady ≠ 0) :
    Stores limit frags (payloadRead role q stream cursor) := by
  unfold payloadRead
  split
  · exact .done rfl (h.keeps rfl rfl rfl rfl rfl h.ready)
  · rename_i unfinished
    exact .more rfl state h (progress.resolve_left unfinished)

theorem storePayload_stores (h : Holding limit frags p) (state : p.mState = .payload) (inside : cursor ≤ stream.length)
    (progress : p.mPLBytesReady ≠ 0 ∨ (cursor = stream.length → p.mHeader.msgSize = 0)) :
    Stores limit frags (storePayload role p stream cursor) := by
  have ready := h.ready
  -- what the loops do to the counters does not depend on the buffer
  have moved : ∀ buf base,
      (role.store p stream buf base cursor).ready ≤ p.mHeader.msgSize ∧
        ((role.store p stream buf base cursor).ready = p.mHeader.msgSize ∨
          (role.store p stream buf base cursor).ready ≠ 0) ∧
        (role.store p stream buf base cursor).buf.length = buf.length := by
    intro buf base
    obtain ⟨-, ready', length⟩ := store_moves role p stream buf base cursor
    simp only [Copied.room] at ready'
    exact ⟨by omega, by omega, length⟩
  unfold storePayload
  split
  · obtain ⟨le, goes, length⟩ := moved p.message 0
    exact payloadRead_stores (h.keeps rfl rfl rfl length rfl le) state goes
  all_goals
    obtain ⟨le, goes, length⟩ := moved p.messageFrames (p.messageFrames.length - p.mHeader.msgSize)
    exact payloadRead_stores (h.keeps rfl rfl rfl rfl length le) state goes

theorem Permitted.inside (h : Permitted limit frags stream call) : call.cursor ≤ stream.length := by
  cases h with
  | opens o => exact o.inside
  | resumes _ _ _ inside => exact inside.le

theorem Permitted.progress (h : Permitted limit frags stream call) :
    call.parser.mPLBytesReady ≠ 0 ∨ (call.cursor = stream.length → call.parser.mHeader.msgSize = 0) := by
  cases h with
  | opens o => exact .inr o.empty
  | resumes _ _ started _ => exact .inl started

/-- How a permitted call of `processPayload` ends. -/
inductive Processed (limit : Nat) (frags : List Nat) (stream : List UInt8) (call : PayloadCall)
    (r : Result × Parser) : Prop where
  | refused (unsized : sizeBuffer call.parser stream call.cursor = none)
      (eq : r = (⟨call.cursor, .closeWithCode, messageTooBig⟩, call.parser))
  | stored (sized : sizeBuffer call.parser stream call.cursor ≠ none)
      (stores : Stores limit (begun frags call) r)

theorem Permitted.size (h : Permitted limit frags stream call) : call.parser.mHeader.msgSize ≤ bound limit := by
  cases h with
  | opens o => exact o.size
  | resumes _ holding _ _ => exact holding.size

theorem Permitted.processed (small : limit < 2 ^ 63) (h : Permitted limit frags stream call) :
    Processed limit frags stream call (processPayload role call.parser stream call.cursor) := by
  have sizes := h.sizes small
  unfold processPayload
  cases sized : sizeBuffer call.parser stream call.cursor with
  | none => exact .refused sized rfl
  | some q =>
    rw [sized] at sizes
    cases sizes with
    | sizes state holding header ready fits =>
      refine .stored (by rw [sized]; simp) (storePayload_stores holding state h.inside ?_)
      rw [ready, header]
      exact h.progress

end Call

/-! ### A run of `parse` -/

/-- How `parse` ends. -/
inductive Ends (limit : Nat) (frags : List Nat) (r : Result × Parser) : Prop where
  | more (directive : r.1.directive = .more) (suspended : Suspended limit frags r.2)
  | message (directive : r.1.directive = .takeReadyMessage) (state : r.2.mState = .messageReady)
      (holding : Holding limit frags r.2) (complete : r.2.mHeader.fseq = .single ∨ r.2.mHeader.fseq = .last)
  | close (directive : r.1.directive = .closeWithCode)
      (size : bound limit < r.2.mHeader.msgSize → r.1.cCode = messageTooBig)

/-- A property of each call, together with the fragments that have begun before it. -/
def Each (P : List Nat → PayloadCall → Prop) : List Nat → List PayloadCall → Prop
  | _, [] => True
  | frags, call :: calls => P frags call ∧ Each P (begun frags call) calls

theorem Each.split {P : List Nat → PayloadCall → Prop} {earlier later : List PayloadCall} {call : PayloadCall}
    {frags : List Nat} (each : Each P frags (earlier ++ call :: later)) : P (earlier.foldl begun frags) call := by
  induction earlier generalizing frags with
  | nil => exact each.1
  | cons _ _ ih => exact ih each.2

section Run

variable {role : Role} {limit : Nat} {frags : List Nat} {p q : Parser} {stream : List UInt8} {offset cursor : Nat}
  {r : Result}

/-- What holds of a call in a run of `parse` that ends with `x`. -/
def Fits (limit : Nat) (stream : List UInt8) (x : Result × Parser) (frags : List Nat) (call : PayloadCall) : Prop :=
  Permitted limit frags stream call ∧
    (sizeBuffer call.parser stream call.cursor = none →
      x = (⟨call.cursor, .closeWithCode, messageTooBig⟩, call.parser))

/-- One pass of the switch, with its calls: `parse` ends with it, or its frame is complete. -/
inductive Pass (limit : Nat) (frags : List Nat) (stream : List UInt8) (calls : List PayloadCall)
    (r : Result × Parser) : Prop where
  | stops (stop : r.1.directive ≠ .continue_) (ends : Ends limit (calls.foldl begun frags) r)
      (each : Each (Fits limit stream r) frags calls)
  | done {call : PayloadCall} (goes : r.1.directive = .continue_) (single : calls = [call])
      (fits : ∀ x, Fits limit stream x frags call) (holding : Holding limit (begun frags call) r.2)

theorem Permitted.pass {call : PayloadCall} (small : limit < 2 ^ 63) (permitted : Permitted limit frags stream call) :
    Pass limit frags stream [call] (processPayload role call.parser stream call.cursor) := by
  cases permitted.processed small with
  | refused unsized eq =>
    rw [eq]
    exact .stops (by simp) (.close rfl fun _ => rfl) ⟨⟨permitted, fun _ => rfl⟩, trivial⟩
  | stored sized stores =>
    have fits : ∀ x, Fits limit stream x frags call := fun x => ⟨permitted, fun unsized => absurd unsized sized⟩
    cases stores with
    | more directive state holding started =>
      exact .stops (by rw [directive]; simp) (.more directive (.payload state holding started)) ⟨fits _, trivial⟩
    | done directive holding => exact .done directive rfl fits holding

theorem Steps.pass (small : limit < 2 ^ 63)
    (steps : Steps limit frags (Opens limit frags stream) (toPayload role p stream offset))
    (undone : p.mState ≠ .done ∧ p.mState ≠ .messageReady) (unopened : p.mState ≠ .payload) :
    ∃ r, toDone role p stream offset = .ok r ∧ Pass limit frags stream (payloadCall role p stream offset) r := by
  rw [toDone_eq role stream p offset undone, StreamProcessing.andThen]
  refine ⟨_, rfl, ?_⟩
  by_cases goes : (toPayload role p stream offset).1.directive = .continue_
  · rw [if_pos goes, payloadCall, if_pos ⟨undone.1, undone.2, goes⟩, decide_eq_true unopened]
    cases steps with
    | more directive => rw [goes] at directive; cases directive
    | close directive => rw [goes] at directive; cases directive
    | go _ opens => exact (Permitted.opens opens).pass small
  · rw [if_neg goes, payloadCall, if_neg (fun h => goes h.2.2)]
    cases steps with
    | more directive header => exact .stops goes (.more directive (.header header)) trivial
    | close directive size => exact .stops goes (.close directive size) trivial
    | go directive => exact absurd directive goes

theorem Suspended.pass (small : limit < 2 ^ 63) (s : Suspended limit frags p)
    (begins : p.mState = .init ∨ offset < stream.length) :
    ∃ r, toDone role p stream offset = .ok r ∧ Pass limit frags stream (payloadCall role p stream offset) r := by
  cases s with
  | init state between =>
    refine Steps.pass small ?_ (by rw [state]; simp) (by rw [state]; simp)
    simp only [toPayload, state]
    exact header1ToValid_steps between.reset
  | header header =>
    have state := header.state
    have inside : offset < stream.length := begins.resolve_left (fun h => by rw [h] at state; cases state)
    refine (toPayload_header header inside).pass small ⟨?_, ?_⟩ ?_ <;> intro h <;> rw [h] at state <;> cases state
  | payload state holding started =>
    have inside : offset < stream.length := begins.resolve_left (by rw [state]; simp)
    have call : payloadCall role p stream offset = [⟨false, p, offset⟩] := by simp [payloadCall, toPayload, state]
    rw [call]
    refine ⟨processPayload role p stream offset, by simp only [toDone, state], ?_⟩
    exact (Permitted.resumes state holding started inside).pass small

theorem Holding.between (h : Holding limit frags p) : Between limit frags p :=
  ⟨h.maxSize, h.depth, h.size, fun pending => h.collects (.inl pending)⟩

theorem decideOnDone_between (h : Holding limit frags q) (again : (decideOnDone q cursor).1.directive = .continue_) :
    Between limit frags (decideOnDone q cursor).2 := by
  unfold decideOnDone at again ⊢
  split at again
  case h_1 | h_2 => cases again
  case h_3 | h_4 => exact ⟨h.maxSize, h.depth, h.size, h.between.collects⟩

theorem decideOnDone_ends (h : Holding limit frags q) (once : (decideOnDone q cursor).1.directive ≠ .continue_) :
    Ends limit frags (decideOnDone q cursor) := by
  unfold decideOnDone at once ⊢
  split at once
  case h_1 fseq => exact .message rfl rfl (h.keeps rfl rfl rfl rfl rfl h.ready) (.inl fseq)
  case h_2 fseq => exact .message rfl rfl (h.keeps rfl rfl rfl rfl rfl h.ready) (.inr fseq)
  case h_3 | h_4 => exact absurd rfl once

theorem payloadCalls_again (h : toDone role p stream offset = .ok (r, q)) (goes : r.directive = .continue_)
    (again : (decideOnDone q r.cursor).1.directive = .continue_) :
    payloadCalls role p stream offset = payloadCall role p stream offset ++
      payloadCalls role (decideOnDone q r.cursor).2 stream (decideOnDone q r.cursor).1.cursor := by
  rw [payloadCalls]
  split <;> rename_i heq <;> rw [h] at heq <;> cases heq
  rw [dif_pos goes, dif_pos again]

theorem payloadCalls_once (h : toDone role p stream offset = .ok (r, q))
    (stop : r.directive = .continue_ → (decideOnDone q r.cursor).1.directive ≠ .continue_) :
    payloadCalls role p stream offset = payloadCall role p stream offset := by
  rw [payloadCalls]
  split
  · rfl
  · rename_i heq
    rw [h] at heq
    cases heq
    split
    · rename_i goes
      rw [dif_neg (stop goes)]
    · rfl

/-- `parse` from a suspended parser never throws and makes permitted calls only. -/
theorem Suspended.parse (small : limit < 2 ^ 63) (s : Suspended limit frags p)
    (begins : p.mState = .init ∨ offset < stream.length) :
    ∃ x, parse role p stream offset = .ok x ∧
      Ends limit ((payloadCalls role p stream offset).foldl begun frags) x ∧
      Each (Fits limit stream x) frags (payloadCalls role p stream offset) := by
  fun_induction StreamProcessing.parse role p stream offset generalizing frags with
  | case1 p offset e h =>
    obtain ⟨r, pass, -⟩ := s.pass small begins
    rw [h] at pass
    cases pass
  | case2 p offset r q h goes again ih =>
    obtain ⟨_, same, pass⟩ := s.pass small begins
    rw [h] at same
    cases same
    cases pass with
    | stops stop => exact absurd goes stop
    | done _ single fits holding =>
      have init := (decideOnDone_continue again).2
      obtain ⟨x, parsed, ends, each⟩ := ih (.init init (decideOnDone_between holding again)) (.inl init)
      rw [payloadCalls_again h goes again, single]
      exact ⟨x, parsed, ends, fits x, each⟩
  | case3 p offset r q h goes once =>
    obtain ⟨_, same, pass⟩ := s.pass small begins
    rw [h] at same
    cases same
    rw [payloadCalls_once h (fun _ => once)]
    cases pass with
    | stops stop => exact absurd goes stop
    | done _ single fits holding =>
      rw [single]
      exact ⟨_, rfl, decideOnDone_ends holding once, fits _, trivial⟩
  | case4 p offset r q h stop =>
    obtain ⟨_, same, pass⟩ := s.pass small begins
    rw [h] at same
    cases same
    rw [payloadCalls_once h (fun goes => absurd goes stop)]
    cases pass with
    | stops _ ends each => exact ⟨_, rfl, ends, each⟩
    | done goes => exact absurd goes stop

end Run

end LAppS.StreamProcessing

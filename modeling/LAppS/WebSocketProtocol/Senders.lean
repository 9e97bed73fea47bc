import LAppS.Rfc6455.Unique
import LAppS.WebSocketProtocol.Messages

/-!
# Several senders on one connection

Service threads send on one WebSocket at the same time. Each call of `handler->send` is atomic, a message of
several fragments is not: the stream is legal exactly as long as no thread writes a data frame between two
fragments of another.
-/

namespace LAppS.Senders
open Rfc6455 WebSocketProtocol

/-- What a service thread does on a connection. The payload of a pong is that of a ping, which the parser
has checked. -/
inductive Call where
  | wssendRaw (opcode : OpCode) (msg : List UInt8) (fits : msg.length < 2 ^ 64)
  | wssendLapps (cbor : List UInt8) (fits : cbor.length < 2 ^ 64)
  | bcast (cbor : List UInt8) (fits : cbor.length < 2 ^ 64)
  | pong (payload : List UInt8) (small : payload.length ≤ 125)

/-- The buffers that the call passes to `handler->send`, one after the other. -/
def Call.buffers (mustAutoFragment : Bool) : Call → List (List UInt8)
  | .wssendRaw opcode msg _ =>
    if opcode = .text ∨ opcode = .binary then
      if mustAutoFragment then FragmentedServerMessage.ofChars opcode msg msg.length
      else [ServerMessage.ofChars opcode msg msg.length]
    else []
  | .wssendLapps cbor _ =>
    if mustAutoFragment then FragmentedServerMessage.ofVector .binary cbor else [ServerMessage.ofVector .binary cbor]
  | .bcast cbor _ => [ServerMessage.intoShared .binary cbor]
  | .pong payload _ => [ServerPongMessage payload]

/-- The message that the call sends, unless it is rejected. -/
def Call.message : Call → Option (OpCode × List UInt8)
  | .wssendRaw opcode msg _ => if opcode = .text ∨ opcode = .binary then some (opcode, msg) else none
  | .wssendLapps cbor _ | .bcast cbor _ => some (.binary, cbor)
  | .pong payload _ => some (.pong, payload)

def Call.sendsData (c : Call) : Bool := c.message.any (·.1.isData)

structure Thread where
  /-- The calls that have returned. -/
  returned : List Call
  /-- What the call under way has not sent yet. -/
  msgqueue : List (List UInt8)
  /-- The call under way, if `msgqueue` is not empty, and the later ones. -/
  calls : List Call

structure State (ι : Type) where
  threads : ι → Thread
  wire : List UInt8

/-- One call of `handler->send`, with the bytes it writes. -/
def Thread.send (mustAutoFragment : Bool) (t : Thread) : Thread × List UInt8 :=
  match t.calls with
  | [] => (t, [])
  | call :: calls =>
    match if t.msgqueue = [] then call.buffers mustAutoFragment else t.msgqueue with
    | [] => (⟨t.returned ++ [call], [], calls⟩, [])
    | [b] => (⟨t.returned ++ [call], [], calls⟩, b)
    | b :: bs => (⟨t.returned, bs, call :: calls⟩, b)

variable {ι : Type} [DecidableEq ι]

/-- Thread `i` is the next to send. -/
def State.turn (mustAutoFragment : Bool) (st : State ι) (i : ι) : State ι :=
  ⟨Function.update st.threads i ((st.threads i).send mustAutoFragment).1,
    st.wire ++ ((st.threads i).send mustAutoFragment).2⟩

def State.start (program : ι → List Call) : State ι := ⟨fun i => ⟨[], [], program i⟩, []⟩

/-- The threads run their programs, in the order of a schedule. -/
def run (mustAutoFragment : Bool) (program : ι → List Call) (schedule : List ι) : State ι :=
  schedule.foldl (State.turn mustAutoFragment) (State.start program)

/-- The stream is legal, and the messages in it are those of the calls that have returned, for each thread
in its order. -/
def State.Decodes (st : State ι) : Prop :=
  ∃ (fs : List Frame) (log : List (ι × OpCode × List UInt8)),
    st.wire = encodeAll false fs ∧ LegalSeq none fs ∧
    assemble none fs = log.map (fun m => .message m.2.1 m.2.2) ∧
    ∀ i, (log.filter (·.1 = i)).map (·.2) = (st.threads i).returned.filterMap Call.message

/-- Thread `i` does not write a data frame while another thread is inside a message. -/
def State.Free (st : State ι) (i : ι) : Prop :=
  (st.threads i).calls.head?.any Call.sendsData = true → ∀ j, j ≠ i → (st.threads j).msgqueue = []

/-- No message is interrupted by a data frame of another thread. -/
def Uninterrupted (mustAutoFragment : Bool) : State ι → List ι → Prop
  | _, [] => True
  | st, i :: schedule => st.Free i ∧ Uninterrupted mustAutoFragment (st.turn mustAutoFragment i) schedule

/-! ### The frames of a call -/

/-- What the buffers of a call are: nothing, a pong, or the frames of a data message. -/
inductive Sends : List (List UInt8) → Option (OpCode × List UInt8) → Prop where
  | nothing : Sends [] none
  | pong {f : Frame} {payload : List UInt8} (stays : f.endsStream = false)
      (legal : ∀ pd, f.Legal pd) (next : ∀ pd, f.next pd = (pd, [.message .pong payload])) :
      Sends [f.encode false] (some (.pong, payload))
  | data {fs : List Frame} {op : OpCode} {payload : List UInt8} (data : op.isData = true)
      (carries : Carries none fs op payload) : Sends (fs.map (Frame.encode false)) (some (op, payload))

theorem sends_pong {payload : List UInt8} (small : payload.length ≤ 125) :
    Sends [ServerPongMessage payload] (some (.pong, payload)) := by
  have h : payload.length < 2 ^ 64 := by omega
  have bytes : ServerPongMessage payload = (serverFrame true .pong payload h).encode false := by
    rw [encode_serverFrame]
    rfl
  rw [bytes]
  exact .pong rfl (fun pd => ⟨rfl, small⟩) (fun pd => rfl)

theorem sends_single {oc : OpCode} (data : oc.isData = true) {src : List UInt8} (hlen : src.length < 2 ^ 64) :
    Sends [message (128 ||| oc.toByte) src src.length] (some (oc, src)) := by
  have bytes : [message (128 ||| oc.toByte) src src.length] =
      [serverFrame true oc src hlen].map (Frame.encode false) := by
    rw [List.map_singleton, encode_serverFrame]
    rfl
  rw [bytes]
  exact .data data (carries_single data hlen)

theorem sends_fragmented {oc : OpCode} (data : oc.isData = true) {src : List UInt8} (hlen : src.length < 2 ^ 64) :
    Sends (FragmentedServerMessage.build oc src src.length) (some (oc, src)) := by
  obtain ⟨fs, hfs, carries, -⟩ := FragmentedServerMessage.build_carries data [] hlen
  rw [List.append_nil] at hfs
  rw [hfs]
  exact .data data carries

theorem Call.sends (mustAutoFragment : Bool) (c : Call) : Sends (c.buffers mustAutoFragment) c.message := by
  cases c with
  | wssendRaw opcode msg fits =>
    simp only [Call.buffers, Call.message, FragmentedServerMessage.ofChars, ServerMessage.ofChars]
    by_cases valid : opcode = .text ∨ opcode = .binary
    · have data : opcode.isData = true := by rcases valid with rfl | rfl <;> rfl
      rw [if_pos valid, if_pos valid]
      split
      · exact sends_fragmented data fits
      · exact sends_single data fits
    · rw [if_neg valid, if_neg valid]
      exact .nothing
  | wssendLapps cbor fits =>
    simp only [Call.buffers, Call.message, FragmentedServerMessage.ofVector, ServerMessage.ofVector]
    split
    · exact sends_fragmented rfl fits
    · exact sends_single rfl fits
  | bcast cbor fits =>
    simp only [Call.buffers, Call.message, ServerMessage.intoShared]
    exact sends_single rfl fits
  | pong payload small => exact sends_pong small

/-! ### One call of `send` -/

variable {mustAutoFragment : Bool} {st : State ι} {i : ι} {pd : Pending}

/-- The message under way on the wire is that of the one thread that is inside a message. -/
inductive Under (st : State ι) : Pending → Prop where
  | idle (queues : ∀ j, (st.threads j).msgqueue = []) : Under st none
  | busy {pd : Pending} {i : ι} {call : Call} {calls : List Call} {fs : List Frame} {op : OpCode}
      {payload : List UInt8} (others : ∀ j, j ≠ i → (st.threads j).msgqueue = [])
      (hcalls : (st.threads i).calls = call :: calls) (hmessage : call.message = some (op, payload))
      (data : op.isData = true) (queue : (st.threads i).msgqueue = fs.map (Frame.encode false))
      (carries : Carries pd fs op payload) (pending : pd.isSome = true) : Under st pd

/-- The frames on the wire and the messages in them, between two calls of `send`. -/
structure Written (st : State ι) (fs : List Frame) (log : List (ι × OpCode × List UInt8)) : Prop where
  wire : st.wire = encodeAll false fs
  legal : LegalSeq none fs
  stays : ∀ f ∈ fs, f.endsStream = false
  messages : assemble none fs = log.map (fun m => .message m.2.1 m.2.2)
  returned : ∀ i, (log.filter (·.1 = i)).map (·.2) = (st.threads i).returned.filterMap Call.message
  under : Under st (pendingAfter none fs)

theorem Written.decodes {fs : List Frame} {log : List (ι × OpCode × List UInt8)} (h : Written st fs log) :
    st.Decodes := ⟨fs, log, h.wire, h.legal, h.messages, h.returned⟩

section Turn

variable {fs gs : List Frame} {log log' : List (ι × OpCode × List UInt8)} {t : Thread} {bytes : List UInt8}

theorem turn_self (h : (st.threads i).send mustAutoFragment = (t, bytes)) :
    (st.turn mustAutoFragment i).threads i = t := by
  simp [State.turn, h]

theorem turn_other {j : ι} (h : j ≠ i) : (st.turn mustAutoFragment i).threads j = st.threads j := by
  simp [State.turn, h]

/-- What thread `i` writes extends the stream, if it is legal there. -/
theorem Written.turn (w : Written st fs log)
    (sent : (st.threads i).send mustAutoFragment = (t, encodeAll false gs))
    (legal : LegalSeq (pendingAfter none fs) gs) (stays : ∀ f ∈ gs, f.endsStream = false)
    (messages : List (OpCode × List UInt8))
    (assembled : assemble (pendingAfter none fs) gs = messages.map (fun m => .message m.1 m.2))
    (returned : t.returned.filterMap Call.message =
      (st.threads i).returned.filterMap Call.message ++ messages)
    (under : Under (st.turn mustAutoFragment i) (pendingAfter (pendingAfter none fs) gs)) :
    Written (st.turn mustAutoFragment i) (fs ++ gs) (log ++ messages.map (i, ·)) where
  wire := by simp [State.turn, sent, w.wire, encodeAll_append]
  legal := (legalSeq_append w.stays).mpr ⟨w.legal, legal⟩
  stays f hf := (List.mem_append.mp hf).elim (w.stays f) (stays f)
  messages := by
    rw [assemble_append, w.messages, assembled, List.map_append, List.map_map]
    rfl
  returned j := by
    rw [List.filter_append, List.map_append, w.returned j]
    by_cases hj : j = i
    · subst hj
      rw [turn_self sent, returned]
      simp [List.filter_map, Function.comp_def]
    · rw [turn_other hj]
      simp [List.filter_map, Function.comp_def, Ne.symm hj]
  under := by rwa [pendingAfter_append]

/-- A thread that is not inside a message, before and after, leaves the others as they are. -/
theorem Under.turn_quiet (under : Under st pd) (before : (st.threads i).msgqueue = [])
    (after : ((st.turn mustAutoFragment i).threads i).msgqueue = []) : Under (st.turn mustAutoFragment i) pd := by
  have queues : ∀ j, (st.threads j).msgqueue = [] → ((st.turn mustAutoFragment i).threads j).msgqueue = [] := by
    intro j hj
    by_cases h : j = i
    · rw [h, after]
    · rw [turn_other h, hj]
  cases under with
  | idle empty => exact .idle fun j => queues j (empty j)
  | @busy pd k call calls fs op payload others hcalls hmessage data queue carries pending =>
    have hk : k ≠ i := by
      rintro rfl
      rw [before] at queue
      exact carries.ne_nil (List.map_eq_nil_iff.mp queue.symm)
    rw [← turn_other (i := i) hk] at hcalls queue
    exact .busy (fun j hj => queues j (others j hj)) hcalls hmessage data queue carries pending

/-- The next frame of a data message, when no other thread is inside a message. -/
theorem Written.turn_data (w : Written st fs log) {call : Call} {calls : List Call} {op : OpCode}
    {payload : List UInt8} (hcalls : (st.threads i).calls = call :: calls)
    (hmessage : call.message = some (op, payload)) (data : op.isData = true)
    (next : (if (st.threads i).msgqueue = [] then call.buffers mustAutoFragment else (st.threads i).msgqueue) =
      gs.map (Frame.encode false))
    (carries : Carries (pendingAfter none fs) gs op payload)
    (others : ∀ j, j ≠ i → (st.threads j).msgqueue = []) :
    ∃ fs' log', Written (st.turn mustAutoFragment i) fs' log' := by
  have others' : ∀ j, j ≠ i → ((st.turn mustAutoFragment i).threads j).msgqueue = [] := by
    intro j hj
    rw [turn_other hj, others j hj]
  cases carries with
  | @last _ f _ _ legal hdata completes =>
    have sent : (st.threads i).send mustAutoFragment =
        (⟨(st.threads i).returned ++ [call], [], calls⟩, encodeAll false [f]) := by
      simp [Thread.send, hcalls, next]
    refine ⟨_, _, w.turn sent ⟨legal, fun _ => rfl, trivial⟩ ?_ [(op, payload)] ?_ ?_ ?_⟩
    · simpa using endsStream_of_data hdata
    · simp [assemble, completes]
    · simp [hmessage]
    · rw [pendingAfter, List.foldl_cons, List.foldl_nil, completes]
      refine .idle fun j => ?_
      by_cases hj : j = i
      · rw [hj, turn_self sent]
      · exact others' j hj
  | @more _ f rest _ _ legal fragment carries =>
    have sent : (st.threads i).send mustAutoFragment =
        (⟨(st.threads i).returned, rest.map (Frame.encode false), call :: calls⟩, encodeAll false [f]) := by
      obtain ⟨g, gs, rfl⟩ := List.exists_cons_of_ne_nil carries.ne_nil
      simp [Thread.send, hcalls, next]
    have hdata := endsStream_of_data (legal.data_of_fragment fragment)
    refine ⟨_, _, w.turn sent ⟨legal, fun _ => rfl, trivial⟩ (by simpa using hdata) [] ?_ ?_ ?_⟩
    · simp [assemble, (next_nil legal).mpr fragment]
    · simp
    · have self := turn_self sent
      exact .busy others' (congrArg Thread.calls self) hmessage data (congrArg Thread.msgqueue self) carries
        (next_isSome legal fragment)

/-- One call of `send` that does not interrupt a message keeps the stream decodable. -/
theorem Written.step (mustAutoFragment : Bool) (w : Written st fs log) (free : st.Free i) :
    ∃ fs' log', Written (st.turn mustAutoFragment i) fs' log' := by
  by_cases inside : (st.threads i).msgqueue = []
  · cases hcalls : (st.threads i).calls with
    | nil =>
      have sent : (st.threads i).send mustAutoFragment = (st.threads i, encodeAll false []) := by
        simp [Thread.send, hcalls]
      refine ⟨_, _, w.turn sent trivial nofun [] rfl (by simp) ?_⟩
      exact w.under.turn_quiet inside (by rw [turn_self sent, inside])
    | cons call calls =>
      have sends := call.sends mustAutoFragment
      generalize hbuffers : call.buffers mustAutoFragment = buffers at sends
      generalize hmessage : call.message = message at sends
      cases sends with
      | nothing =>
        have sent : (st.threads i).send mustAutoFragment =
            (⟨(st.threads i).returned ++ [call], [], calls⟩, encodeAll false []) := by
          simp [Thread.send, hcalls, inside, hbuffers]
        refine ⟨_, _, w.turn sent trivial nofun [] rfl (by simp [hmessage]) ?_⟩
        exact w.under.turn_quiet inside (by rw [turn_self sent])
      | @pong f payload stays legal next =>
        have sent : (st.threads i).send mustAutoFragment =
            (⟨(st.threads i).returned ++ [call], [], calls⟩, encodeAll false [f]) := by
          simp [Thread.send, hcalls, inside, hbuffers]
        refine ⟨_, _, w.turn sent ⟨legal _, fun _ => rfl, trivial⟩
          (by simpa using stays) [(.pong, payload)] (by simp [assemble, next]) (by simp [hmessage]) ?_⟩
        rw [pendingAfter, List.foldl_cons, List.foldl_nil, next]
        exact w.under.turn_quiet inside (by rw [turn_self sent])
      | @data gs op payload data carries =>
        have others := free (by simp [hcalls, Call.sendsData, hmessage, data])
        have idle : pendingAfter none fs = none := by
          have under := w.under
          generalize pendingAfter none fs = pd at under
          cases under with
          | idle => rfl
          | @busy _ k _ _ _ _ _ _ _ _ _ queue carries _ =>
            refine absurd (List.map_eq_nil_iff.mp (queue.symm.trans ?_)) carries.ne_nil
            by_cases hk : k = i
            · rw [hk, inside]
            · exact others k hk
        exact w.turn_data hcalls hmessage data (by rw [if_pos inside, hbuffers]) (idle ▸ carries) others
  · have under := w.under
    generalize hpd : pendingAfter none fs = pd at under
    cases under with
    | idle queues => exact absurd (queues i) inside
    | @busy _ k call calls gs op payload others hcalls hmessage data queue carries pending =>
      obtain rfl : i = k := by
        by_contra h
        exact inside (others i h)
      exact w.turn_data hcalls hmessage data (by rw [if_neg inside, queue]) (hpd ▸ carries) others

end Turn

/-! ### Whole runs -/

theorem written_start (program : ι → List Call) : Written (State.start program) [] [] where
  wire := rfl
  legal := trivial
  stays := nofun
  messages := rfl
  returned _ := rfl
  under := .idle fun _ => rfl

/-- As long as no message is interrupted, the stream stays decodable. -/
theorem Written.run {fs : List Frame} {log : List (ι × OpCode × List UInt8)} (w : Written st fs log)
    {schedule : List ι} (uninterrupted : Uninterrupted mustAutoFragment st schedule) :
    ∃ fs' log', Written (schedule.foldl (State.turn mustAutoFragment) st) fs' log' := by
  induction schedule generalizing st fs log with
  | nil => exact ⟨fs, log, w⟩
  | cons i schedule ih =>
    obtain ⟨fs', log', w'⟩ := w.step mustAutoFragment uninterrupted.1
    exact ih w' uninterrupted.2

omit [DecidableEq ι] in
theorem Sends.framed {buffers : List (List UInt8)} {message : Option (OpCode × List UInt8)}
    (h : Sends buffers message) : ∃ fs : List Frame, buffers = fs.map (Frame.encode false) := by
  cases h with
  | nothing => exact ⟨[], rfl⟩
  | pong => exact ⟨[_], rfl⟩
  | data => exact ⟨_, rfl⟩

/-- All that waits to be sent are frames. -/
def Thread.Framed (t : Thread) : Prop := ∃ fs : List Frame, t.msgqueue = fs.map (Frame.encode false)

theorem Thread.Framed.send {t : Thread} (h : t.Framed) (mustAutoFragment : Bool) :
    (t.send mustAutoFragment).1.Framed ∧ ∃ gs, (t.send mustAutoFragment).2 = encodeAll false gs := by
  unfold Thread.send
  cases t.calls with
  | nil => exact ⟨h, [], rfl⟩
  | cons call calls =>
    obtain ⟨fs, hfs⟩ : ∃ fs : List Frame,
        (if t.msgqueue = [] then call.buffers mustAutoFragment else t.msgqueue) = fs.map (Frame.encode false) := by
      split
      · exact (call.sends mustAutoFragment).framed
      · exact h
    dsimp only
    rw [hfs]
    match fs with
    | [] => exact ⟨⟨[], rfl⟩, [], rfl⟩
    | [f] => exact ⟨⟨[], rfl⟩, [f], by simp⟩
    | f :: g :: fs => exact ⟨⟨g :: fs, rfl⟩, [f], by simp⟩

theorem framed_turn (framed : ∀ j, (st.threads j).Framed) (i j : ι) :
    ((st.turn mustAutoFragment i).threads j).Framed := by
  by_cases hj : j = i
  · rw [hj, turn_self rfl]
    exact ((framed i).send mustAutoFragment).1
  · rw [turn_other hj]
    exact framed j

/-- Whatever the schedule, only frames are written. -/
theorem wire_run (mustAutoFragment : Bool) (framed : ∀ i, (st.threads i).Framed) (schedule : List ι) :
    ∃ gs, (schedule.foldl (State.turn mustAutoFragment) st).wire = st.wire ++ encodeAll false gs := by
  induction schedule generalizing st with
  | nil => exact ⟨[], by simp⟩
  | cons i schedule ih =>
    obtain ⟨-, g, hg⟩ := (framed i).send mustAutoFragment
    obtain ⟨gs, hgs⟩ := ih (framed_turn framed i)
    refine ⟨g ++ gs, ?_⟩
    rw [List.foldl_cons, hgs, encodeAll_append, ← hg, ← List.append_assoc]
    rfl

omit [DecidableEq ι] in
theorem Under.framed (under : Under st pd) (j : ι) : (st.threads j).Framed := by
  cases under with
  | idle queues => exact ⟨[], queues j⟩
  | @busy _ i _ _ fs _ _ others _ _ _ queue _ _ =>
    by_cases hj : j = i
    · exact ⟨fs, hj ▸ queue⟩
    · exact ⟨[], others j hj⟩

/-- The first frame of a data message may not stand inside another message. -/
theorem first_illegal {pd : Pending} {f : Frame} {fs : List Frame} {op : OpCode} {payload : List UInt8}
    (carries : Carries none (f :: fs) op payload) (inside : pd.isSome = true) : ¬f.Legal pd := by
  have first : f.Legal none ∧ f.opcode.isControl = false := by
    cases carries with
    | last legal data _ => exact ⟨legal, data⟩
    | more legal fragment _ => exact ⟨legal, legal.data_of_fragment fragment⟩
  obtain ⟨m, rfl⟩ := Option.isSome_iff_exists.mp inside
  unfold Frame.Legal at first ⊢
  revert first
  cases f.opcode <;> simp [OpCode.isControl]

/-- Once a message has been interrupted, the stream is not legal and does not become so again. -/
theorem Written.interrupted {fs : List Frame} {log : List (ι × OpCode × List UInt8)} (w : Written st fs log)
    (interrupts : ¬st.Free i) (schedule : List ι) :
    ¬((i :: schedule).foldl (State.turn mustAutoFragment) st).Decodes := by
  rintro ⟨frames, log', wire, legal, -, -⟩
  obtain ⟨writes, j, hj, inside⟩ : (st.threads i).calls.head?.any Call.sendsData = true ∧
      ∃ j, j ≠ i ∧ (st.threads j).msgqueue ≠ [] := by
    simpa [State.Free] using interrupts
  -- thread `j` is the one that is inside a message, and thread `i` begins another
  obtain ⟨pending, outside⟩ : (pendingAfter none fs).isSome = true ∧ (st.threads i).msgqueue = [] := by
    have under := w.under
    generalize pendingAfter none fs = pd at under
    cases under with
    | idle queues => exact absurd (queues j) inside
    | @busy _ k _ _ _ _ _ others _ _ _ _ _ pending =>
      obtain rfl : j = k := by
        by_contra h
        exact inside (others j h)
      exact ⟨pending, others i hj.symm⟩
  obtain ⟨call, calls, hcalls⟩ : ∃ call calls, (st.threads i).calls = call :: calls := by
    cases h : (st.threads i).calls with
    | nil => simp [h] at writes
    | cons call calls => exact ⟨call, calls, rfl⟩
  have sends := call.sends mustAutoFragment
  have data : call.sendsData = true := by simpa [hcalls] using writes
  unfold Call.sendsData at data
  generalize hbuffers : call.buffers mustAutoFragment = buffers at sends
  generalize call.message = message at sends data
  cases sends with
  | nothing => cases data
  | pong => cases data
  | @data gs op payload _ carries =>
    obtain ⟨f, gs, rfl⟩ := List.exists_cons_of_ne_nil carries.ne_nil
    have sent : ((st.threads i).send mustAutoFragment).2 = encodeAll false [f] := by
      cases gs <;> simp [Thread.send, hcalls, outside, hbuffers]
    obtain ⟨later, hlater⟩ := wire_run mustAutoFragment
      (@framed_turn _ _ mustAutoFragment _ w.under.framed i) schedule
    have bytes : encodeAll false frames = encodeAll false (fs ++ f :: later) := by
      rw [← wire, List.foldl_cons, hlater, State.turn, sent, w.wire, encodeAll_append]
      simp
    have illegal := (legalSeq_append w.stays).mp (legalSeq_of_encodeAll bytes legal)
    exact first_illegal carries pending illegal.2.1

theorem Written.uninterrupted {fs : List Frame} {log : List (ι × OpCode × List UInt8)} (w : Written st fs log)
    (schedule : List ι) (decodes : (schedule.foldl (State.turn mustAutoFragment) st).Decodes) :
    Uninterrupted mustAutoFragment st schedule := by
  induction schedule generalizing st fs log with
  | nil => trivial
  | cons i schedule ih =>
    have free : st.Free i := by
      by_contra h
      exact w.interrupted h schedule decodes
    obtain ⟨fs', log', w'⟩ := w.step mustAutoFragment free
    exact ⟨free, ih w' decodes⟩

/-- After any schedule of any programs, the stream of an automatically fragmenting connection decodes to the
messages of the calls that have returned exactly when no message was interrupted. -/
theorem decodes_iff_uninterrupted (program : ι → List Call) (schedule : List ι) :
    (run true program schedule).Decodes ↔ Uninterrupted true (State.start program) schedule := by
  constructor
  · exact (written_start program).uninterrupted schedule
  · intro uninterrupted
    obtain ⟨fs, log, w⟩ := (written_start program).run uninterrupted
    exact w.decodes

/-- One thread sends a text in two fragments, another broadcasts. -/
def textAndBroadcast : Bool → List Call
  | false => [.wssendRaw .text (List.replicate 2784 7) (by rw [List.length_replicate]; decide)]
  | true => [.bcast [1] (by simp)]

/-- The broadcast goes out between the two fragments. -/
theorem broadcast_interrupts : ¬(run true textAndBroadcast [false, true, false]).Decodes := by
  intro decodes
  have uninterrupted := (written_start textAndBroadcast).uninterrupted _ decodes
  have inside : (((State.start textAndBroadcast).turn true false).threads false).msgqueue ≠ [] := by
    decide +kernel
  exact inside (uninterrupted.2.1 rfl false (by decide))

end LAppS.Senders

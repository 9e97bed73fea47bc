import LAppS.Transition.Runs
import LAppS.WebSocket.Input
import Mathlib.Logic.Function.Basic

/-!
# A worker and its surroundings

The I/O worker with its connections, the listener that accepts sockets, the services that take the events of the
sockets, and the destruction of WebSockets that nobody references.
-/

namespace LAppS.IOWorker
open Rfc6455 StreamProcessing WebSocket

/-- A WebSocket object; its descriptor is open while it lives. -/
structure Connection where
  fd : Nat
  ws : Socket
  live : Bool

/-- Where the worker is in the loop of `execute`. -/
inductive Phase where
  | drain
  | inbound
  | poll
  deriving DecidableEq, Repr

structure System where
  mMayRun : Bool
  phase : Phase
  mConnections : AList fun _ : Nat => Nat
  /-- The descriptors, each with the socket that has queued it; the code has the descriptor only. -/
  mDCQueue : List (Nat × Nat)
  mInQueue : List Nat
  /-- All sockets that were ever made, numbered from zero. -/
  sockets : Nat → Option Connection
  made : Nat
  /-- The events that the services have not taken yet. -/
  mEvents : List (Nat × AppInEvent)
  disconnects : List Nat

/-- What the outside contributes to `processIo`: the mutex and the results of `recv` for `handleInput`, whether the
TLS accept is done (or has failed), and how the handshake ends: with an exception, with a service, or closed. -/
structure Io where
  busy : Bool := false
  reads : List (Option (List UInt8)) := []
  accepted : Option Bool := none
  shaken : Except String (Option Service) := .ok none

inductive Action where
  | accept (fd : Nat)
  /-- The worker goes on to the next part of its loop. -/
  | next
  | drain
  /-- The worker takes an accepted socket, or cannot make a WebSocket from it. -/
  | inbound
  | dropInbound
  | epollError (fd : Nat)
  | processIo (fd : Nat) (io : Io)
  /-- A service takes the first event of a socket. -/
  | serve (id : Nat)
  /-- A service thread that holds a socket closes it. -/
  | close (id : Nat)
  | destroy (id : Nat)

namespace System

def setWs (s : System) (id : Nat) (ws : Socket) : System :=
  { s with sockets := Function.update s.sockets id ((s.sockets id).map fun c => { c with ws }) }

def closeWs (s : System) (id : Nat) : System :=
  match s.sockets id with
  | some c =>
    if c.ws.mState ≠ .closed then
      { s.setWs id { c.ws with mState := .closed } with mDCQueue := s.mDCQueue ++ [(c.fd, id)] }
    else s
  | none => s

def deleteConnection (s : System) (fd : Nat) : System := { s with mConnections := s.mConnections.erase fd }

/-- The socket after `handleInput`; its events go to the service. -/
def received (s : System) (id : Nat) (ws : Socket) : System :=
  { s.setWs id { ws with events := [] } with mEvents := s.mEvents ++ ws.events.map fun e => (id, e) }

variable (behind : List UInt8 → Nat → UInt8) (tls : Bool) (mMaxConnections : Nat)

def processIo (s : System) (fd : Nat) (io : Io) : System :=
  match s.mConnections.lookup fd with
  | none => s
  | some id =>
    match s.sockets id with
    | none => s
    | some c =>
      match c.ws.mState with
      | .messaging =>
        let (ws, ret) := c.ws.handleInput behind tls io.busy io.reads
        let s := s.received id ws
        match ret with
        | .ok ret => if ret = -1 then s.deleteConnection fd else s
        | .error _ => s.deleteConnection fd
      | .accept =>
        match io.accepted with
        | some true => s.setWs id { c.ws with mState := .handshake }
        | some false => s.closeWs id
        | none => s
      | .handshake =>
        match io.shaken with
        | .ok (some service) =>
          s.setWs id
            { c.ws with
              mState := .messaging
              mApplication := some service
              streamProcessor := c.ws.streamProcessor.setMaxMSGSize service.maxMSGSize }
        | .ok none => (s.closeWs id).deleteConnection fd
        | .error _ => { s with mMayRun := false }
      | .closed => s.deleteConnection fd

def mkWebSocket (s : System) (fd : Nat) : System :=
  let ws : Socket := ⟨if tls then .accept else .handshake, false, Parser.new 512, none, []⟩
  { s with sockets := Function.update s.sockets s.made (some ⟨fd, ws, true⟩), made := s.made + 1 }

/-- With too many connections the new socket is closed. -/
def addNewConnection (s : System) (fd : Nat) : System :=
  let id := s.made
  let s := s.mkWebSocket tls fd
  if s.mConnections.entries.length < mMaxConnections then
    if s.mConnections.lookup fd = none then { s with mConnections := s.mConnections.insert fd id } else s
  else s.closeWs id

/-- A service takes an event. Only a CLOSE changes the state of the socket or calls `onDisconnect`. -/
def serve (s : System) (id : Nat) (e : AppInEvent) : System :=
  if e.opcode = .close then
    let s := { s with disconnects := s.disconnects ++ [id] }
    match s.sockets id with
    | some c => if c.ws.mState = .messaging then s.closeWs id else s
    | none => s
  else s

/-- The descriptor of a socket that lives or that waits for the worker. -/
def isOpen (s : System) (fd : Nat) : Bool :=
  s.mInQueue.contains fd || (List.range s.made).any fun id => (s.sockets id).any fun c => c.live && c.fd == fd

/-- The worker or an event holds the socket. -/
def isReferenced (s : System) (id : Nat) : Bool :=
  s.mConnections.entries.any (fun entry => entry.2 == id) || s.mEvents.any fun e => e.1 == id

def step (s : System) : Action → Option System
  | .accept fd => if s.isOpen fd then none else some { s with mInQueue := s.mInQueue ++ [fd] }
  | .next =>
    if s.mMayRun then
      match s.phase with
      | .drain => some { s with phase := .inbound }
      | .inbound => some { s with phase := .poll }
      | .poll => some { s with phase := .drain }
    else none
  | .drain =>
    match s.mMayRun, s.phase, s.mDCQueue with
    | true, .drain, (fd, _) :: rest => some ({ s with mDCQueue := rest }.deleteConnection fd)
    | _, _, _ => none
  | .inbound =>
    match s.mMayRun, s.phase, s.mInQueue with
    | true, .inbound, fd :: rest => some ({ s with mInQueue := rest }.addNewConnection tls mMaxConnections fd)
    | _, _, _ => none
  | .dropInbound =>
    match s.mMayRun, s.phase, s.mInQueue with
    | true, .inbound, _ :: rest => some { s with mInQueue := rest }
    | _, _, _ => none
  | .epollError fd => if s.mMayRun ∧ s.phase = .poll then some (s.deleteConnection fd) else none
  | .processIo fd io => if s.mMayRun ∧ s.phase = .poll then some (s.processIo behind tls fd io) else none
  | .serve id =>
    match s.mEvents.find? (·.1 == id) with
    | some (_, e) => some ({ s with mEvents := s.mEvents.eraseP (·.1 == id) }.serve id e)
    | none => none
  | .close id => if (s.sockets id).any (·.live) then some (s.closeWs id) else none
  | .destroy id =>
    match s.sockets id with
    | some c =>
      -- The destructor cannot enqueue a CLOSE, since the socket cannot be shared any more.
      let destroyed : Connection := { c with ws := { c.ws with mState := .closed }, live := false }
      if c.live ∧ !s.isReferenced id then
        some { s with sockets := Function.update s.sockets id (some destroyed) }
      else none
    | none => none

def start : System where
  mMayRun := true
  phase := .drain
  mConnections := ∅
  mDCQueue := []
  mInQueue := []
  sockets := fun _ => none
  made := 0
  mEvents := []
  disconnects := []

/-! ### Descriptors and lifetimes -/

def shape (s : System) (id : Nat) : Option (Nat × Bool) := (s.sockets id).map fun c => (c.fd, c.live)

/-- A socket that is held lives, and no two sockets that live or wait have the same descriptor. -/
structure Sound (s : System) : Prop where
  held : ∀ {fd id}, s.mConnections.lookup fd = some id → s.shape id = some (fd, true)
  queued : ∀ {id e}, (id, e) ∈ s.mEvents → ∃ fd, s.shape id = some (fd, true)
  unique : ∀ {i j fd}, s.shape i = some (fd, true) → s.shape j = some (fd, true) → i = j
  waiting : ∀ {i fd}, fd ∈ s.mInQueue → s.shape i ≠ some (fd, true)
  nodup : s.mInQueue.Nodup
  fresh : ∀ {id}, s.made ≤ id → s.shape id = none

variable {behind : List UInt8 → Nat → UInt8} {tls : Bool} {mMaxConnections : Nat} {s s' : System}

@[simp] theorem shape_setWs (s : System) (id : Nat) (ws : Socket) : (s.setWs id ws).shape = s.shape := by
  funext i
  by_cases h : i = id
  · subst h
    simp [shape, setWs, Function.comp_def]
  · simp [shape, setWs, h]

@[simp] theorem shape_closeWs (s : System) (id : Nat) : (s.closeWs id).shape = s.shape := by
  unfold closeWs
  split
  · split
    · exact shape_setWs s id _
    · rfl
  · rfl

@[simp] theorem closeWs_mConnections (s : System) (id : Nat) : (s.closeWs id).mConnections = s.mConnections := by
  unfold closeWs
  repeat' split
  all_goals rfl

@[simp] theorem closeWs_mEvents (s : System) (id : Nat) : (s.closeWs id).mEvents = s.mEvents := by
  unfold closeWs
  repeat' split
  all_goals rfl

@[simp] theorem closeWs_mInQueue (s : System) (id : Nat) : (s.closeWs id).mInQueue = s.mInQueue := by
  unfold closeWs
  repeat' split
  all_goals rfl

@[simp] theorem closeWs_made (s : System) (id : Nat) : (s.closeWs id).made = s.made := by
  unfold closeWs
  repeat' split
  all_goals rfl

theorem lookup_erase_some {m : AList fun _ : Nat => Nat} {fd fd' id : Nat}
    (h : (m.erase fd).lookup fd' = some id) : fd' ≠ fd ∧ m.lookup fd' = some id := by
  by_cases same : fd' = fd
  · subst same
    rw [AList.lookup_erase] at h
    cases h
  · exact ⟨same, by rwa [AList.lookup_erase_ne same] at h⟩

theorem Sound.of_shape (sound : Sound s) (shape : s'.shape = s.shape) (made : s'.made = s.made)
    (mInQueue : s'.mInQueue.Sublist s.mInQueue)
    (held : ∀ {fd id}, s'.mConnections.lookup fd = some id → s.mConnections.lookup fd = some id)
    (queued : ∀ {id e}, (id, e) ∈ s'.mEvents → (id, e) ∈ s.mEvents ∨ ∃ fd, s.shape id = some (fd, true)) :
    Sound s' where
  held := fun h => shape ▸ sound.held (held h)
  queued := fun h => shape ▸ (queued h).elim sound.queued id
  unique := shape ▸ sound.unique
  waiting := fun h => shape ▸ sound.waiting (mInQueue.subset h)
  nodup := sound.nodup.sublist mInQueue
  fresh := fun h => shape ▸ sound.fresh (made ▸ h)

theorem Sound.closeWs (sound : Sound s) (id : Nat) : Sound (s.closeWs id) :=
  sound.of_shape (by simp) (by simp) (by simp) (by simp) (by simp +contextual)

theorem Sound.setWs (sound : Sound s) (id : Nat) (ws : Socket) : Sound (s.setWs id ws) :=
  sound.of_shape (by simp) rfl (List.Sublist.refl _) (fun h => h) .inl

theorem Sound.deleteConnection (sound : Sound s) (fd : Nat) : Sound (s.deleteConnection fd) :=
  sound.of_shape rfl rfl (List.Sublist.refl _) (fun h => (lookup_erase_some h).2) .inl

theorem Sound.received (sound : Sound s) {fd id : Nat} (h : s.shape id = some (fd, true)) (ws : Socket) :
    Sound (s.received id ws) := by
  refine sound.of_shape (shape_setWs s id _) rfl (List.Sublist.refl _) (fun h => h) ?_
  intro i e he
  rcases List.mem_append.mp he with he | he
  · exact .inl he
  · obtain ⟨e', -, heq⟩ := List.mem_map.mp he
    cases heq
    exact .inr ⟨fd, h⟩

/-- What `processIo` can come to: the socket that is served has received something, goes on to its next state or is
closed, and its connection may be removed. -/
theorem processIo_rule {P : System → Prop} {fd : Nat} (io : Io) (idle : P s)
    (received : ∀ id c, s.mConnections.lookup fd = some id → s.sockets id = some c →
      P (s.received id (c.ws.handleInput behind tls io.busy io.reads).1))
    (set : ∀ id c ws, s.mConnections.lookup fd = some id → s.sockets id = some c → ws.mNoInput = c.ws.mNoInput →
      ws.events = c.ws.events → P (s.setWs id ws))
    (closed : ∀ id, s.mConnections.lookup fd = some id → P (s.closeWs id))
    (deleted : ∀ s', P s' → P (s'.deleteConnection fd)) (stopped : P { s with mMayRun := false }) :
    P (s.processIo behind tls fd io) := by
  unfold processIo
  split
  · exact idle
  next id connected =>
    split
    · exact idle
    next c found =>
      split
      · dsimp only
        split
        · split
          · exact deleted _ (received id c connected found)
          · exact received id c connected found
        · exact deleted _ (received id c connected found)
      · split
        · exact set id c _ connected found rfl rfl
        · exact closed id connected
        · exact idle
      · split
        · exact set id c _ connected found rfl rfl
        · exact deleted _ (closed id connected)
        · exact stopped
      · exact deleted _ idle

theorem Sound.processIo (sound : Sound s) (fd : Nat) (io : Io) : Sound (s.processIo behind tls fd io) := by
  apply processIo_rule
  case idle => exact sound
  case received =>
    intro id c connected _
    exact sound.received (sound.held connected) _
  case set =>
    intro id c ws _ _ _ _
    exact sound.setWs id ws
  case closed =>
    intro id _
    exact sound.closeWs id
  case deleted =>
    intro s' sound'
    exact sound'.deleteConnection fd
  case stopped => exact sound.of_shape rfl rfl (List.Sublist.refl _) (fun h => h) .inl

theorem shape_mkWebSocket (s : System) (fd : Nat) :
    (s.mkWebSocket tls fd).shape = Function.update s.shape s.made (some (fd, true)) := by
  funext i
  by_cases h : i = s.made
  · subst h
    simp [shape, mkWebSocket]
  · simp [shape, mkWebSocket, h]

theorem Sound.mkWebSocket (sound : Sound s) {fd : Nat} (fresh : ∀ i, s.shape i ≠ some (fd, true))
    (waiting : fd ∉ s.mInQueue) : Sound (s.mkWebSocket tls fd) := by
  have old {i fd' : Nat} (h : s.shape i = some (fd', true)) :
      (s.mkWebSocket tls fd).shape i = some (fd', true) := by
    have : i ≠ s.made := by
      rintro rfl
      rw [sound.fresh le_rfl] at h
      cases h
    rw [shape_mkWebSocket, Function.update_of_ne this, h]
  have cases_of {i fd' : Nat} (h : (s.mkWebSocket tls fd).shape i = some (fd', true)) :
      i = s.made ∧ fd' = fd ∨ s.shape i = some (fd', true) := by
    rw [shape_mkWebSocket] at h
    by_cases same : i = s.made
    · subst same
      rw [Function.update_self] at h
      cases h
      exact .inl ⟨rfl, rfl⟩
    · rw [Function.update_of_ne same] at h
      exact .inr h
  refine ⟨fun h => old (sound.held h), fun h => ?_, fun hi hj => ?_, fun hfd h => ?_, sound.nodup, fun h => ?_⟩
  · obtain ⟨fd', h⟩ := sound.queued h
    exact ⟨fd', old h⟩
  · rcases cases_of hi with ⟨rfl, rfl⟩ | hi <;> rcases cases_of hj with ⟨rfl, hfd⟩ | hj
    · rfl
    · exact absurd hj (fresh _)
    · exact absurd (hfd ▸ hi) (fresh _)
    · exact sound.unique hi hj
  · rcases cases_of h with ⟨-, rfl⟩ | h
    · exact waiting hfd
    · exact sound.waiting hfd h
  · have bound : s.made + 1 ≤ _ := h
    rw [shape_mkWebSocket, Function.update_of_ne (by omega)]
    exact sound.fresh (by omega)

theorem Sound.addNewConnection (sound : Sound s) {fd : Nat} (fresh : ∀ i, s.shape i ≠ some (fd, true))
    (waiting : fd ∉ s.mInQueue) : Sound (s.addNewConnection tls mMaxConnections fd) := by
  have made : Sound (s.mkWebSocket tls fd) := sound.mkWebSocket fresh waiting
  unfold System.addNewConnection
  dsimp only
  split
  · split
    · refine ⟨fun {fd' id} h => ?_, made.queued, made.unique, made.waiting, made.nodup, made.fresh⟩
      by_cases same : fd' = fd
      · subst same
        rw [AList.lookup_insert] at h
        cases h
        exact (congrFun (shape_mkWebSocket s fd') s.made).trans (Function.update_self ..)
      · rw [AList.lookup_insert_ne same] at h
        exact made.held h
    · exact made
  · exact made.closeWs _

theorem Sound.serve (sound : Sound s) (id : Nat) (e : AppInEvent) : Sound (s.serve id e) := by
  have said : Sound { s with disconnects := s.disconnects ++ [id] } :=
    sound.of_shape rfl rfl (List.Sublist.refl _) (fun h => h) .inl
  unfold System.serve
  split
  · dsimp only
    split
    · split
      · exact said.closeWs id
      · exact said
    · exact said
  · exact sound

theorem isOpen_iff (sound : Sound s) (fd : Nat) :
    s.isOpen fd = true ↔ fd ∈ s.mInQueue ∨ ∃ i, s.shape i = some (fd, true) := by
  have lives : (List.range s.made).any (fun id => (s.sockets id).any fun c => c.live && c.fd == fd) = true ↔
      ∃ i, s.shape i = some (fd, true) := by
    simp only [List.any_eq_true, List.mem_range, shape, Option.any_eq_true, Bool.and_eq_true, beq_iff_eq,
      Option.map_eq_some_iff, Prod.mk.injEq]
    constructor
    · rintro ⟨i, -, c, hc, live, rfl⟩
      exact ⟨i, c, hc, rfl, live⟩
    · rintro ⟨i, c, hc, rfl, live⟩
      refine ⟨i, ?_, c, hc, live, rfl⟩
      by_contra outside
      have := sound.fresh (Nat.le_of_not_lt outside)
      simp [shape, hc] at this
  rw [isOpen, Bool.or_eq_true, lives, List.contains_iff_mem]

theorem isReferenced_iff (s : System) (id : Nat) :
    s.isReferenced id = true ↔ (∃ fd, s.mConnections.lookup fd = some id) ∨ ∃ e, (id, e) ∈ s.mEvents := by
  have held : s.mConnections.entries.any (fun entry => entry.2 == id) = true ↔
      ∃ fd, s.mConnections.lookup fd = some id := by
    simp only [List.any_eq_true, beq_iff_eq, AList.mem_lookup_iff, ← Option.mem_def]
    constructor
    · rintro ⟨⟨fd, i⟩, hentry, rfl⟩
      exact ⟨fd, hentry⟩
    · rintro ⟨fd, hentry⟩
      exact ⟨⟨fd, id⟩, hentry, rfl⟩
  have queued : s.mEvents.any (fun e => e.1 == id) = true ↔ ∃ e, (id, e) ∈ s.mEvents := by
    simp only [List.any_eq_true, beq_iff_eq]
    constructor
    · rintro ⟨⟨i, e⟩, he, rfl⟩
      exact ⟨e, he⟩
    · rintro ⟨e, he⟩
      exact ⟨(id, e), he, rfl⟩
  rw [isReferenced, Bool.or_eq_true, held, queued]

theorem Sound.destroy (sound : Sound s) {id : Nat} {c c' : Connection} (found : s.sockets id = some c)
    (free : s.isReferenced id ≠ true) (fd : c'.fd = c.fd) (dead : c'.live = false) :
    Sound { s with sockets := Function.update s.sockets id (some c') } := by
  rw [ne_eq, isReferenced_iff, not_or, not_exists, not_exists] at free
  have shape_eq : System.shape { s with sockets := Function.update s.sockets id (some c') } =
      Function.update s.shape id (some (c.fd, false)) := by
    funext i
    by_cases h : i = id
    · subst h
      simp [shape, fd, dead]
    · simp [shape, h]
  have old {i fd' : Nat} (ne : i ≠ id) (h : s.shape i = some (fd', true)) :
      System.shape { s with sockets := Function.update s.sockets id (some c') } i = some (fd', true) := by
    rw [shape_eq, Function.update_of_ne ne, h]
  have new {i fd' : Nat}
      (h : System.shape { s with sockets := Function.update s.sockets id (some c') } i = some (fd', true)) :
      s.shape i = some (fd', true) := by
    rw [shape_eq] at h
    by_cases same : i = id
    · subst same
      rw [Function.update_self] at h
      cases h
    · rwa [Function.update_of_ne same] at h
  refine ⟨fun {fd' i} h => old ?_ (sound.held h), fun {i e} h => ?_, fun hi hj => sound.unique (new hi) (new hj),
    fun hfd h => sound.waiting hfd (new h), sound.nodup, fun {i} h => ?_⟩
  · rintro rfl
    exact free.1 fd' h
  · obtain ⟨fd', hfd'⟩ := sound.queued h
    refine ⟨fd', old ?_ hfd'⟩
    rintro rfl
    exact free.2 e h
  · have ne : i ≠ id := by
      rintro rfl
      have := sound.fresh h
      simp [shape, found] at this
    rw [shape_eq, Function.update_of_ne ne]
    exact sound.fresh h

theorem sound_start : Sound start where
  held := by simp [start]
  queued := by simp [start]
  unique := by simp [start, shape]
  waiting := by simp [start]
  nodup := by simp [start]
  fresh := by simp [start, shape]

/-! ### What a step does -/

variable (behind tls mMaxConnections) in
/-- The steps, each with the state in which it is taken and what it leaves. -/
inductive Stepped (s : System) : Action → System → Prop
  | accept {fd : Nat} (closed : ¬s.isOpen fd = true) : Stepped s (.accept fd) { s with mInQueue := s.mInQueue ++ [fd] }
  | next (phase : Phase) : Stepped s .next { s with phase }
  | drain {fd owner : Nat} {rest : List (Nat × Nat)} (queue : s.mDCQueue = (fd, owner) :: rest) :
      Stepped s .drain ({ s with mDCQueue := rest }.deleteConnection fd)
  | inbound {fd : Nat} {rest : List Nat} (queue : s.mInQueue = fd :: rest) :
      Stepped s .inbound ({ s with mInQueue := rest }.addNewConnection tls mMaxConnections fd)
  | dropInbound {fd : Nat} {rest : List Nat} (queue : s.mInQueue = fd :: rest) :
      Stepped s .dropInbound { s with mInQueue := rest }
  | epollError {fd : Nat} : Stepped s (.epollError fd) (s.deleteConnection fd)
  | processIo {fd : Nat} {io : Io} : Stepped s (.processIo fd io) (s.processIo behind tls fd io)
  | serve {id : Nat} {e : AppInEvent} (found : s.mEvents.find? (·.1 == id) = some (id, e)) :
      Stepped s (.serve id) ({ s with mEvents := s.mEvents.eraseP (·.1 == id) }.serve id e)
  | close {id : Nat} {c : Connection} (found : s.sockets id = some c) (live : c.live = true) :
      Stepped s (.close id) (s.closeWs id)
  | destroy {id : Nat} {c : Connection} (found : s.sockets id = some c) (free : ¬s.isReferenced id = true) :
      Stepped s (.destroy id)
        { s with
          sockets := Function.update s.sockets id
            (some { c with ws := { c.ws with mState := .closed }, live := false }) }

theorem stepped {a : Action} (h : s.step behind tls mMaxConnections a = some s') :
    Stepped behind tls mMaxConnections s a s' := by
  cases a with
  | accept fd =>
    simp only [step] at h
    split at h
    · cases h
    next closed =>
      cases h
      exact .accept closed
  | next =>
    simp only [step] at h
    split at h
    · split at h <;> cases h <;> exact .next _
    · cases h
  | drain =>
    simp only [step] at h
    split at h
    next queue =>
      cases h
      exact .drain queue
    · cases h
  | inbound =>
    simp only [step] at h
    split at h
    next queue =>
      cases h
      exact .inbound queue
    · cases h
  | dropInbound =>
    simp only [step] at h
    split at h
    next queue =>
      cases h
      exact .dropInbound queue
    · cases h
  | epollError fd =>
    simp only [step] at h
    split at h <;> cases h
    exact .epollError
  | processIo fd io =>
    simp only [step] at h
    split at h <;> cases h
    exact .processIo
  | serve id =>
    simp only [step] at h
    split at h
    next i e found =>
      cases h
      obtain rfl : i = id := by simpa using List.find?_some found
      exact .serve found
    · cases h
  | close id =>
    simp only [step] at h
    split at h
    next live =>
      cases h
      obtain ⟨c, found, live⟩ := (Option.any_eq_true ..).mp live
      exact .close found live
    · cases h
  | destroy id =>
    simp only [step] at h
    split at h
    next c found =>
      split at h
      next free =>
        cases h
        exact .destroy found (by simpa using free.2)
      · cases h
    · cases h

theorem shape_of_live {id : Nat} {c : Connection} (found : s.sockets id = some c) (live : c.live = true) :
    s.shape id = some (c.fd, true) := by
  rw [shape, found, ← live]
  rfl

theorem Sound.inbound (sound : Sound s) {fd : Nat} {rest : List Nat} (queue : s.mInQueue = fd :: rest) :
    Sound { s with mInQueue := rest } ∧ (∀ i, s.shape i ≠ some (fd, true)) ∧ fd ∉ rest := by
  have nodup := sound.nodup
  rw [queue, List.nodup_cons] at nodup
  have tail : rest.Sublist s.mInQueue := queue ▸ List.sublist_cons_self fd rest
  exact ⟨sound.of_shape rfl rfl tail (fun h => h) .inl, fun i => sound.waiting (by simp [queue]), nodup.1⟩

theorem Sound.takeEvent (sound : Sound s) (id : Nat) : Sound { s with mEvents := s.mEvents.eraseP (·.1 == id) } :=
  sound.of_shape rfl rfl (List.Sublist.refl _) (fun h => h) fun h => .inl (List.mem_of_mem_eraseP h)

theorem Sound.step {a : Action} (sound : Sound s) (h : s.step behind tls mMaxConnections a = some s') : Sound s' := by
  cases stepped h with
  | @accept fd closed =>
    rw [isOpen_iff sound, not_or, not_exists] at closed
    refine ⟨sound.held, sound.queued, sound.unique, fun {i fd'} hfd => ?_, ?_, sound.fresh⟩
    · rcases List.mem_append.mp hfd with hfd | hfd
      · exact sound.waiting hfd
      · exact List.mem_singleton.mp hfd ▸ closed.2 i
    · rw [List.nodup_append]
      refine ⟨sound.nodup, List.nodup_singleton fd, fun x hx y hy => ?_⟩
      rw [List.mem_singleton.mp hy]
      rintro rfl
      exact closed.1 hx
  | next phase => exact ⟨sound.held, sound.queued, sound.unique, sound.waiting, sound.nodup, sound.fresh⟩
  | @drain fd owner rest queue =>
    have taken : Sound { s with mDCQueue := rest } := sound.of_shape rfl rfl (List.Sublist.refl _) (fun h => h) .inl
    exact taken.deleteConnection fd
  | inbound queue =>
    obtain ⟨tail, fresh, waiting⟩ := sound.inbound queue
    exact tail.addNewConnection fresh waiting
  | dropInbound queue => exact (sound.inbound queue).1
  | epollError => exact sound.deleteConnection _
  | processIo => exact sound.processIo _ _
  | @serve id e found => exact (sound.takeEvent id).serve id e
  | close found live => exact sound.closeWs _
  | destroy found free => exact sound.destroy found free rfl rfl

end System
end LAppS.IOWorker

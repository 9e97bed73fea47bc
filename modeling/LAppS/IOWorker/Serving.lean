import LAppS.IOWorker.System
import LAppS.Shakespeer

/-!
# What one peer can do to the worker

The worker serves the connections one after the other, with the handshake as the server makes it. An exception that
leaves the handshake ends the loop of the worker.
-/

namespace LAppS.IOWorker
open WebSocket Transition Shakespeer

/-- What comes from outside when the worker serves a connection. -/
structure Arrival where
  busy : Bool
  reads : List (Option (List UInt8))
  accepted : Option Bool
  shakespeer : Shakespeer
  peer : Peer

variable (toupper : List UInt8 → List UInt8)

def Arrival.io (digest : List UInt8 → List UInt8) (shl32 : Word) (a : Arrival) : Io where
  busy := a.busy
  reads := a.reads
  accepted := a.accepted
  shaken := (a.shakespeer.handshake toupper digest shl32 a.peer).map Answer.application

inductive Event where
  | arrive (fd : Nat) (arrival : Arrival)
  /-- Any other action of the worker, of the listener or of a service. -/
  | other (a : Action)

/-- Serving the connection raises an exception or finds the connection lost, refused or closed. -/
def Connection.fails (behind : List UInt8 → Nat → UInt8) (tls : Bool) (c : Connection) (io : Io) : Bool :=
  match c.ws.mState with
  | .messaging =>
    match (c.ws.handleInput behind tls io.busy io.reads).2 with
    | .ok ret => ret = -1
    | .error _ => true
  | .accept => io.accepted = some false
  | .handshake =>
    match io.shaken with
    | .ok (some _) => false
    | _ => true
  | .closed => true

namespace System

def served (s : System) (fd : Nat) : Option Connection := (s.mConnections.lookup fd).bind s.sockets

/-- The connections after the loop over `mDCQueue`. -/
def drained (s : System) : System :=
  s.mDCQueue.foldl (fun s entry => s.deleteConnection entry.1) { s with mDCQueue := [] }

variable (digest : List UInt8 → List UInt8) (shl32 : Word)
variable (behind : List UInt8 → Nat → UInt8) (tls : Bool) (mMaxConnections : Nat)

/-- The handshake is always that of the server. -/
def stepEvent (s : System) : Event → Option System
  | .arrive fd arrival => s.step behind tls mMaxConnections (.processIo fd (arrival.io toupper digest shl32))
  | .other (.processIo _ _) => none
  | .other a => s.step behind tls mMaxConnections a

/-- A step that serves `fd` leaves the other connections as they are. If it fails, the connection is removed, at the
latest when the worker next empties `mDCQueue`, to which nothing else was added. -/
structure Confined (s : System) (fd : Nat) (failed : Bool) (s' : System) : Prop where
  others : ∀ fd', fd' ≠ fd → s'.mConnections.lookup fd' = s.mConnections.lookup fd'
  sockets : ∀ id, s.mConnections.lookup fd ≠ some id → s'.sockets id = s.sockets id
  queue : ∀ entry ∈ s'.mDCQueue, entry ∈ s.mDCQueue ∨ entry.1 = fd
  removed : failed = true → s'.drained.mConnections.lookup fd = none

/-- The worker goes on, and a failure of one connection stays with that connection. -/
def Survives (s : System) (e : Event) (s' : System) : Prop :=
  s'.mMayRun = true ∧
    match e with
    | .arrive fd arrival => Confined s fd ((s.served fd).any (·.fails behind tls (arrival.io toupper digest shl32))) s'
    | .other (.epollError fd) => Confined s fd true s'
    | .other _ => True

/-- A request in a handshake can be answered. -/
def Serviceable (s : System) : Event → Prop
  | .arrive fd arrival => ∀ c, s.served fd = some c → c.ws.mState = .handshake → Answerable toupper arrival.peer
  | .other _ => True

variable {behind : List UInt8 → Nat → UInt8} {tls : Bool} {mMaxConnections : Nat} {s s' : System}

theorem drained_lookup (s : System) (fd : Nat) (h : s.mConnections.lookup fd = none ∨ ∃ owner, (fd, owner) ∈ s.mDCQueue) :
    s.drained.mConnections.lookup fd = none := by
  have gone : ∀ (queue : List (Nat × Nat)) (s : System),
      (s.mConnections.lookup fd = none ∨ ∃ owner, (fd, owner) ∈ queue) →
      (queue.foldl (fun s entry => s.deleteConnection entry.1) s).mConnections.lookup fd = none := by
    intro queue
    induction queue with
    | nil => simp
    | cons entry queue ih =>
      intro s h
      rw [List.foldl_cons]
      apply ih
      by_cases same : entry.1 = fd
      · left
        rw [← same]
        exact AList.lookup_erase _ _
      · rcases h with none | ⟨owner, mem⟩
        · left
          exact (AList.lookup_erase_ne (Ne.symm same)).trans none
        · right
          rcases List.mem_cons.mp mem with rfl | mem
          · exact absurd rfl same
          · exact ⟨owner, mem⟩
  exact gone s.mDCQueue _ h

theorem confined_of {fd id : Nat} {failed : Bool} (connected : s.mConnections.lookup fd = some id)
    (connections : s'.mConnections = s.mConnections ∨ s'.mConnections = s.mConnections.erase fd)
    (sockets : ∀ i, i ≠ id → s'.sockets i = s.sockets i)
    (queue : s'.mDCQueue = s.mDCQueue ∨ s'.mDCQueue = s.mDCQueue ++ [(fd, id)])
    (removed : failed = true → s'.mConnections = s.mConnections.erase fd ∨ s'.mDCQueue = s.mDCQueue ++ [(fd, id)]) :
    Confined s fd failed s' where
  others fd' other := by
    rcases connections with same | erased
    · rw [same]
    · rw [erased, AList.lookup_erase_ne other]
  sockets i other := by
    apply sockets
    rintro rfl
    exact other connected
  queue entry mem := by
    rcases queue with same | more
    · exact .inl (same ▸ mem)
    · rw [more] at mem
      rcases List.mem_append.mp mem with old | new
      · exact .inl old
      · exact .inr (List.mem_singleton.mp new ▸ rfl)
  removed failure := by
    apply drained_lookup
    rcases removed failure with erased | queued
    · left
      rw [erased, AList.lookup_erase]
    · right
      exact ⟨id, by simp [queued]⟩

theorem confined_deleteConnection (s : System) (fd : Nat) (failed : Bool) : Confined s fd failed (s.deleteConnection fd) where
  others _ other := AList.lookup_erase_ne other
  sockets _ _ := rfl
  queue _ mem := .inl mem
  removed _ := drained_lookup _ _ (.inl (AList.lookup_erase _ _))

theorem sockets_setWs_ne {id i : Nat} (other : i ≠ id) (ws : Socket) : (s.setWs id ws).sockets i = s.sockets i :=
  Function.update_of_ne other ..

theorem sockets_closeWs_ne {id i : Nat} (other : i ≠ id) : (s.closeWs id).sockets i = s.sockets i := by
  unfold closeWs
  split
  · split
    · exact sockets_setWs_ne other _
    · rfl
  · rfl

@[simp] theorem closeWs_mMayRun (s : System) (id : Nat) : (s.closeWs id).mMayRun = s.mMayRun := by
  unfold closeWs
  repeat' split
  all_goals rfl

theorem closeWs_mDCQueue {id : Nat} {c : Connection} (found : s.sockets id = some c) (isOpen : c.ws.mState ≠ .closed) :
    (s.closeWs id).mDCQueue = s.mDCQueue ++ [(c.fd, id)] := by
  simp only [closeWs, found]
  rw [if_pos isOpen]

theorem Sound.fd_eq (sound : Sound s) {fd id : Nat} {c : Connection} (connected : s.mConnections.lookup fd = some id)
    (found : s.sockets id = some c) : c.fd = fd := by
  have shape := sound.held connected
  rw [System.shape, found] at shape
  exact congrArg Prod.fst (Option.some.inj shape)

/-- Every outcome but an exception of the handshake stays with the connection. -/
theorem processIo_confined (sound : Sound s) {fd : Nat} {io : Io}
    (answered : ∀ c, s.served fd = some c → c.ws.mState = .handshake → ∃ application, io.shaken = .ok application) :
    (s.processIo behind tls fd io).mMayRun = s.mMayRun ∧
      Confined s fd ((s.served fd).any (·.fails behind tls io)) (s.processIo behind tls fd io) := by
  cases connected : s.mConnections.lookup fd with
  | none =>
    have unserved : s.served fd = none := by rw [served, connected]; rfl
    rw [unserved, processIo, connected]
    exact ⟨rfl, ⟨fun _ _ => rfl, fun _ _ => rfl, fun _ h => .inl h, fun h => by cases h⟩⟩
  | some id =>
    obtain ⟨c, found⟩ : ∃ c, s.sockets id = some c := by
      obtain ⟨c, found, _⟩ := Option.map_eq_some_iff.mp (sound.held connected)
      exact ⟨c, found⟩
    have here : s.served fd = some c := by rw [served, connected]; exact found
    have own : c.fd = fd := sound.fd_eq connected found
    rw [here, Option.any_some]
    simp only [processIo, connected, found]
    cases state : c.ws.mState with
    | messaging =>
      have failure : c.fails behind tls io = match (c.ws.handleInput behind tls io.busy io.reads).2 with
          | .ok ret => decide (ret = -1)
          | .error _ => true := by
        rw [Connection.fails, state]
      have kept (i : Nat) (other : i ≠ id) : (s.received id (c.ws.handleInput behind tls io.busy io.reads).1).sockets i =
          s.sockets i := sockets_setWs_ne other _
      simp only
      split
      next ret result =>
        split
        next lost => exact ⟨rfl, confined_of connected (.inr rfl) kept (.inl rfl) fun _ => .inl rfl⟩
        next going =>
          refine ⟨rfl, confined_of connected (.inl rfl) kept (.inl rfl) fun failed => absurd ?_ going⟩
          rw [failure, result] at failed
          exact of_decide_eq_true failed
      next e result => exact ⟨rfl, confined_of connected (.inr rfl) kept (.inl rfl) fun _ => .inl rfl⟩
    | accept =>
      have failure : c.fails behind tls io = decide (io.accepted = some false) := by rw [Connection.fails, state]
      have queued : (s.closeWs id).mDCQueue = s.mDCQueue ++ [(fd, id)] := by
        rw [closeWs_mDCQueue found (by rw [state]; decide), own]
      rw [failure]
      simp only
      split
      next done =>
        exact ⟨rfl, confined_of connected (.inl rfl) (fun i other => sockets_setWs_ne other _) (.inl rfl)
          fun failed => by simp [done] at failed⟩
      next failed =>
        exact ⟨closeWs_mMayRun s id, confined_of connected (.inl (closeWs_mConnections s id))
          (fun i other => sockets_closeWs_ne other) (.inr queued) fun _ => .inr queued⟩
      next waiting =>
        exact ⟨rfl, confined_of connected (.inl rfl) (fun _ _ => rfl) (.inl rfl) fun failed => by simp [waiting] at failed⟩
    | handshake =>
      have queued : (s.closeWs id).mDCQueue = s.mDCQueue ++ [(fd, id)] := by
        rw [closeWs_mDCQueue found (by rw [state]; decide), own]
      obtain ⟨application, shaken⟩ := answered c here state
      simp only [shaken]
      cases application with
      | some service =>
        refine ⟨rfl, confined_of connected (.inl rfl) (fun i other => sockets_setWs_ne other _) (.inl rfl) fun failed => ?_⟩
        simp only [Connection.fails, state, shaken, Bool.false_eq_true] at failed
      | none =>
        refine ⟨closeWs_mMayRun s id, confined_of connected (.inr ?_) (fun i other => sockets_closeWs_ne other)
          (.inr queued) fun _ => .inr queued⟩
        show (s.closeWs id).mConnections.erase fd = _
        rw [closeWs_mConnections]
    | closed => exact ⟨rfl, confined_deleteConnection s fd _⟩

theorem processIo_stops {fd : Nat} {io : Io} {c : Connection} {e : String} (here : s.served fd = some c)
    (state : c.ws.mState = .handshake) (shaken : io.shaken = .error e) :
    (s.processIo behind tls fd io).mMayRun = false := by
  obtain ⟨id, connected, found⟩ := Option.bind_eq_some_iff.mp here
  simp only [processIo, connected, found, state, shaken]

theorem step_mMayRun {a : Action} (h : s.step behind tls mMaxConnections a = some s')
    (other : ∀ fd io, a ≠ .processIo fd io) : s'.mMayRun = s.mMayRun := by
  cases stepped h with
  | @processIo fd io => exact absurd rfl (other fd io)
  | inbound queue =>
    unfold addNewConnection
    dsimp only
    split
    · split <;> rfl
    · exact closeWs_mMayRun ..
  | serve found =>
    unfold System.serve
    split
    · dsimp only
      split
      · split
        · exact closeWs_mMayRun ..
        · rfl
      · rfl
    · rfl
  | close _ _ => exact closeWs_mMayRun ..
  | accept _ | next _ | drain _ | dropInbound _ | epollError | destroy _ _ => rfl

theorem shaken_ok_iff (digest : List UInt8 → List UInt8) (shl32 : Word) (arrival : Arrival) :
    (∃ application, (arrival.io toupper digest shl32).shaken = .ok application) ↔ Answerable toupper arrival.peer := by
  have result : (arrival.io toupper digest shl32).shaken =
      (arrival.shakespeer.handshake toupper digest shl32 arrival.peer).map Answer.application := rfl
  rw [result, ← handshake_ok_iff toupper digest shl32 arrival.shakespeer]
  cases arrival.shakespeer.handshake toupper digest shl32 arrival.peer with
  | error e => simp [Except.map]
  | ok answer => simp [Except.map]

variable {toupper} {digest : List UInt8 → List UInt8} {shl32 : Word}

theorem stepEvent_other {a : Action} (h : s.stepEvent toupper digest shl32 behind tls mMaxConnections (.other a) = some s') :
    s.step behind tls mMaxConnections a = some s' ∧ ∀ fd io, a ≠ .processIo fd io := by
  cases a <;> first | cases h | exact ⟨h, fun _ _ => by simp⟩

theorem Sound.stepEvent {e : Event} (sound : Sound s)
    (h : s.stepEvent toupper digest shl32 behind tls mMaxConnections e = some s') : Sound s' := by
  cases e with
  | arrive fd arrival =>
    have taken : s.step behind tls mMaxConnections (.processIo fd (arrival.io toupper digest shl32)) = some s' := h
    exact Sound.step sound taken
  | other a => exact Sound.step sound (stepEvent_other h).1

theorem step_survives {e : Event} (sound : Sound s) (running : s.mMayRun = true)
    (h : s.stepEvent toupper digest shl32 behind tls mMaxConnections e = some s') :
    Survives toupper digest shl32 behind tls s e s' ↔ Serviceable toupper s e := by
  cases e with
  | arrive fd arrival =>
    have taken : s.step behind tls mMaxConnections (.processIo fd (arrival.io toupper digest shl32)) = some s' := h
    cases stepped taken
    constructor
    · rintro ⟨goesOn, _⟩ c here state
      by_contra unanswerable
      rw [← shaken_ok_iff toupper digest shl32] at unanswerable
      cases shaken : (arrival.io toupper digest shl32).shaken with
      | ok application => exact unanswerable ⟨application, shaken⟩
      | error e =>
        rw [processIo_stops here state shaken] at goesOn
        cases goesOn
    · intro serviceable
      obtain ⟨mMayRun, confined⟩ := @processIo_confined behind tls s sound fd (arrival.io toupper digest shl32)
        fun c here state => (shaken_ok_iff toupper digest shl32 arrival).mpr (serviceable c here state)
      exact ⟨mMayRun.trans running, confined⟩
  | other a =>
    obtain ⟨taken, other⟩ := stepEvent_other h
    refine iff_of_true ⟨(step_mMayRun taken other).trans running, ?_⟩ trivial
    cases a with
    | epollError fd =>
      cases stepped taken
      exact confined_deleteConnection s fd true
    | _ => trivial

/-- From every state with any connections, in every run. -/
theorem worker_goes_on_iff (s : System) (sound : Sound s) (running : s.mMayRun = true) (events : List Event) :
    Steps (stepEvent toupper digest shl32 behind tls mMaxConnections) (Survives toupper digest shl32 behind tls) s events ↔
      Keeps (stepEvent toupper digest shl32 behind tls mMaxConnections) (Serviceable toupper) s events := by
  refine steps_iff_keeps (I := fun s => Sound s ∧ s.mMayRun = true) ⟨sound, running⟩ ?_ ?_
  · rintro s e s' ⟨sound, _⟩ taken survives
    exact ⟨sound.stepEvent taken, survives.1⟩
  · rintro s e s' ⟨sound, running⟩ taken
    exact step_survives sound running taken

def arrivalOf (bytes : { bytes : List UInt8 // bytes.length ≤ 1024 }) (registry : ServiceRegistry) : Arrival where
  busy := false
  reads := []
  accepted := none
  shakespeer := .unused
  peer :=
    { received := some bytes
      sent := 1
      peerip := none
      registry := registry
      config := .null
      acl := fun _ => .new .allow }

theorem answerable_arrivalOf (bytes : { bytes : List UInt8 // bytes.length ≤ 1024 }) {target : String}
    (h : (requestOf toupper bytes.1 bytes.2).map (text ·.requestTarget) = some target) (registry : ServiceRegistry) :
    Answerable toupper (arrivalOf bytes registry).peer ↔ ∃ app, Registered registry target app := by
  obtain ⟨request, accepted, rfl⟩ := Option.map_eq_some_iff.mp h
  constructor
  · intro answerable
    obtain ⟨app, registered, _⟩ := answerable bytes request rfl accepted
    exact ⟨app, registered⟩
  · rintro ⟨app, registered⟩ bytes' request' received accepted'
    obtain rfl : bytes = bytes' := Option.some.inj received
    obtain rfl := Option.some.inj (accepted.symm.trans accepted')
    refine ⟨app, registered, ⟨.null, .null, rfl, rfl, ?_, ?_⟩⟩
    · intro v found
      cases found
    · intro v found
      cases found

def twoPeers : List Event :=
  [.other (.accept 5), .other .next, .other .inbound, .other (.accept 6), .other .inbound, .other .next]

theorem keeps_of_answerable {events : List Event}
    (h : ∀ fd arrival, .arrive fd arrival ∈ events → Answerable toupper arrival.peer) :
    Keeps (stepEvent toupper digest shl32 behind tls mMaxConnections) (Serviceable toupper) s events := by
  induction events generalizing s with
  | nil => trivial
  | cons e events ih =>
    intro s' _
    refine ⟨?_, ih fun fd arrival mem => h fd arrival (List.mem_cons_of_mem e mem)⟩
    cases e with
    | arrive fd arrival => exact fun _ _ _ => h fd arrival List.mem_cons_self
    | other a => trivial

theorem worker_goes_on_with_echo :
    Steps (stepEvent ClientWebSocket.capitals id 0 (fun _ _ => 0) false 10) (Survives ClientWebSocket.capitals id 0 (fun _ _ => 0) false) start
      (twoPeers ++ [.arrive 5 (arrivalOf asksForEcho (ServiceRegistry.new.reg ⟨1, "echo", some "/echo", 1024⟩))]) := by
  refine (worker_goes_on_iff start sound_start rfl _).mpr (keeps_of_answerable ?_)
  intro fd arrival mem
  simp only [twoPeers, List.cons_append, List.nil_append, List.mem_cons, reduceCtorEq, false_or, List.not_mem_nil,
    or_false, Event.arrive.injEq] at mem
  obtain ⟨rfl, rfl⟩ := mem
  apply (answerable_arrivalOf asksForEcho requestOf_echo _).mpr
  exact ⟨_, "echo", _, rfl, rfl, rfl⟩

/-- Without a service for `/echo` the worker stops, and the peer stays. -/
theorem worker_goes_on_counterexample :
    ∃ s s', twoPeers.foldlM (stepEvent ClientWebSocket.capitals id 0 (fun _ _ => 0) false 10) start = some s ∧
      s.stepEvent ClientWebSocket.capitals id 0 (fun _ _ => 0) false 10 (.arrive 5 (arrivalOf asksForEcho .new)) = some s' ∧
      s'.mMayRun = false ∧ s'.mConnections.lookup 5 = some 0 := by
  obtain ⟨s, hs, running, phase, c, here, state, connected⟩ : ∃ s,
      twoPeers.foldlM (stepEvent ClientWebSocket.capitals id 0 (fun _ _ => 0) false 10) start = some s ∧ s.mMayRun = true ∧ s.phase = .poll ∧
        ∃ c, s.served 5 = some c ∧ c.ws.mState = .handshake ∧ s.mConnections.lookup 5 = some 0 :=
    ⟨_, rfl, rfl, rfl, _, rfl, rfl, rfl⟩
  have unanswerable : ¬Answerable ClientWebSocket.capitals (arrivalOf asksForEcho .new).peer := by
    rw [answerable_arrivalOf asksForEcho requestOf_echo]
    rintro ⟨app, name, holder, named, _⟩
    cases named
  cases shaken : ((arrivalOf asksForEcho .new).io ClientWebSocket.capitals id 0).shaken with
  | ok application => exact absurd ((shaken_ok_iff ClientWebSocket.capitals id 0 _).mp ⟨application, shaken⟩) unanswerable
  | error e =>
    refine ⟨s, _, hs, if_pos ⟨running, phase⟩, processIo_stops here state shaken, ?_⟩
    obtain ⟨id, held, found⟩ := Option.bind_eq_some_iff.mp here
    simp only [processIo, held, found, state, shaken]
    exact held.symm.trans connected

end System
end LAppS.IOWorker

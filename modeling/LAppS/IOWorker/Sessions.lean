import LAppS.IOWorker.System

/-!
# The end of a session

A service learns of the end of a session from its CLOSE event. A socket that is removed without one is destroyed
without a call of `onDisconnect`, because its destructor cannot enqueue the event any more.
-/

namespace LAppS.WebSocket.Socket
open Rfc6455 StreamProcessing

def closes (events : List AppInEvent) : Nat := events.countP (·.opcode == .close)

theorem counted_phases : Phases (fun ws => ws.mNoInput = false ∧ closes ws.events = 0)
    (fun ws => ws.mNoInput = true ∧ closes ws.events = 1) where
  enqueue := by
    rintro ws op message ⟨input, none⟩ other
    refine ⟨input, ?_⟩
    rw [enqueue, closes, List.countP_append, ← closes, none]
    simp [other]
  closeSocket := by
    rintro ws ccode ⟨-, none⟩
    refine ⟨rfl, ?_⟩
    show closes (ws.events ++ [_]) = 1
    rw [closes, List.countP_append, ← closes, none]
    rfl
  parsed := fun _ h => h
  parsed_last := fun _ h => h

/-- The flag says whether the CLOSE has been enqueued. -/
theorem handleInput_closes {behind : List UInt8 → Nat → UInt8} {tls : Bool} {ws : Socket} (quiet : ws.events = [])
    (busy : Bool) (reads : List (Option (List UInt8))) :
    closes (ws.handleInput behind tls busy reads).1.events + ws.mNoInput.toNat =
      (ws.handleInput behind tls busy reads).1.mNoInput.toNat := by
  have none : closes ws.events = 0 := by rw [quiet]; rfl
  cases input : ws.mNoInput with
  | true => rw [handleInput_noInput input, none, input]; rfl
  | false =>
    have outcome : ((ws.handleInput behind tls busy reads).1.mNoInput = false ∧ _) ∨ _ :=
      counted_phases.handleInput ⟨input, none⟩ busy reads
    rcases outcome with ⟨still, none⟩ | ⟨ended, one⟩
    · rw [still, none]; rfl
    · rw [ended, one]; rfl

end LAppS.WebSocket.Socket

namespace LAppS.IOWorker
open WebSocket Transition

namespace System

/-- Every socket that was in `MESSAGING` and is destroyed has been reported once. -/
def Reported (s : System) : Prop :=
  ∀ id c, s.sockets id = some c → c.live = false → c.ws.mApplication.isSome = true → s.disconnects.count id = 1

/-- A socket that was in `MESSAGING` is destroyed after its CLOSE event has been enqueued. -/
def ClosedBefore (s : System) : Action → Prop
  | .destroy id => ∀ c, s.sockets id = some c → c.ws.mApplication.isSome = true → c.ws.mNoInput = true
  | _ => True

/-- The flag of a socket and the events that it has not passed on. -/
def inputs (s : System) (id : Nat) : Option (Bool × List AppInEvent) :=
  (s.sockets id).map fun c => (c.ws.mNoInput, c.ws.events)

/-- The CLOSE events of a socket that no service has taken yet. -/
def pending (s : System) (id : Nat) : Nat := s.mEvents.countP fun x => x.1 == id && x.2.opcode == .close

def noInput (s : System) (id : Nat) : Bool := (s.inputs id).any (·.1)

/-- A CLOSE event either waits or has been reported. -/
structure Counted (s : System) : Prop where
  quiet : ∀ {id flag events}, s.inputs id = some (flag, events) → events = []
  count : ∀ id, s.pending id + s.disconnects.count id = (s.noInput id).toNat

variable {behind : List UInt8 → Nat → UInt8} {tls : Bool} {mMaxConnections : Nat} {s s' : System}

theorem Counted.of_inputs (counted : Counted s) (inputs : s'.inputs = s.inputs) (mEvents : s'.mEvents = s.mEvents)
    (disconnects : s'.disconnects = s.disconnects) : Counted s' where
  quiet := fun h => counted.quiet (inputs ▸ h)
  count := fun id => by rw [pending, noInput, inputs, mEvents, disconnects]; exact counted.count id

theorem inputs_setWs {id : Nat} {c : Connection} (found : s.sockets id = some c) (ws : Socket) :
    (s.setWs id ws).inputs = Function.update s.inputs id (some (ws.mNoInput, ws.events)) := by
  funext i
  by_cases h : i = id
  · subst h
    simp [inputs, setWs, found]
  · simp [inputs, setWs, h]

theorem inputs_setWs_same {id : Nat} {c : Connection} (found : s.sockets id = some c) {ws : Socket}
    (flag : ws.mNoInput = c.ws.mNoInput) (events : ws.events = c.ws.events) : (s.setWs id ws).inputs = s.inputs := by
  have own : some (ws.mNoInput, ws.events) = s.inputs id := by rw [inputs, found, flag, events]; rfl
  rw [inputs_setWs found, own, Function.update_eq_self]

@[simp] theorem inputs_closeWs (s : System) (id : Nat) : (s.closeWs id).inputs = s.inputs := by
  unfold closeWs
  split
  next c found =>
    split
    · exact inputs_setWs_same found rfl rfl
    · rfl
  · rfl

@[simp] theorem closeWs_disconnects (s : System) (id : Nat) : (s.closeWs id).disconnects = s.disconnects := by
  unfold closeWs
  repeat' split
  all_goals rfl

theorem Counted.closeWs (counted : Counted s) (id : Nat) : Counted (s.closeWs id) :=
  counted.of_inputs (by simp) (by simp) (by simp)

theorem Counted.deleteConnection (counted : Counted s) (fd : Nat) : Counted (s.deleteConnection fd) :=
  counted.of_inputs rfl rfl rfl

/-- Of the events of one socket no other socket has any. -/
theorem pending_received (s : System) (id : Nat) (ws : Socket) (i : Nat) :
    (s.received id ws).pending i = s.pending i + if i = id then Socket.closes ws.events else 0 := by
  have own : (ws.events.map fun e => (id, e)).countP (fun x => x.1 == i && x.2.opcode == .close) =
      if i = id then Socket.closes ws.events else 0 := by
    rw [List.countP_map]
    split
    next same =>
      subst same
      simp [Socket.closes, Function.comp_def]
    next other => simp [Function.comp_def, Ne.symm other]
  rw [pending, received, List.countP_append, own]
  rfl

theorem Counted.received (counted : Counted s) {id : Nat} {c : Connection} (found : s.sockets id = some c)
    {ws : Socket} (closes : Socket.closes ws.events + c.ws.mNoInput.toNat = ws.mNoInput.toNat) :
    Counted (s.received id ws) := by
  have inputs_eq : (s.received id ws).inputs = Function.update s.inputs id (some (ws.mNoInput, [])) :=
    inputs_setWs found { ws with events := [] }
  constructor
  · intro i flag events h
    rw [inputs_eq] at h
    by_cases same : i = id
    · subst same
      rw [Function.update_self] at h
      cases h
      rfl
    · rw [Function.update_of_ne same] at h
      exact counted.quiet h
  · intro i
    have before := counted.count i
    rw [pending_received, noInput, inputs_eq]
    show s.pending i + _ + s.disconnects.count i = _
    by_cases same : i = id
    · subst same
      have own : s.noInput i = c.ws.mNoInput := by simp [noInput, inputs, found]
      rw [own] at before
      rw [Function.update_self, if_pos rfl]
      show _ = ws.mNoInput.toNat
      omega
    · rw [Function.update_of_ne same, if_neg same]
      exact before

theorem Counted.processIo (counted : Counted s) (fd : Nat) (io : Io) : Counted (s.processIo behind tls fd io) := by
  apply processIo_rule
  case idle => exact counted
  case received =>
    intro id c _ found
    have flags : s.inputs id = some (c.ws.mNoInput, c.ws.events) := by rw [inputs, found]; rfl
    exact counted.received found (Socket.handleInput_closes (counted.quiet flags) io.busy io.reads)
  case set =>
    intro id c ws _ found flag events
    exact counted.of_inputs (inputs_setWs_same found flag events) rfl rfl
  case closed =>
    intro id _
    exact counted.closeWs id
  case deleted =>
    intro s' counted'
    exact counted'.deleteConnection fd
  case stopped => exact counted.of_inputs rfl rfl rfl

theorem Counted.mkWebSocket (counted : Counted s) (sound : Sound s) (fd : Nat) : Counted (s.mkWebSocket tls fd) := by
  have fresh : s.inputs s.made = none := by
    have : s.shape s.made = none := sound.fresh le_rfl
    rw [shape, Option.map_eq_none_iff] at this
    rw [inputs, this]
    rfl
  have inputs_eq : (s.mkWebSocket tls fd).inputs = Function.update s.inputs s.made (some (false, [])) := by
    funext i
    by_cases h : i = s.made
    · subst h
      simp [inputs, System.mkWebSocket]
    · simp [inputs, System.mkWebSocket, h]
  constructor
  · intro i flag events h
    rw [inputs_eq] at h
    by_cases same : i = s.made
    · subst same
      rw [Function.update_self] at h
      cases h
      rfl
    · rw [Function.update_of_ne same] at h
      exact counted.quiet h
  · intro i
    have before := counted.count i
    rw [noInput, inputs_eq]
    show s.pending i + s.disconnects.count i = _
    by_cases same : i = s.made
    · subst same
      rw [Function.update_self, before, noInput, fresh]
      rfl
    · rw [Function.update_of_ne same]
      exact before

theorem Counted.addNewConnection (counted : Counted s) (sound : Sound s) (fd : Nat) :
    Counted (s.addNewConnection tls mMaxConnections fd) := by
  have made : Counted (s.mkWebSocket tls fd) := counted.mkWebSocket sound fd
  unfold System.addNewConnection
  dsimp only
  split
  · split
    · exact made.of_inputs rfl rfl rfl
    · exact made
  · exact made.closeWs _

theorem countP_eraseP {α : Type} {p q : α → Bool} {l : List α} {x : α} (found : l.find? p = some x) :
    l.countP q = (l.eraseP p).countP q + (q x).toNat := by
  induction l with
  | nil => cases found
  | cons y l ih =>
    rw [List.find?_cons] at found
    rw [List.eraseP_cons]
    cases hp : p y with
    | true =>
      rw [hp] at found
      cases found
      rw [List.countP_cons]
      cases q x <;> simp
    | false =>
      rw [hp] at found
      rw [List.countP_cons, ih found]
      simp only [cond_false, List.countP_cons]
      omega

theorem Counted.serve (counted : Counted s) {id : Nat} {e : AppInEvent}
    (found : s.mEvents.find? (·.1 == id) = some (id, e)) :
    Counted ({ s with mEvents := s.mEvents.eraseP (·.1 == id) }.serve id e) := by
  have taken (i : Nat) : s.pending i = (s.mEvents.eraseP (·.1 == id)).countP
      (fun x => x.1 == i && x.2.opcode == .close) + (id == i && e.opcode == .close).toNat := countP_eraseP found
  unfold System.serve
  split
  next isClose =>
    have said : Counted { s with mEvents := s.mEvents.eraseP (·.1 == id), disconnects := s.disconnects ++ [id] } := by
      refine ⟨counted.quiet, fun i => ?_⟩
      show (s.mEvents.eraseP (·.1 == id)).countP _ + (s.disconnects ++ [id]).count i = (s.noInput i).toNat
      rw [← counted.count i, taken i, List.count_append, List.count_singleton, isClose]
      by_cases same : id = i
      · simp [same]
        omega
      · simp [same]
    dsimp only
    split
    · split
      · exact said.closeWs id
      · exact said
    · exact said
  next other =>
    refine ⟨counted.quiet, fun i => ?_⟩
    show (s.mEvents.eraseP (·.1 == id)).countP _ + s.disconnects.count i = (s.noInput i).toNat
    rw [← counted.count i, taken i]
    simp [other]

theorem counted_start : Counted start where
  quiet := by simp [start, inputs]
  count := by simp [start, pending, noInput, inputs]

theorem Counted.step {a : Action} (counted : Counted s) (sound : Sound s)
    (h : s.step behind tls mMaxConnections a = some s') : Counted s' := by
  cases stepped h with
  | @inbound fd rest queue =>
    have tail : Counted { s with mInQueue := rest } := counted.of_inputs rfl rfl rfl
    exact tail.addNewConnection (sound.inbound queue).1 fd
  | processIo => exact counted.processIo _ _
  | serve found => exact counted.serve found
  | close _ _ => exact counted.closeWs _
  | @destroy id c found free =>
    refine counted.of_inputs ?_ rfl rfl
    funext i
    by_cases same : i = id
    · subst same
      simp [inputs, found]
    · simp [inputs, same]
  | accept _ | next _ | drain _ | dropInbound _ | epollError => exact counted.of_inputs rfl rfl rfl

/-! ### The sockets that are destroyed -/

def Announced (s : System) : Prop :=
  ∀ id c, s.sockets id = some c → c.live = false → c.ws.mApplication.isSome = true → c.ws.mNoInput = true

/-- No event of a destroyed socket waits. -/
theorem reported_iff (sound : Sound s) (counted : Counted s) : Reported s ↔ Announced s := by
  refine forall_congr' fun id => forall_congr' fun c => imp_congr_right fun found => imp_congr_right fun dead =>
    imp_congr_right fun _ => ?_
  have none : s.pending id = 0 := by
    rw [pending, List.countP_eq_zero]
    rintro ⟨i, e⟩ entry same
    obtain ⟨fd, live⟩ := sound.queued entry
    simp only [Bool.and_eq_true, beq_iff_eq] at same
    rw [same.1, shape, found, Option.map_some, dead] at live
    cases live
  have flag : s.noInput id = c.ws.mNoInput := by simp [noInput, inputs, found]
  have count := counted.count id
  rw [none, flag, Nat.zero_add] at count
  rw [count]
  cases c.ws.mNoInput <;> simp

theorem setWs_dead {id fd i : Nat} {ws : Socket} {c : Connection} (live : s.shape id = some (fd, true))
    (found : (s.setWs id ws).sockets i = some c) (dead : c.live = false) : s.sockets i = some c := by
  by_cases same : i = id
  · subst same
    obtain ⟨c', found', hc'⟩ := Option.map_eq_some_iff.mp live
    simp only [setWs, Function.update_self, found', Option.map_some, Option.some.injEq] at found
    rw [← found] at dead
    exact absurd (congrArg Prod.snd hc') (by simpa using dead)
  · simpa [setWs, same] using found

theorem closeWs_dead {id fd i : Nat} {c : Connection} (live : s.shape id = some (fd, true))
    (found : (s.closeWs id).sockets i = some c) (dead : c.live = false) : s.sockets i = some c := by
  unfold closeWs at found
  split at found
  · split at found
    · exact setWs_dead live found dead
    · exact found
  · exact found

theorem processIo_dead {fd i : Nat} {io : Io} {c : Connection} (sound : Sound s)
    (found : (s.processIo behind tls fd io).sockets i = some c) (dead : c.live = false) : s.sockets i = some c := by
  revert found
  apply processIo_rule (P := fun s' => s'.sockets i = some c → s.sockets i = some c)
  case received =>
    intro id _ connected _ found
    exact setWs_dead (sound.held connected) found dead
  case set =>
    intro id _ ws connected _ _ _ found
    exact setWs_dead (sound.held connected) found dead
  case closed =>
    intro id connected found
    exact closeWs_dead (sound.held connected) found dead
  case deleted =>
    intro s' before found
    exact before found
  case idle | stopped => exact id

theorem mkWebSocket_dead {fd i : Nat} {c : Connection} (found : (s.mkWebSocket tls fd).sockets i = some c)
    (dead : c.live = false) : s.sockets i = some c := by
  by_cases same : i = s.made
  · subst same
    simp only [mkWebSocket, Function.update_self, Option.some.injEq] at found
    rw [← found] at dead
    cases dead
  · simpa [mkWebSocket, same] using found

theorem addNewConnection_dead {fd i : Nat} {c : Connection}
    (found : (s.addNewConnection tls mMaxConnections fd).sockets i = some c) (dead : c.live = false) :
    s.sockets i = some c := by
  unfold addNewConnection at found
  dsimp only at found
  split at found
  · split at found <;> exact mkWebSocket_dead found dead
  · have live : (s.mkWebSocket tls fd).shape s.made = some (fd, true) := by
      rw [shape_mkWebSocket, Function.update_self]
    exact mkWebSocket_dead (closeWs_dead live found dead) dead

theorem serve_dead {id fd i : Nat} {e : AppInEvent} {c : Connection} (live : s.shape id = some (fd, true))
    (found : (s.serve id e).sockets i = some c) (dead : c.live = false) : s.sockets i = some c := by
  unfold serve at found
  split at found
  · dsimp only at found
    split at found
    · split at found
      · exact closeWs_dead (s := { s with disconnects := s.disconnects ++ [id] }) live found dead
      · exact found
    · exact found
  · exact found

/-- A destroyed socket stays as it is, and only `destroy` makes one. -/
theorem step_dead {a : Action} {i : Nat} {c : Connection} (sound : Sound s)
    (h : s.step behind tls mMaxConnections a = some s') (found : s'.sockets i = some c) (dead : c.live = false) :
    s.sockets i = some c ∨ a = .destroy i ∧ ∃ c₀, s.sockets i = some c₀ ∧
      c.ws.mNoInput = c₀.ws.mNoInput ∧ c.ws.mApplication = c₀.ws.mApplication := by
  cases stepped h with
  | @inbound fd rest queue => exact .inl (addNewConnection_dead (s := { s with mInQueue := rest }) found dead)
  | processIo => exact .inl (processIo_dead sound found dead)
  | @serve id e taken =>
    obtain ⟨fd, live⟩ := sound.queued (List.mem_of_find?_eq_some taken)
    exact .inl (serve_dead (s := { s with mEvents := s.mEvents.eraseP (·.1 == id) }) live found dead)
  | close found₀ live => exact .inl (closeWs_dead (shape_of_live found₀ live) found dead)
  | @destroy id c₀ found₀ free =>
    by_cases same : i = id
    · subst same
      simp only [Function.update_self, Option.some.injEq] at found
      rw [← found]
      exact .inr ⟨rfl, c₀, found₀, rfl, rfl⟩
    · exact .inl (by simpa [same] using found)
  | accept _ | next _ | drain _ | dropInbound _ | epollError => exact .inl found

theorem step_announced {a : Action} (sound : Sound s) (announced : Announced s)
    (h : s.step behind tls mMaxConnections a = some s') : Announced s' ↔ ClosedBefore s a := by
  constructor
  · intro announced'
    cases a with
    | destroy id =>
      intro c found application
      simp only [System.step, found] at h
      split at h <;> cases h
      let destroyed : Connection := { c with ws := { c.ws with mState := .closed }, live := false }
      exact announced' id destroyed (Function.update_self ..) rfl application
    | _ => trivial
  · intro closed i c found dead application
    rcases step_dead sound h found dead with found | ⟨rfl, c₀, found₀, flag, same⟩
    · exact announced i c found dead application
    · rw [flag]
      exact closed c₀ found₀ (same ▸ application)

/-- Every session end is reported exactly once, exactly when no socket that was in `MESSAGING` is destroyed before its
CLOSE event has been enqueued. -/
theorem reported_iff_closed_before (behind : List UInt8 → Nat → UInt8) (tls : Bool) (mMaxConnections : Nat)
    (actions : List Action) :
    Always (step behind tls mMaxConnections) Reported start actions ↔
      Keeps (step behind tls mMaxConnections) ClosedBefore start actions := by
  refine always_iff_keeps_of_invariant (I := fun s => Sound s ∧ Counted s) ⟨sound_start, counted_start⟩ ?_ ?_ ?_
  · rintro s a s' ⟨sound, counted⟩ h
    exact ⟨sound.step h, counted.step sound h⟩
  · intro id c found
    cases found
  · rintro s a s' ⟨sound, counted⟩ reported h
    rw [reported_iff (sound.step h) (counted.step sound h)]
    exact step_announced sound ((reported_iff sound counted).mp reported) h

def brokenOff : List Action :=
  [.accept 5, .next, .inbound, .next, .processIo 5 { shaken := .ok (some ⟨1, "echo", some "/echo", 1024⟩) },
    .epollError 5, .destroy 0]

theorem reported_counterexample :
    (∃ s, brokenOff.foldlM (step (fun _ _ => 0) false 100) start = some s ∧ s.shape 0 = some (5, false) ∧
      (s.sockets 0).any (·.ws.mApplication.isSome) = true ∧ s.disconnects = []) ∧
    ¬Always (step (fun _ _ => 0) false 100) Reported start brokenOff := by
  have ended : (brokenOff.foldlM (step (fun _ _ => 0) false 100) start).any (fun s => s.shape 0 = some (5, false) ∧
      (s.sockets 0).any (·.ws.mApplication.isSome) = true ∧ s.disconnects = []) = true := by decide +kernel
  simp only [Option.any_eq_true, decide_eq_true_iff] at ended
  refine ⟨?_, fun always => ?_⟩
  · simpa only [Option.any_eq_true] using ended
  obtain ⟨s, run, hshape, ⟨c, found, application⟩, none⟩ := ended
  obtain ⟨c', found', hc'⟩ := Option.map_eq_some_iff.mp hshape
  rw [found, Option.some.injEq] at found'
  subst found'
  have once := always.last run 0 c found (congrArg Prod.snd hc') application
  rw [none] at once
  cases once

end System
end LAppS.IOWorker

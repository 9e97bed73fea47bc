import LAppS.IOWorker.Serving

/-!
# The descriptors that a worker watches

A descriptor is watched with `EPOLLONESHOT`: once an event of it is reported, it is watched again only when the worker says
so. The worker forgets a connection exactly when `handleInput` reads the end of its stream: `recv` returns zero there, which
is not an error.
-/

namespace LAppS.WebSocket.Socket

/-- `handleInput` has the descriptor watched again. -/
def rearms (ws : Socket) (busy : Bool) (reads : List (Option (List UInt8))) : Bool :=
  busy || ws.mNoInput || match reads with
    | some (_ :: _) :: _ => true
    | _ => false

/-- The first `recv` of `handleInput` returns zero. -/
def endsInput (ws : Socket) (busy : Bool) (reads : List (Option (List UInt8))) : Bool :=
  !busy && !ws.mNoInput && match reads with
    | some [] :: _ => true
    | _ => false

theorem rearms_of_handleInput {behind : List UInt8 → Nat → UInt8} {tls busy : Bool} {ws : Socket}
    {reads : List (Option (List UInt8))} {ret : Int} (h : (ws.handleInput behind tls busy reads).2 = .ok ret) (goesOn : ret ≠ -1) :
    ws.rearms busy reads = !ws.endsInput busy reads := by
  unfold handleInput at h
  split at h
  · exact absurd (Except.ok.inj h).symm goesOn
  unfold rearms endsInput
  cases busy with
  | true => simp
  | false =>
    cases noInput : ws.mNoInput with
    | true => simp
    | false =>
      rw [if_neg (by simp), noInput, if_neg (by simp)] at h
      match reads with
      | [] | none :: _ => exact absurd (Except.ok.inj h).symm goesOn
      | some [] :: _ | some (_ :: _) :: _ => simp

end LAppS.WebSocket.Socket

namespace LAppS.IOWorker
open WebSocket Transition

namespace System

/-- `processIO` has the descriptor watched again: `handleInput`, `accept` when it wants to read more or is done, and
`setApplication` at the end of the handshake. -/
def rearms (s : System) (fd : Nat) (io : Io) : Bool :=
  match s.served fd with
  | none => false
  | some c =>
    match c.ws.mState with
    | .messaging => c.ws.rearms io.busy io.reads
    | .accept => io.accepted.all id
    | .handshake =>
      match io.shaken with
      | .ok service => service.isSome
      | .error _ => false
    | .closed => false

def endsInput (s : System) (fd : Nat) (io : Io) : Bool :=
  (s.served fd).any fun c => c.ws.mState == .messaging && c.ws.endsInput io.busy io.reads

end System

/-- The worker with its `ePoll`. -/
structure Watch where
  system : System
  /-- The descriptors that `epoll_wait` reports events of. -/
  armed : Nat → Bool
  /-- The events of the last `poll` that the worker has not come to. -/
  reported : List Nat
  haveConnections : Bool
  /-- The sockets of which `handleInput` has read the end of the stream. -/
  ended : Nat → Bool

namespace Watch

inductive Action where
  | poll (fds : List Nat)
  | act (a : IOWorker.Action)

def start : Watch := ⟨System.start, fun _ => false, [], false, fun _ => false⟩

def isEmpty (w : Watch) : Bool := w.system.mConnections.entries.isEmpty

def arm (w : Watch) (fd : Nat) (watched : Bool) : Watch := { w with armed := Function.update w.armed fd watched }

/-- The end of `deleteConnection`. -/
def deleted (w : Watch) (fd : Nat) : Watch :=
  { w.arm fd false with haveConnections := if w.isEmpty then false else w.haveConnections }

def processed (w : Watch) (s : System) (fd : Nat) (io : Io) : Watch :=
  let w' := { w.arm fd (w.system.rearms fd io) with
    system := s
    ended := fun id => w.ended id || (w.system.mConnections.lookup fd == some id && w.system.endsInput fd io) }
  if (w.system.mConnections.lookup fd).isSome && (s.mConnections.lookup fd).isNone then w'.deleted fd else w'

/-- What a step of the system does to the descriptors that are watched. -/
def after (w : Watch) (s : System) : IOWorker.Action → Option Watch
  | .next => if w.reported.isEmpty then some { w with system := s } else none
  | .drain => w.system.mDCQueue.head?.map fun entry => { w with system := s }.deleted entry.1
  | .inbound => w.system.mInQueue.head?.map fun fd =>
      let w' := { w.arm fd true with system := s }
      { w' with haveConnections := !w'.isEmpty }
  | .epollError fd =>
    match w.reported with
    | first :: rest => if first = fd then some ({ w with system := s, reported := rest }.deleted fd) else none
    | [] => none
  | .processIo fd io =>
    match w.reported with
    | first :: rest => if first = fd then some ({ w with reported := rest }.processed s fd io) else none
    | [] => none
  | .destroy id => (w.system.sockets id).map fun c => { w.arm c.fd false with system := s }
  | .accept _ | .dropInbound | .serve _ | .close _ => some { w with system := s }

variable (behind : List UInt8 → Nat → UInt8) (tls : Bool) (mMaxConnections : Nat)

def step (w : Watch) : Action → Option Watch
  | .poll fds =>
    if w.system.mMayRun ∧ w.system.phase = .poll ∧ w.haveConnections ∧ w.reported = [] ∧ fds.Nodup ∧ ∀ fd ∈ fds, w.armed fd then
      some { w with armed := fun fd => w.armed fd && !fds.contains fd, reported := fds }
    else none
  | .act a => (w.system.step behind tls mMaxConnections a).bind fun s => w.after s a

end Watch

namespace System

variable {behind : List UInt8 → Nat → UInt8} {tls : Bool} {mMaxConnections : Nat} {s s' : System}

/-- A connection of the worker whose socket is not closed. -/
def Held (s : System) (fd id : Nat) : Prop :=
  s.mConnections.lookup fd = some id ∧ ∃ c, s.sockets id = some c ∧ c.ws.mState ≠ .closed

theorem Held.of_eq {fd id : Nat} (held : Held s' fd id) (lookup : s'.mConnections.lookup fd = s.mConnections.lookup fd)
    (sockets : s'.sockets id = s.sockets id) : Held s fd id := by
  obtain ⟨at_, c, found, isOpen⟩ := held
  exact ⟨lookup ▸ at_, c, sockets ▸ found, isOpen⟩

theorem Held.deleteConnection {fd fd₀ id : Nat} (held : Held (s.deleteConnection fd₀) fd id) : fd ≠ fd₀ ∧ Held s fd id := by
  obtain ⟨at_, found⟩ := held
  obtain ⟨other, before⟩ := lookup_erase_some at_
  exact ⟨other, before, found⟩

theorem closeWs_closed {id : Nat} {c : Connection} (found : (s.closeWs id).sockets id = some c) : c.ws.mState = .closed := by
  unfold closeWs at found
  cases before : s.sockets id with
  | none => simp [before] at found
  | some c₀ =>
    simp only [before] at found
    split at found
    · obtain rfl : _ = c := by simpa [setWs, before] using found
      rfl
    next closed =>
      obtain rfl : c₀ = c := Option.some.inj (before.symm.trans found)
      exact not_not.mp closed

theorem Held.closeWs {fd id id₀ : Nat} (held : Held (s.closeWs id₀) fd id) : id ≠ id₀ ∧ Held s fd id := by
  obtain ⟨at_, c, found, isOpen⟩ := held
  rw [closeWs_mConnections] at at_
  have other : id ≠ id₀ := by
    intro same
    subst same
    exact isOpen (closeWs_closed found)
  exact ⟨other, at_, c, by rwa [sockets_closeWs_ne other] at found, isOpen⟩

theorem length_erase_le (m : AList fun _ : Nat => Nat) (fd : Nat) : (m.erase fd).entries.length ≤ m.entries.length :=
  (List.kerase_sublist fd m.entries).length_le

/-- The connections of other descriptors stay as they are. -/
structure Beside (fd : Nat) (s s' : System) : Prop where
  lookup : ∀ fd', fd' ≠ fd → s'.mConnections.lookup fd' = s.mConnections.lookup fd'
  sockets : ∀ id, s.mConnections.lookup fd ≠ some id → s'.sockets id = s.sockets id
  shorter : s'.mConnections.entries.length ≤ s.mConnections.entries.length
  made : s'.made = s.made

theorem Beside.refl (s : System) (fd : Nat) : Beside fd s s := ⟨fun _ _ => rfl, fun _ _ => rfl, Nat.le_refl _, rfl⟩

theorem Beside.deleteConnection {fd : Nat} (beside : Beside fd s s') : Beside fd s (s'.deleteConnection fd) where
  lookup fd' other := (AList.lookup_erase_ne other).trans (beside.lookup fd' other)
  sockets := beside.sockets
  shorter := Nat.le_trans (length_erase_le s'.mConnections fd) beside.shorter
  made := beside.made

theorem Beside.setWs {fd id : Nat} (connected : s.mConnections.lookup fd = some id) (ws : Socket) : Beside fd s (s.setWs id ws) where
  lookup _ _ := rfl
  sockets i other := by
    have ne : i ≠ id := fun same => other (same ▸ connected)
    exact sockets_setWs_ne ne ws
  shorter := Nat.le_refl _
  made := rfl

theorem beside_processIo (s : System) (fd : Nat) (io : Io) : Beside fd s (s.processIo behind tls fd io) := by
  apply processIo_rule
  case idle => exact Beside.refl s fd
  case stopped => exact ⟨fun _ _ => rfl, fun _ _ => rfl, Nat.le_refl _, rfl⟩
  case received =>
    intro id c connected _
    obtain ⟨lookup, sockets, shorter, made⟩ := Beside.setWs connected _
    exact ⟨lookup, sockets, shorter, made⟩
  case set =>
    intro id c ws connected _ _ _
    exact Beside.setWs connected ws
  case closed =>
    intro id connected
    refine ⟨fun _ _ => by rw [closeWs_mConnections], fun i other => ?_, by rw [closeWs_mConnections], closeWs_made s id⟩
    have ne : i ≠ id := fun same => other (same ▸ connected)
    exact sockets_closeWs_ne ne
  case deleted => exact fun s' beside => beside.deleteConnection

theorem entries_of_lookup {m : AList fun _ : Nat => Nat} {fd id : Nat} (at_ : m.lookup fd = some id) : 0 < m.entries.length :=
  List.length_pos_of_mem (AList.mem_lookup_iff.mp at_)

theorem processIo_isEmpty {fd : Nat} {io : Io}
    (kept : ¬((s.mConnections.lookup fd).isSome && ((s.processIo behind tls fd io).mConnections.lookup fd).isNone) = true) :
    (s.processIo behind tls fd io).mConnections.entries.isEmpty = s.mConnections.entries.isEmpty := by
  cases before : s.mConnections.lookup fd with
  | none => rw [processIo, before]
  | some id =>
    cases after : (s.processIo behind tls fd io).mConnections.lookup fd with
    | none => simp [before, after] at kept
    | some id' =>
      have filled := List.length_pos_iff.mp (entries_of_lookup before)
      have filled' := List.length_pos_iff.mp (entries_of_lookup after)
      rw [List.isEmpty_eq_false_iff.mpr filled, List.isEmpty_eq_false_iff.mpr filled']

/-- A connection that `processIO` keeps is watched again, or has come to the end of its stream. -/
theorem processIo_here {fd id : Nat} {io : Io} (held : Held (s.processIo behind tls fd io) fd id)
    (runs : (s.processIo behind tls fd io).mMayRun = true) : Held s fd id ∧ s.rearms fd io = !s.endsInput fd io := by
  have gone (t : System) : ¬Held (t.deleteConnection fd) fd id := fun held => held.deleteConnection.1 rfl
  unfold processIo at held runs
  cases connected : s.mConnections.lookup fd with
  | none =>
    rw [connected] at held
    exact absurd held.1 (by simp [connected])
  | some i =>
    cases found : s.sockets i with
    | none =>
      simp only [connected, found] at held
      obtain ⟨at_, c, other, _⟩ := held
      obtain rfl : i = id := Option.some.inj (connected.symm.trans at_)
      simp [found] at other
    | some c =>
      have served : s.served fd = some c := by simp [served, connected, found]
      simp only [connected, found] at held runs
      have mine (t : System) (same : t.mConnections = s.mConnections) (held : Held t fd id) : id = i := by
        have at_ := held.1
        rw [same, connected] at at_
        exact (Option.some.inj at_).symm
      have stays (isOpen : c.ws.mState ≠ .closed) (same : id = i) : Held s fd id := by
        subst same
        exact ⟨connected, c, found, isOpen⟩
      unfold System.rearms System.endsInput
      rw [served]
      cases state : c.ws.mState with simp only [state] at held runs
      | messaging =>
        cases ret : (c.ws.handleInput behind tls io.busy io.reads).2 with
        | error e =>
          simp only [ret] at held
          exact absurd held (gone _)
        | ok ret' =>
          simp only [ret] at held
          split at held
          · exact absurd held (gone _)
          next goesOn =>
            refine ⟨stays (by simp [state]) (mine (s.received i _) rfl held), ?_⟩
            simpa [state] using Socket.rearms_of_handleInput ret goesOn
      | accept =>
        cases accepted : io.accepted with simp only [accepted] at held runs
        | none => exact ⟨stays (by simp [state]) (mine s rfl held), by simp [state]⟩
        | some done =>
          cases done with
          | true => exact ⟨stays (by simp [state]) (mine (s.setWs i _) rfl held), by simp [state]⟩
          | false =>
            obtain ⟨other, held⟩ := held.closeWs
            exact absurd (mine s rfl held) other
      | handshake =>
        cases shaken : io.shaken with simp only [shaken] at held runs
        | error e => simp at runs
        | ok service =>
          cases service with
          | none => exact absurd held (gone _)
          | some service => exact ⟨stays (by simp [state]) (mine (s.setWs i _) rfl held), by simp [state]⟩
      | closed => exact absurd held (gone _)

/-- A new connection is the last socket that was made. -/
theorem Held.addNewConnection {fd fd₀ id : Nat} (held : Held (s.addNewConnection tls mMaxConnections fd₀) fd id)
    (before : ∀ {fd id}, s.mConnections.lookup fd = some id → id < s.made) :
    (fd = fd₀ ∧ id = s.made) ∨ Held s fd id := by
  have old {t : System} (sockets : t.sockets = (s.mkWebSocket tls fd₀).sockets)
      (lookup : t.mConnections.lookup fd = s.mConnections.lookup fd) (held : Held t fd id) : Held s fd id := by
    have ne : id ≠ s.made := Nat.ne_of_lt (before (lookup ▸ held.1))
    exact held.of_eq lookup (by simp [sockets, mkWebSocket, ne])
  unfold System.addNewConnection at held
  dsimp only at held
  split at held
  · split at held
    · by_cases same : fd = fd₀
      · subst same
        have at_ := held.1
        rw [AList.lookup_insert] at at_
        exact .inl ⟨rfl, (Option.some.inj at_).symm⟩
      · have lookup : (s.mConnections.insert fd₀ s.made).lookup fd = s.mConnections.lookup fd := AList.lookup_insert_ne same
        exact .inr (old (t := { s.mkWebSocket tls fd₀ with mConnections := s.mConnections.insert fd₀ s.made }) rfl lookup held)
    · exact .inr (old rfl rfl held)
  · exact .inr (old rfl rfl held.closeWs.2)

theorem length_addNewConnection (fd : Nat) (limit : s.mConnections.entries.length ≤ mMaxConnections) :
    (s.addNewConnection tls mMaxConnections fd).mConnections.entries.length ≤ mMaxConnections := by
  unfold System.addNewConnection
  dsimp only
  split
  next room =>
    split
    next absent =>
      have missing : fd ∉ s.mConnections := AList.lookup_eq_none.mp absent
      change (s.mConnections.insert fd s.made).entries.length ≤ mMaxConnections
      rw [AList.entries_insert_of_notMem missing]
      exact room
    · exact limit
  · rw [closeWs_mConnections]
    exact limit

theorem Sound.lt_made (sound : Sound s) {fd id : Nat} (connected : s.mConnections.lookup fd = some id) : id < s.made := by
  by_contra outside
  have none := sound.fresh (Nat.le_of_not_lt outside)
  rw [sound.held connected] at none
  cases none

theorem Held.serve {fd id i : Nat} {e : AppInEvent} (held : Held (s.serve i e) fd id) : Held s fd id := by
  unfold System.serve at held
  split at held
  · dsimp only at held
    split at held
    · split at held
      · exact held.closeWs.2
      · exact held
    · exact held
  · exact held

theorem serve_mConnections (s : System) (i : Nat) (e : AppInEvent) : (s.serve i e).mConnections = s.mConnections := by
  unfold System.serve
  split
  · dsimp only
    split
    · split
      · rw [closeWs_mConnections]
      · rfl
    · rfl
  · rfl

theorem serve_made (s : System) (i : Nat) (e : AppInEvent) : (s.serve i e).made = s.made := by
  unfold System.serve
  split
  · dsimp only
    split
    · split
      · rw [closeWs_made]
      · rfl
    · rfl
  · rfl

theorem addNewConnection_made (s : System) (fd : Nat) : (s.addNewConnection tls mMaxConnections fd).made = s.made + 1 := by
  unfold System.addNewConnection
  dsimp only
  split
  · split <;> rfl
  · rw [closeWs_made]
    rfl

end System

namespace Watch

variable {behind : List UInt8 → Nat → UInt8} {tls : Bool} {mMaxConnections : Nat} {w w' : Watch} {s : System}

/-- Every open connection is watched, or its event is reported, until it has come to the end of its stream. -/
def Watched (w : Watch) : Prop :=
  w.system.mMayRun = true → ∀ fd id, w.system.Held fd id → (w.armed fd = true ∨ fd ∈ w.reported ↔ w.ended id = false)

structure Inv (mMaxConnections : Nat) (w : Watch) : Prop where
  sound : w.system.Sound
  limit : w.system.mConnections.entries.length ≤ mMaxConnections
  polls : w.haveConnections = !w.isEmpty
  nodup : w.reported.Nodup
  fresh : ∀ id, w.system.made ≤ id → w.ended id = false
  watched : w.Watched

theorem Inv.start : Inv mMaxConnections start where
  sound := System.sound_start
  limit := Nat.zero_le _
  polls := rfl
  nodup := List.nodup_nil
  fresh _ _ := rfl
  watched _ _ _ held := by
    obtain ⟨at_, _⟩ := held
    cases at_

theorem Watched.of_frame (watched : w.Watched) (runs : w'.system.mMayRun = true → w.system.mMayRun = true)
    (frame : ∀ fd id, w'.system.Held fd id →
      w.system.Held fd id ∧ w'.armed fd = w.armed fd ∧ (fd ∈ w'.reported ↔ fd ∈ w.reported) ∧ w'.ended id = w.ended id) :
    w'.Watched := by
  intro running fd id held
  obtain ⟨before, armed, reported, ended⟩ := frame fd id held
  rw [armed, reported, ended]
  exact watched (runs running) fd id before

theorem polls_deleted {haveConnections : Bool} {before after : List (Sigma fun _ : Nat => Nat)}
    (polls : haveConnections = !before.isEmpty) (le : after.length ≤ before.length) :
    (if after.isEmpty then false else haveConnections) = !after.isEmpty := by
  cases after with
  | nil => rfl
  | cons entry after =>
    cases before with
    | nil => simp at le
    | cons first before => simpa using polls

/-- A step that works on one descriptor. -/
theorem Inv.of_beside (inv : Inv mMaxConnections w) {fd : Nat} (beside : System.Beside fd w.system w'.system)
    (sound : w'.system.Sound) (runs : w'.system.mMayRun = true → w.system.mMayRun = true) (polls : w'.haveConnections = !w'.isEmpty)
    (nodup : w'.reported.Nodup) (others : ∀ fd', fd' ≠ fd → w'.armed fd' = w.armed fd' ∧ (fd' ∈ w'.reported ↔ fd' ∈ w.reported))
    (ended : ∀ id, w.system.mConnections.lookup fd ≠ some id → w'.ended id = w.ended id)
    (here : w'.system.mMayRun = true → ∀ id, w'.system.Held fd id → (w'.armed fd = true ∨ fd ∈ w'.reported ↔ w'.ended id = false)) :
    Inv mMaxConnections w' := by
  refine ⟨sound, Nat.le_trans beside.shorter inv.limit, polls, nodup, fun id above => ?_, fun running fd' id held => ?_⟩
  · rw [beside.made] at above
    rw [ended id fun connected => absurd (inv.sound.lt_made connected) (Nat.not_lt.mpr above)]
    exact inv.fresh id above
  · by_cases same : fd' = fd
    · subst same
      exact here running id held
    · have connected : w.system.mConnections.lookup fd' = some id := (beside.lookup fd' same).symm.trans held.1
      have another : w.system.mConnections.lookup fd ≠ some id := fun at_ => by
        have shape := (inv.sound.held connected).symm.trans (inv.sound.held at_)
        exact same (Prod.mk.inj (Option.some.inj shape)).1
      obtain ⟨armed, reported⟩ := others fd' same
      rw [armed, reported, ended id another]
      exact inv.watched (runs running) fd' id (held.of_eq (beside.lookup fd' same) (beside.sockets id another))

/-- `deleteConnection`, whoever asks for it. -/
theorem Inv.deleted (inv : Inv mMaxConnections w) {fd : Nat} {rest : List Nat} (beside : System.Beside fd w.system s)
    (sound : (s.deleteConnection fd).Sound) (runs : s.mMayRun = w.system.mMayRun) (nodup : rest.Nodup)
    (others : ∀ fd', fd' ≠ fd → (fd' ∈ rest ↔ fd' ∈ w.reported)) :
    Inv mMaxConnections ({ w with system := s.deleteConnection fd, reported := rest }.deleted fd) := by
  have beside' := beside.deleteConnection
  refine inv.of_beside beside' sound (fun running => runs ▸ running) (polls_deleted inv.polls beside'.shorter) nodup ?_ (fun _ _ => rfl) ?_
  · exact fun fd' other => ⟨Function.update_of_ne other .., others fd' other⟩
  · exact fun _ id held => absurd rfl (System.Held.deleteConnection held).1

theorem Inv.processed (inv : Inv mMaxConnections w) {fd : Nat} {rest : List Nat} {io : Io} (reported : w.reported = fd :: rest)
    (running : w.system.mMayRun = true) (sound : (w.system.processIo behind tls fd io).Sound) :
    Inv mMaxConnections ({ w with reported := rest }.processed (w.system.processIo behind tls fd io) fd io) := by
  have beside : System.Beside fd w.system (w.system.processIo behind tls fd io) := System.beside_processIo w.system fd io
  have nodup := inv.nodup
  rw [reported, List.nodup_cons] at nodup
  have others (fd' : Nat) (other : fd' ≠ fd) : fd' ∈ rest ↔ fd' ∈ w.reported := by simp [reported, other]
  have ended (id : Nat) (other : w.system.mConnections.lookup fd ≠ some id) :
      (w.ended id || (w.system.mConnections.lookup fd == some id && w.system.endsInput fd io)) = w.ended id := by
    simp [other]
  unfold Watch.processed
  dsimp only
  split
  next gone =>
    obtain ⟨_, none⟩ := Bool.and_eq_true_iff.mp gone
    refine inv.of_beside beside sound (fun _ => running) (polls_deleted inv.polls beside.shorter) nodup.2 ?_ ended ?_
    · exact fun fd' other => ⟨(Function.update_of_ne other ..).trans (Function.update_of_ne other ..), others fd' other⟩
    · intro _ id held
      have at_ : (w.system.processIo behind tls fd io).mConnections.lookup fd = some id := held.1
      simp [at_] at none
  next kept =>
    refine inv.of_beside beside sound (fun _ => running) ?_ nodup.2 ?_ ended ?_
    · rw [inv.polls]
      exact congrArg not (System.processIo_isEmpty kept).symm
    · exact fun fd' other => ⟨Function.update_of_ne other .., others fd' other⟩
    · intro runs id held
      obtain ⟨before, again⟩ := System.processIo_here held runs
      have fresh : w.ended id = false := (inv.watched running fd id before).mp (.inr (by simp [reported]))
      change Function.update w.armed fd (w.system.rearms fd io) fd = true ∨ fd ∈ rest ↔
        (w.ended id || (w.system.mConnections.lookup fd == some id && w.system.endsInput fd io)) = false
      rw [Function.update_self, again, before.1, fresh]
      simp [nodup.1]

/-- A step that concerns no descriptor of a connection. -/
theorem Inv.of_same (inv : Inv mMaxConnections w) (sound : s.Sound) (runs : s.mMayRun = w.system.mMayRun)
    (connections : s.mConnections = w.system.mConnections) (made : s.made = w.system.made)
    (held : ∀ {fd id}, s.Held fd id → w.system.Held fd id) : Inv mMaxConnections { w with system := s } := by
  refine ⟨sound, ?_, ?_, inv.nodup, ?_, ?_⟩
  · rw [connections]
    exact inv.limit
  · rw [inv.polls, isEmpty, isEmpty, connections]
  · rw [made]
    exact inv.fresh
  · exact inv.watched.of_frame (fun running => runs ▸ running) fun fd id here => ⟨held here, rfl, Iff.rfl, rfl⟩

theorem Inv.inbound (inv : Inv mMaxConnections w) {fd : Nat} {rest : List Nat} (queue : w.system.mInQueue = fd :: rest)
    (sound : ({ w.system with mInQueue := rest }.addNewConnection tls mMaxConnections fd).Sound)
    (runs : ({ w.system with mInQueue := rest }.addNewConnection tls mMaxConnections fd).mMayRun = w.system.mMayRun) :
    Inv mMaxConnections { w.arm fd true with
      system := { w.system with mInQueue := rest }.addNewConnection tls mMaxConnections fd
      haveConnections := !({ w.system with mInQueue := rest }.addNewConnection tls mMaxConnections fd).mConnections.entries.isEmpty } := by
  refine ⟨sound, System.length_addNewConnection fd inv.limit, rfl, inv.nodup, fun id above => ?_, fun running fd' id held => ?_⟩
  · rw [System.addNewConnection_made] at above
    exact inv.fresh id (Nat.le_of_succ_le above)
  · obtain ⟨rfl, rfl⟩ | before := System.Held.addNewConnection held fun connected => inv.sound.lt_made connected
    · have fresh : w.ended w.system.made = false := inv.fresh _ (Nat.le_refl _)
      simp [arm, fresh]
    · -- the descriptor of the new socket is that of no connection
      have other : fd' ≠ fd := fun same => inv.sound.waiting (by simp [queue]) (same ▸ inv.sound.held before.1)
      change Function.update w.armed fd true fd' = true ∨ fd' ∈ w.reported ↔ w.ended id = false
      rw [Function.update_of_ne other]
      exact inv.watched (runs ▸ running) fd' id before

theorem Inv.destroy (inv : Inv mMaxConnections w) {id : Nat} {c c' : Connection} (found : w.system.sockets id = some c)
    (live : c.live = true) (free : ¬w.system.isReferenced id = true)
    (sound : System.Sound { w.system with sockets := Function.update w.system.sockets id (some c') }) :
    Inv mMaxConnections { w.arm c.fd false with
      system := { w.system with sockets := Function.update w.system.sockets id (some c') } } := by
  rw [System.isReferenced_iff, not_or, not_exists] at free
  refine ⟨sound, inv.limit, inv.polls, inv.nodup, inv.fresh, fun running fd i held => ?_⟩
  have another : i ≠ id := fun same => free.1 fd (same ▸ held.1)
  have before : w.system.Held fd i := held.of_eq rfl (Function.update_of_ne another ..)
  have other : fd ≠ c.fd := fun same =>
    another (inv.sound.unique (inv.sound.held before.1) (same ▸ System.shape_of_live found live))
  change Function.update w.armed c.fd false fd = true ∨ fd ∈ w.reported ↔ w.ended i = false
  rw [Function.update_of_ne other]
  exact inv.watched running fd i before

theorem Inv.poll (inv : Inv mMaxConnections w) {fds : List Nat} (idle : w.reported = []) (nodup : fds.Nodup)
    (ready : ∀ fd ∈ fds, w.armed fd = true) :
    Inv mMaxConnections { w with armed := fun fd => w.armed fd && !fds.contains fd, reported := fds } := by
  refine ⟨inv.sound, inv.limit, inv.polls, nodup, inv.fresh, fun running fd id held => ?_⟩
  have before := inv.watched running fd id held
  rw [idle] at before
  rw [← before]
  by_cases reported : fd ∈ fds
  · simp [reported, ready fd reported]
  · simp [reported]

theorem Inv.step (inv : Inv mMaxConnections w) {a : Action} (h : w.step behind tls mMaxConnections a = some w') :
    Inv mMaxConnections w' := by
  cases a with
  | poll fds =>
    obtain ⟨⟨_, _, _, idle, nodup, ready⟩, ⟨⟩⟩ := Option.ite_none_right_eq_some.mp h
    exact inv.poll idle nodup ready
  | act a =>
    obtain ⟨s, taken, after⟩ := Option.bind_eq_some_iff.mp h
    have sound := inv.sound.step taken
    have runs := fun other => System.step_mMayRun taken other
    cases System.stepped taken with
    | accept closed =>
      cases after
      exact inv.of_same sound rfl rfl rfl fun held => held
    | next phase =>
      obtain ⟨_, ⟨⟩⟩ := Option.ite_none_right_eq_some.mp after
      exact inv.of_same sound rfl rfl rfl fun held => held
    | dropInbound queue =>
      cases after
      exact inv.of_same sound rfl rfl rfl fun held => held
    | @serve id e found =>
      cases after
      exact inv.of_same sound (runs (by simp)) (System.serve_mConnections ..) (System.serve_made ..) fun held => held.serve
    | close found live =>
      cases after
      exact inv.of_same sound (runs (by simp)) (System.closeWs_mConnections ..) (System.closeWs_made ..) fun held => held.closeWs.2
    | drain queue =>
      rw [Watch.after, queue] at after
      cases after
      have beside (rest : List (Nat × Nat)) (fd : Nat) : System.Beside fd w.system { w.system with mDCQueue := rest } :=
        ⟨fun _ _ => rfl, fun _ _ => rfl, Nat.le_refl _, rfl⟩
      exact inv.deleted (beside _ _) sound rfl inv.nodup fun _ _ => Iff.rfl
    | inbound queue =>
      rw [Watch.after, queue] at after
      cases after
      exact inv.inbound queue sound (runs (by simp))
    | @epollError fd =>
      obtain ⟨rest, reported, rfl⟩ : ∃ rest, w.reported = fd :: rest ∧
          w' = { w with system := w.system.deleteConnection fd, reported := rest }.deleted fd := by
        rw [Watch.after] at after
        split at after
        next first rest reported =>
          obtain ⟨rfl, ⟨⟩⟩ := Option.ite_none_right_eq_some.mp after
          exact ⟨rest, reported, rfl⟩
        · cases after
      have nodup := inv.nodup
      rw [reported, List.nodup_cons] at nodup
      exact inv.deleted (System.Beside.refl _ _) sound rfl nodup.2 fun fd' other => by simp [reported, other]
    | @processIo fd io =>
      obtain ⟨rest, reported, rfl⟩ : ∃ rest, w.reported = fd :: rest ∧
          w' = { w with reported := rest }.processed (w.system.processIo behind tls fd io) fd io := by
        rw [Watch.after] at after
        split at after
        next first rest reported =>
          obtain ⟨rfl, ⟨⟩⟩ := Option.ite_none_right_eq_some.mp after
          exact ⟨rest, reported, rfl⟩
        · cases after
      obtain ⟨⟨running, _⟩, _⟩ := Option.ite_none_right_eq_some.mp taken
      exact inv.processed reported running sound
    | @destroy id c found free =>
      rw [Watch.after, found] at after
      cases after
      have live : c.live = true := by
        simp only [System.step, found] at taken
        exact (Option.ite_none_right_eq_some.mp taken).1.1
      exact inv.destroy found live free sound

/-- In every interleaving a worker has at most as many connections as it may have, it polls exactly when it has any, and as
long as it runs it waits for the events of each open connection, or has one to handle, exactly when `handleInput` has not
come to the end of the stream of that connection. -/
theorem always_watched (behind : List UInt8 → Nat → UInt8) (tls : Bool) (mMaxConnections : Nat) (actions : List Action) :
    Always (step behind tls mMaxConnections)
      (fun w => w.system.mConnections.entries.length ≤ mMaxConnections ∧
        (w.haveConnections = true ↔ w.system.mConnections.entries ≠ []) ∧ w.Watched)
      start actions := by
  have invariant : Always (step behind tls mMaxConnections) (Inv mMaxConnections) start actions :=
    always_of_step Inv.start fun _ _ _ inv h => inv.step h
  refine invariant.mono fun w inv => ⟨inv.limit, ?_, inv.watched⟩
  rw [inv.polls, isEmpty]
  simp

-- A connection whose stream has ended stays, with nothing to wait for.
example :
    ([.act (.accept 5), .act .next, .act .inbound, .act .next,
      .poll [5], .act (.processIo 5 { shaken := .ok (some ⟨1, "echo", some "/echo", 1024⟩) }),
      .poll [5], .act (.processIo 5 { reads := [some []] })].foldlM (step (fun _ _ => 0) false 10) start).map
        (fun w => (w.system.mConnections.lookup 5, w.armed 5, w.reported, w.ended 0)) =
      some (some 0, false, [], true) := by
  decide +kernel

end Watch

end LAppS.IOWorker

import LAppS.IOWorker.System

/-!
# Requests to disconnect

`mDCQueue` holds descriptor numbers. A number that is still queued when its descriptor has been closed can be that of
a new connection, which is then removed in the place of the one that made the request.
-/

namespace LAppS.IOWorker
open WebSocket Transition

namespace System

/-- The next entry of `mDCQueue` removes the socket that has queued it, or none. -/
def RemovesOwner (s : System) : Prop :=
  ∀ fd owner rest, s.mDCQueue = (fd, owner) :: rest → ∀ id, s.mConnections.lookup fd = some id → id = owner

/-- A connection that is added does not have a descriptor number that is queued. -/
def NumberIsFree (mMaxConnections : Nat) (s : System) : Action → Prop
  | .inbound => s.mConnections.entries.length < mMaxConnections →
    ∀ fd rest, s.mInQueue = fd :: rest → ∀ owner, (fd, owner) ∉ s.mDCQueue
  | _ => True

/-- Every entry of `mDCQueue` is for the socket that has queued it. -/
def Owned (s : System) : Prop :=
  ∀ fd owner, (fd, owner) ∈ s.mDCQueue → ∀ id, s.mConnections.lookup fd = some id → id = owner

variable {behind : List UInt8 → Nat → UInt8} {tls : Bool} {mMaxConnections : Nat} {s s' : System}

theorem Owned.removesOwner (owned : Owned s) : RemovesOwner s := by
  intro fd owner rest queue
  exact owned fd owner (by simp [queue])

theorem Owned.of_less (owned : Owned s) (queue : ∀ x ∈ s'.mDCQueue, x ∈ s.mDCQueue)
    (held : ∀ {fd id}, s'.mConnections.lookup fd = some id → s.mConnections.lookup fd = some id) : Owned s' :=
  fun fd owner entry _ h => owned fd owner (queue _ entry) _ (held h)

theorem Owned.deleteConnection (owned : Owned s) (fd : Nat) : Owned (s.deleteConnection fd) :=
  owned.of_less (fun _ h => h) fun h => (lookup_erase_some h).2

theorem Owned.closeWs (owned : Owned s) (sound : Sound s) {id fd : Nat} (live : s.shape id = some (fd, true)) :
    Owned (s.closeWs id) := by
  unfold System.closeWs
  split
  next c found =>
    have same : c.fd = fd := by
      rw [shape, found] at live
      exact congrArg Prod.fst (Option.some.inj live)
    split
    · intro fd' owner entry i h
      rcases List.mem_append.mp entry with entry | entry
      · exact owned fd' owner entry i h
      · obtain ⟨rfl, rfl⟩ := Prod.mk.inj (List.mem_singleton.mp entry)
        exact sound.unique (sound.held h) (same ▸ live)
    · exact owned
  · exact owned

theorem Owned.processIo (owned : Owned s) (sound : Sound s) (fd : Nat) (io : Io) :
    Owned (s.processIo behind tls fd io) := by
  apply processIo_rule
  case closed =>
    intro id connected
    exact owned.closeWs sound (sound.held connected)
  case deleted =>
    intro s' owned'
    exact owned'.deleteConnection fd
  case idle | stopped => exact owned
  case received | set =>
    intros
    exact owned

theorem Owned.addNewConnection (owned : Owned s) (sound : Sound s) {fd : Nat}
    (fresh : ∀ i, s.shape i ≠ some (fd, true)) (waiting : fd ∉ s.mInQueue)
    (free : s.mConnections.entries.length < mMaxConnections → ∀ owner, (fd, owner) ∉ s.mDCQueue) :
    Owned (s.addNewConnection tls mMaxConnections fd) := by
  have made : Owned (s.mkWebSocket tls fd) := owned
  unfold System.addNewConnection
  dsimp only
  split
  next room =>
    split
    · intro fd' owner entry id h
      have other : fd' ≠ fd := by
        rintro rfl
        exact free room owner entry
      rw [AList.lookup_insert_ne other] at h
      exact owned fd' owner entry id h
    · exact made
  next =>
    have live : (s.mkWebSocket tls fd).shape s.made = some (fd, true) := by
      rw [shape_mkWebSocket, Function.update_self]
    exact made.closeWs (sound.mkWebSocket fresh waiting) live

theorem Owned.serve (owned : Owned s) (sound : Sound s) {id fd : Nat} (live : s.shape id = some (fd, true))
    (e : AppInEvent) : Owned (s.serve id e) := by
  have said : Owned { s with disconnects := s.disconnects ++ [id] } := owned
  have sound' : Sound { s with disconnects := s.disconnects ++ [id] } :=
    sound.of_shape rfl rfl (List.Sublist.refl _) (fun h => h) .inl
  unfold System.serve
  split
  · dsimp only
    split
    · split
      · exact said.closeWs sound' live
      · exact said
    · exact said
  · exact owned

theorem Owned.step {a : Action} (owned : Owned s) (sound : Sound s) (free : NumberIsFree mMaxConnections s a)
    (h : s.step behind tls mMaxConnections a = some s') : Owned s' := by
  cases stepped h with
  | @drain fd owner rest queue =>
    have taken : Owned { s with mDCQueue := rest } :=
      owned.of_less (fun x hx => by rw [queue]; exact List.mem_cons_of_mem _ hx) fun h => h
    exact taken.deleteConnection fd
  | @inbound fd rest queue =>
    obtain ⟨tail, fresh, waiting⟩ := sound.inbound queue
    have owned' : Owned { s with mInQueue := rest } := owned
    exact owned'.addNewConnection tail fresh waiting fun room => free room fd rest queue
  | epollError => exact owned.deleteConnection _
  | processIo => exact owned.processIo sound _ _
  | @serve id e found =>
    obtain ⟨fd, live⟩ := sound.queued (List.mem_of_find?_eq_some found)
    have owned' : Owned { s with mEvents := s.mEvents.eraseP (·.1 == id) } := owned
    exact owned'.serve (sound.takeEvent id) live e
  | close found live => exact owned.closeWs sound (shape_of_live found live)
  | accept _ | next _ | dropInbound _ | destroy _ _ => exact owned

/-- In every interleaving in which no new connection gets a descriptor number that is queued, a request to disconnect
removes the socket that has made it, or none. -/
theorem removes_owner (behind : List UInt8 → Nat → UInt8) (tls : Bool) (mMaxConnections : Nat) (actions : List Action)
    (free : Keeps (step behind tls mMaxConnections) (NumberIsFree mMaxConnections) start actions) :
    Always (step behind tls mMaxConnections) RemovesOwner start actions := by
  have invariant : Always (step behind tls mMaxConnections) (fun s => Sound s ∧ Owned s) start actions := by
    refine always_of_keeps ⟨sound_start, fun fd owner entry => by simp [start] at entry⟩ ?_ free
    intro s a s' both free h
    obtain ⟨sound, owned⟩ := both
    exact ⟨sound.step h, owned.step sound free h⟩
  exact invariant.mono fun s h => h.2.removesOwner

def orderly : List Action := [.accept 5, .next, .inbound, .close 0, .next, .next, .drain]

theorem removes_owner_orderly :
    Keeps (step (fun _ _ => 0) false 100) (NumberIsFree 100) start orderly ∧
      Always (step (fun _ _ => 0) false 100) RemovesOwner start orderly := by
  have free : Keeps (step (fun _ _ => 0) false 100) (NumberIsFree 100) start orderly := by
    intro s₁ h₁
    refine ⟨trivial, fun s₂ h₂ => ⟨trivial, fun s₃ h₃ => ⟨?_, fun s₄ _ => ⟨trivial, fun s₅ _ => ⟨trivial, fun s₆ _ =>
      ⟨trivial, fun s₇ _ => ⟨trivial, trivial⟩⟩⟩⟩⟩⟩⟩
    -- Nothing is queued when the connection is made.
    obtain rfl := Option.some.inj h₁
    obtain rfl := Option.some.inj h₂
    intro _ fd rest _ owner entry
    cases entry
  exact ⟨free, removes_owner (fun _ _ => 0) false 100 orderly free⟩

/-- The worker removes a connection after an `epoll` error. Its service then closes it, which queues the number 5, and
drops the last reference, so that the next connection gets the number. -/
def reused : List Action :=
  [.accept 5, .next, .inbound, .next, .processIo 5 { shaken := .ok (some ⟨1, "echo", some "/echo", 1024⟩) },
    .processIo 5 { reads := [some [0x88, 0x80, 0, 0, 0, 0]] }, .epollError 5, .next, .next, .serve 0, .destroy 0,
    .accept 5, .inbound, .next, .next]

theorem removes_owner_counterexample :
    (∃ s, reused.foldlM (step (fun _ _ => 0) false 100) start = some s ∧ s.mDCQueue = [(5, 0)] ∧
      s.mConnections.lookup 5 = some 1) ∧
    (∃ s, (reused ++ [Action.drain]).foldlM (step (fun _ _ => 0) false 100) start = some s ∧
      s.mConnections.lookup 5 = none ∧ s.shape 1 = some (5, true)) ∧
    ¬Always (step (fun _ _ => 0) false 100) RemovesOwner start reused := by
  have before : (reused.foldlM (step (fun _ _ => 0) false 100) start).any
      (fun s => s.mDCQueue = [(5, 0)] ∧ s.mConnections.lookup 5 = some 1) = true := by decide +kernel
  have after : ((reused ++ [Action.drain]).foldlM (step (fun _ _ => 0) false 100) start).any
      (fun s => s.mConnections.lookup 5 = none ∧ s.shape 1 = some (5, true)) = true := by decide +kernel
  simp only [Option.any_eq_true, decide_eq_true_iff] at before after
  refine ⟨before, after, fun always => ?_⟩
  obtain ⟨s, run, queue, held⟩ := before
  cases always.last run 5 0 [] queue 1 held

end System
end LAppS.IOWorker

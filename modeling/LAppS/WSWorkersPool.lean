import LAppS.RoundRobin
import LAppS.Transition.Runs

/-!
# The sockets that the workers get

The listeners accept sockets at the same time. Each of them asks the pool for the next worker, under the mutex of the pool,
and then enqueues the socket to that worker.
-/

namespace LAppS

/-- The pool, with each worker as the sockets that were enqueued to it. -/
structure WSWorkersPool (σ : Type*) where
  mWorkers : List (List σ)
  mCursor : Nat

namespace WSWorkersPool
open RoundRobin Transition

variable {σ : Type*}

def new : WSWorkersPool σ := ⟨[], 0⟩

def spawn (pool : WSWorkersPool σ) : WSWorkersPool σ := { pool with mWorkers := pool.mWorkers ++ [[]] }

/-- The number of the worker. -/
def next (pool : WSWorkersPool σ) : Except String (Nat × WSWorkersPool σ) :=
  if pool.mWorkers.length = 0 then .error "WSWorkersPool::next() - the pool is empty, there is no next worker"
  else if pool.mCursor < pool.mWorkers.length then .ok (pool.mCursor, { pool with mCursor := pool.mCursor + 1 })
  else .ok (0, { pool with mCursor := 1 })

def enqueue (pool : WSWorkersPool σ) (worker : Nat) (socket : σ) : WSWorkersPool σ :=
  { pool with mWorkers := pool.mWorkers.modify worker (· ++ [socket]) }

theorem spawn_iterate (n : Nat) : (spawn^[n]) (new : WSWorkersPool σ) = ⟨List.replicate n [], 0⟩ := by
  induction n with
  | zero => rfl
  | succ n ih => rw [Function.iterate_succ_apply', ih, spawn, List.replicate_succ']

theorem next_eq (pool : WSWorkersPool σ) (pos : 0 < pool.mWorkers.length) :
    pool.next =
      .ok (turn pool.mWorkers.length pool.mCursor, { pool with mCursor := turn pool.mWorkers.length pool.mCursor + 1 }) := by
  unfold next turn
  rw [if_neg (Nat.ne_of_gt pos)]
  split <;> rfl

theorem flatten_enqueue (workers : List (List σ)) {worker : Nat} (inside : worker < workers.length) (socket : σ) :
    (workers.modify worker (· ++ [socket])).flatten.Perm (socket :: workers.flatten) := by
  induction workers generalizing worker with
  | nil => cases inside
  | cons first workers ih =>
    cases worker with
    | zero =>
      rw [List.modify_zero_cons, List.flatten_cons, List.flatten_cons, List.append_assoc]
      exact List.perm_middle
    | succ worker =>
      rw [List.modify_succ_cons, List.flatten_cons, List.flatten_cons]
      exact ((ih (Nat.lt_of_succ_lt_succ inside)).append_left first).trans List.perm_middle

end WSWorkersPool

namespace Balancer
open RoundRobin Transition WSWorkersPool

variable {σ : Type*}

/-- The pool with the listeners: the sockets that have got a worker and are not enqueued yet, and as history all sockets
that were accepted, in the order in which they have got their workers. -/
structure State (σ : Type*) where
  pool : WSWorkersPool σ
  inFlight : List (Nat × σ)
  accepted : List σ

/-- The two parts of `onUpdate`. Any of the listeners may go on. -/
inductive Action (σ : Type*) where
  | next (socket : σ)
  | enqueue (i : Nat)

/-- An exception of `next` is ignored, and the socket is closed. -/
def step (s : State σ) : Action σ → Option (State σ)
  | .next socket =>
    match s.pool.next with
    | .ok (worker, pool) => some ⟨pool, s.inFlight ++ [(worker, socket)], s.accepted ++ [socket]⟩
    | .error _ => some { s with accepted := s.accepted ++ [socket] }
  | .enqueue i =>
    match s.inFlight[i]? with
    | some (worker, socket) => some { s with pool := s.pool.enqueue worker socket, inFlight := s.inFlight.eraseIdx i }
    | none => none

/-- `wsServer` spawns its workers before it starts the listeners. -/
def start (σ : Type*) (workers : Nat) : State σ := ⟨(spawn^[workers]) new, [], []⟩

/-- The sockets that are enqueued to a worker or are on the way to it. -/
def load (s : State σ) (worker : Nat) : Nat :=
  (s.pool.mWorkers[worker]?.getD []).length + s.inFlight.countP (·.1 == worker)

structure Inv (workers : Nat) (s : State σ) : Prop where
  size : s.pool.mWorkers.length = workers
  cursor : s.pool.mCursor = after workers 0 s.accepted.length
  loads : ∀ worker, load s worker = (turns workers 0 s.accepted.length).count worker
  chosen : ∀ entry ∈ s.inFlight, entry.1 < workers
  kept : s.accepted.Perm (s.pool.mWorkers.flatten ++ s.inFlight.map Prod.snd)

variable {workers : Nat} {s s' : State σ}

theorem Inv.start : Inv workers (start σ workers) := by
  rw [Balancer.start, spawn_iterate]
  refine ⟨List.length_replicate, rfl, fun worker => ?_, by simp, by simp⟩
  rw [load, List.getElem?_replicate]
  split <;> rfl

theorem Inv.next (inv : Inv workers s) (pos : 0 < workers) (socket : σ) (h : step s (.next socket) = some s') : Inv workers s' := by
  have here := next_eq s.pool (inv.size ▸ pos)
  rw [inv.size] at here
  simp only [step, here] at h
  obtain ⟨⟩ := h
  refine ⟨inv.size, ?_, fun worker => ?_, ?_, ?_⟩
  · rw [List.length_append, List.length_singleton, after, ← inv.cursor]
  · rw [List.length_append, List.length_singleton, turns_succ, ← inv.cursor, List.count_append, ← inv.loads worker]
    simp only [load, List.countP_append, List.countP_singleton, List.count_singleton, Nat.add_assoc]
  · intro entry listed
    obtain old | new := List.mem_append.mp listed
    · exact inv.chosen entry old
    · rw [List.mem_singleton.mp new]
      exact turn_lt pos
  · rw [List.map_append, ← List.append_assoc]
    exact inv.kept.append_right [socket]

theorem Inv.enqueue (inv : Inv workers s) {i : Nat} (h : step s (.enqueue i) = some s') : Inv workers s' := by
  simp only [step] at h
  split at h
  next worker socket at_ =>
    obtain ⟨⟩ := h
    obtain ⟨inside, found⟩ := List.getElem?_eq_some_iff.mp at_
    have taken : s.inFlight.Perm ((worker, socket) :: s.inFlight.eraseIdx i) := by
      rw [← found]
      exact (List.getElem_cons_eraseIdx_perm inside).symm
    have chosen := inv.chosen _ (List.mem_of_getElem? at_)
    refine ⟨?_, inv.cursor, fun other => ?_, fun entry listed => ?_, ?_⟩
    · rw [WSWorkersPool.enqueue, List.length_modify]
      exact inv.size
    · rw [← inv.loads other]
      simp only [load, WSWorkersPool.enqueue, taken.countP_eq, List.countP_cons, List.getElem?_modify]
      by_cases same : worker = other
      · subst same
        obtain ⟨queue, here⟩ : ∃ queue, s.pool.mWorkers[worker]? = some queue :=
          ⟨_, List.getElem?_eq_getElem (inv.size.symm ▸ chosen)⟩
        simp [here]
        omega
      · simp [same]
    · exact inv.chosen entry (List.mem_of_mem_eraseIdx listed)
    · have moved := flatten_enqueue s.pool.mWorkers (inv.size.symm ▸ chosen) socket
      refine (inv.kept.trans ((taken.map Prod.snd).append_left _)).trans ?_
      exact List.perm_middle.trans (moved.symm.append_right _)
  · cases h

/-- However the listeners interleave, every socket that was accepted is on the way to one worker or enqueued to it, and no
worker has got more than one socket more than another. -/
theorem always_balanced (pos : 0 < workers) (actions : List (Action σ)) :
    Always step
      (fun s => s.accepted.Perm (s.pool.mWorkers.flatten ++ s.inFlight.map Prod.snd) ∧
        ∀ i j, i < workers → j < workers → load s i ≤ load s j + 1)
      (start σ workers) actions := by
  have invariant : Always step (Inv workers) (start σ workers) actions := by
    refine always_of_step Inv.start fun s a s' inv h => ?_
    cases a with
    | next socket => exact inv.next pos socket h
    | enqueue i => exact inv.enqueue h
  refine invariant.mono fun s inv => ⟨inv.kept, fun i j hi hj => ?_⟩
  rw [inv.loads i, inv.loads j]
  have above := (count_turns pos 0 hi s.accepted.length).2
  have below := (count_turns pos 0 hj s.accepted.length).1
  omega

theorem always_balanced_two :
    Always step
      (fun s : State Nat => s.accepted.Perm (s.pool.mWorkers.flatten ++ s.inFlight.map Prod.snd) ∧
        ∀ i j, i < 2 → j < 2 → load s i ≤ load s j + 1)
      (start Nat 2) [.next 7, .next 8, .enqueue 1, .next 9] :=
  always_balanced (by decide) _

end Balancer

end LAppS

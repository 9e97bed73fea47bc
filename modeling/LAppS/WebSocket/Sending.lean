import LAppS.Transition.Runs
import LAppS.WebSocketProtocol.Senders

/-!
# Buffers that are written in pieces

`WebSocket::send` writes a buffer with as many calls of the kernel as it takes, under the mutex of the socket, and a socket
that is closed gets nothing any more. As long as no call fails, what is on the wire is what senders would write that send
whole buffers in turn.
-/

namespace LAppS.Sending
open Senders Transition

/-- What a call of `::send` or `wolfSSL_write` gives: a number of bytes, `EAGAIN`, or another failure. -/
inductive Syscall where
  | wrote (n : Nat)
  | again
  | failed
  deriving DecidableEq

/-- The loop of `send`. -/
structure Loop where
  buff : List UInt8
  outCursor : Nat

inductive Next where
  | repeats (l : Loop)
  | returns (ret : Int)

/-- `while(outCursor != buff.size())`. -/
def Loop.condition (l : Loop) : Next := if l.outCursor = l.buff.length then .returns l.outCursor else .repeats l

/-- A round of the loop, with what it writes. A TLS socket does not try again, and takes a zero for progress. -/
def Loop.round (tls : Bool) (l : Loop) : Syscall → Option (List UInt8 × Next)
  | .wrote n =>
    if n ≤ l.buff.length - l.outCursor then
      some ((l.buff.drop l.outCursor).take n, (⟨l.buff, l.outCursor + n⟩ : Loop).condition)
    else none
  | .again => some ([], if tls then .returns (-1) else l.condition)
  | .failed => some ([], .returns (-1))

structure State (ι : Type) where
  threads : ι → Thread
  /-- Who holds the mutex, and where its loop is. -/
  mMutex : Option (ι × Loop)
  closed : Bool
  wire : List UInt8

inductive Action (ι : Type) where
  | lock (i : ι)
  | write (r : Syscall)
  | close

variable {ι : Type} [DecidableEq ι]

def State.start (program : ι → List Call) : State ι := ⟨(Senders.State.start program).threads, none, false, []⟩

def Next.holder (i : ι) : Next → Option (ι × Loop)
  | .repeats l => some (i, l)
  | .returns _ => none

/-- A thread comes to its next call of `send`, the one that holds the mutex makes a round of its loop, or the socket is
closed by whoever it may be. -/
def step (mustAutoFragment tls : Bool) (s : State ι) : Action ι → Option (State ι)
  | .lock i =>
    match s.mMutex with
    | some _ => none
    | none =>
      let (t, b) := (s.threads i).send mustAutoFragment
      let s := { s with threads := Function.update s.threads i t }
      if b = [] ∨ s.closed then some s else some { s with mMutex := some (i, ⟨b, 0⟩) }
  | .write r =>
    match s.mMutex with
    | none => none
    | some (i, l) =>
      (l.round tls r).map fun w => { s with mMutex := w.2.holder i, wire := s.wire ++ w.1 }
  | .close => some { s with closed := true }

/-- What the loop under way has still to write. -/
def State.remaining (s : State ι) : List UInt8 := s.mMutex.elim [] fun h => h.2.buff.drop h.2.outCursor

/-- The call of the kernel does not make `send` give up. -/
def Action.Succeeds (tls : Bool) : Action ι → Prop
  | .write r => r ≠ .failed ∧ (tls = true → r ≠ .again)
  | _ => True

/-- The thread that takes the mutex. -/
def Action.locker : Action ι → Option ι
  | .lock i => some i
  | .write _ | .close => none

def Action.closes : Action ι → Bool
  | .close => true
  | .lock _ | .write _ => false

/-- The threads in the order in which they take the mutex, up to the end of the connection. -/
def turns (actions : List (Action ι)) : List ι := (actions.takeWhile (!·.closes)).filterMap Action.locker

/-- The senders of whole buffers have written what is on the wire and what the loop under way has still to write. -/
structure Refines (mustAutoFragment : Bool) (program : ι → List Call) (schedule : List ι) (s : State ι) : Prop where
  wire : (Senders.run mustAutoFragment program schedule).wire = s.wire ++ s.remaining
  threads : s.closed = false → (Senders.run mustAutoFragment program schedule).threads = s.threads
  inside : ∀ i l, s.mMutex = some (i, l) → l.outCursor < l.buff.length

section Steps

variable {mustAutoFragment tls : Bool} {program : ι → List Call} {schedule : List ι} {s s' : State ι} {i : ι}

theorem run_append (schedule : List ι) (i : ι) :
    Senders.run mustAutoFragment program (schedule ++ [i]) = (Senders.run mustAutoFragment program schedule).turn mustAutoFragment i := by
  rw [Senders.run, Senders.run, List.foldl_append]
  rfl

omit [DecidableEq ι] in
theorem condition_holder {l : Loop} (within : l.outCursor ≤ l.buff.length) (i : ι) :
    (l.condition.holder i).elim [] (fun h => h.2.buff.drop h.2.outCursor) = l.buff.drop l.outCursor ∧
      ∀ j l', l.condition.holder i = some (j, l') → l'.outCursor < l'.buff.length := by
  rw [Loop.condition]
  split
  next done =>
    refine ⟨?_, fun j l' held => by cases held⟩
    rw [done, List.drop_length]
    rfl
  next more =>
    refine ⟨rfl, fun j l' held => ?_⟩
    cases held
    exact Nat.lt_of_le_of_ne within more

omit [DecidableEq ι] in
/-- A round that does not fail writes what is missing afterwards. -/
theorem round_writes {l : Loop} {r : Syscall} {w : List UInt8 × Next} (inside : l.outCursor < l.buff.length)
    (succeeds : r ≠ .failed ∧ (tls = true → r ≠ .again)) (h : l.round tls r = some w) (i : ι) :
    w.1 ++ (w.2.holder i).elim [] (fun h => h.2.buff.drop h.2.outCursor) = l.buff.drop l.outCursor ∧
      ∀ j l', w.2.holder i = some (j, l') → l'.outCursor < l'.buff.length := by
  cases r with
  | failed => exact absurd rfl succeeds.1
  | again =>
    have plain : tls = false := Bool.eq_false_iff.mpr fun secure => succeeds.2 secure rfl
    rw [Loop.round, plain] at h
    cases h
    exact condition_holder (Nat.le_of_lt inside) i
  | wrote n =>
    obtain ⟨fits, ⟨⟩⟩ := Option.ite_none_right_eq_some.mp h
    have within : l.outCursor + n ≤ l.buff.length := by omega
    obtain ⟨rest, inside'⟩ := condition_holder (l := ⟨l.buff, l.outCursor + n⟩) within i
    refine ⟨?_, inside'⟩
    dsimp only at rest ⊢
    rw [rest, ← List.drop_drop, List.take_append_drop]

omit [DecidableEq ι] in
theorem schedule_of_not_lock {a : Action ι} (other : a.locker = none) :
    (if s.closed then schedule else schedule ++ a.locker.toList) = schedule := by
  rw [other, Option.toList_none, List.append_nil, ite_self]

theorem Refines.lock (h : Refines mustAutoFragment program schedule s) (free : s.mMutex = none) (opened : s.closed = false) (i : ι) :
    (Senders.run mustAutoFragment program (schedule ++ [i])).wire = s.wire ++ ((s.threads i).send mustAutoFragment).2 ∧
      (Senders.run mustAutoFragment program (schedule ++ [i])).threads =
        Function.update s.threads i ((s.threads i).send mustAutoFragment).1 := by
  have written : s.remaining = [] := by rw [State.remaining, free]; rfl
  rw [run_append, Senders.State.turn, h.threads opened, h.wire, written, List.append_nil]
  exact ⟨rfl, rfl⟩

theorem Refines.step (h : Refines mustAutoFragment program schedule s) {a : Action ι} (succeeds : a.Succeeds tls)
    (taken : step mustAutoFragment tls s a = some s') :
    Refines mustAutoFragment program (if s.closed then schedule else schedule ++ a.locker.toList) s' := by
  cases a with
  | lock i =>
    rw [Sending.step] at taken
    cases held : s.mMutex with rw [held] at taken
    | some _ => cases taken
    | none =>
      cases closed : s.closed with
      | true =>
        -- the thread finds the socket closed
        dsimp only at taken
        rw [if_pos (.inr closed)] at taken
        cases taken
        refine ⟨h.wire.trans ?_, fun opened => ?_, fun j l holder => by cases holder⟩
        · rw [State.remaining, held]
          rfl
        · cases closed.symm.trans opened
      | false =>
        obtain ⟨wire, threads⟩ := h.lock held closed i
        dsimp only at taken
        split at taken
        next quiet =>
          cases taken
          have nothing : ((s.threads i).send mustAutoFragment).2 = [] :=
            quiet.resolve_right (by rw [closed]; exact Bool.false_ne_true)
          refine ⟨?_, fun _ => threads, fun j l holder => by cases holder⟩
          exact wire.trans (congrArg (s.wire ++ ·) nothing)
        next sends =>
          cases taken
          refine ⟨wire, fun _ => threads, fun j l holder => ?_⟩
          cases holder
          exact List.length_pos_iff.mpr (not_or.mp sends).1
  | write r =>
    rw [Sending.step] at taken
    cases held : s.mMutex with rw [held] at taken
    | none => cases taken
    | some holder =>
      obtain ⟨w, round, rfl⟩ := Option.map_eq_some_iff.mp taken
      obtain ⟨writes, inside⟩ := round_writes (h.inside _ _ held) succeeds round holder.1
      rw [schedule_of_not_lock rfl]
      refine ⟨?_, h.threads, inside⟩
      rw [h.wire, State.remaining, held, State.remaining, List.append_assoc]
      exact congrArg (s.wire ++ ·) writes.symm
  | close =>
    cases taken
    rw [schedule_of_not_lock rfl]
    exact ⟨h.wire, nofun, h.inside⟩

theorem step_closed {a : Action ι} (taken : Sending.step mustAutoFragment tls s a = some s') :
    s'.closed = (s.closed || a.closes) := by
  cases a with
  | lock i =>
    rw [Sending.step] at taken
    cases held : s.mMutex with rw [held] at taken
    | some _ => cases taken
    | none =>
      dsimp only at taken
      split at taken <;> cases taken <;> exact (Bool.or_false _).symm
  | write r =>
    rw [Sending.step] at taken
    cases held : s.mMutex with rw [held] at taken
    | none => cases taken
    | some holder =>
      obtain ⟨w, -, rfl⟩ := Option.map_eq_some_iff.mp taken
      exact (Bool.or_false _).symm
  | close =>
    cases taken
    exact (Bool.or_true _).symm

omit [DecidableEq ι] in
/-- After the end of the connection there are no more turns. -/
theorem turns_append (actions : List (Action ι)) (a : Action ι) :
    turns (actions ++ [a]) = if actions.any Action.closes then turns actions else turns actions ++ a.locker.toList := by
  induction actions with
  | nil => cases a <;> rfl
  | cons b actions ih =>
    cases b with
    | close => rfl
    | lock i =>
      have skip (as : List (Action ι)) : turns (.lock i :: as) = i :: turns as := rfl
      rw [List.cons_append, skip, skip, ih, List.any_cons, Action.closes, Bool.false_or]
      split <;> rfl
    | write r =>
      have skip (as : List (Action ι)) : turns (.write r :: as) = turns as := rfl
      rw [List.cons_append, skip, skip, ih, List.any_cons, Action.closes, Bool.false_or]

end Steps

/-- Writing in pieces under the mutex refines the sending of whole buffers: whatever the kernel accepts of a buffer at a time,
and whoever closes the socket, the wire has the buffers one after the other in the order in which the threads have taken the
mutex, up to what the thread that holds it has still to write. -/
theorem writes_refine_turns (mustAutoFragment tls : Bool) (program : ι → List Call) {actions : List (Action ι)} {s : State ι}
    (run : actions.foldlM (step mustAutoFragment tls) (State.start program) = some s) (succeed : ∀ a ∈ actions, a.Succeeds tls) :
    (Senders.run mustAutoFragment program (turns actions)).wire = s.wire ++ s.remaining ∧
      (s.closed = false → (Senders.run mustAutoFragment program (turns actions)).threads = s.threads) := by
  have start : Refines mustAutoFragment program [] (State.start program) := ⟨rfl, fun _ => rfl, fun i l held => by cases held⟩
  have along := run_induction (P := fun before s => (∀ a ∈ before, a.Succeeds tls) →
    s.closed = before.any Action.closes ∧ Refines mustAutoFragment program (turns before) s) (fun _ => ⟨rfl, start⟩) ?_ run
  · obtain ⟨-, refines⟩ := along succeed
    exact ⟨refines.wire, refines.threads⟩
  · intro before s a s' ih taken succeed
    obtain ⟨earlier, here⟩ := List.forall_mem_append.mp succeed
    obtain ⟨closed, refines⟩ := ih earlier
    refine ⟨?_, ?_⟩
    · rw [step_closed taken, closed, List.any_append]
      simp
    · rw [turns_append, ← closed]
      exact refines.step (here a (List.mem_singleton_self a)) taken

/-- Two threads with a pong each. -/
def twoPongs (second : Bool) : List Call := [.pong [if second then 1 else 0] (Nat.le_of_ble_eq_true rfl)]

/-- The second thread is the first to send. -/
def secondFirst : List (Action Bool) :=
  [.lock true, .write .again, .write (.wrote 1), .write (.wrote 2), .lock false, .write (.wrote 2)]

theorem writes_refine_turns_pongs :
    ∃ s, secondFirst.foldlM (step false false) (State.start twoPongs) = some s ∧
      s.wire = [138, 1, 1, 138, 1] ∧ s.remaining = [0] ∧
        (Senders.run false twoPongs [true, false]).wire = s.wire ++ s.remaining := by
  refine ⟨_, rfl, rfl, rfl, ?_⟩
  have succeed : ∀ a ∈ secondFirst, a.Succeeds false := by simp [secondFirst, Action.Succeeds]
  exact (writes_refine_turns false false twoPongs rfl succeed).1

-- A call that fails leaves a part of its buffer, and the next buffer behind it.
example :
    ([Action.lock 0, .write (.wrote 1), .write .failed, .lock 1, .write (.wrote 3)].foldlM (step false false)
      (State.start fun _ : Fin 2 => [Call.pong [7] (by decide)])).map State.wire = some [138, 138, 1, 7] := rfl

end LAppS.Sending

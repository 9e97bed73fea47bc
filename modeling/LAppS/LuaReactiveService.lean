import LAppS.Json
import LAppS.WebSocket.Input

/-!
# A service instance of the LAppS protocol

The event loop of `LuaReactiveService::execute`. A message that is not a LAppS request makes `onMessage` return false,
which the loop takes for a context that is down, and one that is not CBOR throws out of the batch.
-/

namespace LAppS.LuaReactiveService
open Rfc6455 WebSocket

inductive LAppSInMessageType where
  | invalid
  | cn
  | cnWithParams
  | request
  | requestWithParams
  deriving DecidableEq, Repr

def getLAppSInMessageType (msg : Json) : LAppSInMessageType :=
  match msg.find "lapps" with
  | some (.number q) =>
    if q = 1 then
      match msg.find "method" with
      | some (.string methodName) =>
        if methodName.toList.length > 0 then
          if methodName.toList.head? ≠ some '_' then
            if '.' ∈ methodName.toList then .invalid
            else
              let hasParams : Bool :=
                match msg.find "params" with
                | some (.array params) => !params.isEmpty
                | _ => false
              match msg.find "cid" with
              | some cid => if cid.isNumber then if hasParams then .cnWithParams else .cn else .invalid
              | none => if hasParams then .requestWithParams else .request
          else .invalid
        else .invalid
      | _ => .invalid
    else .invalid
  | _ => .invalid

/-! ### The Request object -/

/-- What the specification asks of the members other than `params`, in section 4. -/
structure Addressed (m : Json) : Prop where
  lapps : m.find "lapps" = some (.number 1)
  method : ∃ name, m.find "method" = some (.string name) ∧ name.toList ≠ [] ∧ '.' ∉ name.toList ∧
    name.toList.head? ≠ some '_'
  cid : ∀ v, m.find "cid" = some v → ∃ q, v = .number q

def ParamsInArray (m : Json) : Prop := ∀ v, m.find "params" = some v → ∃ items, v = .array items

/-- A Request object of section 4. -/
structure Request (m : Json) : Prop extends Addressed m where
  params : ParamsInArray m

def HasParams (m : Json) : Prop := ∃ items, m.find "params" = some (.array items) ∧ items ≠ []

/-- The type is that of the specification. -/
structure Classified (m : Json) : Prop where
  valid : getLAppSInMessageType m ≠ .invalid ↔ Request m
  cn : getLAppSInMessageType m ≠ .invalid →
    (getLAppSInMessageType m = .cn ∨ getLAppSInMessageType m = .cnWithParams ↔ ∃ v, m.find "cid" = some v)
  withParams : getLAppSInMessageType m ≠ .invalid →
    (getLAppSInMessageType m = .cnWithParams ∨ getLAppSInMessageType m = .requestWithParams ↔ HasParams m)

section Classification

variable {msg : Json}

/-- What the function has found when it does not return `INVALID`. -/
inductive Found (msg : Json) : LAppSInMessageType → Prop
  | invalid (other : ¬Addressed msg) : Found msg .invalid
  | cn {v : Json} (addressed : Addressed msg) (cid : msg.find "cid" = some v) (none : ¬HasParams msg) : Found msg .cn
  | cnWithParams {v : Json} (addressed : Addressed msg) (cid : msg.find "cid" = some v) (some : HasParams msg) :
      Found msg .cnWithParams
  | request (addressed : Addressed msg) (cid : msg.find "cid" = none) (none : ¬HasParams msg) : Found msg .request
  | requestWithParams (addressed : Addressed msg) (cid : msg.find "cid" = none) (some : HasParams msg) :
      Found msg .requestWithParams

theorem hasParams_iff :
    (match msg.find "params" with
      | some (.array params) => !params.isEmpty
      | _ => false) = true ↔ HasParams msg := by
  unfold HasParams
  split
  next items found => simp [found]
  next other =>
    refine iff_of_false (by simp) ?_
    rintro ⟨items, found, -⟩
    exact other items found

theorem found_type (msg : Json) : Found msg (getLAppSInMessageType msg) := by
  unfold getLAppSInMessageType
  split
  next q lapps =>
    split
    next one =>
      subst one
      split
      next name method =>
        -- another name than the one that was found is not looked at
        have own (h : Addressed msg) : name.toList ≠ [] ∧ '.' ∉ name.toList ∧ name.toList.head? ≠ some '_' := by
          obtain ⟨name', method', named⟩ := h.method
          cases method.symm.trans method'
          exact named
        split
        next long =>
          split
          next plain =>
            split
            next dotted => exact .invalid fun h => (own h).2.1 dotted
            next undotted =>
              have named := List.ne_nil_of_length_pos long
              have params := @hasParams_iff msg
              dsimp only
              generalize (match msg.find "params" with
                | some (.array params) => !params.isEmpty
                | _ => false) = hasParams at params
              split
              next cid found =>
                split
                next number =>
                  have addressed : Addressed msg := by
                    refine ⟨lapps, ⟨name, method, named, undotted, plain⟩, fun v hv => ?_⟩
                    cases found.symm.trans hv
                    exact Json.isNumber_iff.mp number
                  split
                  next some_ => exact .cnWithParams addressed found (params.mp some_)
                  next none_ => exact .cn addressed found (mt params.mpr none_)
                next other =>
                  refine .invalid fun h => other ?_
                  exact Json.isNumber_iff.mpr (h.cid cid found)
              next missing =>
                have addressed : Addressed msg := by
                  refine ⟨lapps, ⟨name, method, named, undotted, plain⟩, fun v hv => ?_⟩
                  cases missing.symm.trans hv
                split
                next some_ => exact .requestWithParams addressed missing (params.mp some_)
                next none_ => exact .request addressed missing (mt params.mpr none_)
          next reserved => exact .invalid fun h => reserved (own h).2.2
        next empty => exact .invalid fun h => empty (List.length_pos_iff.mpr (own h).1)
      next other =>
        refine .invalid fun h => ?_
        obtain ⟨name, method, _⟩ := h.method
        exact other name method
    next other =>
      refine .invalid fun h => ?_
      cases lapps.symm.trans h.lapps
      exact other rfl
  next other => exact .invalid fun h => other 1 h.lapps

/-- Whether a request has a `params` that is no array is not asked. -/
theorem valid_iff_addressed : getLAppSInMessageType msg ≠ .invalid ↔ Addressed msg := by
  have found := found_type msg
  generalize getLAppSInMessageType msg = type at found
  cases found with
  | invalid other => exact iff_of_false (fun h => h rfl) other
  | cn addressed | cnWithParams addressed | request addressed | requestWithParams addressed =>
    exact iff_of_true nofun addressed

end Classification

/-- Messages are classified by the specification, except for requests whose `params` are no array. -/
theorem classified_iff (m : Json) : Classified m ↔ (Addressed m → ParamsInArray m) := by
  constructor
  · intro classified addressed
    exact (classified.valid.mp (valid_iff_addressed.mpr addressed)).params
  · intro inArray
    refine ⟨valid_iff_addressed.trans ⟨fun h => ⟨h, inArray h⟩, Request.toAddressed⟩, ?_, ?_⟩
    · intro valid
      have found := found_type m
      generalize getLAppSInMessageType m = type at found valid
      cases found with
      | invalid => exact absurd rfl valid
      | cn _ cid => simp [cid]
      | cnWithParams _ cid => simp [cid]
      | request _ cid => simp [cid]
      | requestWithParams _ cid => simp [cid]
    · intro valid
      have found := found_type m
      generalize getLAppSInMessageType m = type at found valid
      cases found with
      | invalid => exact absurd rfl valid
      | cn _ _ none => simp [none]
      | cnWithParams _ _ some => simp [some]
      | request _ _ none => simp [none]
      | requestWithParams _ _ some => simp [some]

/-- The number in place of the array is taken for no parameters. -/
def numberParams : Json := .object [("lapps", .number 1), ("method", .string "login"), ("params", .number 5)]

theorem classified_counterexample :
    getLAppSInMessageType numberParams = .request ∧ ¬Request numberParams := by
  refine ⟨by decide +kernel, fun request => ?_⟩
  obtain ⟨items, none⟩ := request.params (.number 5) (by simp [numberParams, Json.find, List.lookup_cons])
  cases none

/-- The Lua module: what its functions return, or the text of an exception. -/
structure Module where
  onMessage : LAppSInMessageType → Json → Except String Bool
  onDisconnect : Except String Unit

structure Service where
  mMayRun : Bool
  /-- The events that were taken and did not throw. -/
  processed : List AppInEvent

variable (fromCbor : List UInt8 → Except String Json) (m : Module)

def onMessage (event : AppInEvent) : Except String Bool :=
  if event.opcode ≠ .binary then .ok false
  else do
    let msg ← fromCbor event.message
    if getLAppSInMessageType msg = .invalid then return false
    else m.onMessage (getLAppSInMessageType msg) msg

/-- The switch over the opcode. An exception of `send` or `close` is ignored. -/
def handle (event : AppInEvent) : Except String Bool :=
  match event.opcode with
  | .close => do
    m.onDisconnect
    return true
  | .pong => .ok true
  | _ => onMessage fromCbor m event

/-- The events that are taken from the queue at once; an exception drops the rest. -/
def processBatch (s : Service) : List AppInEvent → Service
  | [] => s
  | event :: events =>
    match handle fromCbor m event with
    | .ok result =>
      processBatch { mMayRun := s.mMayRun && result, processed := s.processed ++ [event] } events
    | .error _ => { s with mMayRun := false }

def execute (s : Service) : List (List AppInEvent) → Service
  | [] => s
  | batch :: batches => if s.mMayRun then execute (processBatch fromCbor m s batch) batches else s

def start : Service := ⟨true, []⟩

def Survives (batches : List (List AppInEvent)) : Prop :=
  (execute fromCbor m start batches).mMayRun = true ∧ (execute fromCbor m start batches).processed = batches.flatten

/-- A request that is CBOR and of the LAppS protocol, or an event without content. -/
def WellFormed (event : AppInEvent) : Prop :=
  event.opcode = .close ∨ event.opcode = .pong ∨
    event.opcode = .binary ∧ ∃ msg, fromCbor event.message = .ok msg ∧ getLAppSInMessageType msg ≠ .invalid

section
variable {fromCbor : List UInt8 → Except String Json} {m : Module}
  (serves : ∀ type msg, m.onMessage type msg = .ok true) (disconnects : m.onDisconnect = .ok ())
include serves disconnects

theorem handle_iff (event : AppInEvent) : handle fromCbor m event = .ok true ↔ WellFormed fromCbor event := by
  unfold handle WellFormed
  split
  next isClose => simp [isClose, disconnects, bind, Except.bind, pure, Except.pure]
  next isPong => simp [isPong]
  next notClose notPong =>
    have other : event.opcode ≠ .close ∧ event.opcode ≠ .pong := ⟨notClose, notPong⟩
    simp only [other.1, other.2, false_or, onMessage]
    by_cases binary : event.opcode = .binary
    · simp only [binary, ne_eq, not_true_eq_false, if_false, true_and]
      cases decoded : fromCbor event.message with
      | error e => simp [bind, Except.bind]
      | ok msg =>
        by_cases invalid : getLAppSInMessageType msg = .invalid
        · simp [bind, Except.bind, invalid, pure, Except.pure]
        · simp [bind, Except.bind, invalid, serves]
    · simp [binary]

theorem processBatch_mMayRun (s : Service) (batch : List AppInEvent) :
    (processBatch fromCbor m s batch).mMayRun = true ↔
      s.mMayRun = true ∧ ∀ event ∈ batch, WellFormed fromCbor event := by
  induction batch generalizing s with
  | nil => simp [processBatch]
  | cons event batch ih =>
    have good : handle fromCbor m event = .ok true ↔ WellFormed fromCbor event := handle_iff serves disconnects event
    rw [processBatch, List.forall_mem_cons, ← good]
    cases result : handle fromCbor m event with
    | ok result => simp [ih, and_assoc]
    | error e => simp

theorem processBatch_processed {batch : List AppInEvent} (wf : ∀ event ∈ batch, WellFormed fromCbor event)
    (s : Service) : (processBatch fromCbor m s batch).processed = s.processed ++ batch := by
  induction batch generalizing s with
  | nil => simp [processBatch]
  | cons event batch ih =>
    have good := (handle_iff serves disconnects event).mpr (wf event List.mem_cons_self)
    rw [processBatch, good]
    dsimp only
    rw [ih fun e he => wf e (List.mem_cons_of_mem _ he), List.append_assoc]
    rfl

theorem execute_mMayRun (s : Service) (batches : List (List AppInEvent)) :
    (execute fromCbor m s batches).mMayRun = true ↔
      s.mMayRun = true ∧ ∀ event ∈ batches.flatten, WellFormed fromCbor event := by
  induction batches generalizing s with
  | nil => simp [execute]
  | cons batch batches ih =>
    rw [execute]
    split
    next runs =>
      rw [ih, processBatch_mMayRun serves disconnects, List.flatten_cons, List.forall_mem_append, and_assoc]
    next stopped => simp [stopped]

theorem execute_processed {batches : List (List AppInEvent)}
    (wf : ∀ event ∈ batches.flatten, WellFormed fromCbor event) {s : Service} (runs : s.mMayRun = true) :
    (execute fromCbor m s batches).processed = s.processed ++ batches.flatten := by
  induction batches generalizing s with
  | nil => simp [execute]
  | cons batch batches ih =>
    rw [List.flatten_cons, List.forall_mem_append] at wf
    have runs' := (processBatch_mMayRun serves disconnects s batch).mpr ⟨runs, wf.1⟩
    rw [execute, if_pos runs, ih wf.2 runs', processBatch_processed serves disconnects wf.1, List.append_assoc,
      List.flatten_cons]

end

/-- The instance survives exactly the events that are well formed. -/
theorem survives_iff (fromCbor : List UInt8 → Except String Json) (m : Module)
    (serves : ∀ type msg, m.onMessage type msg = .ok true) (disconnects : m.onDisconnect = .ok ())
    (batches : List (List AppInEvent)) :
    Survives fromCbor m batches ↔ ∀ event ∈ batches.flatten, WellFormed fromCbor event := by
  constructor
  · rintro ⟨runs, -⟩
    exact ((execute_mMayRun serves disconnects start batches).mp runs).2
  · intro wf
    exact ⟨(execute_mMayRun serves disconnects start batches).mpr ⟨rfl, wf⟩,
      execute_processed serves disconnects wf rfl⟩

def obliging : Module := ⟨fun _ _ => .ok true, .ok ()⟩

def login : Json := .object [("lapps", .number 1), ("method", .string "login")]

def knownRequest (bytes : List UInt8) : Except String Json :=
  if bytes = [0xa0] then .ok login else .error "parse error"

example : getLAppSInMessageType login = .request := by decide +kernel

theorem survives_request :
    (∀ type msg, obliging.onMessage type msg = .ok true) ∧ obliging.onDisconnect = .ok () ∧
      Survives knownRequest obliging [[⟨.binary, [0xa0]⟩], [⟨.pong, []⟩, ⟨.close, []⟩]] := by
  refine ⟨fun _ _ => rfl, rfl, (survives_iff knownRequest obliging (fun _ _ => rfl) rfl _).mpr ?_⟩
  have request : getLAppSInMessageType login ≠ .invalid := by decide +kernel
  simp [WellFormed, knownRequest, request]

/-- A text message stops the instance; so does one that is not CBOR, and the events behind it are dropped. -/
theorem survives_counterexample :
    ¬Survives knownRequest obliging [[⟨.text, [0x68, 0x69]⟩]] ∧
      (execute knownRequest obliging start [[⟨.binary, [0xff]⟩, ⟨.close, []⟩]]).mMayRun = false ∧
      (execute knownRequest obliging start [[⟨.binary, [0xff]⟩, ⟨.close, []⟩]]).processed = [] := by
  refine ⟨fun survives => ?_, rfl, rfl⟩
  cases survives.1

end LAppS.LuaReactiveService

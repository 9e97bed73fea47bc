import LAppS.Cbor.Transport
import LAppS.LAppSMessages
import LAppS.LuaReactiveService
import LAppS.Shakespeer
import Mathlib.Data.Rat.Cast.Order

/-!
# A conversation in the LAppS protocol

From the values that a client sends to the calls of the Lua module, and from the values that the module sends with `ws:send`
to those that the client reads. `getLAppSInMessageType` and `isLAppSOutMessageValid` stand in the two ways: a value that the
first refuses ends the instance, and one that the second refuses is not sent.
-/

namespace LAppS.LuaReactiveService
open Rfc6455 StreamProcessing WebSocket Ieee754

/-! ### Values as the checks see them -/

/-- A double. The checks compare it with 0 and with 1, so that any other number may stand for one that is not finite. -/
def ofDouble (x : UInt64) : Rat :=
  match binary64.datum x.toNat with
  | .finite negative units => (if negative then -1 else 1) * units / 2 ^ 1074
  | .infinite _ | .nan => 1 / 2

mutual

/-- Numbers are compared by their values, whatever their types. -/
def view : Cbor.Json → Json
  | .null => .null
  | .boolean b => .boolean b
  | .numberInteger i => .number i.toInt
  | .numberUnsigned n => .number n.toNat
  | .numberFloat x => .number (ofDouble x)
  | .string s => .string (Shakespeer.text s)
  | .array elements => .array (viewElements elements)
  | .object members => .object (viewMembers members)

def viewElements : List Cbor.Json → List Json
  | [] => []
  | v :: elements => view v :: viewElements elements

def viewMembers : List (List UInt8 × Cbor.Json) → List (String × Json)
  | [] => []
  | (key, v) :: members => (Shakespeer.text key, view v) :: viewMembers members

end

/-- CBOR, as `onMessage` reads it. -/
def readCbor (L : Cbor.Limits) (bytes : List UInt8) : Except String Json :=
  match Cbor.fromCbor L bytes with
  | .ok v => .ok (view v)
  | .error (.thrown e) => .error e.what
  | .error .fuel => .error ""

/-- What `onMessage` calls the Lua module with, unless it returns before. -/
def handed (L : Cbor.Limits) (event : AppInEvent) : Option (LAppSInMessageType × Cbor.Json) :=
  if event.opcode ≠ .binary then none
  else
    match Cbor.fromCbor L event.message with
    | .ok msg => if getLAppSInMessageType (view msg) = .invalid then none else some (getLAppSInMessageType (view msg), msg)
    | .error _ => none

/-- The frames that `wssend_lapps` queues, or the error that it returns. -/
def wssendLapps (mustAutoFragment : Bool) (msg : Cbor.Json) : Except String (List (List UInt8)) :=
  if isLAppSOutMessageValid (view msg) then .ok (Cbor.serverMessage mustAutoFragment msg)
  else .error "An attempt to send an invalid LAppS-protocol message"

/-- The bytes of all that a service sends. -/
def sentBytes (mustAutoFragment : Bool) (replies : List Cbor.Json) : List UInt8 :=
  replies.flatMap fun msg => (((wssendLapps mustAutoFragment msg).toOption.getD []).flatten)

section Values

variable {L : Cbor.Limits} {v : Cbor.Json}

theorem viewElements_eq (elements : List Cbor.Json) : viewElements elements = elements.map view := by
  induction elements with
  | nil => rfl
  | cons v elements ih => rw [viewElements, ih, List.map_cons]

theorem viewMembers_eq (members : List (List UInt8 × Cbor.Json)) :
    viewMembers members = members.map fun m => (Shakespeer.text m.1, view m.2) := by
  induction members with
  | nil => rfl
  | cons m members ih => rw [viewMembers, ih, List.map_cons]

/-- The checks do not tell the value that is read from the one that was written. -/
theorem view_asRead (stored : Cbor.Json.Stored L v) : view (Cbor.asRead v) = view v := by
  induction stored with
  | null | boolean | numberUnsigned | numberFloat | string => rfl
  | numberInteger i =>
    have high := i.toInt_lt
    rw [Cbor.asRead]
    split
    next nonnegative =>
      have word : (UInt64.ofNat i.toInt.toNat).toNat = i.toInt.toNat :=
        UInt64.toNat_ofNat_of_lt' (by change i.toInt.toNat < 2 ^ 64; omega)
      have value : ((i.toInt.toNat : Nat) : Rat) = (i.toInt : Rat) := by
        rw [← Int.cast_natCast, Int.toNat_of_nonneg nonnegative]
      rw [view, view, word, value]
    next => rfl
  | @array elements short each ih =>
    rw [Cbor.asRead, Cbor.asReadElements_eq, view, view, viewElements_eq, viewElements_eq, List.map_map]
    exact congrArg Json.array (List.map_congr_left ih)
  | @object members short ascending keys each ih =>
    rw [Cbor.asRead, Cbor.asReadMembers_eq, view, view, viewMembers_eq, viewMembers_eq, List.map_map]
    exact congrArg Json.object (List.map_congr_left fun m hm => congrArg (Prod.mk _) (ih m hm))

theorem readCbor_toCbor (stored : Cbor.Json.Stored L v) : readCbor L (Cbor.toCbor v) = .ok (view v) := by
  rw [readCbor, Cbor.toCbor, Cbor.fromCbor_writeCbor stored]
  exact congrArg Except.ok (view_asRead stored)

theorem handed_toCbor (stored : Cbor.Json.Stored L v) (request : getLAppSInMessageType (view v) ≠ .invalid) :
    handed L ⟨.binary, Cbor.toCbor v⟩ = some (getLAppSInMessageType (view v), Cbor.asRead v) := by
  simp only [handed, ne_eq, not_true_eq_false, if_false, Cbor.toCbor, Cbor.fromCbor_writeCbor stored, view_asRead stored,
    if_neg request]

end Values

/-! ### There and back -/

variable {L : Cbor.Limits}

/-- What is sent is what the check lets through. -/
theorem sentBytes_eq (mustAutoFragment : Bool) (replies : List Cbor.Json) :
    sentBytes mustAutoFragment replies =
      Cbor.serverStream mustAutoFragment (replies.filter fun msg => isLAppSOutMessageValid (view msg)) := by
  induction replies with
  | nil => rfl
  | cons msg replies ih =>
    rw [sentBytes, List.flatMap_cons, ← sentBytes, ih, wssendLapps, List.filter_cons]
    by_cases valid : isLAppSOutMessageValid (view msg) = true
    · rw [if_pos valid, if_pos valid, Cbor.serverStream, Cbor.serverStream, List.flatMap_cons]
      rfl
    · rw [if_neg valid, if_neg valid]
      rfl

/-- A module that always returns true keeps the instance up as long as it gets requests. -/
theorem execute_requests {events : List AppInEvent} (wf : ∀ event ∈ events, WellFormed (readCbor L) event) {m : Module}
    (serves : ∀ type msg, m.onMessage type msg = .ok true) (disconnects : m.onDisconnect = .ok ())
    {batches : List (List AppInEvent)} (same : batches.flatten = events) :
    execute (readCbor L) m start batches = ⟨true, events⟩ := by
  rw [← same] at wf ⊢
  have runs := (execute_mMayRun serves disconnects start batches).mpr ⟨rfl, wf⟩
  have processed := execute_processed serves disconnects wf (s := start) rfl
  rw [← runs]
  exact congrArg (Service.mk _) processed

/-- A request to log in. -/
def loginRequest : Cbor.Json :=
  .object [(ClientWebSocket.ascii "lapps", .numberInteger 1), (ClientWebSocket.ascii "method", .string (ClientWebSocket.ascii "login"))]

/-- Its success. -/
def loginResponse : Cbor.Json :=
  .object [(ClientWebSocket.ascii "cid", .numberInteger 0), (ClientWebSocket.ascii "result", .array []),
    (ClientWebSocket.ascii "status", .numberInteger 1)]

theorem loginRequest_stored : Cbor.Json.Stored .host loginRequest := by
  refine .object (show 2 ≤ Cbor.Limits.host.object by decide) (show Cbor.Json.Ascending _ by unfold Cbor.Json.Ascending; decide) ?_ ?_
  · decide
  · simp only [List.forall_mem_cons, List.not_mem_nil, false_imp_iff, implies_true, and_true]
    exact ⟨.numberInteger 1, .string (by decide)⟩

theorem loginResponse_stored : Cbor.Json.Stored .host loginResponse := by
  refine .object (show 3 ≤ Cbor.Limits.host.object by decide) (show Cbor.Json.Ascending _ by unfold Cbor.Json.Ascending; decide) ?_ ?_
  · decide
  · simp only [List.forall_mem_cons, List.not_mem_nil, false_imp_iff, implies_true, and_true]
    exact ⟨.numberInteger 0, .array (Nat.zero_le _) nofun, .numberInteger 1⟩

end LAppS.LuaReactiveService

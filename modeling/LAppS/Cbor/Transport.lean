import LAppS.ClientWebSocket.Send
import LAppS.Rfc6455.Streams
import LAppS.WebSocketProtocol.Fragmentation
import LAppS.Cbor.Writer

/-!
# JSON values on a connection

What a client sends with `nljson.to_cbor` and what a service sends of the values that `ws:send` accepts, from the value on the
one side to the messages or values on the other: CBOR, frames, fragments, masks, and a stream that arrives in pieces.
-/

namespace LAppS.Cbor
open Rfc6455 StreamProcessing WebSocketProtocol

/-- The value that a client reads of a binary message. -/
def valueOf (L : Limits) : Event → Option Json
  | .message .binary payload => (fromCbor L payload).toOption
  | _ => none

def valuesOf (L : Limits) (events : List Event) : Option (List Json) := events.mapM (valueOf L)

/-- The frames of a client, each with its mask. -/
def clientStream (sent : List (UInt32 × Json)) : List UInt8 :=
  sent.flatMap fun p => ClientWebSocket.send p.1 (some (toCbor p.2)) (toCbor p.2).length .binary

/-- What `wssend_lapps` queues for a value that it accepts. -/
def serverMessage (mustAutoFragment : Bool) (v : Json) : List (List UInt8) :=
  if mustAutoFragment then FragmentedServerMessage.ofVector .binary (toCbor v) else [ServerMessage.ofVector .binary (toCbor v)]

def serverStream (mustAutoFragment : Bool) (values : List Json) : List UInt8 :=
  values.flatMap fun v => (serverMessage mustAutoFragment v).flatten

/-! ### Streams of messages -/

variable {L : Limits} {limit : Nat} {chunks : List (List UInt8)}

/-- However a stream of messages is cut, a parser delivers the messages. -/
theorem received_all (role : Role) (presz : Nat) {fs : List Frame} {ms : List (OpCode × List UInt8)} (carries : CarriesAll fs ms)
    (small : limit < 2 ^ 64) (short : ∀ m ∈ ms, m.2.length ≤ limit) (prompt : Prompt (role.config limit) fs)
    (nonempty : [] ∉ chunks) (whole : chunks.flatten = encodeAll (role.config limit).masked fs) :
    received role presz limit chunks = (ms.map Event.ofMessage, .ok .more) := by
  obtain ⟨ran, along⟩ := run_encodeAll (clear_permits role small) carries.legalSeq (carries.withinSeq short) prompt
  have opened : Rfc6455.closes fs = false := by
    rw [Rfc6455.closes, List.any_eq_false]
    intro f hf
    rw [carries.stays f hf]
    decide
  rw [received_run presz nonempty (whole ▸ along), whole]
  have ran' : Decoder.run (role.config limit) {} (encodeAll (role.config limit).masked fs) = _ := ran
  rw [ran', opened, carries.assemble]
  rfl

theorem toCbor_ne_nil {v : Json} (stored : Json.Stored L v) : toCbor v ≠ [] := (writeCbor_item stored).ne_nil

/-- The message that a value travels in. -/
def messageOf (v : Json) : OpCode × List UInt8 := (.binary, toCbor v)

theorem clientStream_carries {sent : List (UInt32 × Json)} (stored : ∀ p ∈ sent, Json.Stored L p.2)
    (short : ∀ p ∈ sent, (toCbor p.2).length ≤ limit) (small : limit < 2 ^ 64) :
    ∃ fs, clientStream sent = encodeAll true fs ∧ CarriesAll fs (sent.map fun p => messageOf p.2) := by
  induction sent with
  | nil => exact ⟨[], rfl, .nil⟩
  | cons p sent ih =>
    obtain ⟨storedHere, storedLater⟩ := List.forall_mem_cons.mp stored
    obtain ⟨shortHere, shortLater⟩ := List.forall_mem_cons.mp short
    obtain ⟨fs, bytes, carries⟩ := ih storedLater shortLater
    have fits : (toCbor p.2).length < 2 ^ 64 := by omega
    refine ⟨[ClientWebSocket.clientFrame p.1 .binary (toCbor p.2) fits] ++ fs, ?_, .cons (.last rfl rfl rfl) carries⟩
    rw [clientStream, List.flatMap_cons, ← clientStream, bytes, ClientWebSocket.send_eq_encode fits (toCbor_ne_nil storedHere)]
    rfl

theorem serverMessage_carries {v : Json} (stored : Json.Stored L v) (fits : (toCbor v).length < 2 ^ 64) (mustAutoFragment : Bool) :
    ∃ fs, (serverMessage mustAutoFragment v).flatten = encodeAll false fs ∧ Carries none fs .binary (toCbor v) ∧
      ∀ f ∈ fs, f.payload ≠ [] := by
  have built : (serverMessage mustAutoFragment v).flatten ∈ streams .binary (toCbor v) [] := by
    rw [serverMessage, streams]
    cases mustAutoFragment with
    | true =>
      rw [if_pos rfl]
      exact List.mem_cons_of_mem _ List.mem_cons_self
    | false => simp
  exact streams_carries rfl fits (toCbor_ne_nil stored) built

theorem serverStream_carries {values : List Json} (stored : ∀ v ∈ values, Json.Stored L v)
    (short : ∀ v ∈ values, (toCbor v).length ≤ limit) (small : limit < 2 ^ 64) (mustAutoFragment : Bool) :
    ∃ fs, serverStream mustAutoFragment values = encodeAll false fs ∧ CarriesAll fs (values.map messageOf) ∧
      ∀ f ∈ fs, f.payload ≠ [] := by
  induction values with
  | nil => exact ⟨[], rfl, .nil, fun f hf => absurd hf List.not_mem_nil⟩
  | cons v values ih =>
    obtain ⟨storedHere, storedLater⟩ := List.forall_mem_cons.mp stored
    obtain ⟨shortHere, shortLater⟩ := List.forall_mem_cons.mp short
    obtain ⟨fs, bytes, carries, full⟩ := ih storedLater shortLater
    obtain ⟨gs, bytes', carries', full'⟩ := serverMessage_carries storedHere (by omega) mustAutoFragment
    refine ⟨gs ++ fs, ?_, .cons carries' carries, fun f hf => ?_⟩
    · rw [serverStream, List.flatMap_cons, ← serverStream, bytes, bytes', encodeAll_append]
    · exact (List.mem_append.mp hf).elim (full' f) (full f)

theorem valuesOf_messages {values : List Json} (stored : ∀ v ∈ values, Json.Stored L v) :
    valuesOf L (values.map fun v => Event.ofMessage (messageOf v)) = some (values.map asRead) := by
  induction values with
  | nil => rfl
  | cons v values ih =>
    obtain ⟨here, later⟩ := List.forall_mem_cons.mp stored
    have first : valueOf L (Event.ofMessage (messageOf v)) = some (asRead v) := by
      rw [messageOf, Event.ofMessage, valueOf, toCbor, fromCbor_writeCbor here]
      rfl
    have rest : (values.map fun v => Event.ofMessage (messageOf v)).mapM (valueOf L) = _ := ih later
    rw [valuesOf, List.map_cons, List.mapM_cons, first, rest]
    rfl

/-- What a client sends arrives in messages of its own. -/
theorem server_receives (presz : Nat) {sent : List (UInt32 × Json)} (stored : ∀ p ∈ sent, Json.Stored L p.2) (small : limit < 2 ^ 64)
    (short : ∀ p ∈ sent, (toCbor p.2).length ≤ limit) (nonempty : [] ∉ chunks) (whole : chunks.flatten = clientStream sent) :
    received .server presz limit chunks = (sent.map fun p => Event.ofMessage (messageOf p.2), .ok .more) := by
  obtain ⟨fs, bytes, carries⟩ := clientStream_carries stored short small
  have got := received_all .server presz carries small (List.forall_mem_map.mpr short) (.inl rfl) nonempty (whole.trans bytes)
  rw [got, List.map_map]
  rfl

/-- What the server sends is what the client reads. -/
theorem client_reads (presz : Nat) {values : List Json} (stored : ∀ v ∈ values, Json.Stored L v) (small : limit < 2 ^ 64)
    (short : ∀ v ∈ values, (toCbor v).length ≤ limit) (mustAutoFragment : Bool) (nonempty : [] ∉ chunks)
    (whole : chunks.flatten = serverStream mustAutoFragment values) :
    valuesOf L (received .client presz limit chunks).1 = some (values.map asRead) ∧
      (received .client presz limit chunks).2 = .ok .more := by
  obtain ⟨fs, bytes, carries, full⟩ := serverStream_carries stored short small mustAutoFragment
  have got := received_all .client presz carries small (List.forall_mem_map.mpr short) (.inr full) nonempty (whole.trans bytes)
  rw [got, List.map_map]
  exact ⟨valuesOf_messages stored, rfl⟩

end LAppS.Cbor

import LAppS.Json

/-!
# Messages of the LAppS protocol

`isLAppSOutMessageValid` and `isLAppSBcastMessageValid` against the Response object and the Out of Order Notification of
the protocol specification. The first asks a notification for a status that the specification does not mention; the second
does not look at the channel.
-/

namespace LAppS
open Json

/-- What `ws:send` accepts from a service with the LAppS protocol. -/
def isLAppSOutMessageValid (msg : Json) : Bool :=
  match msg.find "cid" with
  | none => false
  | some cid =>
    if cid.isNull then false
    else if cid.isNumber then
      match msg.find "status" with
      | none => false
      | some status =>
        if status.isNumber && (status.equals 1 || status.equals 0) then
          if status.equals 0 then
            if !cid.equals 0 then false
            else
              match msg.find "error" with
              | none => false
              | some error =>
                ((error.find "code").any fun code => !code.isNull && code.isNumber) &&
                  (error.find "message").any fun message => !message.isNull && message.isString
          else if cid.equals 0 then (msg.find "result").any fun result => !result.isNull && result.isArray
          else (msg.find "message").any fun message => !message.isNull && message.isArray
        else false
    else false

/-- What `bcast:send` accepts. -/
def isLAppSBcastMessageValid (msg : Json) : Bool :=
  match msg.find "cid" with
  | none => false
  | some cid =>
    if cid.isNull then false
    else if cid.isNumber then (msg.find "message").any isArray
    else false

/-! ### The specification -/

/-- Section 5, for a method that has succeeded. -/
structure Success (m : Json) : Prop where
  cid : m.find "cid" = some (.number 0)
  status : m.find "status" = some (.number 1)
  result : ∃ items, m.find "result" = some (.array items)

/-- Section 5, for a method that has failed. -/
structure Failure (m : Json) : Prop where
  cid : m.find "cid" = some (.number 0)
  status : m.find "status" = some (.number 0)
  error : ∃ members code message, m.find "error" = some (.object members) ∧
    members.lookup "code" = some (.number code) ∧ members.lookup "message" = some (.string message)

def Response (m : Json) : Prop := Success m ∨ Failure m

/-- Section 6, on a channel other than that of the responses. -/
structure Notification (m : Json) : Prop where
  cid : ∃ channel, channel ≠ 0 ∧ m.find "cid" = some (.number channel)
  message : ∃ items, m.find "message" = some (.array items)

/-- Both functions accept what the specification says. -/
structure Conforms (m : Json) : Prop where
  send : isLAppSOutMessageValid m = true ↔ Response m ∨ Notification m
  broadcast : isLAppSBcastMessageValid m = true ↔ Notification m

/-- A message for a channel has the status of a success, and none is for the channel of the responses. -/
structure Unambiguous (m : Json) : Prop where
  status : Notification m → m.find "status" = some (.number 1)
  channel : m.find "cid" = some (.number 0) → ∀ items, m.find "message" ≠ some (.array items)

/-! ### What the functions accept -/

theorem any_isArray_iff {v : Option Json} : v.any isArray = true ↔ ∃ items, v = some (.array items) := by
  cases v with
  | none => simp
  | some v => simp [isArray_iff]

/-- A value of a type that a null does not have is found exactly when the checks for both pass. -/
theorem any_kind_iff {α : Type} {make : α → Json} {kind : Json → Bool} (of_kind : ∀ {j}, kind j = true ↔ ∃ a, j = make a)
    (present : ∀ a, (make a).isNull = false) {v : Option Json} :
    (v.any fun j => !j.isNull && kind j) = true ↔ ∃ a, v = some (make a) := by
  cases v with
  | none => simp
  | some j =>
    simp only [Option.any_some, Bool.and_eq_true, Bool.not_eq_true', Option.some.injEq, of_kind]
    constructor
    · exact And.right
    · rintro ⟨a, rfl⟩
      exact ⟨present a, a, rfl⟩

theorem any_array_iff {v : Option Json} :
    (v.any fun j => !j.isNull && j.isArray) = true ↔ ∃ items, v = some (.array items) :=
  any_kind_iff isArray_iff fun _ => rfl

theorem error_iff {v : Json} :
    (((v.find "code").any fun code => !code.isNull && code.isNumber) &&
      (v.find "message").any fun message => !message.isNull && message.isString) = true ↔
    ∃ members code message, v = .object members ∧ members.lookup "code" = some (.number code) ∧
      members.lookup "message" = some (.string message) := by
  rw [Bool.and_eq_true, any_kind_iff isNumber_iff fun _ => rfl, any_kind_iff isString_iff fun _ => rfl]
  cases v <;> simp [find]

theorem number_unique {v : Option Json} {c d : Rat} (h : v = some (.number c)) (h' : v = some (.number d)) : c = d :=
  Json.number.inj (Option.some.inj (h.symm.trans h'))

section Numbers

variable {m : Json} {cid : Rat}

/-- With the status 0 an error is asked for, on the channel of the responses. -/
theorem out_valid_error (hcid : m.find "cid" = some (.number cid)) (hstatus : m.find "status" = some (.number 0)) :
    isLAppSOutMessageValid m = true ↔ Failure m := by
  by_cases cch : cid = 0
  · subst cch
    have unfolded : isLAppSOutMessageValid m = true ↔ ∃ error, m.find "error" = some error ∧
        (((error.find "code").any fun code => !code.isNull && code.isNumber) &&
          (error.find "message").any fun message => !message.isNull && message.isString) = true := by
      simp only [isLAppSOutMessageValid, hcid, hstatus, isNull, isNumber, equals]
      cases m.find "error" <;> simp
    simp only [unfolded, error_iff]
    constructor
    · rintro ⟨error, found, members, code, message, rfl, hcode, hmessage⟩
      exact ⟨hcid, hstatus, members, code, message, found, hcode, hmessage⟩
    · rintro ⟨_, _, members, code, message, found, hcode, hmessage⟩
      exact ⟨.object members, found, members, code, message, rfl, hcode, hmessage⟩
  · refine iff_of_false ?_ fun failure => ?_
    · simp [isLAppSOutMessageValid, hcid, hstatus, isNull, isNumber, equals, cch]
    · exact cch (number_unique hcid failure.cid)

/-- With the status 1 the channel decides between a result and a message. -/
theorem out_valid_success (hcid : m.find "cid" = some (.number cid)) (hstatus : m.find "status" = some (.number 1)) :
    isLAppSOutMessageValid m = true ↔ Success m ∨ Notification m := by
  by_cases cch : cid = 0
  · subst cch
    have unfolded : isLAppSOutMessageValid m = true ↔ ∃ items, m.find "result" = some (.array items) := by
      simp only [isLAppSOutMessageValid, hcid, hstatus, isNull, isNumber, equals, ← any_array_iff]
      simp
    rw [unfolded]
    constructor
    · intro result
      exact .inl ⟨hcid, hstatus, result⟩
    · rintro (success | ⟨⟨channel, other, hchannel⟩, _⟩)
      · exact success.result
      · exact absurd (number_unique hchannel hcid) other
  · have unfolded : isLAppSOutMessageValid m = true ↔ ∃ items, m.find "message" = some (.array items) := by
      simp only [isLAppSOutMessageValid, hcid, hstatus, isNull, isNumber, equals, ← any_array_iff]
      simp [cch]
    rw [unfolded]
    constructor
    · intro message
      exact .inr ⟨⟨cid, cch, hcid⟩, message⟩
    · rintro (success | notification)
      · exact absurd (number_unique hcid success.cid) cch
      · exact notification.message

end Numbers

/-- A notification has to come with the status of a success. -/
theorem out_valid_iff {m : Json} : isLAppSOutMessageValid m = true ↔
    Response m ∨ Notification m ∧ m.find "status" = some (.number 1) := by
  constructor
  · intro valid
    have numbers : ∃ cid status, m.find "cid" = some (.number cid) ∧ m.find "status" = some (.number status) ∧
        (status = 1 ∨ status = 0) := by
      unfold isLAppSOutMessageValid at valid
      split at valid
      · cases valid
      next cid hcid =>
        split at valid
        · cases valid
        · split at valid
          next number =>
            split at valid
            · cases valid
            next status hstatus =>
              split at valid
              next known =>
                obtain ⟨q, rfl⟩ := isNumber_iff.mp number
                rw [Bool.and_eq_true, Bool.or_eq_true, equals_iff, equals_iff] at known
                rcases known.2 with rfl | rfl
                · exact ⟨q, 1, hcid, hstatus, .inl rfl⟩
                · exact ⟨q, 0, hcid, hstatus, .inr rfl⟩
              · cases valid
          · cases valid
    obtain ⟨cid, status, hcid, hstatus, rfl | rfl⟩ := numbers
    · rcases (out_valid_success hcid hstatus).mp valid with success | notification
      · exact .inl (.inl success)
      · exact .inr ⟨notification, hstatus⟩
    · exact .inl (.inr ((out_valid_error hcid hstatus).mp valid))
  · rintro ((success | failure) | ⟨notification, hstatus⟩)
    · exact (out_valid_success success.cid success.status).mpr (.inl success)
    · exact (out_valid_error failure.cid failure.status).mpr failure
    · obtain ⟨channel, _, hcid⟩ := notification.cid
      exact (out_valid_success hcid hstatus).mpr (.inr notification)

theorem bcast_valid_iff {m : Json} : isLAppSBcastMessageValid m = true ↔
    ∃ channel items, m.find "cid" = some (.number channel) ∧ m.find "message" = some (.array items) := by
  unfold isLAppSBcastMessageValid
  cases hcid : m.find "cid" with
  | none => simp
  | some cid => cases cid <;> simp [isNull, isNumber, any_isArray_iff]

/-- The functions conform to the specification for exactly the unambiguous messages. -/
theorem conforms_iff_unambiguous (m : Json) : Conforms m ↔ Unambiguous m := by
  constructor
  · rintro ⟨send, broadcast⟩
    constructor
    · intro notification
      rcases out_valid_iff.mp (send.mpr (.inr notification)) with (success | failure) | ⟨_, status⟩
      · exact success.status
      · obtain ⟨channel, other, hcid⟩ := notification.cid
        exact absurd (number_unique hcid failure.cid) other
      · exact status
    · intro cch items message
      obtain ⟨channel, other, hcid⟩ := (broadcast.mp (bcast_valid_iff.mpr ⟨0, items, cch, message⟩)).cid
      exact absurd (number_unique hcid cch) other
  · rintro ⟨status, channel⟩
    constructor
    · rw [out_valid_iff]
      constructor
      · rintro (response | ⟨notification, _⟩)
        · exact .inl response
        · exact .inr notification
      · rintro (response | notification)
        · exact .inl response
        · exact .inr ⟨notification, status notification⟩
    · rw [bcast_valid_iff]
      constructor
      · rintro ⟨c, items, hcid, message⟩
        refine ⟨⟨c, ?_, hcid⟩, items, message⟩
        rintro rfl
        exact channel hcid items message
      · rintro ⟨⟨c, _, hcid⟩, items, message⟩
        exact ⟨c, items, hcid, message⟩

/-- A broadcast on the channel of the responses. -/
theorem lapps_messages_counterexample : ¬Conforms (.object [("cid", .number 0), ("message", .array [])]) := by
  intro conforms
  obtain ⟨channel, other, hcid⟩ := (conforms.broadcast.mp rfl).cid
  exact other (number_unique hcid rfl)

/-- A notification as the specification has it is not sent. -/
example : isLAppSOutMessageValid (.object [("cid", .number 5), ("message", .array [])]) = false := by decide

end LAppS

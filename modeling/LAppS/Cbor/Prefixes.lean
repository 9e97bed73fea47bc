import LAppS.Cbor.Accepted

/-!
# Input that is cut off or goes on

The reader never needs more recursion than there are bytes. It tells apart an input that has ended too early from one that
is wrong: the former is a part of a data item, and more input could make one of it.
-/

namespace LAppS.Cbor
open Bytes Reading Ieee754

variable {L : Limits}

/-- What is thrown for the byte behind the end. -/
def Eof (byte : Nat) (e : Exception) : Prop :=
  ∃ context, Stop.thrown e = parseError 110 byte (exceptionMessage "unexpected end of input" context)

theorem unexpectEof_thrown {α : Type} (context : String) (s : Input) :
    ∃ e, (unexpectEof context : Reader Exception α) s = .error (.thrown e) ∧ Eof s.charsRead e :=
  ⟨_, rfl, context, rfl⟩

theorem currentByte_refuses (context : String) (s : Input) :
    ∃ e, currentByte context none s = .error (.thrown e) ∧ Eof s.charsRead e :=
  unexpectEof_thrown context s

theorem getCborString_refuses (fuel : Nat) (s : Input) :
    ∃ e, getCborString fuel none s = .error (.thrown e) ∧ Eof s.charsRead e := by
  rw [getCborString_none]
  exact unexpectEof_thrown "string" s

theorem parseCborInternal_refuses (fuel : Nat) (s : Input) :
    ∃ e, parseCborInternal L fuel none s = .error (.thrown e) ∧ Eof s.charsRead e := by
  rw [parseCborInternal_none]
  exact unexpectEof_thrown "value" s

theorem getMember_refuses (parse : Option UInt8 → Reader Exception Json) (fuel : Nat) (s : Input) :
    ∃ e, getMember parse fuel none s = .error (.thrown e) ∧ Eof s.charsRead e := by
  rw [getMember, andThen, getCborString_none]
  exact unexpectEof_thrown "string" s

/-! ### The recursion ends -/

theorem of_eof {α : Type} {read : Reader Exception α} (h : ∀ s, ∃ e, read s = .error (.thrown e) ∧ Eof s.charsRead e) (s : Input) :
    ∃ e, read s = .error (.thrown e) := by
  obtain ⟨e, thrown, -⟩ := h s
  exact ⟨e, thrown⟩

theorem currentByte_settles (context : String) (n : Nat) : Settles (next (currentByte context)) n := by
  obtain _ | n := n
  · intro s short
    cases short
  · exact next_settles (of_eof (currentByte_refuses context)) fun b => done_settles b n

theorem getNumber_settles (size n : Nat) : Settles (getNumber size) n :=
  andThen_settles (repeated_sound (currentByte_sound "number") size)
    (repeated_settles (currentByte_sound "number") (currentByte_settles "number" n) size) fun _ => done_settles _ n

theorem getString_settles (len n : Nat) : Settles (getString len) n :=
  repeated_settles (currentByte_sound "string") (currentByte_settles "string" n) len

theorem next_string_sound (fuel : Nat) : Sound (next (getCborString fuel)) Text := by
  apply next_sound _ fun b => getCborString_sound fuel b
  rw [getCborString_none]
  exact unexpectEof_ne_ok "string"

theorem getCborString_settles (fuel : Nat) (current : UInt8) : Settles (getCborString fuel (some current)) fuel := by
  induction fuel generalizing current with
  | zero =>
    intro s short
    cases short
  | succ fuel ih =>
    have chunk : Settles (next (getCborString fuel)) (fuel + 1) := next_settles (of_eof (getCborString_refuses fuel)) ih
    have chunks : Settles (untilByte 0xFF (getCborString fuel) (fuel + 1)) (fuel + 1) :=
      untilByte_settles (next_string_sound fuel) (fun _ _ h => h.ne_nil) chunk (Nat.le_refl _)
    rw [getCborString]
    apply of_ite (P := fun read => Settles read (fuel + 1))
    · exact fun _ => getString_settles _ _
    · intro _
      apply of_ite (P := fun read => Settles read (fuel + 1))
      · exact fun _ => andThen_settles (getNumber_sound _) (getNumber_settles _ _) fun len => getString_settles len _
      · intro _
        apply of_ite (P := fun read => Settles read (fuel + 1))
        · exact fun _ => andThen_settles (untilByte_sound (next_string_sound fuel) _) chunks fun _ => done_settles _ _
        · exact fun _ => thrown_settles _ _

theorem Member.ne_nil {bs : Bytes} {m : Bytes × Json} (h : Member L bs m) : bs ≠ [] := by
  obtain ⟨keyBytes, valueBytes, rfl, key, -⟩ := h
  exact List.append_ne_nil_of_left_ne_nil key.ne_nil _

theorem getContainer_settles {α : Type} {read : Option UInt8 → Reader Exception α} {R : Bytes → α → Prop}
    (sound : Sound (next read) R) (nonempty : ∀ bs a, R bs a → bs ≠ []) {fuel : Nat} (h : Settles (next read) fuel)
    (kind : String) (maxSize : Nat) (make : List α → Json) (len : Nat) :
    Settles (getContainer kind maxSize read make fuel len) fuel := by
  rw [getContainer]
  apply of_ite (P := fun read => Settles read fuel)
  · exact fun _ => thrown_settles _ _
  · intro _
    by_cases indefinite : len = sizeMax
    · rw [if_neg (not_not.mpr indefinite)]
      exact andThen_settles (untilByte_sound sound fuel) (untilByte_settles sound nonempty h (Nat.le_refl _))
        fun as => done_settles _ _
    · rw [if_pos indefinite]
      exact andThen_settles (repeated_sound sound len) (repeated_settles sound h len) fun as => done_settles _ _

theorem parseCborInternal_settles (fuel : Nat) (current : UInt8) :
    Settles (parseCborInternal L fuel (some current)) fuel := by
  induction fuel generalizing current with
  | zero =>
    intro s short
    cases short
  | succ fuel ih =>
    have element : Settles (next (parseCborInternal L fuel)) (fuel + 1) :=
      next_settles (of_eof (parseCborInternal_refuses fuel)) ih
    have elements := next_parse_sound L fuel
    have member : Settles (next (getMember (parseCborInternal L fuel) (fuel + 1))) (fuel + 1) := by
      apply next_settles (of_eof (getMember_refuses _ _))
      intro b
      have key := (getCborString_settles (fuel + 1) b).mono (Nat.le_succ fuel)
      exact andThen_settles (getCborString_sound _ b) key fun _ =>
        andThen_settles elements (element.mono (Nat.le_succ fuel)) fun _ => done_settles _ _
    have members := next_member_sound elements (fuel + 1)
    have arrays := getContainer_settles elements (fun _ _ h => h.ne_nil) element "array" L.array Json.array
    have objects := getContainer_settles members (fun _ _ h => h.ne_nil) member "object" L.object
      fun members => .object (Json.ofMembers members)
    have number (size : Nat) {g : Nat → Reader Exception Json} (h : ∀ n, Settles (g n) (fuel + 1)) :
        Settles (andThen (getNumber size) g) (fuel + 1) :=
      andThen_settles (getNumber_sound size) (getNumber_settles size _) h
    apply parseCborInternal_cases (P := fun read => Settles read (fuel + 1))
    case unsigned | negative => exact fun _ => done_settles _ _
    case unsignedNumber | negativeNumber => exact fun _ => number _ fun n => done_settles _ _
    case string =>
      exact andThen_settles (getCborString_sound _ current) (getCborString_settles _ current) fun s => done_settles _ _
    case array | openArray => exact fun _ => arrays _
    case arrayNumber => exact fun _ => number _ arrays
    case object | openObject => exact fun _ => objects _
    case objectNumber => exact fun _ => number _ objects
    case simple => exact fun _ _ _ _ => done_settles _ _
    case float => exact fun _ _ _ _ _ => number _ fun n => done_settles _ _
    case invalid => exact thrown_settles _ _

theorem fromCbor_ne_fuel (L : Limits) (bytes : Bytes) : fromCbor L bytes ≠ .error .fuel := by
  have value : Settles (next (parseCborInternal L bytes.length)) (bytes.length + 1) :=
    next_settles (of_eof (parseCborInternal_refuses _)) fun b => parseCborInternal_settles _ b
  have ended (v : Json) : Settles (next (strict v)) (bytes.length + 1) := by
    rintro ⟨rest, n⟩ - h
    cases rest <;> cases h
  have all := andThen_settles (next_parse_sound L _) value ended ⟨bytes, 0⟩ (Nat.lt_succ_self _)
  intro h
  unfold fromCbor at h
  split at h
  next => cases h
  next e failed =>
    rw [Except.error.inj h] at failed
    exact all failed

theorem getCborString_deeper (fuel : Nat) (current : Option UInt8) :
    Deeper (getCborString fuel current) (getCborString (fuel + 1) current) := by
  induction fuel generalizing current with
  | zero =>
    cases current with
    | none => exact .refl _
    | some b => exact fuel_deeper _
  | succ fuel ih =>
    cases current with
    | none => exact .refl _
    | some b =>
      rw [getCborString, getCborString]
      exact ite_deeper (.refl _) (ite_deeper (.refl _)
        (ite_deeper (andThen_deeper (untilByte_deeper ih (fuel + 1)) fun _ => .refl _) (.refl _)))

theorem getContainer_deeper {α : Type} {read read' : Option UInt8 → Reader Exception α}
    (h : ∀ current, Deeper (read current) (read' current)) (kind : String) (maxSize : Nat) (make : List α → Json)
    (fuel len : Nat) : Deeper (getContainer kind maxSize read make fuel len)
      (getContainer kind maxSize read' make (fuel + 1) len) := by
  rw [getContainer, getContainer]
  exact ite_deeper (.refl _) (andThen_deeper
    (ite_deeper (repeated_deeper (next_deeper h) len) (untilByte_deeper h fuel)) fun _ => .refl _)

theorem parseCborInternal_deeper (fuel : Nat) (current : Option UInt8) :
    Deeper (parseCborInternal L fuel current) (parseCborInternal L (fuel + 1) current) := by
  induction fuel generalizing current with
  | zero =>
    cases current with
    | none => exact .refl _
    | some b => exact fuel_deeper _
  | succ fuel ih =>
    cases current with
    | none => exact .refl _
    | some b =>
      have member (current : Option UInt8) : Deeper (getMember (parseCborInternal L fuel) (fuel + 1) current)
          (getMember (parseCborInternal L (fuel + 1)) (fuel + 2) current) :=
        andThen_deeper (getCborString_deeper _ current) fun _ => andThen_deeper (next_deeper ih) fun _ => .refl _
      have arrays := getContainer_deeper ih "array" L.array Json.array (fuel + 1)
      have objects := getContainer_deeper member "object" L.object (fun members => .object (Json.ofMembers members)) (fuel + 1)
      have string := andThen_deeper (getCborString_deeper (fuel + 1) (some b)) fun s => .refl (done (Json.string s))
      rw [parseCborInternal, parseCborInternal]
      refine ite_deeper (.refl _) (ite_deeper (.refl _) (ite_deeper (.refl _) (ite_deeper (.refl _) (ite_deeper string ?_))))
      refine ite_deeper (arrays _) (ite_deeper (andThen_deeper (.refl _) arrays) (ite_deeper (arrays _) ?_))
      refine ite_deeper (objects _) (ite_deeper (andThen_deeper (.refl _) objects) (ite_deeper (objects _) ?_))
      exact .refl _

/-- Any recursion that is deep enough reads the same. -/
theorem next_parse_eq {fuel fuel' : Nat} (le : fuel ≤ fuel') {s : Input} (short : s.rest.length ≤ fuel) :
    next (parseCborInternal L fuel') s = next (parseCborInternal L fuel) s := by
  induction fuel', le using Nat.le_induction with
  | base => rfl
  | succ fuel' le ih =>
    rw [← ih]
    apply next_deeper (parseCborInternal_deeper fuel')
    exact next_settles (of_eof (parseCborInternal_refuses _)) (fun b => parseCborInternal_settles _ b) s (by omega)

/-! ### More input -/

theorem currentByte_incremental (context : String) : Incremental Eof (next (currentByte context)) :=
  next_incremental (currentByte_refuses context) fun b => done_incremental b

theorem getNumber_incremental (size : Nat) : Incremental Eof (getNumber size) :=
  andThen_incremental (repeated_sound (currentByte_sound "number") size)
    (repeated_incremental (currentByte_sound "number") (currentByte_incremental "number") size) fun _ => done_incremental _

theorem getString_incremental (len : Nat) : Incremental Eof (getString len) :=
  repeated_incremental (currentByte_sound "string") (currentByte_incremental "string") len

theorem getCborString_incremental (fuel : Nat) (current : UInt8) : Incremental Eof (getCborString fuel (some current)) := by
  induction fuel generalizing current with
  | zero => exact thrown_incremental fun _ => .fuel
  | succ fuel ih =>
    have chunks : Incremental Eof (untilByte 0xFF (getCborString fuel) (fuel + 1)) :=
      untilByte_incremental (getCborString_refuses fuel) (getCborString_sound fuel) ih (fuel + 1)
    rw [getCborString]
    apply of_ite (P := Incremental Eof)
    · exact fun _ => getString_incremental _
    · intro _
      apply of_ite (P := Incremental Eof)
      · exact fun _ => andThen_incremental (getNumber_sound _) (getNumber_incremental _) getString_incremental
      · intro _
        apply of_ite (P := Incremental Eof)
        · exact fun _ => andThen_incremental (untilByte_sound (next_string_sound fuel) _) chunks fun _ => done_incremental _
        · exact fun _ => thrown_incremental fun n => parseError 113 n _

theorem getContainer_incremental {α : Type} {read : Option UInt8 → Reader Exception α} {R : Bytes → α → Prop}
    (refuses : ∀ s, ∃ e, read none s = .error (.thrown e) ∧ Eof s.charsRead e)
    (sound : ∀ b, Sound (read (some b)) fun bs a => R (b :: bs) a) (h : ∀ b, Incremental Eof (read (some b)))
    (kind : String) (maxSize : Nat) (make : List α → Json) (fuel len : Nat) :
    Incremental Eof (getContainer kind maxSize read make fuel len) := by
  have unread (s : Input) (r : α × Input) : read none s ≠ .ok r := by
    obtain ⟨e, thrown, -⟩ := refuses s
    rw [thrown]
    exact fun h => by cases h
  have each := next_sound unread sound
  rw [getContainer]
  apply of_ite (P := Incremental Eof)
  · exact fun _ => thrown_incremental fun _ => outOfRange 408 _
  · intro _
    by_cases indefinite : len = sizeMax
    · rw [if_neg (not_not.mpr indefinite)]
      exact andThen_incremental (untilByte_sound each fuel) (untilByte_incremental refuses sound h fuel)
        fun _ => done_incremental _
    · rw [if_pos indefinite]
      exact andThen_incremental (repeated_sound each len)
        (repeated_incremental each (next_incremental refuses h) len) fun _ => done_incremental _

theorem parseCborInternal_incremental (fuel : Nat) (current : UInt8) :
    Incremental Eof (parseCborInternal L fuel (some current)) := by
  induction fuel generalizing current with
  | zero => exact thrown_incremental fun _ => .fuel
  | succ fuel ih =>
    have refuses := parseCborInternal_refuses (L := L) fuel
    have sound := parseCborInternal_sound (L := L) fuel
    have member (b : UInt8) : Incremental Eof (getMember (parseCborInternal L fuel) (fuel + 1) (some b)) :=
      andThen_incremental (getCborString_sound _ b) (getCborString_incremental _ b) fun _ =>
        andThen_incremental (next_parse_sound L fuel) (next_incremental refuses ih) fun _ => done_incremental _
    have arrays := getContainer_incremental refuses sound ih "array" L.array Json.array (fuel + 1)
    have objects := getContainer_incremental (getMember_refuses _ _)
      (getMember_sound (next_parse_sound L fuel) (fuel + 1)) member "object" L.object
      (fun members => .object (Json.ofMembers members)) (fuel + 1)
    have number (size : Nat) {g : Nat → Reader Exception Json} (h : ∀ n, Incremental Eof (g n)) :
        Incremental Eof (andThen (getNumber size) g) :=
      andThen_incremental (getNumber_sound size) (getNumber_incremental size) h
    apply parseCborInternal_cases (P := Incremental Eof)
    case unsigned | negative => exact fun _ => done_incremental _
    case unsignedNumber | negativeNumber => exact fun _ => number _ fun n => done_incremental _
    case string =>
      exact andThen_incremental (getCborString_sound _ current) (getCborString_incremental _ current) fun s =>
        done_incremental _
    case array | openArray => exact fun _ => arrays _
    case arrayNumber => exact fun _ => number _ arrays
    case object | openObject => exact fun _ => objects _
    case objectNumber => exact fun _ => number _ objects
    case simple => exact fun _ _ _ _ => done_incremental _
    case float => exact fun _ _ _ _ _ => number _ fun n => done_incremental _
    case invalid => exact thrown_incremental fun n => parseError 112 n _

/-! ### The whole input -/

theorem fromCbor_eq_of_error {bytes : Bytes} {e : Stop Exception}
    (h : next (parseCborInternal L bytes.length) ⟨bytes, 0⟩ = .error e) : fromCbor L bytes = .error e := by
  rw [fromCbor, saxParse, andThen, h]

/-- An accepted input is refused when it is cut off, for its end, and when anything follows it, for the first byte that
does. -/
theorem fromCbor_self_delimiting {bytes : Bytes} {v : Json} (accepted : fromCbor L bytes = .ok v) :
    (∀ p q, bytes = p ++ q → q ≠ [] → ∃ e, fromCbor L p = .error (.thrown e) ∧ Eof (p.length + 1) e) ∧
      ∀ b q, fromCbor L (bytes ++ b :: q) = .error (parseError 110 (bytes.length + 1)
        (exceptionMessage ("expected end of input; last byte: 0x" ++ getTokenString b) "value")) := by
  have item := (fromCbor_ok_iff L bytes v).mp accepted
  constructor
  · rintro p q rfl more
    have le : p.length ≤ (p ++ q).length := by rw [List.length_append]; omega
    have same := next_parse_eq (L := L) le (s := ⟨p, 0⟩) (Nat.le_refl _)
    have whole := next_takes (item.takes (Nat.le_refl _)) [] 0
    rw [List.append_nil] at whole
    obtain ⟨e, thrown, behind⟩ | extended := next_incremental (parseCborInternal_refuses _)
      (parseCborInternal_incremental (L := L) (p ++ q).length) p 0
    · rw [Nat.zero_add] at behind
      exact ⟨e, fromCbor_eq_of_error (same ▸ thrown), behind⟩
    · -- the reader did not reach the end of the prefix, and would have left the rest
      rw [extended q] at whole
      cases parsed : next (parseCborInternal L (p ++ q).length) ⟨p, 0⟩ with
      | error e =>
        rw [parsed] at whole
        cases whole
      | ok r =>
        rw [parsed] at whole
        have left : r.2.rest ++ q = [] := congrArg Input.rest (Prod.mk.inj (Except.ok.inj whole)).2
        exact absurd (List.append_eq_nil_iff.mp left).2 more
  · intro b q
    have enough : bytes.length ≤ (bytes ++ b :: q).length := by rw [List.length_append]; omega
    have taken := next_takes (item.takes enough) (b :: q) 0
    rw [fromCbor, saxParse, andThen_eq taken, Nat.zero_add]
    rfl

theorem fromCbor_self_delimiting_array :
    fromCbor .host [0x82, 0x01, 0xF6] = .ok (.array [.numberUnsigned 1, .null]) ∧
      ∃ e, fromCbor .host [0x82, 0x01] = .error (.thrown e) ∧ Eof 3 e := by
  have accepted : fromCbor .host [0x82, 0x01, 0xF6] = .ok (.array [.numberUnsigned 1, .null]) := rfl
  exact ⟨accepted, (fromCbor_self_delimiting accepted).1 [0x82, 0x01] [0xF6] rfl (List.cons_ne_nil _ _)⟩

/-! ### Floating-point numbers -/

theorem quieted_spec {f : Nat} (short : f < 2 ^ 23) : quieted f ≠ 0 ∧ quieted f < 2 ^ 52 := by
  unfold quieted
  split <;> omega

theorem datum_ofNat (n : Nat) : binary64.datum (UInt64.ofNat n).toNat = binary64.datum n := by
  rw [UInt64.toNat_ofNat']
  exact binary64.datum_mod n

/-- Wherever the reader meets a number of half or single precision, it goes on behind it with the double of the same
value. -/
theorem parseCborInternal_widens (L : Limits) (fuel : Nat) (a b c d : UInt8) (rest : Bytes) (n : Nat) :
    (∃ x, parseCborInternal L (fuel + 1) (some 0xF9) ⟨a :: b :: rest, n⟩ = .ok (.numberFloat x, ⟨rest, n + 2⟩) ∧
        binary64.datum x.toNat = binary16.datum (beToNat [a, b])) ∧
      ∃ x, parseCborInternal L (fuel + 1) (some 0xFA) ⟨a :: b :: c :: d :: rest, n⟩ =
          .ok (.numberFloat x, ⟨rest, n + 4⟩) ∧
        binary64.datum x.toNat = binary32.datum (beToNat [a, b, c, d]) := by
  constructor
  · have taken := fixed_takes (fun m => .numberFloat (UInt64.ofNat (halfToDouble m)))
      (show List.length [a, b] = 2 from rfl) rest n
    refine ⟨_, taken, ?_⟩
    rw [datum_ofNat, halfToDouble_eq]
    exact datum_widen narrow_binary16 (fun _ _ => ⟨by decide, by decide⟩) _
  · have taken := fixed_takes (fun m => .numberFloat (UInt64.ofNat (widen binary32 quieted m)))
      (show List.length [a, b, c, d] = 4 from rfl) rest n
    refine ⟨_, taken, ?_⟩
    rw [datum_ofNat]
    exact datum_widen narrow_binary32 (fun f short => quieted_spec short) _

end LAppS.Cbor

import LAppS.Cbor.Reader

/-!
# What `from_cbor` accepts

The reader takes exactly the data items of `Item`, each with its value.
-/

namespace LAppS.Cbor
open Bytes Reading Ieee754

/-! ### Bytes and numbers -/

theorem currentByte_sound (context : String) : Sound (next (currentByte context)) fun bs b => bs = [b] := by
  apply next_sound
  · intro s r h
    cases h
  · intro b s a s' ok
    cases ok
    exact ⟨[], rfl, rfl, rfl⟩

theorem getString_sound (len : Nat) : Sound (getString len) fun bs s => bs = s ∧ s.length = len := by
  apply (repeated_sound (currentByte_sound "string") len).mono
  rintro bs s ⟨same, length⟩
  exact ⟨sequence_bytes.mp same, length⟩

theorem getNumber_sound (size : Nat) : Sound (getNumber size) fun bs n => bs.length = size ∧ n = beToNat bs := by
  apply (andThen_sound (repeated_sound (currentByte_sound "number") size) fun vec => done_sound (beToNat vec)).mono
  rintro bs n ⟨xs, ys, vec, rfl, ⟨same, length⟩, rfl, rfl⟩
  rw [List.append_nil, sequence_bytes.mp same]
  exact ⟨length, rfl⟩

theorem repeated_currentByte (context : String) (bs : Bytes) :
    Takes (repeated (next (currentByte context)) bs.length) bs bs := by
  apply repeated_takes
  obtain ⟨parts, each, taken, same⟩ := sequence_bytes.mpr (Eq.refl bs)
  refine ⟨parts, fun p hp => ?_, taken, same⟩
  rw [each p hp]
  exact next_takes ⟨p.2, [], rfl, done_takes p.2⟩

theorem getNumber_takes (bs : Bytes) : Takes (getNumber bs.length) bs (beToNat bs) :=
  andThen_done_takes beToNat (repeated_currentByte "number" bs)

/-! ### Heads -/

/-- The first bytes of strings. -/
theorem Text.kind {b : UInt8} {bs s : Bytes} (h : Text (b :: bs) s) : 0x60 ≤ b.toNat ∧ b.toNat ≤ 0x7B ∨ b.toNat = 0x7F := by
  generalize same : b :: bs = all at h
  cases h with
  | definite fits =>
    obtain ⟨c, cs, first, above, below⟩ := head_first (show 0x60 + 0x20 ≤ 256 by decide) fits
    rw [first] at same
    obtain ⟨rfl, -⟩ := List.cons.inj same
    exact .inl ⟨above, below⟩
  | indefinite =>
    obtain ⟨rfl, -⟩ := List.cons.inj same
    exact .inr rfl

/-- A width that follows the first byte. -/
theorem head_of_number {base : Nat} {current : UInt8} (low : base + 0x18 ≤ current.toNat)
    (high : current.toNat ≤ base + 0x1B) {bs : Bytes} (length : bs.length = 2 ^ (current.toNat - (base + 0x18))) :
    ∃ w : Width, w.Fits (beToNat bs) ∧ head base w (beToNat bs) = current :: bs := by
  refine ⟨.following ⟨current.toNat - (base + 0x18), by omega⟩, ?_, ?_⟩
  · rw [Width.Fits, ← length]
    exact beToNat_lt bs
  · rw [head, ← length, beBytes_beToNat, Nat.add_sub_cancel' low, UInt8.ofNat_toNat]

theorem head_inline {base : Nat} {current : UInt8} (low : base ≤ current.toNat) (high : current.toNat ≤ base + 0x17) :
    ∃ w : Width, w.Fits (current.toNat - base) ∧ head base w (current.toNat - base) = [current] := by
  refine ⟨.inline, ?_, ?_⟩
  · rw [Width.Fits]
    omega
  · rw [head, Nat.add_sub_cancel' low, UInt8.ofNat_toNat]

/-! ### Strings -/

theorem getCborString_none (fuel : Nat) : getCborString fuel none = unexpectEof "string" := by
  cases fuel <;> rfl

theorem parseCborInternal_none (L : Limits) (fuel : Nat) : parseCborInternal L fuel none = unexpectEof "value" := by
  cases fuel <;> rfl

theorem unexpectEof_ne_ok {α : Type} (context : String) (s : Input) (r : α × Input) : unexpectEof context s ≠ .ok r := by
  intro h
  cases h

theorem getCborString_sound (fuel : Nat) (current : UInt8) :
    Sound (getCborString fuel (some current)) fun bs s => Text (current :: bs) s := by
  induction fuel generalizing current with
  | zero => intro s a s' ok; cases ok
  | succ fuel ih =>
    have chunk : Sound (next (getCborString fuel)) Text := by
      apply next_sound _ ih
      rw [getCborString_none]
      exact unexpectEof_ne_ok "string"
    rw [getCborString]
    split
    next inline =>
      apply (getString_sound _).mono
      rintro bs s ⟨rfl, length⟩
      obtain ⟨w, fits, same⟩ := head_inline inline.1 inline.2
      rw [show current.toNat - 0x60 = bs.length by omega] at fits same
      have text := Text.definite fits
      rwa [same] at text
    next =>
      split
      next following =>
        apply (andThen_sound (getNumber_sound _) getString_sound).mono
        rintro bs s ⟨xs, ys, n, rfl, ⟨length, rfl⟩, rfl, counted⟩
        obtain ⟨w, fits, same⟩ := head_of_number following.1 following.2 length
        rw [← counted] at fits same
        have text := Text.definite fits
        rwa [same] at text
      next =>
        split
        next open_ =>
          apply (andThen_sound (untilByte_sound chunk _) fun chunks => done_sound chunks.flatten).mono
          rintro bs s ⟨xs, ys, chunks, rfl, ⟨body, rfl, parts, each, rfl, rfl⟩, rfl, rfl⟩
          rw [List.append_nil, show current = 0x7F from UInt8.toNat_inj.mp open_]
          exact .indefinite each
        next =>
          intro s a s' ok
          cases ok

/-! ### Containers -/

/-- A length that stands for none is written in eight bytes. -/
theorem opening_full {base : Nat} {w : Width} (fits : w.Fits sizeMax) : Opening base (head base w sizeMax) := by
  cases w with
  | inline => exact absurd fits (by rw [Width.Fits]; decide)
  | following k =>
    have last : k = 3 := by
      rw [Width.Fits] at fits
      revert fits
      revert k
      decide
    subst last
    exact .full

/-- What follows the head of a container: as many as its length says, or up to the break. -/
def Body {α : Type} (R : Bytes → α → Prop) (limit len : Nat) (bs : Bytes) (as : List α) : Prop :=
  if len = sizeMax then ∃ body, bs = body ++ [0xFF] ∧ Sequence R body as
  else len ≤ limit ∧ Sequence R bs as ∧ as.length = len

theorem getContainer_sound {α : Type} {read : Option UInt8 → Reader Exception α} {R : Bytes → α → Prop}
    (h : Sound (next read) R) (kind : String) (maxSize : Nat) (make : List α → Json) (fuel len : Nat) :
    Sound (getContainer kind maxSize read make fuel len) fun bs v => ∃ as, v = make as ∧ Body R maxSize len bs as := by
  rw [getContainer]
  split
  next =>
    intro s a s' ok
    cases ok
  next small =>
    by_cases indefinite : len = sizeMax
    · rw [if_neg (not_not.mpr indefinite)]
      apply (andThen_sound (untilByte_sound h fuel) fun as => done_sound (make as)).mono
      rintro bs v ⟨xs, ys, as, rfl, within, rfl, rfl⟩
      refine ⟨as, rfl, ?_⟩
      rwa [List.append_nil, Body, if_pos indefinite]
    · rw [if_pos indefinite]
      apply (andThen_sound (repeated_sound h len) fun as => done_sound (make as)).mono
      rintro bs v ⟨xs, ys, as, rfl, within, rfl, rfl⟩
      refine ⟨as, rfl, ?_⟩
      rw [List.append_nil, Body, if_neg indefinite]
      exact ⟨by omega, within⟩

/-- The bytes of a member. -/
def Member (L : Limits) (bs : Bytes) (m : Bytes × Json) : Prop :=
  ∃ keyBytes valueBytes, bs = keyBytes ++ valueBytes ∧ Text keyBytes m.1 ∧ Item L valueBytes m.2

theorem exists_entries {L : Limits} {bs : Bytes} {members : List (Bytes × Json)} (h : Sequence (Member L) bs members) :
    ∃ entries : List Entry, bs = entries.flatMap Entry.all ∧ members = entries.map Entry.member ∧
      (∀ e ∈ entries, Text e.keyBytes e.key) ∧ ∀ e ∈ entries, Item L e.bytes e.value := by
  obtain ⟨parts, each, rfl, rfl⟩ := h
  induction parts with
  | nil => exact ⟨[], rfl, rfl, by simp, by simp⟩
  | cons p parts ih =>
    obtain ⟨⟨keyBytes, valueBytes, split, key, value⟩, each⟩ := List.forall_mem_cons.mp each
    obtain ⟨entries, bytes, members, keys, values⟩ := ih each
    refine ⟨⟨keyBytes, p.2.1, valueBytes, p.2.2⟩ :: entries, ?_, ?_, ?_, ?_⟩
    · rw [List.flatMap_cons, List.flatMap_cons, split, bytes]
      rfl
    · rw [List.map_cons, List.map_cons, members]
      rfl
    · exact List.forall_mem_cons.mpr ⟨key, keys⟩
    · exact List.forall_mem_cons.mpr ⟨value, values⟩

variable {L : Limits}

theorem Body.array {bs : Bytes} {vs : List Json} {w : Width} {len : Nat} (h : Body (Item L) L.array len bs vs)
    (fits : w.Fits len) : Item L (head 0x80 w len ++ bs) (.array vs) := by
  rw [Body] at h
  split at h
  next indefinite =>
    subst indefinite
    obtain ⟨body, rfl, parts, each, rfl, rfl⟩ := h
    exact .openArray (opening_full fits) each
  next =>
    obtain ⟨short, ⟨parts, each, rfl, rfl⟩, rfl⟩ := h
    rw [List.length_map] at fits short ⊢
    exact .array fits short each

theorem Body.object {bs : Bytes} {members : List (Bytes × Json)} {w : Width} {len : Nat}
    (h : Body (Member L) L.object len bs members) (fits : w.Fits len) :
    Item L (head 0xA0 w len ++ bs) (.object (Json.ofMembers members)) := by
  rw [Body] at h
  split at h
  next indefinite =>
    subst indefinite
    obtain ⟨body, rfl, within⟩ := h
    obtain ⟨entries, rfl, rfl, keys, each⟩ := exists_entries within
    exact .openObject (opening_full fits) keys each
  next =>
    obtain ⟨short, within, rfl⟩ := h
    obtain ⟨entries, rfl, rfl, keys, each⟩ := exists_entries within
    rw [List.length_map] at fits short ⊢
    exact .object fits short keys each

theorem getMember_sound {parse : Option UInt8 → Reader Exception Json} (h : Sound (next parse) (Item L)) (fuel : Nat)
    (b : UInt8) : Sound (getMember parse fuel (some b)) fun bs m => Member L (b :: bs) m := by
  apply (andThen_sound (getCborString_sound fuel b) fun key => andThen_sound h fun v => done_sound (key, v)).mono
  rintro bs m ⟨xs, ys, key, rfl, text, zs, ws, v, rfl, item, rfl, rfl⟩
  exact ⟨b :: xs, zs, by rw [List.append_nil]; rfl, text, item⟩

theorem next_member_sound {parse : Option UInt8 → Reader Exception Json} (h : Sound (next parse) (Item L)) (fuel : Nat) :
    Sound (next (getMember parse fuel)) (Member L) := by
  apply next_sound _ (getMember_sound h fuel)
  intro s r ok
  rw [getMember, getCborString_none] at ok
  cases ok

/-! ### Values -/

theorem halfToDouble_eq (half : Nat) : halfToDouble half = widen binary16 (fun _ => 2 ^ 51) half := by
  have exponent : binary16.exponent half = half / 2 ^ 10 % 0x20 := rfl
  have fraction : binary16.fraction half = half % 2 ^ 10 := rfl
  have sign : binary16.negative half = (half / 2 ^ 15 % 2 == 1) := rfl
  rw [halfToDouble, widen, sign, exponent, fraction]
  by_cases zero : half / 2 ^ 10 % 0x20 = 0
  · rw [if_pos zero, if_neg (by rw [zero]; decide), if_pos zero]
    rfl
  · by_cases special : half / 2 ^ 10 % 0x20 = 31
    · rw [if_neg zero, if_pos special, special]
      rfl
    · have scale : (((half / 2 ^ 10 % 0x20 : Nat) : Int) - 25 + 1074).toNat = binary16.shift + half / 2 ^ 10 % 0x20 - 1 := by
        change _ = 1050 + half / 2 ^ 10 % 0x20 - 1
        omega
      have other : ¬half / 2 ^ 10 % 0x20 = 2 ^ binary16.exponentBits - 1 := special
      rw [if_neg zero, if_neg special, if_neg other, if_neg zero, ldexp, scale, Nat.add_comm]
      rfl

/-- A head with its argument in the bytes that follow, and what is read after it. -/
theorem headed_sound (base : Nat) {current : UInt8} (within : base + 0x18 ≤ current.toNat ∧ current.toNat ≤ base + 0x1B)
    {g : Nat → Reader Exception Json} {R : Nat → Bytes → Json → Prop} (h : ∀ n, Sound (g n) (R n)) :
    Sound (andThen (getNumber (2 ^ (current.toNat - (base + 0x18)))) g) fun bs v =>
      ∃ w n ys, Width.Fits w n ∧ current :: bs = head base w n ++ ys ∧ R n ys v := by
  apply (andThen_sound (getNumber_sound _) h).mono
  rintro bs v ⟨xs, ys, n, rfl, ⟨length, rfl⟩, related⟩
  obtain ⟨w, fits, same⟩ := head_of_number within.1 within.2 length
  exact ⟨w, beToNat xs, ys, fits, by rw [same]; rfl, related⟩

theorem fixed_sound (size : Nat) (f : Nat → Json) :
    Sound (andThen (getNumber size) fun n => done (f n)) fun bs v => bs.length = size ∧ v = f (beToNat bs) := by
  apply (andThen_sound (getNumber_sound size) fun n => done_sound (f n)).mono
  rintro bs v ⟨xs, ys, n, rfl, ⟨length, rfl⟩, rfl, rfl⟩
  rw [List.append_nil]
  exact ⟨length, rfl⟩

theorem parseCborInternal_sound (fuel : Nat) (current : UInt8) :
    Sound (parseCborInternal L fuel (some current)) fun bs v => Item L (current :: bs) v := by
  induction fuel generalizing current with
  | zero => intro s a s' ok; cases ok
  | succ fuel ih =>
    have element : Sound (next (parseCborInternal L fuel)) (Item L) := by
      apply next_sound _ ih
      rw [parseCborInternal_none]
      exact unexpectEof_ne_ok "value"
    have arrays (len : Nat) := getContainer_sound element "array" L.array .array (fuel + 1) len
    have objects (len : Nat) := getContainer_sound (next_member_sound element (fuel + 1)) "object" L.object
      (fun members => .object (Json.ofMembers members)) (fuel + 1) len
    apply parseCborInternal_cases (P := fun read => Sound read fun bs v => Item L (current :: bs) v)
    case unsigned =>
      intro small
      apply (done_sound _).mono
      rintro bs v ⟨rfl, rfl⟩
      obtain ⟨w, fits, same⟩ := head_inline (Nat.zero_le _) (Nat.zero_add 0x17 ▸ small)
      rw [← same]
      exact .unsigned fits
    case unsignedNumber =>
      intro within
      apply (headed_sound 0 within fun n => done_sound _).mono
      rintro bs v ⟨w, n, ys, fits, same, rfl, rfl⟩
      rw [same, List.append_nil]
      exact .unsigned fits
    case negative =>
      intro within
      apply (done_sound _).mono
      rintro bs v ⟨rfl, rfl⟩
      obtain ⟨w, fits, same⟩ := head_inline within.1 within.2
      have value : Int64.ofInt (0x20 - 1 - current.toNat) = -1 - Int64.ofNat (current.toNat - 0x20) := by
        rw [show (0x20 - 1 - current.toNat : Int) = -1 - (current.toNat - 0x20 : Nat) by omega, Int64.ofInt_sub,
          Int64.ofInt_eq_ofNat]
        rfl
      rw [← same, value]
      exact .negative fits
    case negativeNumber =>
      intro within
      apply (headed_sound 0x20 within fun n => done_sound _).mono
      rintro bs v ⟨w, n, ys, fits, same, rfl, rfl⟩
      rw [same, List.append_nil]
      exact .negative fits
    case string =>
      apply (andThen_sound (getCborString_sound (fuel + 1) current) fun s => done_sound _).mono
      rintro bs v ⟨xs, ys, s, rfl, text, rfl, rfl⟩
      rw [List.append_nil]
      exact .text text
    case array =>
      intro within
      apply (arrays _).mono
      rintro bs v ⟨as, rfl, body⟩
      obtain ⟨w, fits, same⟩ := head_inline within.1 within.2
      rw [show current.toNat % 0x20 = current.toNat - 0x80 by omega] at body
      have item := body.array fits
      rwa [same] at item
    case arrayNumber =>
      intro within
      apply (headed_sound 0x80 within arrays).mono
      rintro bs v ⟨w, n, ys, fits, same, as, rfl, body⟩
      rw [same]
      exact body.array fits
    case openArray =>
      intro is
      apply (arrays _).mono
      rintro bs v ⟨as, rfl, body⟩
      rw [Body, if_pos rfl] at body
      obtain ⟨body, rfl, parts, each, rfl, rfl⟩ := body
      rw [show current = UInt8.ofNat (0x80 + 0x1F) from UInt8.toNat_inj.mp is]
      exact .openArray .indefinite each
    case object =>
      intro within
      apply (objects _).mono
      rintro bs v ⟨as, rfl, body⟩
      obtain ⟨w, fits, same⟩ := head_inline within.1 within.2
      rw [show current.toNat % 0x20 = current.toNat - 0xA0 by omega] at body
      have item := body.object fits
      rwa [same] at item
    case objectNumber =>
      intro within
      apply (headed_sound 0xA0 within objects).mono
      rintro bs v ⟨w, n, ys, fits, same, as, rfl, body⟩
      rw [same]
      exact body.object fits
    case openObject =>
      intro is
      apply (objects _).mono
      rintro bs v ⟨as, rfl, body⟩
      rw [Body, if_pos rfl] at body
      obtain ⟨body, rfl, within⟩ := body
      obtain ⟨entries, rfl, rfl, keys, each⟩ := exists_entries within
      rw [show current = UInt8.ofNat (0xA0 + 0x1F) from UInt8.toNat_inj.mp is]
      exact .openObject .indefinite keys each
    case simple =>
      intro b v listed is
      apply (done_sound _).mono
      rintro bs w ⟨rfl, rfl⟩
      simp only [List.mem_cons, Prod.mk.injEq, List.not_mem_nil, or_false] at listed
      obtain ⟨rfl, rfl⟩ | ⟨rfl, rfl⟩ | ⟨rfl, rfl⟩ := listed
      · rw [show current = 0xF4 from UInt8.toNat_inj.mp is]
        exact .false
      · rw [show current = 0xF5 from UInt8.toNat_inj.mp is]
        exact .true
      · rw [show current = 0xF6 from UInt8.toNat_inj.mp is]
        exact .null
    case float =>
      intro b size f listed is
      apply (fixed_sound _ _).mono
      rintro bs w ⟨length, rfl⟩
      simp only [List.mem_cons, Prod.mk.injEq, List.not_mem_nil, or_false] at listed
      obtain ⟨rfl, rfl, rfl⟩ | ⟨rfl, rfl, rfl⟩ | ⟨rfl, rfl, rfl⟩ := listed
      · rw [show current = 0xF9 from UInt8.toNat_inj.mp is, halfToDouble_eq]
        exact .half length
      · rw [show current = 0xFA from UInt8.toNat_inj.mp is]
        exact .single length
      · rw [show current = 0xFB from UInt8.toNat_inj.mp is]
        exact .double length
    case invalid =>
      intro s a s' ok
      cases ok

/-! ### Every item is taken -/

/-- A head, from the two cases of the switch for it. -/
theorem head_takes {α : Type} {base : Nat} (low : base + 0x20 ≤ 256) {w : Width} {n : Nat} (fits : w.Fits n)
    {read : Option UInt8 → Reader Exception α} {g : Nat → Reader Exception α}
    (inline : ∀ b : UInt8, b.toNat = base + n → n < 24 → read (some b) = g n)
    (following : ∀ (k : Fin 4) (b : UInt8), b.toNat = base + 0x18 + k.val → read (some b) = andThen (getNumber (2 ^ k.val)) g)
    {ys : Bytes} {a : α} (h : Takes (g n) ys a) : TakesFrom read (head base w n ++ ys) a := by
  cases w with
  | inline =>
    have small : n < 24 := fits
    refine ⟨_, _, rfl, ?_⟩
    rw [inline _ (by rw [toNat_ofNat_byte, Nat.mod_eq_of_lt (by omega)]) small]
    exact h
  | following k =>
    refine ⟨_, _, rfl, ?_⟩
    rw [following k _ (by rw [toNat_ofNat_byte, Nat.mod_eq_of_lt (by omega)])]
    have number := getNumber_takes (beBytes (2 ^ k.val) n)
    rw [length_beBytes, beToNat_beBytes fits] at number
    exact andThen_takes number h

theorem Text.takes {bs s : Bytes} (h : Text bs s) {fuel : Nat} (enough : bs.length ≤ fuel) :
    TakesFrom (getCborString fuel) bs s := by
  induction h generalizing fuel with
  | @definite w s fits =>
    obtain _ | fuel := fuel
    · obtain ⟨b, bs, first, -⟩ := Text.first (.definite fits)
      rw [first] at enough
      cases enough
    apply head_takes (by decide) fits
    · intro b is small
      rw [getCborString, if_pos (by omega), show b.toNat % 0x20 = s.length by omega]
    · intro k b is
      rw [getCborString, if_neg (by omega), if_pos (by omega), show b.toNat - 0x78 = k.val by omega]
    · exact repeated_currentByte "string" s
  | @indefinite parts each ih =>
    obtain _ | fuel := fuel
    · cases enough
    have long : (parts.flatMap Prod.fst).length < fuel := by
      rw [List.length_cons, List.length_append, List.length_singleton] at enough
      omega
    refine ⟨0x7F, _, rfl, andThen_done_takes List.flatten (untilByte_takes ⟨parts, ?_, rfl, rfl⟩ ?_)⟩
    · intro p hp
      have part := length_le_flatMap hp
      exact ⟨next_takes (ih p hp (by omega)), (each p hp).first⟩
    · have few := length_le_of_nonempty fun p hp => by
        obtain ⟨b, bs, first, -⟩ := (each p hp).first
        rw [first]
        exact List.cons_ne_nil b bs
      rw [List.length_map]
      omega

section Containers

variable {α : Type} {read : Option UInt8 → Reader Exception α} {bs : Bytes} {as : List α}

theorem getContainer_takes (h : Sequence (TakesFrom read) bs as) (kind : String) {maxSize : Nat} (make : List α → Json)
    (fuel : Nat) (short : as.length ≤ maxSize) (below : maxSize < sizeMax) :
    Takes (getContainer kind maxSize read make fuel as.length) bs (make as) := by
  have definite : as.length ≠ sizeMax := by omega
  obtain ⟨parts, each, taken, same⟩ := h
  rw [getContainer, if_neg (by omega), if_pos definite]
  exact andThen_done_takes make (repeated_takes ⟨parts, fun p hp => next_takes (each p hp), taken, same⟩)

theorem getContainer_takes_open (h : Sequence (fun bs a => TakesFrom read bs a ∧ ∃ b bs', bs = b :: bs' ∧ b ≠ 0xFF) bs as)
    (kind : String) (maxSize : Nat) (make : List α → Json) {fuel : Nat} (enough : as.length < fuel) :
    Takes (getContainer kind maxSize read make fuel sizeMax) (bs ++ [0xFF]) (make as) := by
  obtain ⟨parts, each, taken, same⟩ := h
  rw [getContainer, if_neg (fun h => h.1 rfl), if_neg (not_not.mpr rfl)]
  refine andThen_done_takes make (untilByte_takes ⟨parts, fun p hp => ?_, taken, same⟩ enough)
  exact (each p hp).imp_left next_takes

end Containers

/-- The members of an object, as parts of its bytes. -/
theorem sequence_entries {R : Bytes → Bytes × Json → Prop} {entries : List Entry}
    (h : ∀ e ∈ entries, R e.all e.member) : Sequence R (entries.flatMap Entry.all) (entries.map Entry.member) := by
  refine ⟨entries.map fun e => (e.all, e.member), ?_, ?_, ?_⟩
  · intro p hp
    obtain ⟨e, he, rfl⟩ := List.mem_map.mp hp
    exact h e he
  · rw [List.flatMap_map]
  · rw [List.map_map]
    rfl

/-- An item is not empty. -/
theorem takes_of_succ {bs : Bytes} {v : Json} (item : Item L bs v)
    (h : ∀ {f}, bs.length ≤ f + 1 → TakesFrom (parseCborInternal L (f + 1)) bs v) {fuel : Nat} (enough : bs.length ≤ fuel) :
    TakesFrom (parseCborInternal L fuel) bs v := by
  obtain _ | fuel := fuel
  · obtain ⟨b, bs', first, -⟩ := item.first
    rw [first] at enough
    cases enough
  · exact h enough

theorem getMember_takes {parse : Option UInt8 → Reader Exception Json} {e : Entry} {fuel : Nat}
    (key : TakesFrom (getCborString fuel) e.keyBytes e.key) (value : TakesFrom parse e.bytes e.value) :
    TakesFrom (getMember parse fuel) e.all e.member := by
  obtain ⟨b, bs, first, taken⟩ := key
  refine ⟨b, bs ++ e.bytes, by rw [Entry.all, first]; rfl, ?_⟩
  exact andThen_takes taken (andThen_done_takes (e.key, ·) (next_takes value))

/-- The parts of a container are shorter than the container. -/
theorem sequence_takes {start rest : Bytes} {parts : List (Bytes × Json)} (each : ∀ p ∈ parts, Item L p.1 p.2)
    (ih : ∀ p ∈ parts, ∀ {f}, p.1.length ≤ f + 1 → TakesFrom (parseCborInternal L (f + 1)) p.1 p.2) (used : start ≠ [])
    {fuel : Nat} (enough : (start ++ (parts.flatMap Prod.fst ++ rest)).length ≤ fuel + 1) :
    Sequence (fun bs v => TakesFrom (parseCborInternal L fuel) bs v ∧ ∃ b bs', bs = b :: bs' ∧ b ≠ 0xFF)
      (parts.flatMap Prod.fst) (parts.map Prod.snd) := by
  refine ⟨parts, fun p hp => ⟨takes_of_succ (each p hp) (ih p hp) ?_, (each p hp).first⟩, rfl, rfl⟩
  have short := length_le_flatMap hp
  have one := List.length_pos_of_ne_nil used
  rw [List.length_append, List.length_append] at enough
  omega

theorem Entry.length_le (e : Entry) {entries : List Entry} (he : e ∈ entries) :
    e.keyBytes.length + e.bytes.length ≤ (entries.flatMap Entry.all).length := by
  obtain ⟨before, after, rfl⟩ := List.append_of_mem he
  rw [List.flatMap_append, List.flatMap_cons, List.length_append, List.length_append, Entry.all, List.length_append]
  omega

theorem sequence_takes_members {start rest : Bytes} {entries : List Entry} (keys : ∀ e ∈ entries, Text e.keyBytes e.key)
    (each : ∀ e ∈ entries, Item L e.bytes e.value)
    (ih : ∀ e ∈ entries, ∀ {f}, e.bytes.length ≤ f + 1 → TakesFrom (parseCborInternal L (f + 1)) e.bytes e.value)
    (used : start ≠ []) {fuel : Nat} (enough : (start ++ (entries.flatMap Entry.all ++ rest)).length ≤ fuel + 1) :
    Sequence (fun bs m => TakesFrom (getMember (parseCborInternal L fuel) (fuel + 1)) bs m ∧
      ∃ b bs', bs = b :: bs' ∧ b ≠ 0xFF) (entries.flatMap Entry.all) (entries.map Entry.member) := by
  apply sequence_entries
  intro e he
  have short := e.length_le he
  have one := List.length_pos_of_ne_nil used
  rw [List.length_append, List.length_append] at enough
  constructor
  · exact getMember_takes ((keys e he).takes (by omega)) (takes_of_succ (each e he) (ih e he) (by omega))
  · obtain ⟨b, bs, first, other⟩ := (keys e he).first
    exact ⟨b, bs ++ e.bytes, by rw [Entry.all, first]; rfl, other⟩

/-- There are no more elements than bytes. -/
theorem Sequence.length_le {α : Type} {R : Bytes → α → Prop} {bs : Bytes} {as : List α}
    (h : Sequence (fun bs a => R bs a ∧ ∃ b bs', bs = b :: bs' ∧ b ≠ 0xFF) bs as) : as.length ≤ bs.length := by
  obtain ⟨parts, each, rfl, rfl⟩ := h
  rw [List.length_map]
  apply length_le_of_nonempty
  intro p hp
  obtain ⟨-, b, bs, first, -⟩ := each p hp
  rw [first]
  exact List.cons_ne_nil b bs

theorem opening_takes {α : Type} {base : Nat} (low : base + 0x20 ≤ 256) {start : Bytes} (opening : Opening base start)
    {read : Option UInt8 → Reader Exception α} {g : Nat → Reader Exception α}
    (indefinite : ∀ b : UInt8, b.toNat = base + 0x1F → read (some b) = g sizeMax)
    (following : ∀ (k : Fin 4) (b : UInt8), b.toNat = base + 0x18 + k.val → read (some b) = andThen (getNumber (2 ^ k.val)) g)
    {ys : Bytes} {a : α} (h : Takes (g sizeMax) ys a) : TakesFrom read (start ++ ys) a := by
  cases opening with
  | indefinite =>
    refine ⟨_, _, rfl, ?_⟩
    rw [indefinite _ (by rw [toNat_ofNat_byte, Nat.mod_eq_of_lt (by omega)])]
    exact h
  | full =>
    have fits : Width.Fits (.following 3) (2 ^ 64 - 1) := Nat.sub_lt (Nat.two_pow_pos _) Nat.one_pos
    apply head_takes low fits _ following h
    intro b is small
    exact absurd small (by decide)

section Switch

variable {fuel : Nat} {b : UInt8}

theorem parse_arrayNumber {k : Fin 4} (is : b.toNat = 0x80 + 0x18 + k.val) : parseCborInternal L (fuel + 1) (some b) =
    andThen (getNumber (2 ^ k.val)) (getCborArray L (parseCborInternal L fuel) (fuel + 1)) := by
  rw [parseCborInternal, if_neg (by omega), if_neg (by omega), if_neg (by omega), if_neg (by omega), if_neg (by omega),
    if_neg (by omega), if_pos (by omega), show b.toNat - 0x98 = k.val by omega]

theorem parse_array {n : Nat} (is : b.toNat = 0x80 + n) (small : n < 24) : parseCborInternal L (fuel + 1) (some b) =
    getCborArray L (parseCborInternal L fuel) (fuel + 1) n := by
  rw [parseCborInternal, if_neg (by omega), if_neg (by omega), if_neg (by omega), if_neg (by omega), if_neg (by omega),
    if_pos (by omega), show b.toNat % 0x20 = n by omega]

theorem parse_openArray (is : b.toNat = 0x80 + 0x1F) : parseCborInternal L (fuel + 1) (some b) =
    getCborArray L (parseCborInternal L fuel) (fuel + 1) sizeMax := by
  rw [parseCborInternal, if_neg (by omega), if_neg (by omega), if_neg (by omega), if_neg (by omega), if_neg (by omega),
    if_neg (by omega), if_neg (by omega), if_pos is]

theorem parse_objectNumber {k : Fin 4} (is : b.toNat = 0xA0 + 0x18 + k.val) : parseCborInternal L (fuel + 1) (some b) =
    andThen (getNumber (2 ^ k.val)) (getCborObject L (parseCborInternal L fuel) (fuel + 1)) := by
  rw [parseCborInternal, if_neg (by omega), if_neg (by omega), if_neg (by omega), if_neg (by omega), if_neg (by omega),
    if_neg (by omega), if_neg (by omega), if_neg (by omega), if_neg (by omega), if_pos (by omega),
    show b.toNat - 0xB8 = k.val by omega]

theorem parse_object {n : Nat} (is : b.toNat = 0xA0 + n) (small : n < 24) : parseCborInternal L (fuel + 1) (some b) =
    getCborObject L (parseCborInternal L fuel) (fuel + 1) n := by
  rw [parseCborInternal, if_neg (by omega), if_neg (by omega), if_neg (by omega), if_neg (by omega), if_neg (by omega),
    if_neg (by omega), if_neg (by omega), if_neg (by omega), if_pos (by omega), show b.toNat % 0x20 = n by omega]

theorem parse_openObject (is : b.toNat = 0xA0 + 0x1F) : parseCborInternal L (fuel + 1) (some b) =
    getCborObject L (parseCborInternal L fuel) (fuel + 1) sizeMax := by
  rw [parseCborInternal, if_neg (by omega), if_neg (by omega), if_neg (by omega), if_neg (by omega), if_neg (by omega),
    if_neg (by omega), if_neg (by omega), if_neg (by omega), if_neg (by omega), if_neg (by omega), if_pos is]

end Switch

theorem fixed_takes {size : Nat} (f : Nat → Json) {bs : Bytes} (length : bs.length = size) :
    Takes (andThen (getNumber size) fun n => done (f n)) bs (f (beToNat bs)) := by
  subst length
  exact andThen_done_takes f (getNumber_takes bs)

theorem Item.takes_succ {bs : Bytes} {v : Json} (h : Item L bs v) {fuel : Nat} (enough : bs.length ≤ fuel + 1) :
    TakesFrom (parseCborInternal L (fuel + 1)) bs v := by
  induction h generalizing fuel with
  | @unsigned w n fits =>
    rw [← List.append_nil (head _ _ _)]
    apply head_takes (by decide) fits (g := fun n => done (.numberUnsigned (UInt64.ofNat n)))
    · intro b is small
      rw [parseCborInternal, if_pos (by omega), is, Nat.zero_add]
    · intro k b is
      rw [parseCborInternal, if_neg (by omega), if_pos (by omega), show b.toNat - 0x18 = k.val by omega]
    · exact done_takes _
  | @negative w n fits =>
    rw [← List.append_nil (head _ _ _)]
    apply head_takes (by decide) fits (g := fun n => done (.numberInteger (-1 - Int64.ofNat n)))
    · intro b is small
      have value : Int64.ofInt (0x20 - 1 - b.toNat) = -1 - Int64.ofNat n := by
        rw [show (0x20 - 1 - b.toNat : Int) = -1 - (n : Nat) by omega, Int64.ofInt_sub, Int64.ofInt_eq_ofNat]
        rfl
      rw [parseCborInternal, if_neg (by omega), if_neg (by omega), if_pos (by omega), value]
    · intro k b is
      rw [parseCborInternal, if_neg (by omega), if_neg (by omega), if_neg (by omega), if_pos (by omega),
        show b.toNat - 0x38 = k.val by omega]
    · exact done_takes _
  | text h =>
    obtain ⟨b, bs, first, taken⟩ := h.takes enough
    refine ⟨b, bs, first, ?_⟩
    have kind := Text.kind (first ▸ h)
    rw [parseCborInternal, if_neg (by omega), if_neg (by omega), if_neg (by omega), if_neg (by omega), if_pos kind]
    exact andThen_done_takes Json.string taken
  | @array w parts fits short each ih =>
    rw [← List.append_nil (parts.flatMap _)] at enough
    obtain ⟨parts', taken, bytes, values⟩ := sequence_takes each ih (head_ne_nil _ _ _) enough
    have definite := getContainer_takes ⟨parts', fun p hp => (taken p hp).1, bytes, values⟩ "array" Json.array (fuel + 1)
      (by rwa [List.length_map]) L.array_lt
    rw [List.length_map] at definite
    exact head_takes (by decide) fits (fun b is small => parse_array is small) (fun k b is => parse_arrayNumber is) definite
  | @openArray start parts opening each ih =>
    have taken := sequence_takes each ih opening.ne_nil enough
    have few := Sequence.length_le taken
    rw [List.length_append, List.length_append, List.length_singleton] at enough
    have body := getContainer_takes_open taken "array" L.array Json.array (show _ < fuel + 1 by omega)
    exact opening_takes (by decide) opening (fun b is => parse_openArray is) (fun k b is => parse_arrayNumber is) body
  | @object w entries fits short keys each ih =>
    rw [← List.append_nil (entries.flatMap _)] at enough
    obtain ⟨parts, taken, bytes, members⟩ := sequence_takes_members keys each ih (head_ne_nil _ _ _) enough
    have definite := getContainer_takes ⟨parts, fun p hp => (taken p hp).1, bytes, members⟩ "object"
      (fun members => .object (Json.ofMembers members)) (fuel + 1) (by rwa [List.length_map]) L.object_lt
    rw [List.length_map] at definite
    exact head_takes (by decide) fits (fun b is small => parse_object is small) (fun k b is => parse_objectNumber is) definite
  | @openObject start entries opening keys each ih =>
    have taken := sequence_takes_members keys each ih opening.ne_nil enough
    have few := Sequence.length_le taken
    rw [List.length_append, List.length_append, List.length_singleton] at enough
    have body := getContainer_takes_open taken "object" L.object (fun members => .object (Json.ofMembers members))
      (show _ < fuel + 1 by omega)
    exact opening_takes (by decide) opening (fun b is => parse_openObject is) (fun k b is => parse_objectNumber is) body
  | false | true | null => exact ⟨_, _, rfl, done_takes _⟩
  | half length =>
    rw [← halfToDouble_eq]
    exact ⟨_, _, rfl, fixed_takes (fun n => .numberFloat (UInt64.ofNat (halfToDouble n))) length⟩
  | single length => exact ⟨_, _, rfl, fixed_takes (fun n => .numberFloat (UInt64.ofNat (widen binary32 quieted n))) length⟩
  | double length => exact ⟨_, _, rfl, fixed_takes (fun n => .numberFloat (UInt64.ofNat n)) length⟩

theorem Item.takes {bs : Bytes} {v : Json} (h : Item L bs v) {fuel : Nat} (enough : bs.length ≤ fuel) :
    TakesFrom (parseCborInternal L fuel) bs v :=
  takes_of_succ h (fun enough => h.takes_succ enough) enough

/-! ### The whole input -/

theorem next_parse_sound (L : Limits) (fuel : Nat) : Sound (next (parseCborInternal L fuel)) (Item L) := by
  apply next_sound _ fun b => parseCborInternal_sound fuel b
  rw [parseCborInternal_none]
  exact unexpectEof_ne_ok "value"

theorem strict_ok {v w : Json} {s s' : Input} (h : next (strict v) s = .ok (w, s')) : s.rest = [] ∧ w = v := by
  obtain ⟨bytes, n⟩ := s
  cases bytes with
  | nil =>
    cases h
    exact ⟨rfl, rfl⟩
  | cons b bytes => cases h

/-- `from_cbor` accepts a data item and nothing else, and gives its value. -/
theorem fromCbor_ok_iff (L : Limits) (bytes : Bytes) (v : Json) : fromCbor L bytes = .ok v ↔ Item L bytes v := by
  constructor
  · intro h
    unfold fromCbor at h
    split at h
    next w s parsed =>
      cases h
      obtain ⟨w, mid, read, ended⟩ := andThen_ok parsed
      obtain ⟨nothing, rfl⟩ := strict_ok ended
      obtain ⟨bs, taken, -, item⟩ := next_parse_sound L _ read
      rw [nothing, List.append_nil] at taken
      rwa [show bytes = bs from taken]
    next => cases h
  · intro h
    have taken := next_takes (h.takes (Nat.le_refl _)) [] 0
    rw [List.append_nil] at taken
    rw [fromCbor, saxParse, andThen_eq taken]
    rfl

end LAppS.Cbor

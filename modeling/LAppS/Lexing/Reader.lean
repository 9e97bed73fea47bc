import Mathlib.Data.List.Basic

/-!
# Readers of a byte stream

A reader takes bytes from the front of its input, one at a time, and counts them. Three properties of a reader are carried
through the loops that call it: that what it takes is in a relation with what it returns, that it takes whatever is in
this relation, and that more input changes nothing unless it has asked for a byte behind the end.
-/

namespace Reading

variable {ε α β : Type}

structure Input where
  rest : List UInt8
  charsRead : Nat

inductive Stop (ε : Type) where
  | thrown (e : ε)
  /-- The bound on the recursion was too small. -/
  | fuel

abbrev Reader (ε α : Type) := Input → Except (Stop ε) (α × Input)

/-- The next byte, none behind the end. -/
def Input.get (s : Input) : Option UInt8 × Input := (s.rest.head?, ⟨s.rest.tail, s.charsRead + 1⟩)

/-- A byte is taken for a reader that is given the current one. -/
def next (read : Option UInt8 → Reader ε α) : Reader ε α := fun s => read s.get.1 s.get.2

def andThen (first : Reader ε α) (second : α → Reader ε β) : Reader ε β := fun s =>
  match first s with
  | .ok (a, s) => second a s
  | .error e => .error e

def done (a : α) : Reader ε α := fun s => .ok (a, s)

def repeated (read : Reader ε α) : Nat → Reader ε (List α)
  | 0 => done []
  | n + 1 => andThen read fun a => andThen (repeated read n) fun as => done (a :: as)

/-- Up to a byte that ends the loop, and which is taken. -/
def untilByte (stop : UInt8) (read : Option UInt8 → Reader ε α) : Nat → Reader ε (List α)
  | 0 => fun _ => .error .fuel
  | fuel + 1 => next fun current =>
    if current = some stop then done []
    else andThen (read current) fun a => andThen (untilByte stop read fuel) fun as => done (a :: as)

@[simp] theorem next_cons (read : Option UInt8 → Reader ε α) (b : UInt8) (bs : List UInt8) (n : Nat) :
    next read ⟨b :: bs, n⟩ = read (some b) ⟨bs, n + 1⟩ := rfl

@[simp] theorem next_nil (read : Option UInt8 → Reader ε α) (n : Nat) : next read ⟨[], n⟩ = read none ⟨[], n + 1⟩ := rfl

theorem andThen_ok {first : Reader ε α} {second : α → Reader ε β} {s s' : Input} {b : β}
    (h : andThen first second s = .ok (b, s')) : ∃ a mid, first s = .ok (a, mid) ∧ second a mid = .ok (b, s') := by
  unfold andThen at h
  cases started : first s with
  | error e => simp [started] at h
  | ok r => exact ⟨r.1, r.2, rfl, by simpa [started] using h⟩

theorem andThen_eq {first : Reader ε α} {second : α → Reader ε β} {s mid : Input} {a : α}
    (h : first s = .ok (a, mid)) : andThen first second s = second a mid := by
  simp [andThen, h]

/-! ### What a reader takes -/

/-- What is taken and what is returned are related. -/
def Sound (read : Reader ε α) (R : List UInt8 → α → Prop) : Prop :=
  ∀ ⦃s a s'⦄, read s = .ok (a, s') → ∃ bs, s.rest = bs ++ s'.rest ∧ s'.charsRead = s.charsRead + bs.length ∧ R bs a

/-- These bytes are taken, and nothing behind them. -/
def Takes (read : Reader ε α) (bs : List UInt8) (a : α) : Prop :=
  ∀ rest n, read ⟨bs ++ rest, n⟩ = .ok (a, ⟨rest, n + bs.length⟩)

theorem Sound.mono {read : Reader ε α} {R R' : List UInt8 → α → Prop} (h : Sound read R)
    (weaker : ∀ bs a, R bs a → R' bs a) : Sound read R' := by
  intro s a s' ok
  obtain ⟨bs, taken, counted, related⟩ := h ok
  exact ⟨bs, taken, counted, weaker bs a related⟩

theorem done_sound (a : α) : Sound (done a : Reader ε α) fun bs b => bs = [] ∧ b = a := by
  intro s b s' ok
  cases ok
  exact ⟨[], rfl, rfl, rfl, rfl⟩

theorem andThen_sound {first : Reader ε α} {second : α → Reader ε β} {R : List UInt8 → α → Prop}
    {R' : α → List UInt8 → β → Prop} (h : Sound first R) (h' : ∀ a, Sound (second a) (R' a)) :
    Sound (andThen first second) fun bs b => ∃ xs ys a, bs = xs ++ ys ∧ R xs a ∧ R' a ys b := by
  intro s b s' ok
  obtain ⟨a, mid, ok₁, ok₂⟩ := andThen_ok ok
  obtain ⟨xs, taken₁, counted₁, hxs⟩ := h ok₁
  obtain ⟨ys, taken₂, counted₂, hys⟩ := h' a ok₂
  refine ⟨xs ++ ys, ?_, ?_, xs, ys, a, rfl, hxs, hys⟩
  · rw [taken₁, taken₂, List.append_assoc]
  · rw [counted₂, counted₁, List.length_append, Nat.add_assoc]

/-- A byte behind the end is not taken by a reader that refuses it. -/
theorem next_sound {read : Option UInt8 → Reader ε α} {R : List UInt8 → α → Prop}
    (refuses : ∀ s r, read none s ≠ .ok r) (h : ∀ b, Sound (read (some b)) fun bs a => R (b :: bs) a) :
    Sound (next read) R := by
  rintro ⟨bytes, n⟩ a s' ok
  cases bytes with
  | nil => exact absurd ok (refuses _ _)
  | cons b bytes =>
    obtain ⟨bs, taken, counted, related⟩ := h b ok
    refine ⟨b :: bs, ?_, ?_, related⟩
    · exact congrArg (b :: ·) taken
    · rw [counted, List.length_cons, Nat.add_comm bs.length, ← Nat.add_assoc]
      rfl

/-- One after the other, each in the relation. -/
def Sequence (R : List UInt8 → α → Prop) (bs : List UInt8) (as : List α) : Prop :=
  ∃ parts : List (List UInt8 × α), (∀ p ∈ parts, R p.1 p.2) ∧ bs = parts.flatMap Prod.fst ∧ as = parts.map Prod.snd

theorem sequence_nil (R : List UInt8 → α → Prop) : Sequence R [] [] := ⟨[], by simp⟩

theorem sequence_cons {R : List UInt8 → α → Prop} {xs ys : List UInt8} {a : α} {as : List α} (head : R xs a)
    (tail : Sequence R ys as) : Sequence R (xs ++ ys) (a :: as) := by
  obtain ⟨parts, each, rfl, rfl⟩ := tail
  exact ⟨(xs, a) :: parts, List.forall_mem_cons.mpr ⟨head, each⟩, rfl, rfl⟩

/-- Bytes that stand for themselves. -/
theorem sequence_bytes {bs as : List UInt8} : Sequence (fun bs a => bs = [a]) bs as ↔ bs = as := by
  constructor
  · rintro ⟨parts, each, rfl, rfl⟩
    induction parts with
    | nil => rfl
    | cons p parts ih =>
      obtain ⟨single, each⟩ := List.forall_mem_cons.mp each
      rw [List.flatMap_cons, List.map_cons, single, ih each, List.singleton_append]
  · rintro rfl
    refine ⟨bs.map fun b => ([b], b), ?_, ?_, ?_⟩
    · intro p hp
      obtain ⟨b, -, rfl⟩ := List.mem_map.mp hp
      rfl
    · simp [List.flatMap_map]
    · simp [Function.comp_def]

theorem repeated_sound {read : Reader ε α} {R : List UInt8 → α → Prop} (h : Sound read R) (n : Nat) :
    Sound (repeated read n) fun bs as => Sequence R bs as ∧ as.length = n := by
  induction n with
  | zero =>
    apply (done_sound []).mono
    rintro bs as ⟨rfl, rfl⟩
    exact ⟨sequence_nil R, rfl⟩
  | succ n ih =>
    apply (andThen_sound h fun a => andThen_sound ih fun as => done_sound (a :: as)).mono
    rintro bs as ⟨xs, ys, a, rfl, head, ys', zs, as', rfl, ⟨tail, length⟩, rfl, rfl⟩
    rw [List.append_nil]
    exact ⟨sequence_cons head tail, by rw [List.length_cons, length]⟩

/-- The byte that ends the loop. -/
theorem untilByte_stop (stop : UInt8) (read : Option UInt8 → Reader ε α) (fuel : Nat) (bytes : List UInt8) (n : Nat) :
    untilByte stop read (fuel + 1) ⟨stop :: bytes, n⟩ = .ok ([], ⟨bytes, n + 1⟩) := by
  rw [untilByte, next_cons, if_pos rfl]
  rfl

/-- Any other byte, or none, is for the reader. -/
theorem untilByte_go {stop : UInt8} (read : Option UInt8 → Reader ε α) (fuel : Nat) {s : Input}
    (other : s.rest.head? ≠ some stop) : untilByte stop read (fuel + 1) s =
      andThen (next read) (fun a => andThen (untilByte stop read fuel) fun as => done (a :: as)) s := by
  have current : s.get.1 ≠ some stop := other
  rw [untilByte, next, if_neg current]
  rfl

theorem untilByte_sound {stop : UInt8} {read : Option UInt8 → Reader ε α} {R : List UInt8 → α → Prop}
    (h : Sound (next read) R) (fuel : Nat) :
    Sound (untilByte stop read fuel) fun bs as => ∃ body, bs = body ++ [stop] ∧ Sequence R body as := by
  induction fuel with
  | zero => intro s as s' ok; cases ok
  | succ fuel ih =>
    rintro ⟨bytes, n⟩ as s' ok
    by_cases ended : bytes.head? = some stop
    · obtain ⟨bytes, rfl⟩ := List.head?_eq_some_iff.mp ended
      rw [untilByte_stop] at ok
      cases ok
      exact ⟨[stop], rfl, rfl, [], rfl, sequence_nil R⟩
    · rw [untilByte_go read fuel ended] at ok
      obtain ⟨bs, taken, counted, xs, ys, a, rfl, head, ys', zs, as', rfl, ⟨body, rfl, tail⟩, rfl, rfl⟩ :=
        (andThen_sound h fun a => andThen_sound ih fun as => done_sound (a :: as)) ok
      refine ⟨xs ++ (body ++ [stop] ++ []), taken, counted, xs ++ body, ?_, sequence_cons head tail⟩
      rw [List.append_nil, List.append_assoc]

theorem done_takes (a : α) : Takes (done a : Reader ε α) [] a := fun _ _ => rfl

theorem andThen_takes {first : Reader ε α} {second : α → Reader ε β} {xs ys : List UInt8} {a : α} {b : β}
    (h : Takes first xs a) (h' : Takes (second a) ys b) : Takes (andThen first second) (xs ++ ys) b := by
  intro rest n
  rw [List.append_assoc, andThen_eq (h _ _), h', List.length_append, Nat.add_assoc]

theorem andThen_done_takes {read : Reader ε α} {bs : List UInt8} {a : α} (f : α → β) (h : Takes read bs a) :
    Takes (andThen read fun a => done (f a)) bs (f a) := by
  intro rest n
  rw [andThen_eq (h _ _)]
  rfl

/-- The same of a reader that is given the first of the bytes. -/
def TakesFrom (read : Option UInt8 → Reader ε α) (bs : List UInt8) (a : α) : Prop :=
  ∃ b bs', bs = b :: bs' ∧ Takes (read (some b)) bs' a

theorem next_takes {read : Option UInt8 → Reader ε α} {bs : List UInt8} {a : α} (h : TakesFrom read bs a) :
    Takes (next read) bs a := by
  obtain ⟨b, bs, rfl, taken⟩ := h
  intro rest n
  rw [List.cons_append, next_cons, taken, List.length_cons, Nat.add_right_comm, Nat.add_assoc n]

/-- No part is longer than the whole. -/
theorem length_le_flatMap {parts : List (List UInt8 × α)} {p : List UInt8 × α} (hp : p ∈ parts) :
    p.1.length ≤ (parts.flatMap Prod.fst).length := by
  obtain ⟨before, after, rfl⟩ := List.append_of_mem hp
  rw [List.flatMap_append, List.flatMap_cons, List.length_append, List.length_append]
  omega

/-- There are no more parts than bytes. -/
theorem length_le_of_nonempty {parts : List (List UInt8 × α)} (h : ∀ p ∈ parts, p.1 ≠ []) :
    parts.length ≤ (parts.flatMap Prod.fst).length := by
  induction parts with
  | nil => exact Nat.le_refl _
  | cons p parts ih =>
    obtain ⟨first, rest⟩ := List.forall_mem_cons.mp h
    have one := List.length_pos_of_ne_nil first
    have more := ih rest
    rw [List.length_cons, List.flatMap_cons, List.length_append]
    omega

theorem repeated_takes {read : Reader ε α} {bs : List UInt8} {as : List α} (h : Sequence (Takes read) bs as) :
    Takes (repeated read as.length) bs as := by
  obtain ⟨parts, each, rfl, rfl⟩ := h
  induction parts with
  | nil => exact done_takes []
  | cons p parts ih =>
    obtain ⟨head, tail⟩ := List.forall_mem_cons.mp each
    exact andThen_takes head (andThen_done_takes (p.2 :: ·) (ih tail))

theorem untilByte_takes {stop : UInt8} {read : Option UInt8 → Reader ε α} {bs : List UInt8} {as : List α}
    (h : Sequence (fun bs a => Takes (next read) bs a ∧ ∃ b bs', bs = b :: bs' ∧ b ≠ stop) bs as) {fuel : Nat}
    (enough : as.length < fuel) : Takes (untilByte stop read fuel) (bs ++ [stop]) as := by
  obtain ⟨parts, each, rfl, rfl⟩ := h
  rw [List.length_map] at enough
  induction parts generalizing fuel with
  | nil =>
    obtain _ | fuel := fuel
    · cases enough
    · exact fun rest n => untilByte_stop stop read fuel rest n
  | cons p parts ih =>
    obtain _ | fuel := fuel
    · cases enough
    obtain ⟨⟨head, b, bs, first, other⟩, tail⟩ := List.forall_mem_cons.mp each
    have later := andThen_done_takes (p.2 :: ·) (ih tail (Nat.lt_of_succ_lt_succ enough))
    intro rest n
    have go : (p.1 ++ parts.flatMap Prod.fst ++ [stop] ++ rest).head? ≠ some stop := by
      rw [first]
      exact fun h => other (Option.some.inj h)
    rw [List.flatMap_cons, untilByte_go read fuel go, List.append_assoc p.1]
    exact andThen_takes head later rest n

/-! ### Bounds on the recursion -/

/-- The recursion is deep enough for shorter inputs. -/
def Settles (read : Reader ε α) (n : Nat) : Prop := ∀ s, s.rest.length < n → read s ≠ .error .fuel

theorem Settles.mono {read : Reader ε α} {m n : Nat} (h : Settles read n) (le : m ≤ n) : Settles read m :=
  fun s short => h s (Nat.lt_of_lt_of_le short le)

theorem done_settles (a : α) (n : Nat) : Settles (done a : Reader ε α) n := by
  intro s _ h
  cases h

theorem thrown_settles (e : Input → ε) (n : Nat) : Settles (fun s => .error (.thrown (e s)) : Reader ε α) n := by
  intro s _ h
  cases h

theorem andThen_settles {first : Reader ε α} {second : α → Reader ε β} {R : List UInt8 → α → Prop} {n : Nat}
    (sound : Sound first R) (h : Settles first n) (h' : ∀ a, Settles (second a) n) : Settles (andThen first second) n := by
  intro s short
  unfold andThen
  cases ok : first s with
  | error e =>
    intro ran
    apply h s short
    rw [ok, Except.error.inj ran]
  | ok r =>
    obtain ⟨bs, taken, -, -⟩ := sound ok
    apply h' r.1 r.2
    rw [taken, List.length_append] at short
    omega

theorem next_settles {read : Option UInt8 → Reader ε α} {n : Nat} (refuses : ∀ s, ∃ e, read none s = .error (.thrown e))
    (h : ∀ b, Settles (read (some b)) n) : Settles (next read) (n + 1) := by
  rintro ⟨bytes, k⟩ short
  cases bytes with
  | nil =>
    obtain ⟨e, thrown⟩ := refuses ⟨[], k + 1⟩
    rw [next_nil, thrown]
    intro ran
    cases ran
  | cons b bytes => exact h b _ (Nat.lt_of_succ_lt_succ short)

theorem repeated_settles {read : Reader ε α} {R : List UInt8 → α → Prop} {n : Nat} (sound : Sound read R)
    (h : Settles read n) (k : Nat) : Settles (repeated read k) n := by
  induction k with
  | zero => exact done_settles [] n
  | succ k ih =>
    exact andThen_settles sound h fun a => andThen_settles (repeated_sound sound k) ih fun as => done_settles _ n

/-- Each round takes a byte. -/
theorem untilByte_settles {stop : UInt8} {read : Option UInt8 → Reader ε α} {R : List UInt8 → α → Prop} {n : Nat}
    (sound : Sound (next read) R) (nonempty : ∀ bs a, R bs a → bs ≠ []) (h : Settles (next read) n) {fuel : Nat}
    (enough : n ≤ fuel) : Settles (untilByte stop read fuel) n := by
  induction fuel generalizing n with
  | zero =>
    intro s short
    omega
  | succ fuel ih =>
    intro s short
    by_cases ended : s.rest.head? = some stop
    · obtain ⟨bytes, starts⟩ := List.head?_eq_some_iff.mp ended
      obtain ⟨_, k⟩ := s
      subst starts
      rw [untilByte_stop]
      intro ran
      cases ran
    · rw [untilByte_go read fuel ended, andThen]
      cases ok : next read s with
      | error e =>
        intro ran
        apply h s short
        rw [ok, Except.error.inj ran]
      | ok r =>
        obtain ⟨bs, taken, -, related⟩ := sound ok
        have used := List.length_pos_of_ne_nil (nonempty bs r.1 related)
        rw [taken, List.length_append] at short
        have later : Settles (untilByte stop read fuel) (r.2.rest.length + 1) :=
          ih (fun s hs => h s (by omega)) (by omega)
        exact andThen_settles (untilByte_sound sound fuel) later (fun as => done_settles _ _) r.2 (Nat.lt_succ_self _)

/-- A deeper recursion changes nothing where the other one was deep enough. -/
def Deeper (read read' : Reader ε α) : Prop := ∀ s, read s ≠ .error .fuel → read' s = read s

theorem Deeper.refl (read : Reader ε α) : Deeper read read := fun _ _ => rfl

theorem fuel_deeper (read : Reader ε α) : Deeper (fun _ => .error .fuel) read := fun _ h => absurd rfl h

theorem andThen_deeper {first first' : Reader ε α} {second second' : α → Reader ε β} (h : Deeper first first')
    (h' : ∀ a, Deeper (second a) (second' a)) : Deeper (andThen first second) (andThen first' second') := by
  intro s settled
  unfold andThen at settled ⊢
  cases ok : first s with
  | error e =>
    have other : e ≠ .fuel := fun same => settled (by rw [ok, same])
    rw [h s (by rw [ok]; exact fun ran => other (Except.error.inj ran)), ok]
  | ok r =>
    rw [ok] at settled
    rw [h s (by rw [ok]; exact fun h => by cases h), ok]
    exact h' r.1 r.2 settled

theorem ite_deeper {c : Prop} [Decidable c] {a a' b b' : Reader ε α} (h : Deeper a a') (h' : Deeper b b') :
    Deeper (if c then a else b) (if c then a' else b') := by
  by_cases hc : c
  · rwa [if_pos hc, if_pos hc]
  · rwa [if_neg hc, if_neg hc]

theorem next_deeper {read read' : Option UInt8 → Reader ε α} (h : ∀ current, Deeper (read current) (read' current)) :
    Deeper (next read) (next read') := fun s => h s.get.1 s.get.2

theorem repeated_deeper {read read' : Reader ε α} (h : Deeper read read') (n : Nat) :
    Deeper (repeated read n) (repeated read' n) := by
  induction n with
  | zero => exact .refl _
  | succ n ih => exact andThen_deeper h fun a => andThen_deeper ih fun as => .refl _

theorem untilByte_deeper {stop : UInt8} {read read' : Option UInt8 → Reader ε α}
    (h : ∀ current, Deeper (read current) (read' current)) (fuel : Nat) :
    Deeper (untilByte stop read fuel) (untilByte stop read' (fuel + 1)) := by
  induction fuel with
  | zero => exact fuel_deeper _
  | succ fuel ih =>
    apply next_deeper
    intro current
    exact ite_deeper (.refl _) (andThen_deeper (h current) fun a => andThen_deeper ih fun as => .refl _)

/-! ### More input -/

def extend (q : List UInt8) : Except (Stop ε) (α × Input) → Except (Stop ε) (α × Input)
  | .ok (a, s) => .ok (a, ⟨s.rest ++ q, s.charsRead⟩)
  | .error e => .error e

/-- More input changes nothing, unless the reader has asked for the byte behind the end. -/
def Incremental (eof : Nat → ε → Prop) (read : Reader ε α) : Prop :=
  ∀ p n, (∃ e, read ⟨p, n⟩ = .error (.thrown e) ∧ eof (n + p.length + 1) e) ∨
    ∀ q, read ⟨p ++ q, n⟩ = extend q (read ⟨p, n⟩)

variable {eof : Nat → ε → Prop}

theorem done_incremental (a : α) : Incremental eof (done a : Reader ε α) := fun _ _ => .inr fun _ => rfl

theorem thrown_incremental (e : Nat → Stop ε) : Incremental eof (fun s => .error (e s.charsRead) : Reader ε α) :=
  fun _ _ => .inr fun _ => rfl

theorem andThen_incremental {first : Reader ε α} {second : α → Reader ε β} {R : List UInt8 → α → Prop}
    (sound : Sound first R) (h : Incremental eof first) (h' : ∀ a, Incremental eof (second a)) :
    Incremental eof (andThen first second) := by
  intro p n
  obtain ⟨e, thrown, behind⟩ | more := h p n
  · exact .inl ⟨e, by rw [andThen, thrown], behind⟩
  cases ok : first ⟨p, n⟩ with
  | error e =>
    refine .inr fun q => ?_
    rw [andThen, more q, andThen, ok]
    rfl
  | ok r =>
    obtain ⟨a, rest, m⟩ := r
    obtain ⟨bs, taken, counted, -⟩ := sound ok
    obtain ⟨e, thrown, behind⟩ | later := h' a rest m
    · refine .inl ⟨e, by rw [andThen_eq ok, thrown], ?_⟩
      have same : m + rest.length + 1 = n + p.length + 1 := by
        dsimp only at taken counted
        rw [taken, counted, List.length_append]
        omega
      rwa [same] at behind
    · refine .inr fun q => ?_
      have started : first ⟨p ++ q, n⟩ = .ok (a, ⟨rest ++ q, m⟩) := by rw [more q, ok]; rfl
      rw [andThen_eq started, andThen_eq ok, later q]

theorem next_incremental {read : Option UInt8 → Reader ε α}
    (refuses : ∀ s, ∃ e, read none s = .error (.thrown e) ∧ eof s.charsRead e)
    (h : ∀ b, Incremental eof (read (some b))) : Incremental eof (next read) := by
  intro p n
  cases p with
  | nil => exact .inl (refuses ⟨[], n + 1⟩)
  | cons b p =>
    obtain ⟨e, thrown, behind⟩ | more := h b p (n + 1)
    · refine .inl ⟨e, thrown, ?_⟩
      rwa [List.length_cons, show n + (p.length + 1) + 1 = n + 1 + p.length + 1 by omega]
    · exact .inr more

theorem repeated_incremental {read : Reader ε α} {R : List UInt8 → α → Prop} (sound : Sound read R)
    (h : Incremental eof read) (k : Nat) : Incremental eof (repeated read k) := by
  induction k with
  | zero => exact done_incremental []
  | succ k ih =>
    exact andThen_incremental sound h fun a =>
      andThen_incremental (repeated_sound sound k) ih fun as => done_incremental _

theorem untilByte_incremental {stop : UInt8} {read : Option UInt8 → Reader ε α} {R : List UInt8 → α → Prop}
    (refuses : ∀ s, ∃ e, read none s = .error (.thrown e) ∧ eof s.charsRead e)
    (sound : ∀ b, Sound (read (some b)) fun bs a => R (b :: bs) a) (h : ∀ b, Incremental eof (read (some b)))
    (fuel : Nat) : Incremental eof (untilByte stop read fuel) := by
  have unread (s : Input) (r : α × Input) : read none s ≠ .ok r := by
    obtain ⟨e, thrown, -⟩ := refuses s
    rw [thrown]
    exact fun h => by cases h
  induction fuel with
  | zero => exact thrown_incremental fun _ => .fuel
  | succ fuel ih =>
    apply next_incremental
    · intro s
      obtain ⟨e, thrown, behind⟩ := refuses s
      exact ⟨e, by rw [if_neg (by simp), andThen, thrown], behind⟩
    · intro b
      by_cases ended : some b = some stop
      · rw [if_pos ended]
        exact done_incremental []
      · rw [if_neg ended]
        exact andThen_incremental (sound b) (h b) fun a =>
          andThen_incremental (untilByte_sound (next_sound unread sound) fuel) ih fun as => done_incremental _

end Reading

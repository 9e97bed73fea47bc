import LAppS.Rfc6455.Decoding
import LAppS.StreamProcessing.Refinement

/-!
# Draining a buffer

The loop around `parse` and `getMessage`, and what it makes of a stream that arrives in chunks.
-/

namespace LAppS.StreamProcessing
open Rfc6455 Bytes DefiniteCloseCode

/-- What the owner of a parser does with a message and with a request to close; the flag says
whether to go on. -/
structure Handler (σ : Type) where
  onMessage : σ → WSEvent → σ × Except String Bool
  closeSocket : σ → DefiniteCloseCode → σ

theorem parse_takeReady {role : Role} {p q : Parser} {s : List UInt8} {c : Nat} {r : Result}
    (h : parse role p s c = .ok (r, q)) (hr : r.directive = .takeReadyMessage) :
    q.mState = .messageReady ∧ 2 * (s.length - r.cursor) < measure p s c := by
  fun_induction parse role p s c with
  | case1 => cases h
  | case2 p c r' q' _ hr' hd ih =>
    obtain ⟨state, lt⟩ := ih h
    have down := toDone_measure (by assumption) hr'
    obtain ⟨hc, hi⟩ := decideOnDone_continue hd
    rw [measure, hc, hi, if_pos rfl] at lt
    exact ⟨state, by omega⟩
  | case3 p c r' q' _ hr' hd =>
    have down := toDone_measure (by assumption) hr'
    have decided : decideOnDone q' r'.cursor = (r, q) := Except.ok.inj h
    unfold decideOnDone at decided
    split at decided <;> obtain ⟨rfl, rfl⟩ := Prod.mk.inj decided <;> simp_all
  | case4 p c r' q' _ hr' =>
    obtain ⟨rfl, rfl⟩ := Prod.mk.inj (Except.ok.inj h)
    exact absurd hr (toDone_advances (by assumption)).1

theorem parse_directive {role : Role} {p q : Parser} {s : List UInt8} {c : Nat} {r : Result}
    (h : parse role p s c = .ok (r, q)) : r.directive ≠ .continue_ := by
  fun_induction parse role p s c with
  | case1 => cases h
  | case2 _ _ _ _ _ _ _ ih => exact ih h
  | case3 p c r' q' _ hr' hd =>
    have decided : decideOnDone q' r'.cursor = (r, q) := Except.ok.inj h
    rwa [decided] at hd
  | case4 p c r' q' _ hr' =>
    obtain ⟨rfl, rfl⟩ := Prod.mk.inj (Except.ok.inj h)
    exact hr'

theorem getMessage_init {role : Role} {p q : Parser} {m : WSEvent} (ready : q.mState = .messageReady)
    (h : role.getMessage q = .ok (m, p)) : p.mState = .init := by
  cases role with
  | server =>
    simp only [Role.getMessage, WSStreamServerParser.getMessage, ready, if_true] at h
    split at h <;> exact (Prod.mk.inj (Except.ok.inj h)).2 ▸ rfl
  | client =>
    simp only [Role.getMessage, WSStreamClientParser.getMessage, ready, if_true] at h
    split at h <;> exact (Prod.mk.inj (Except.ok.inj h)).2 ▸ rfl

/-- The loop of `WebSocket::processInput` from `cursor` on, which ends with the last directive or with
an exception. The server's loop also asks for a positive cursor before it goes on. -/
def drain {σ : Type} (role : Role) (h : Handler σ) (w : σ) (p : Parser) (input : List UInt8) (cursor : Nat) :
    σ × Parser × Except String Directive :=
  match _hp : parse role p input cursor with
  | .error e => (w, p, .error e)
  | .ok (state, q) =>
    match _hd : state.directive with
    | .more => (w, q, .ok .more)
    | .takeReadyMessage =>
      match _hg : role.getMessage q with
      | .error e => (w, q, .error e)
      | .ok (message, q') =>
        match h.onMessage w message with
        | (w, .error e) => (w, q', .error e)
        | (w, .ok goOn) =>
          if _hc : goOn = true ∧ (role = .client ∨ 0 < state.cursor) ∧ state.cursor < input.length then
            drain role h w q' input state.cursor
          else (w, q', .ok .takeReadyMessage)
    | .closeWithCode => (h.closeSocket w state.cCode, q, .ok .closeWithCode)
    | .continue_ => drain role h w q input state.cursor
termination_by measure p input cursor
decreasing_by
  · obtain ⟨ready, lt⟩ := parse_takeReady _hp _hd
    rw [measure, getMessage_init ready _hg, if_pos rfl]
    exact lt
  · exact absurd _hd (parse_directive _hp)

section Unfolding

variable {σ : Type} {role : Role} {h : Handler σ} {w : σ} {p q : Parser} {s : List UInt8} {c : Nat} {r : Result}

theorem drain_ok (hp : parse role p s c = .ok (r, q)) :
    drain role h w p s c =
      match r.directive with
      | .more => (w, q, .ok .more)
      | .takeReadyMessage =>
        match role.getMessage q with
        | .error e => (w, q, .error e)
        | .ok (message, q') =>
          match h.onMessage w message with
          | (w, .error e) => (w, q', .error e)
          | (w, .ok goOn) =>
            if goOn = true ∧ (role = .client ∨ 0 < r.cursor) ∧ r.cursor < s.length then
              drain role h w q' s r.cursor
            else (w, q', .ok .takeReadyMessage)
      | .closeWithCode => (h.closeSocket w r.cCode, q, .ok .closeWithCode)
      | .continue_ => drain role h w q s r.cursor := by
  rw [drain]
  split <;> rename_i heq <;> rw [hp] at heq <;> cases heq
  split <;> rename_i hd <;> rw [hd]
  cases role.getMessage q <;> simp only [dite_eq_ite]

theorem drain_more (hp : parse role p s c = .ok (r, q)) (hr : r.directive = .more) :
    drain role h w p s c = (w, q, .ok .more) := by
  rw [drain_ok hp, hr]

theorem drain_close (hp : parse role p s c = .ok (r, q)) (hr : r.directive = .closeWithCode) :
    drain role h w p s c = (h.closeSocket w r.cCode, q, .ok .closeWithCode) := by
  rw [drain_ok hp, hr]

theorem drain_message {q' : Parser} {m : WSEvent} {w' : σ} {c' : Nat}
    (hp : parse role p s c = .ok (⟨c', .takeReadyMessage, normal⟩, q)) (hg : role.getMessage q = .ok (m, q'))
    (hm : h.onMessage w m = (w', .ok true)) :
    drain role h w p s c =
      if (role = .client ∨ 0 < c') ∧ c' < s.length then drain role h w' q' s c'
      else (w', q', .ok .takeReadyMessage) := by
  rw [drain_ok hp]
  simp only [hg, hm, true_and]

theorem drain_congr {p' : Parser} {c' : Nat} {w' : σ} {d : Directive}
    (hp : parse role p s c = parse role p' s c') (hd : drain role h w p' s c' = (w', q, .ok d)) :
    drain role h w p s c = (w', q, .ok d) := by
  cases hp' : parse role p' s c' with
  | error e =>
    rw [drain] at hd
    split at hd <;> rename_i heq <;> rw [hp'] at heq <;> cases heq
    cases hd
  | ok x => rw [← hd, drain_ok (hp.trans hp'), drain_ok hp']

/-- What holds of the owner after a message: `P` while it goes on, `Q` when it lets the loop end. -/
def Handler.Outcome (P Q : σ → Prop) (r : σ × Except String Bool) : Prop :=
  match r.2 with
  | .ok false => Q r.1
  | _ => P r.1

theorem drain_ends {P Q : σ → Prop} (message : ∀ w m, P w → Handler.Outcome P Q (h.onMessage w m))
    (close : ∀ w code, P w → Q (h.closeSocket w code)) (hw : P w) :
    P (drain role h w p s c).1 ∨ Q (drain role h w p s c).1 ∧ (drain role h w p s c).2.2 ≠ .ok .more := by
  fun_induction drain role h w p s c with
  | case1 => exact .inl hw
  | case2 => exact .inl hw
  | case3 => exact .inl hw
  | case4 w p c r q _ _ m q' _ w' e hm =>
    have outcome := message w m hw
    rw [hm] at outcome
    exact .inl outcome
  | case5 w p c r q _ _ m q' _ w' goOn hm hgo ih =>
    have outcome := message w m hw
    rw [hm, hgo.1] at outcome
    exact ih outcome
  | case6 w p c r q _ _ m q' _ w' goOn hm _ =>
    have outcome := message w m hw
    rw [hm] at outcome
    cases goOn with
    | true => exact .inl outcome
    | false => exact .inr ⟨outcome, by simp⟩
  | case7 => exact .inr ⟨close _ _ hw, by simp⟩
  | case8 _ _ _ _ _ _ _ ih => exact ih hw

end Unfolding

/-! ### Recording what a parser delivers -/

/-- A handler that only records. -/
def recorder : Handler (List Event) where
  onMessage log m := (log ++ [.message m.type m.message], .ok true)
  closeSocket log code := log ++ [.fail code]

/-- Chunk after chunk, up to the first `CLOSE_WITH_CODE`. -/
def receive (role : Role) : List Event → Parser → List (List UInt8) → List Event × Parser × Except String Directive
  | log, p, [] => (log, p, .ok .more)
  | log, p, chunk :: chunks =>
    match drain role recorder log p chunk 0 with
    | (log, p, .ok .closeWithCode) => (log, p, .ok .closeWithCode)
    | (log, p, .ok _) => receive role log p chunks
    | (log, p, .error e) => (log, p, .error e)

/-- A new parser with its message size limit. -/
def fresh (presz limit : Nat) : Parser := (Parser.new presz).setMaxMSGSize limit

/-- What a new parser delivers for a stream that arrives in chunks, and how it ends. -/
def received (role : Role) (presz limit : Nat) (chunks : List (List UInt8)) :
    List Event × Except String Directive :=
  ((receive role [] (fresh presz limit) chunks).1, (receive role [] (fresh presz limit) chunks).2.2)

variable {role : Role} {limit : Nat} {s : List UInt8} {p : Parser} {c : Nat} {d : Decoder}

theorem rel_fresh (role : Role) (presz limit : Nat) : Rel role limit (fresh presz limit) {} :=
  .start ⟨rfl, rfl, by simp⟩ (.inl rfl)

/-- The end of a drained buffer: the connection is closed exactly when the decoder is, and otherwise the
parser is suspended where the decoder is. -/
def Drained (role : Role) (limit : Nat) (log : List Event) (d : Decoder)
    (x : List Event × Parser × Except String Directive) : Prop :=
  x.1 = log ∧ (d.phase = .closed ∧ x.2.2 = .ok .closeWithCode ∨
    d.phase ≠ .closed ∧ (x.2.2 = .ok .more ∨ x.2.2 = .ok .takeReadyMessage) ∧ Rel role limit x.2.1 d)

theorem Rel.not_closed (rel : Rel role limit p d) : d.phase ≠ .closed := by
  cases rel <;> simp

theorem Drained.eq_ok {log : List Event} {x : List Event × Parser × Except String Directive}
    (h : Drained role limit log d x) : ∃ dir, x = (x.1, x.2.1, .ok dir) := by
  obtain ⟨-, ⟨-, h⟩ | ⟨-, h | h, -⟩⟩ := h
  · exact ⟨_, by rw [← h]⟩
  · exact ⟨_, by rw [← h]⟩
  · exact ⟨_, by rw [← h]⟩

theorem drain_step {log : List Event} {r : Decoder × List Event} {c' : Nat}
    (follows : Follows role limit s p c c' r) (hc' : c' ≤ s.length) (positive : role = .client ∨ 0 < c')
    {log' : List Event} {final : Decoder}
    (rest : ∀ {p'}, c' < s.length → Rel role limit p' r.1 →
      Drained role limit log' final (drain role recorder (log ++ r.2) p' s c'))
    (finished : c' = s.length ∨ r.1.phase = .closed → log' = log ++ r.2 ∧ final = r.1) :
    Drained role limit log' final (drain role recorder log p s c) := by
  cases follows with
  | moves rel inside atEnd =>
    rcases hc'.lt_or_eq with hin | hend
    · have := rest hin rel
      rw [List.append_nil] at this
      obtain ⟨dir, hdir⟩ := this.eq_ok
      rw [drain_congr (inside hin) hdir, ← hdir]
      exact this
    · obtain ⟨r, hr, more⟩ := atEnd hend
      obtain ⟨rfl, rfl⟩ := finished (.inl hend)
      rw [drain_more hr more]
      exact ⟨by simp, .inr ⟨rel.not_closed, .inl rfl, rel⟩⟩
  | message ready taken rel =>
    rw [drain_message ready taken rfl]
    split <;> rename_i hgo
    · exact rest hgo.2 rel
    · have hend : c' = s.length := by
        by_contra hne
        exact hgo ⟨positive, by omega⟩
      obtain ⟨rfl, rfl⟩ := finished (.inl hend)
      exact ⟨rfl, .inr ⟨rel.not_closed, .inr rfl, rel⟩⟩
  | close result directive closed =>
    obtain ⟨rfl, rfl⟩ := finished (.inr closed)
    rw [drain_close result directive]
    exact ⟨rfl, .inl ⟨closed, rfl⟩⟩

theorem clear_of_phase (h : d.phase = .start ∨ d.phase = .closed) : Clear limit d := by
  constructor <;> rcases h with h | h <;> simp [h]

theorem not_lazy_of_phase (h : d.phase = .start ∨ d.phase = .closed) : ¬Decoder.Lazy role d := by
  rintro ⟨-, fin, op, key, hready⟩
  rcases h with h | h <;> rw [h] at hready <;> cases hready

/-- Draining a buffer is running the decoder over it. -/
theorem drain_run (rel : Rel role limit p d) (hc : c < s.length)
    (along : Decoder.Along (role.config limit) (Clear limit) d (s.drop c)) (log : List Event) :
    Drained role limit (log ++ (d.run (role.config limit) (s.drop c)).2)
      (d.run (role.config limit) (s.drop c)).1 (drain role recorder log p s c) := by
  induction hn : s.length - c generalizing p d c log with
  | zero => omega
  | succ n ih =>
    have head : s.drop c = s[c]! :: s.drop (c + 1) := by
      rw [List.drop_eq_getElem_cons hc, getElem!_pos s c hc]
    rw [head] at along ⊢
    -- the byte at `c`, when the decoder does not first complete an empty frame
    have prompt : ∀ {p d} (log : List Event), Rel role limit p d → Clear limit d → ¬Decoder.Lazy role d →
        Decoder.Along (role.config limit) (Clear limit) (d.step (role.config limit) s[c]!).1 (s.drop (c + 1)) →
        Drained role limit (log ++ (d.run (role.config limit) (s[c]! :: s.drop (c + 1))).2)
          (d.run (role.config limit) (s[c]! :: s.drop (c + 1))).1 (drain role recorder log p s c) := by
      intro p d log rel clear hlazy along
      refine drain_step (follows_step rel (.inr clear.key) clear.noWrap hlazy hc) hc (.inr (Nat.succ_pos c)) ?_ ?_
      · intro p' hc' rel'
        have next := ih rel' hc' along (log ++ (d.step (role.config limit) s[c]!).2) (by omega)
        rwa [List.append_assoc] at next
      · rintro (hend | hclosed)
        · rw [hend, List.drop_length, Decoder.run_singleton]
          exact ⟨rfl, rfl⟩
        · simp only [Decoder.run, Decoder.run_closed _ _ hclosed, List.append_nil, and_self]
    by_cases hlazy : Decoder.Lazy role d
    · obtain ⟨rfl, fin, op, key, hphase⟩ := hlazy
      have two : d.step (Role.config .client limit) s[c]! =
          (((d.empty fin op).1.step (Role.config .client limit) s[c]!).1,
            (d.empty fin op).2 ++ ((d.empty fin op).1.step (Role.config .client limit) s[c]!).2) := by
        rw [← Decoder.readyByte_empty _ d fin op key s[c]!]
        simp only [Decoder.step, hphase]
      simp only [Decoder.run, two, Decoder.Along] at along ⊢
      refine drain_step (follows_lazy rel along.1 hphase) hc.le (.inl rfl) ?_ ?_
      · intro p' _ rel'
        have next := prompt (log ++ (d.empty fin op).2) rel' (clear_of_phase (d.empty_phase fin op))
          (not_lazy_of_phase (d.empty_phase fin op)) along.2
        simpa only [Decoder.run, List.append_assoc] using next
      · rintro (hend | hclosed)
        · omega
        · simp [Decoder.step, hclosed, Decoder.run_closed _ _ hclosed]
    · exact prompt log rel along.1 hlazy along.2

/-- Chunk after chunk, the parser delivers what the decoder makes of the whole stream. -/
theorem receive_run {chunks : List (List UInt8)} (rel : Rel role limit p d) (nonempty : [] ∉ chunks)
    (along : Decoder.Along (role.config limit) (Clear limit) d chunks.flatten) (log : List Event) :
    Drained role limit (log ++ (d.run (role.config limit) chunks.flatten).2)
        (d.run (role.config limit) chunks.flatten).1 (receive role log p chunks) ∧
      (receive role log p chunks).2.2 ≠ .ok .takeReadyMessage := by
  induction chunks generalizing p d log with
  | nil => exact ⟨⟨by simp [receive], .inr ⟨rel.not_closed, .inl rfl, rel⟩⟩, by simp [receive]⟩
  | cons chunk chunks ih =>
    rw [List.flatten_cons] at along ⊢
    obtain ⟨here, later⟩ := (Decoder.along_append _ _ _ _).mp along
    have hpos : 0 < chunk.length := by
      apply List.length_pos_iff.mpr
      rintro rfl
      exact nonempty (List.mem_cons_self)
    have drained := drain_run (c := 0) rel hpos (by simpa using here) log
    rw [List.drop_zero] at drained
    rw [Decoder.run_append, receive]
    obtain ⟨hlog, ⟨hclosed, hdir⟩ | ⟨hopen, hdir, rel'⟩⟩ := drained
    · generalize drain role recorder log p chunk 0 = x at hlog hdir
      obtain ⟨log', p', dir⟩ := x
      dsimp only at hlog hdir
      subst hlog hdir
      simp only [Decoder.run_closed _ _ hclosed, List.append_nil]
      exact ⟨⟨rfl, .inl ⟨hclosed, rfl⟩⟩, by simp⟩
    · generalize drain role recorder log p chunk 0 = x at hlog hdir rel'
      obtain ⟨log', p', dir⟩ := x
      dsimp only at hlog hdir rel'
      subst hlog
      have next := ih rel' (fun h => nonempty (List.mem_cons_of_mem _ h)) later
        (log ++ (d.run (role.config limit) chunk).2)
      rw [List.append_assoc] at next
      rcases hdir with rfl | rfl <;> exact next

/-- How the chunks end for the connection: closed, or waiting for more. -/
def outcome (d : Decoder) : Except String Directive :=
  match d.phase with
  | .closed => .ok .closeWithCode
  | _ => .ok .more

theorem received_of_drained {chunks : List (List UInt8)} {presz : Nat} {log : List Event}
    (drained : Drained role limit ([] ++ log) d (receive role [] (fresh presz limit) chunks))
    (taken : (receive role [] (fresh presz limit) chunks).2.2 ≠ .ok .takeReadyMessage) :
    received role presz limit chunks = (log, outcome d) := by
  obtain ⟨hlog, hend⟩ := drained
  unfold received outcome
  refine Prod.ext hlog ?_
  dsimp only
  rcases hend with ⟨hclosed, hdir⟩ | ⟨hopen, hdir, -⟩
  · rw [hclosed, hdir]
  · rw [hdir.resolve_right taken]
    split
    · contradiction
    · rfl

/-- What a new parser delivers is what the decoder reports, as long as no size check is special. -/
theorem received_run {chunks : List (List UInt8)} (presz : Nat) (nonempty : [] ∉ chunks)
    (along : Decoder.Along (role.config limit) (Clear limit) {} chunks.flatten) :
    received role presz limit chunks =
      ((Decoder.run (role.config limit) {} chunks.flatten).2,
        outcome (Decoder.run (role.config limit) {} chunks.flatten).1) := by
  obtain ⟨drained, taken⟩ := receive_run (rel_fresh role presz limit) nonempty along []
  exact received_of_drained drained taken

theorem clear_permits (role : Role) (h : limit < 2 ^ 64) : Permits (role.config limit) (Clear limit) := by
  intro pd f phase within ofFrame
  have total : f.opcode = .continuation → Decoder.used ⟨phase, pd⟩ + f.payload.length ≤ limit :=
    @within_used (role.config limit) _ _ within
  refine ⟨fun fin got hphase _ => ?_, fun fin key hphase => ?_, fun fin len key hphase => ?_⟩ <;>
  · dsimp only at hphase
    subst hphase
    obtain ⟨hop, hlen⟩ := Prod.mk.inj (ofFrame _ rfl)
    have := total hop.symm
    omega

theorem bounded_clear (hlimit : limit < 2 ^ 63) (h : Decoder.Bounded limit d) : Clear limit d := by
  obtain ⟨hused, hphase⟩ := h
  refine ⟨fun _ _ _ _ => hused, fun _ _ _ => hused, fun fin len key hready => ?_⟩
  rw [hready] at hphase
  have : len ≤ limit := hphase
  omega

/-- An empty buffer delivers nothing. -/
theorem received_empty (role : Role) (presz limit : Nat) : received role presz limit [[]] = ([], .ok .more) := by
  have stops : toDone role (fresh presz limit) [] 0 = .ok (⟨0, .more, normal⟩, (fresh presz limit).reset) := by
    rw [toDone_start (.inl rfl)]
    rfl
  have drained : drain role recorder [] (fresh presz limit) [] 0 = ([], (fresh presz limit).reset, .ok .more) :=
    drain_more (parse_stop stops (by simp)) rfl
  simp only [received, receive, drained]

end LAppS.StreamProcessing

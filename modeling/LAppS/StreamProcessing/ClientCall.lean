import LAppS.Rfc6455.Lazy
import LAppS.StreamProcessing.Drain

/-!
# One call of the client parser

What a single call of `parse` makes of a buffer, in terms of the whole stream so far: it stops at the first
report of the stream in that buffer, but a report that the last byte makes by completing an empty frame
it leaves for later.
-/

namespace LAppS.StreamProcessing
open Rfc6455 DefiniteCloseCode

/-- What a stream of the server means. -/
def reports (limit : Nat) (bs : List UInt8) : List Event :=
  (Decoder.run (Role.config .client limit).eagerly {} bs).2

/-- The decoder that the client parser implements, after a stream. -/
def reached (limit : Nat) (bs : List UInt8) : Decoder := (Decoder.run (Role.config .client limit) {} bs).1

/-- What the client parser has delivered after a stream. -/
def delivered (limit : Nat) (bs : List UInt8) : List Event := (Decoder.run (Role.config .client limit) {} bs).2

/-- The stream ends with an empty frame that makes a report. -/
def Late (limit : Nat) (bs : List UInt8) : Prop := (Decoder.settle (reached limit bs)).2 ≠ []

/-- The `k`-th byte of `bs`, after the stream `before`, makes the first report of `bs`. -/
structure FirstAt (limit : Nat) (before bs : List UInt8) (k : Nat) (e : Event) : Prop where
  here : reports limit (before ++ bs.take k) = reports limit before ++ [e]
  quiet : ∀ j < k, reports limit (before ++ bs.take j) = reports limit before

variable {limit : Nat} {s : List UInt8} {p : Parser} {c : Nat} {before : List UInt8} {b : UInt8}

theorem reports_eq (limit : Nat) (bs : List UInt8) :
    reports limit bs = delivered limit bs ++ (Decoder.settle (reached limit bs)).2 :=
  (Prod.mk.inj (Decoder.settled_run rfl {} bs)).2.symm

theorem reports_of_prompt {bs : List UInt8} (h : ¬Late limit bs) : reports limit bs = delivered limit bs := by
  rw [reports_eq, not_not.mp h, List.append_nil]

/-- A byte moves the client parser as it moves the decoder, also behind an empty fragment. -/
theorem follows_byte {d : Decoder} (rel : Rel .client limit p d) (clear : Clear limit d)
    (prompt : (Decoder.settle d).2 = []) (hc : c < s.length) :
    Follows .client limit s p c (c + 1) (d.step (Role.config .client limit) s[c]!) := by
  by_cases hlazy : Decoder.Lazy .client d
  · obtain ⟨-, fin, op, key, hphase⟩ := hlazy
    have rest : Decoder.settle d = d.empty fin op := by simp [Decoder.settle, hphase]
    have two : d.step (Role.config .client limit) s[c]! =
        (((d.empty fin op).1.step (Role.config .client limit) s[c]!).1,
          (d.empty fin op).2 ++ ((d.empty fin op).1.step (Role.config .client limit) s[c]!).2) := by
      rw [← Decoder.readyByte_empty _ d fin op key s[c]!]
      simp only [Decoder.step, hphase]
    have follows := follows_lazy (s := s) (c := c) rel clear hphase
    have phase := d.empty_phase fin op
    rw [rest] at prompt
    rw [two]
    generalize d.empty fin op = r at *
    obtain ⟨d', events⟩ := r
    obtain rfl : events = [] := prompt
    cases follows with
    | moves rel' inside atEnd =>
      have clear : Clear limit d' := clear_of_phase phase
      exact (follows_step rel' (.inr clear.key) clear.noWrap (not_lazy_of_phase phase) hc).congr (inside hc)
  · exact follows_step rel (.inr clear.key) clear.noWrap hlazy hc

/-- The three ways a call ends. -/
inductive Call (limit : Nat) (before s : List UInt8) (p : Parser) (c : Nat) : Prop where
  | more {r : Result} {p' : Parser} (result : parse .client p s c = .ok (r, p'))
      (directive : r.directive = .more) (rel : Rel .client limit p' (reached limit (before ++ s.drop c)))
      (quiet : ∀ j < s.length - c, reports limit (before ++ (s.drop c).take j) = reports limit before)
      (nothing : delivered limit (before ++ s.drop c) = reports limit before)
  | message {k : Nat} {q p' : Parser} {op : OpCode} {payload : List UInt8} (pos : 0 < k) (le : c + k ≤ s.length)
      (result : parse .client p s c = .ok (⟨c + k, .takeReadyMessage, normal⟩, q))
      (taken : WSStreamClientParser.getMessage q = (⟨op, payload⟩, p'))
      (first : FirstAt limit before (s.drop c) k (.message op payload))
      (last : c + k = s.length →
        Rel .client limit p' (reached limit (before ++ s.drop c)) ∧ ¬Late limit (before ++ s.drop c))
  | close {k : Nat} {r : Result} {q : Parser} (pos : 0 < k) (le : c + k ≤ s.length)
      (result : parse .client p s c = .ok (r, q)) (directive : r.directive = .closeWithCode)
      (first : FirstAt limit before (s.drop c) k (.fail r.cCode))
      (last : c + k = s.length → ¬Late limit (before ++ s.drop c))

theorem late_phase {d : Decoder} (h : (Decoder.settle d).2 ≠ []) :
    ∃ fin op key, d.phase = .ready fin op 0 key ∧ Decoder.settle d = d.empty fin op := by
  unfold Decoder.settle at h ⊢
  split at h
  · rename_i fin op key hphase
    exact ⟨fin, op, key, hphase, rfl⟩
  · exact absurd rfl h

/-! ### A call from any state of the decoder -/

/-- What bytes mean to a decoder: the report that it still owes, and those of the bytes. -/
def reportsFrom (limit : Nat) (d : Decoder) (bs : List UInt8) : List Event :=
  (Decoder.settled (d.run (Role.config .client limit) bs)).2

/-- The three ways a call ends, for a parser that is where the decoder `d` is. -/
inductive CallFrom (limit : Nat) (d : Decoder) (s : List UInt8) (p : Parser) (c : Nat) : Prop where
  | more {r : Result} {p' : Parser} (result : parse .client p s c = .ok (r, p')) (directive : r.directive = .more)
      (rel : Rel .client limit p' (d.run (Role.config .client limit) (s.drop c)).1)
      (quiet : ∀ j < s.length - c, reportsFrom limit d ((s.drop c).take j) = [])
      (nothing : (d.run (Role.config .client limit) (s.drop c)).2 = [])
  | message {k : Nat} {q p' : Parser} {op : OpCode} {payload : List UInt8} {d' : Decoder} (le : c + k ≤ s.length)
      (result : parse .client p s c = .ok (⟨c + k, .takeReadyMessage, normal⟩, q))
      (taken : WSStreamClientParser.getMessage q = (⟨op, payload⟩, p')) (rel : Rel .client limit p' d')
      (bounded : Decoder.Bounded limit d') (prompt : (Decoder.settle d').2 = [])
      (state : (Decoder.settle d').1 = (Decoder.settled (d.run (Role.config .client limit) ((s.drop c).take k))).1)
      (here : reportsFrom limit d ((s.drop c).take k) = [.message op payload])
      (quiet : ∀ j < k, reportsFrom limit d ((s.drop c).take j) = [])
      (last : c + k = s.length → d' = (d.run (Role.config .client limit) (s.drop c)).1)
  | close {k : Nat} {r : Result} {q : Parser} (le : c + k ≤ s.length)
      (result : parse .client p s c = .ok (r, q)) (directive : r.directive = .closeWithCode)
      (here : reportsFrom limit d ((s.drop c).take k) = [.fail r.cCode])
      (quiet : ∀ j < k, reportsFrom limit d ((s.drop c).take j) = [])
      (last : c + k = s.length → (Decoder.settle (d.run (Role.config .client limit) (s.drop c)).1).2 = [])

theorem run_quiet_cons {d d' : Decoder} (quiet : d.step (Role.config .client limit) b = (d', [])) (bs : List UInt8) :
    d.run (Role.config .client limit) (b :: bs) = d'.run (Role.config .client limit) bs := by
  simp [Decoder.run, quiet]

/-- After a quiet byte the call goes on as from the next one. -/
theorem CallFrom.succ {d d' : Decoder} {p' : Parser} (hc : c < s.length)
    (inside : parse .client p s c = parse .client p' s (c + 1))
    (prompt : (Decoder.settle d).2 = []) (quiet : d.step (Role.config .client limit) s[c]! = (d', []))
    (call : CallFrom limit d' s p' (c + 1)) : CallFrom limit d s p c := by
  have head : s.drop c = s[c]! :: s.drop (c + 1) := by
    rw [List.drop_eq_getElem_cons hc, getElem!_pos s c hc]
  have whole : d.run (Role.config .client limit) (s.drop c) = d'.run (Role.config .client limit) (s.drop (c + 1)) := by
    rw [head, run_quiet_cons quiet]
  have part : ∀ j, d.run (Role.config .client limit) ((s.drop c).take (j + 1)) =
      d'.run (Role.config .client limit) ((s.drop (c + 1)).take j) := by
    intro j
    rw [head, List.take_succ_cons, run_quiet_cons quiet]
  have earlier : ∀ k, (∀ j < k, reportsFrom limit d' ((s.drop (c + 1)).take j) = []) →
      ∀ j < k + 1, reportsFrom limit d ((s.drop c).take j) = [] := by
    intro k quiet' j hj
    cases j with
    | zero => simpa [reportsFrom, Decoder.settled] using prompt
    | succ j =>
      rw [reportsFrom, part]
      exact quiet' j (by omega)
  cases call with
  | more result directive rel quiet' nothing =>
    refine .more (inside.trans result) directive (whole ▸ rel) ?_ (whole ▸ nothing)
    intro j hj
    exact earlier (s.length - (c + 1)) quiet' j (by omega)
  | @message k _ _ _ _ d'' le result taken rel bounded prompt' state here quiet' last =>
    refine .message (k := k + 1) (by omega) ?_ taken rel bounded prompt' (part k ▸ state) ?_ (earlier k quiet') ?_
    · rw [inside, result, Nat.add_assoc, Nat.add_comm 1]
    · rw [reportsFrom, part]
      exact here
    · intro atEnd
      rw [whole]
      exact last (by omega)
  | @close k _ _ le result directive here quiet' last =>
    refine .close (k := k + 1) (by omega) (inside.trans result) directive ?_ (earlier k quiet') ?_
    · rw [reportsFrom, part]
      exact here
    · intro atEnd
      rw [whole]
      exact last (by omega)

/-- A decoder that owes a report makes it before the next byte is read. -/
theorem call_late (hlimit : limit < 2 ^ 63) {d : Decoder} (rel : Rel .client limit p d)
    (bounded : Decoder.Bounded limit d) (late : (Decoder.settle d).2 ≠ []) (hc : c < s.length) :
    CallFrom limit d s p c := by
  obtain ⟨fin, op, key, hphase, rest⟩ := late_phase late
  have follows := follows_lazy (s := s) (c := c) rel (bounded_clear hlimit bounded) hphase
  have settled : Decoder.settled (d.run (Role.config .client limit) ((s.drop c).take 0)) = d.empty fin op := by
    simp [Decoder.settled, rest]
  have phase := d.empty_isLazy fin op
  have bounded' := Decoder.bounded_empty bounded.1 fin op
  rw [rest] at late
  generalize d.empty fin op = r at *
  cases follows with
  | moves => exact absurd rfl late
  | message ready taken rel' =>
    refine .message (k := 0) hc.le ready (Except.ok.inj taken) rel' bounded' ?_ ?_ ?_ (by simp) (fun h => absurd h hc.ne)
    · rw [Decoder.settle_eq phase]
    · rw [Decoder.settle_eq phase, settled]
    · rw [reportsFrom, settled]
  | close result directive _ =>
    refine .close (k := 0) hc.le result directive ?_ (by simp) (fun h => absurd h hc.ne)
    rw [reportsFrom, settled]

/-- A call of `parse` from any state of the decoder. -/
theorem call_from (h125 : 125 ≤ limit) (hlimit : limit < 2 ^ 63) {d : Decoder} (rel : Rel .client limit p d)
    (bounded : Decoder.Bounded limit d) (hc : c < s.length) : CallFrom limit d s p c := by
  induction hn : s.length - c generalizing p d c with
  | zero => omega
  | succ n ih =>
    by_cases prompt : (Decoder.settle d).2 = []
    · have follows := follows_byte rel (bounded_clear hlimit bounded) prompt hc
      have bounded' : Decoder.Bounded limit (d.step (Role.config .client limit) s[c]!).1 :=
        @Decoder.step_bounded (Role.config .client limit) d _ h125 le_rfl bounded s[c]!
      have late : _ → (Decoder.settle (d.step (Role.config .client limit) s[c]!).1).2 = [] :=
        Decoder.settle_of_reports rfl prompt
      have head : s.drop c = s[c]! :: s.drop (c + 1) := by
        rw [List.drop_eq_getElem_cons hc, getElem!_pos s c hc]
      have one : d.run (Role.config .client limit) ((s.drop c).take 1) = d.step (Role.config .client limit) s[c]! := by
        rw [head]
        simp
      have atLast : c + 1 = s.length →
          d.run (Role.config .client limit) (s.drop c) = d.step (Role.config .client limit) s[c]! := by
        intro atEnd
        rw [head, atEnd, List.drop_length, Decoder.run_singleton]
      have before : ∀ j < 1, reportsFrom limit d ((s.drop c).take j) = [] := by
        intro j hj
        obtain rfl : j = 0 := by omega
        simpa [reportsFrom, Decoder.settled] using prompt
      generalize hr : d.step (Role.config .client limit) s[c]! = r at follows bounded' late one atLast
      cases follows with
      | moves rel' inside atEnd =>
        rcases (Nat.succ_le_of_lt hc).lt_or_eq with hin | hend
        · exact .succ hc (inside hin) prompt hr (ih rel' bounded' hin (by omega))
        · obtain ⟨r, result, more⟩ := atEnd hend
          refine .more result more (atLast hend ▸ rel') ?_ (by rw [atLast hend])
          intro j hj
          exact before j (by omega)
      | message ready taken rel' =>
        have settled := late (by simp)
        refine .message (k := 1) hc ready (Except.ok.inj taken) rel' bounded' settled ?_ ?_ before (fun h => by rw [atLast h])
        · rw [one, Decoder.settled]
        · rw [reportsFrom, one, Decoder.settled, settled, List.append_nil]
      | close result directive _ =>
        have settled := late (by simp)
        refine .close (k := 1) hc result directive ?_ before (fun h => by rw [atLast h]; exact settled)
        rw [reportsFrom, one, Decoder.settled, settled, List.append_nil]
    · exact call_late hlimit rel bounded prompt hc

theorem reports_from (limit : Nat) (xs ys : List UInt8) :
    reports limit (xs ++ ys) = delivered limit xs ++ reportsFrom limit (reached limit xs) ys := by
  rw [reports_eq, reached, delivered, Decoder.run_append, reportsFrom, Decoder.settled, List.append_assoc]
  rfl

/-- A call of `parse` from a state that is not behind. -/
theorem client_call (h125 : 125 ≤ limit) (hlimit : limit < 2 ^ 63) (rel : Rel .client limit p (reached limit before))
    (prompt : ¬Late limit before) (hc : c < s.length) : Call limit before s p c := by
  have settled := not_not.mp prompt
  have bounded : Decoder.Bounded limit (reached limit before) :=
    @Decoder.run_bounded (Role.config .client limit) _ h125 le_rfl before {} ⟨Nat.zero_le _, trivial⟩
  have from_ : ∀ bs, reports limit (before ++ bs) =
      reports limit before ++ reportsFrom limit (reached limit before) bs := by
    intro bs
    rw [reports_from, reports_of_prompt prompt]
  have after : ∀ bs, (reached limit before).run (Role.config .client limit) bs =
      (reached limit (before ++ bs), ((reached limit before).run (Role.config .client limit) bs).2) := by
    intro bs
    rw [reached, reached, Decoder.run_append]
  have quietly : ∀ {bs}, reportsFrom limit (reached limit before) bs = [] →
      reports limit (before ++ bs) = reports limit before := by
    intro bs quiet
    rw [from_, quiet, List.append_nil]
  have pos : ∀ {k e}, reportsFrom limit (reached limit before) ((s.drop c).take k) = [e] → 0 < k := by
    intro k e here
    refine Nat.pos_of_ne_zero fun zero => ?_
    have nothing : reportsFrom limit (reached limit before) [] = [] := by
      simpa [reportsFrom, Decoder.settled] using settled
    rw [zero, List.take_zero, nothing] at here
    cases here
  cases call_from h125 hlimit rel bounded hc with
  | more result directive rel quiet nothing =>
    refine .more result directive (by rw [after] at rel; exact rel) (fun j hj => quietly (quiet j hj)) ?_
    rw [reports_of_prompt prompt, delivered, Decoder.run_append]
    exact (congrArg _ nothing).trans (List.append_nil _)
  | @message k q p' op payload d' le result taken rel _ promptly state here quiet last =>
    refine .message (pos here) le result taken ⟨by rw [from_, here], fun j hj => quietly (quiet j hj)⟩ fun atEnd => ?_
    have same : d' = reached limit (before ++ s.drop c) := by rw [last atEnd, after]
    exact ⟨same ▸ rel, not_not.mpr (same ▸ promptly)⟩
  | @close k r q le result directive here quiet last =>
    refine .close (pos here) le result directive ⟨by rw [from_, here], fun j hj => quietly (quiet j hj)⟩ fun atEnd => ?_
    have done := last atEnd
    rw [after] at done
    exact not_not.mpr done

end LAppS.StreamProcessing

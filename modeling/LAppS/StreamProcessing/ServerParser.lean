import LAppS.StreamProcessing.Drain

/-!
# The server parser

The server parser decodes every legal sequence of masked frames. Its result does not depend on the chunks
as long as its limit is at least 125; below that a first fragment may exceed the limit unnoticed, and
whether an empty continuation frame then fails depends on where a chunk ends. The streams for which this
makes no difference are told by the decoder alone.
-/

namespace LAppS.StreamProcessing
open Rfc6455 Bytes DefiniteCloseCode

variable {role : Role} {limit : Nat} {s pre rest : List UInt8} {p : Parser} {c : Nat} {d d' : Decoder}

/-- Every legal sequence of masked frames within the limit is delivered message by message. -/
theorem server_decodes_frames (presz limit : Nat) (fs : List Frame) (hlimit : limit < 2 ^ 63)
    (legal : LegalSeq none fs) (within : WithinSeq limit none fs)
    (stays : ∀ f ∈ fs, f.endsStream = false) :
    received .server presz limit [encodeAll true fs] = (assemble none fs, .ok .more) := by
  obtain ⟨hrun, along⟩ := @run_encodeAll (Role.config .server limit) _ _
    (clear_permits .server (by omega)) _ legal within (.inl rfl)
  by_cases hnil : encodeAll true fs = []
  · cases fs with
    | nil => exact received_empty .server presz limit
    | cons f fs => simp [f.encode_ne_nil true] at hnil
  · have flat : [encodeAll true fs].flatten = encodeAll true fs := by simp
    rw [received_run presz (by simpa using Ne.symm hnil) (by rw [flat]; exact along), flat]
    have hrun' : Decoder.run (Role.config .server limit) {} (encodeAll true fs) = _ := hrun
    have hopen : closes fs = false := by simpa [closes] using stays
    rw [hrun', hopen]
    rfl

/-- A text in two fragments with a ping between them. -/
def interleaved : List Frame :=
  [⟨false, .text, .sixteen, fun i => UInt8.ofNat i, [104], by simp [LengthForm.Fits]⟩,
    ⟨true, .ping, .seven, fun _ => 7, [1, 2], by simp [LengthForm.Fits]⟩,
    ⟨true, .continuation, .sixtyFour, fun _ => 9, [105], by simp [LengthForm.Fits]⟩]

theorem server_decodes_interleaved :
    received .server 512 1024 [encodeAll true interleaved] =
      ([.message .ping [1, 2], .message .text [104, 105]], .ok .more) :=
  server_decodes_frames 512 1024 interleaved (by decide)
    ⟨rfl, nofun, ⟨rfl, by decide⟩, nofun, rfl, nofun, trivial⟩
    ⟨⟨by decide, nofun⟩, ⟨by decide, nofun⟩, ⟨by decide, by rintro - _ ⟨⟩; decide⟩, trivial⟩ (by decide)

/-- Inside a buffer `parse` passes quietly over bytes that the decoder passes quietly over. -/
theorem parse_quiet (rel : Rel .server limit p d)
    (quiet : Decoder.Quiet (Role.config .server limit) (Clear limit) d pre d')
    (hs : s.drop c = pre ++ rest) (hrest : rest ≠ []) :
    ∃ p', Rel .server limit p' d' ∧ parse .server p s c = parse .server p' s (c + pre.length) := by
  induction pre generalizing p d c with
  | nil =>
    obtain ⟨rfl, -⟩ := Prod.mk.inj quiet.run
    exact ⟨p, rel, rfl⟩
  | cons b pre ih =>
    obtain ⟨m, clear, hstep, quiet'⟩ := quiet.uncons
    have hc : c < s.length := by
      by_contra h
      rw [List.drop_eq_nil_of_le (by omega)] at hs
      cases hs
    rw [List.drop_eq_getElem_cons hc, List.cons_append] at hs
    obtain ⟨rfl, hs'⟩ := List.cons.inj hs
    have hin : c + 1 < s.length := by
      have := congrArg List.length hs'
      have := List.length_pos_iff.mpr hrest
      simp at *
      omega
    have follows := follows_step (s := s) (c := c) rel (.inr clear.key) clear.noWrap (by simp [Decoder.Lazy]) hc
    rw [getElem!_pos s c hc, hstep] at follows
    cases follows with
    | moves rel' inside atEnd =>
      obtain ⟨p', hp', hparse⟩ := ih rel' quiet' hs'
      exact ⟨p', hp', by rw [inside hin, hparse, List.length_cons, Nat.add_assoc, Nat.add_comm 1]⟩

/-- A buffer of one frame is read in one call. -/
theorem parse_ends {r : Decoder × List Event} (rel : Rel .server limit p d)
    (ends : Decoder.Ends (Role.config .server limit) (Clear limit) d s r) :
    Follows .server limit s p 0 s.length r := by
  obtain ⟨pre, b, m, rfl, quiet, clear, hstep⟩ := ends
  obtain ⟨p', rel', hparse⟩ := parse_quiet (s := pre ++ [b]) (c := 0) rel quiet rfl (by simp)
  rw [Nat.zero_add] at hparse
  have follows := follows_step (s := pre ++ [b]) (c := pre.length) rel' (.inr clear.key) clear.noWrap (by simp [Decoder.Lazy])
    (by simp)
  rw [getElem!_pos (pre ++ [b]) _ (by simp), List.getElem_concat_length rfl, hstep] at follows
  rw [List.length_append, List.length_singleton]
  exact follows.congr hparse

/-! ### Chunks -/

/-- The next byte ends the header of an empty fragment, and the fragments before it exceed the limit already. -/
def exceeds (limit : Nat) (d : Decoder) : Bool :=
  match d.phase with
  | .key _ .continuation 0 got => got.length = 3 && limit < d.used
  | _ => false

/-- A byte of a chunk with `rest` behind it. The total of an empty fragment is checked unless its header ends the chunk. -/
def chunkByte (limit : Nat) (d : Decoder) (b : UInt8) (rest : List UInt8) : Decoder × List Event :=
  if exceeds limit d && !rest.isEmpty then d.fail messageTooBig else d.step (Role.config .server limit) b

def chunkRun (limit : Nat) : Decoder → List UInt8 → Decoder × List Event
  | d, [] => (d, [])
  | d, b :: bs =>
    let here := chunkByte limit d b bs
    ((chunkRun limit here.1 bs).1, here.2 ++ (chunkRun limit here.1 bs).2)

def chunksRun (limit : Nat) : Decoder → List (List UInt8) → Decoder × List Event
  | d, [] => (d, [])
  | d, chunk :: chunks =>
    let here := chunkRun limit d chunk
    ((chunksRun limit here.1 chunks).1, here.2 ++ (chunksRun limit here.1 chunks).2)

theorem exceeds_iff {d : Decoder} : exceeds limit d ↔
    ∃ fin got, d.phase = .key fin .continuation 0 got ∧ got.length = 3 ∧ limit < d.used := by
  unfold exceeds
  split
  next fin got phase => simp [phase]
  next other =>
    constructor
    · intro h
      cases h
    · rintro ⟨fin, got, phase, -⟩
      exact absurd phase (other fin got)

theorem exceeds_closed {d : Decoder} (closed : d.phase = .closed) : exceeds limit d = false := by
  rw [exceeds, closed]

theorem chunkRun_closed {d : Decoder} (closed : d.phase = .closed) (bs : List UInt8) : chunkRun limit d bs = (d, []) := by
  induction bs with
  | nil => rfl
  | cons b bs ih => simp [chunkRun, chunkByte, exceeds_closed closed, Decoder.step, closed, ih]

theorem chunksRun_closed {d : Decoder} (closed : d.phase = .closed) (chunks : List (List UInt8)) :
    chunksRun limit d chunks = (d, []) := by
  induction chunks with
  | nil => rfl
  | cons chunk chunks ih => simp [chunksRun, chunkRun_closed closed, ih]

theorem chunksRun_append (d : Decoder) (xs ys : List (List UInt8)) :
    chunksRun limit d (xs ++ ys) =
      ((chunksRun limit (chunksRun limit d xs).1 ys).1, (chunksRun limit d xs).2 ++ (chunksRun limit (chunksRun limit d xs).1 ys).2) := by
  induction xs generalizing d with
  | nil => rfl
  | cons chunk xs ih => simp [chunksRun, ih]

/-- No fragments are larger than the limit, or than what a seven-bit length can say. -/
theorem bounded_chunkByte (h : Decoder.Bounded (max 125 limit) d) (b : UInt8) :
    Decoder.Bounded (max 125 limit) (chunkByte limit d b rest).1 := by
  unfold chunkByte
  split
  · exact Decoder.bounded_fail h.1 _
  · exact @Decoder.step_bounded (Role.config .server limit) _ _ (Nat.le_max_left ..) (Nat.le_max_right ..) h b

theorem bounded_chunkRun (h : Decoder.Bounded (max 125 limit) d) (bs : List UInt8) :
    Decoder.Bounded (max 125 limit) (chunkRun limit d bs).1 := by
  induction bs generalizing d with
  | nil => exact h
  | cons b bs ih => exact ih (bounded_chunkByte h b)

/-- At the last byte of the header of an empty fragment, inside of a buffer, the parser closes if the fragments before it
exceed the limit. -/
theorem follows_exceeding (rel : Rel .server limit p d) (exceeding : exceeds limit d) (small : d.used < 2 ^ 64)
    (hin : c + 1 < s.length) : Follows .server limit s p c (c + 1) (d.fail messageTooBig) := by
  obtain ⟨fin, got, phase, three, big⟩ := exceeds_iff.mp exceeding
  cases rel with
  | @key pending fin' _ i server held opened state =>
    obtain ⟨rfl, rfl, hz, rfl⟩ := Phase.key.inj phase
    obtain rfl : i = 3 := by
      simp at three
      omega
    cases pending with
    | none => simp [Decoder.used] at big
    | some m =>
      obtain ⟨kind, accepted, continuation⟩ : ∃ kind, Decoder.classify (some m) fin' .continuation p.mHeader.msgSize = .ok kind
          ∧ kind.isContinuation = true := ⟨if fin' then .last else .middle, rfl, by cases fin' <;> rfl⟩
      have hc : c < s.length := by omega
      have h := toDone_keyed hc state
      rw [if_neg (by simp [hz])] at h
      have opened' := opened_keyed opened (Function.update p.mHeader.mask 3 s[c]!)
      have held' : Held limit (keyed p (Function.update p.mHeader.mask 3 s[c]!)) (some m) := held.of_eq rfl rfl rfl
      have tooBig := sizeBuffer_tooBig (s := s) (c := c + 1) opened' held' accepted continuation
        (Nat.lt_of_lt_of_le big (Nat.le_add_right _ _)) (by simpa [Decoder.used, keyed, hz] using small) hin.ne
      rw [fromValidate_ok opened' held' accepted, processPayload, tooBig] at h
      exact follows_close h rfl
  | _ => cases phase

theorem follows_chunkByte (hlimit : limit < 2 ^ 63) (rel : Rel .server limit p d) (bounded : Decoder.Bounded (max 125 limit) d)
    (hc : c < s.length) : Follows .server limit s p c (c + 1) (chunkByte limit d s[c]! (s.drop (c + 1))) := by
  have small : d.used ≤ max 125 limit := bounded.1
  unfold chunkByte
  split
  next inside =>
    rw [Bool.and_eq_true, Bool.not_eq_true', List.isEmpty_eq_false_iff] at inside
    refine follows_exceeding rel inside.1 (by omega) ?_
    by_contra last
    exact inside.2 (List.drop_eq_nil_of_le (by omega))
  next fine =>
    refine follows_step rel ?_ (fun fin len key phase => ?_) (by simp [Decoder.Lazy]) hc
    · by_cases last : c + 1 = s.length
      · exact .inl last
      · refine .inr fun fin got phase three => ?_
        by_contra big
        refine fine ?_
        have more : s.drop (c + 1) ≠ [] := by simpa using (by omega : c + 1 < s.length)
        simpa [more] using exceeds_iff.mpr ⟨fin, got, phase, three, by omega⟩
    · have fits := bounded.2
      rw [phase] at fits
      have : len ≤ max 125 limit := fits
      omega

/-- Draining a buffer is running the decoder over it as a chunk. -/
theorem drain_chunk (hlimit : limit < 2 ^ 63) (rel : Rel .server limit p d) (bounded : Decoder.Bounded (max 125 limit) d)
    (hc : c < s.length) (log : List Event) :
    Drained .server limit (log ++ (chunkRun limit d (s.drop c)).2) (chunkRun limit d (s.drop c)).1
      (drain .server recorder log p s c) := by
  induction hn : s.length - c generalizing p d c log with
  | zero => omega
  | succ n ih =>
    have head : s.drop c = s[c]! :: s.drop (c + 1) := by
      rw [List.drop_eq_getElem_cons hc, getElem!_pos s c hc]
    rw [head, chunkRun]
    dsimp only
    refine drain_step (follows_chunkByte hlimit rel bounded hc) hc (.inr (Nat.succ_pos c)) ?_ ?_
    · intro p' hc' rel'
      have next := ih rel' (bounded_chunkByte bounded s[c]!) hc' (log ++ (chunkByte limit d s[c]! (s.drop (c + 1))).2) (by omega)
      rwa [List.append_assoc] at next
    · rintro (hend | hclosed)
      · rw [hend, List.drop_length]
        simp [chunkRun]
      · simp only [chunkRun_closed hclosed, List.append_nil, and_self]

theorem receive_chunks {chunks : List (List UInt8)} (hlimit : limit < 2 ^ 63) (rel : Rel .server limit p d)
    (bounded : Decoder.Bounded (max 125 limit) d) (nonempty : [] ∉ chunks) (log : List Event) :
    Drained .server limit (log ++ (chunksRun limit d chunks).2) (chunksRun limit d chunks).1 (receive .server log p chunks) ∧
      (receive .server log p chunks).2.2 ≠ .ok .takeReadyMessage := by
  induction chunks generalizing p d log with
  | nil => exact ⟨⟨by simp [receive, chunksRun], .inr ⟨rel.not_closed, .inl rfl, rel⟩⟩, by simp [receive]⟩
  | cons chunk chunks ih =>
    have hpos : 0 < chunk.length := by
      apply List.length_pos_iff.mpr
      rintro rfl
      exact nonempty (List.mem_cons_self)
    have drained := drain_chunk (c := 0) hlimit rel bounded hpos log
    rw [List.drop_zero] at drained
    rw [chunksRun, receive]
    obtain ⟨hlog, ⟨hclosed, hdir⟩ | ⟨hopen, hdir, rel'⟩⟩ := drained
    · generalize drain .server recorder log p chunk 0 = x at hlog hdir
      obtain ⟨log', p', dir⟩ := x
      dsimp only at hlog hdir
      subst hlog hdir
      simp only [chunksRun_closed hclosed, List.append_nil]
      exact ⟨⟨rfl, .inl ⟨hclosed, rfl⟩⟩, by simp⟩
    · generalize drain .server recorder log p chunk 0 = x at hlog hdir rel'
      obtain ⟨log', p', dir⟩ := x
      dsimp only at hlog hdir rel'
      subst hlog
      have next := ih rel' (bounded_chunkRun bounded chunk) (fun h => nonempty (List.mem_cons_of_mem _ h))
        (log ++ (chunkRun limit d chunk).2)
      rw [List.append_assoc] at next
      rcases hdir with rfl | rfl <;> exact next

/-- What a new server parser makes of a stream that arrives in chunks. -/
theorem received_chunks {chunks : List (List UInt8)} (presz : Nat) (hlimit : limit < 2 ^ 63) (nonempty : [] ∉ chunks) :
    received .server presz limit chunks = ((chunksRun limit {} chunks).2, outcome (chunksRun limit {} chunks).1) := by
  obtain ⟨drained, taken⟩ := receive_chunks hlimit (rel_fresh .server presz limit) ⟨Nat.zero_le _, trivial⟩ nonempty []
  exact received_of_drained drained taken

/-! ### Streams -/

/-- Wherever it depends on the chunks whether the total of the fragments is checked, the connection fails for this total in
any case, before anything else happens. -/
def Settled (limit : Nat) (d : Decoder) (stream : List UInt8) : Prop :=
  ∀ pre rest, stream = pre ++ rest → 2 ≤ rest.length → exceeds limit (d.run (Role.config .server limit) pre).1 →
    ((d.run (Role.config .server limit) pre).1.run (Role.config .server limit) rest).2 = [.fail messageTooBig]

theorem Settled.run {xs ys : List UInt8} (settled : Settled limit d (xs ++ ys)) :
    Settled limit (d.run (Role.config .server limit) xs).1 ys := by
  rintro pre rest rfl long exceeding
  have whole := settled (xs ++ pre) rest (by simp) long
  rw [Decoder.run_append] at whole
  exact whole exceeding

/-- A chunk is read to its end, or the connection fails in it as it does with all that follows. -/
theorem chunkRun_settled {later : List UInt8} (proper : Decoder.Proper d) (settled : Settled limit d (s ++ later)) :
    chunkRun limit d s = d.run (Role.config .server limit) s ∨
      (chunkRun limit d s).1.phase = .closed ∧
        (chunkRun limit d s).2 = (d.run (Role.config .server limit) (s ++ later)).2 ∧
        (d.run (Role.config .server limit) (s ++ later)).1.phase = .closed := by
  induction s generalizing d with
  | nil => exact .inl rfl
  | cons b bs ih =>
    by_cases inside : exceeds limit d && !bs.isEmpty
    · have here : chunkByte limit d b bs = d.fail messageTooBig := if_pos inside
      rw [Bool.and_eq_true, Bool.not_eq_true', List.isEmpty_eq_false_iff] at inside
      have long := List.length_pos_iff.mpr inside.2
      have fails := settled [] (b :: bs ++ later) rfl (by simp; omega) inside.1
      rw [Decoder.run_nil] at fails
      have closed : (d.run (Role.config .server limit) (b :: bs ++ later)).1.phase = .closed :=
        (Decoder.run_reported _ proper).fails messageTooBig (by rw [fails]; exact List.mem_singleton_self _)
      refine .inr ⟨?_, ?_, closed⟩
      · rw [chunkRun, here, chunkRun_closed rfl]
        rfl
      · rw [chunkRun, here, chunkRun_closed rfl, fails]
        rfl
    · have here : chunkByte limit d b bs = d.step (Role.config .server limit) b := if_neg inside
      have proper' : Decoder.Proper (d.step (Role.config .server limit) b).1 := (Decoder.step_reported proper b).state
      have settled' : Settled limit (d.step (Role.config .server limit) b).1 (bs ++ later) := by
        have next := Settled.run (show Settled limit d ([b] ++ (bs ++ later)) from settled)
        rwa [Decoder.run_singleton] at next
      rw [chunkRun, here, List.cons_append, Decoder.run, Decoder.run]
      obtain same | ⟨closed, events, closed'⟩ := ih proper' settled'
      · exact .inl (by rw [same])
      · exact .inr ⟨closed, by rw [events], closed'⟩

theorem outcome_closed (closed : d.phase = .closed) : outcome d = .ok .closeWithCode := by rw [outcome, closed]

theorem chunksRun_settled {chunks : List (List UInt8)} (proper : Decoder.Proper d) (settled : Settled limit d chunks.flatten) :
    (chunksRun limit d chunks).2 = (d.run (Role.config .server limit) chunks.flatten).2 ∧
      outcome (chunksRun limit d chunks).1 = outcome (d.run (Role.config .server limit) chunks.flatten).1 := by
  induction chunks generalizing d with
  | nil => exact ⟨rfl, rfl⟩
  | cons chunk chunks ih =>
    rw [List.flatten_cons] at settled ⊢
    obtain same | ⟨closed, events, closed'⟩ := chunkRun_settled proper settled
    · obtain ⟨events, ends⟩ := ih (Decoder.run_reported chunk proper).state settled.run
      rw [chunksRun, same, Decoder.run_append]
      exact ⟨by rw [events], ends⟩
    · rw [chunksRun, chunksRun_closed closed, List.append_nil, outcome_closed closed, outcome_closed closed']
      exact ⟨events, rfl⟩

/-- Byte after byte no total of an empty fragment is checked. -/
theorem chunksRun_bytes (d : Decoder) (bs : List UInt8) :
    chunksRun limit d (bs.map fun b => [b]) = d.run (Role.config .server limit) bs := by
  induction bs generalizing d with
  | nil => rfl
  | cons b bs ih => simp [chunksRun, chunkRun, chunkByte, Decoder.run, ih]

theorem chunkRun_exceeding (exceeding : exceeds limit d) (long : 2 ≤ s.length) : (chunkRun limit d s).2 = [.fail messageTooBig] := by
  obtain _ | ⟨b, _ | ⟨b', bs⟩⟩ := s
  · simp at long
  · simp at long
  · have here : chunkByte limit d b (b' :: bs) = d.fail messageTooBig := if_pos (by simp [exceeding])
    rw [chunkRun, here, chunkRun_closed rfl]
    rfl

theorem clear_of_other {f : Frame} {phase : Phase} {pd : Pending} (h : Phase.OfFrame f phase)
    (other : f.opcode ≠ .continuation) : Clear limit ⟨phase, pd⟩ := by
  refine ⟨fun fin got hphase _ => ?_, fun fin key hphase => ?_, fun fin len key hphase => ?_⟩ <;>
  · dsimp only at hphase
    subst hphase
    exact absurd (Prod.mk.inj (h _ rfl)).1.symm other

/-- A first fragment of 125 bytes. -/
def bigFirst : Frame := ⟨false, .text, .seven, fun _ => 0, List.replicate 125 0, by simp [LengthForm.Fits]⟩

/-- Its empty last fragment. -/
def emptyLast : Frame := ⟨true, .continuation, .seven, fun _ => 0, [], LengthForm.fits_nil⟩

/-- The bytes before the last one of the empty last fragment. -/
def beforeLast : List UInt8 := bigFirst.encode true ++ (emptyLast.lengthBytes true ++ [0, 0, 0])

theorem beforeLast_quiet (limit : Nat) :
    Decoder.Quiet (Role.config .server limit) (Clear limit) {} beforeLast
      ⟨.key true .continuation 0 [0, 0, 0], some (.text, bigFirst.payload)⟩ := by
  have first := @frame_ends (Role.config .server limit) (Clear limit) none bigFirst
    (fun phase h => clear_of_other h (by decide)) rfl (fun h => absurd rfl h) (by simp [bigFirst]) (.inl rfl)
  have length := @lengthBytes_ends (Role.config .server limit) (Clear limit)
    (some (.text, bigFirst.payload)) emptyLast
    (fun phase h => clear_of_other (f := bigFirst) (by intro x hx; rw [h] at hx; cases hx) (by decide)) rfl
    (fun h => absurd rfl h)
  have key := @key_quiet (Role.config .server limit) (Clear limit)
    (some (.text, bigFirst.payload)) true .continuation 0
    (fun got hgot => ⟨fun _ _ h h3 => ?_, by simp, by simp⟩) [] [0, 0, 0] (by simp)
  · exact first.quiet.append (length.quiet.append key)
  · obtain ⟨-, -, -, rfl⟩ := Phase.key.inj h
    omega

/-- The chunks of a stream do not matter. -/
def Chunkable (presz limit : Nat) (stream : List UInt8) : Prop :=
  ∀ chunks : List (List UInt8), chunks.flatten = stream → [] ∉ chunks →
    received .server presz limit chunks = received .server presz limit [stream]

theorem proper_fresh : Decoder.Proper {} := ⟨by simp, trivial⟩

theorem chunkable_iff (presz : Nat) (hlimit : limit < 2 ^ 63) (stream : List UInt8) :
    Chunkable presz limit stream ↔ Settled limit {} stream := by
  constructor
  · rintro same pre rest rfl long exceeding
    have single (bs : List UInt8) : (bs.map fun b => [b]).flatten = bs := by
      rw [← List.flatMap_def, List.flatMap_singleton']
    -- the rest in one chunk fails at once, and byte after byte it is as for the decoder
    have nonempty : [] ∉ (pre ++ rest).map fun b => [b] := by simp
    have nonempty' : [] ∉ (pre.map fun b => [b]) ++ [rest] := by
      rintro member
      obtain rfl : rest = [] := by simpa using member
      simp at long
    have bytes := same _ (single _) nonempty
    have once := same ((pre.map fun b => [b]) ++ [rest]) (by simp [single]) nonempty'
    have events := congrArg Prod.fst (once.trans bytes.symm)
    rw [received_chunks presz hlimit nonempty, received_chunks presz hlimit nonempty', chunksRun_bytes, chunksRun_append,
      chunksRun_bytes, Decoder.run_append] at events
    simpa [chunksRun, chunkRun_exceeding exceeding long] using (List.append_cancel_left events).symm
  · rintro settled chunks rfl nonempty
    by_cases none : chunks = []
    · subst none
      exact (received_empty .server presz limit).symm
    have ne : [] ∉ [chunks.flatten] := by
      obtain ⟨chunk, chunks, rfl⟩ := List.exists_cons_of_ne_nil none
      intro h
      have empty := List.flatten_eq_nil_iff.mp (List.mem_singleton.mp h).symm
      exact nonempty (empty chunk List.mem_cons_self ▸ List.mem_cons_self)
    obtain ⟨events, ends⟩ := chunksRun_settled proper_fresh settled
    have single : Settled limit {} [chunks.flatten].flatten := by simpa using settled
    obtain ⟨events', ends'⟩ := chunksRun_settled proper_fresh single
    rw [received_chunks presz hlimit nonempty, received_chunks presz hlimit ne, events, ends, events', ends']
    simp

/-- From a limit of 125 on no stream depends on its chunks. -/
theorem settled_of_limit (h125 : 125 ≤ limit) (stream : List UInt8) : Settled limit {} stream := by
  intro pre rest _ _ exceeding
  have bounded := @Decoder.run_bounded (Role.config .server limit) limit h125 le_rfl pre {} ⟨Nat.zero_le _, trivial⟩
  obtain ⟨_, _, _, _, big⟩ := exceeds_iff.mp exceeding
  exact absurd bounded.1 (Nat.not_le_of_lt big)

/-- Below 125 the empty last fragment of a message that is too big does. -/
theorem not_settled (h125 : limit < 125) : ¬ Settled limit {} (beforeLast ++ [0, 129]) := by
  intro settled
  have before := (beforeLast_quiet limit).run
  have fails := settled beforeLast [0, 129] rfl (by simp)
  rw [before] at fails
  have big : limit < bigFirst.payload.length := by simpa [bigFirst] using h125
  have := fails (exceeds_iff.mpr ⟨_, _, rfl, rfl, by simpa [Decoder.used] using big⟩)
  simp [Decoder.run, Decoder.step, Decoder.keyByte, Decoder.headerDone, Role.config, Decoder.empty, Decoder.classify,
    OpCode.isControl, OpCode.isData, Decoder.complete] at this

/-- The chunks of a stream do not matter exactly when it is settled, and they do not matter for any stream exactly when the
limit is at least 125. -/
theorem server_chunking_iff (presz limit : Nat) (hlimit : limit < 2 ^ 63) :
    (∀ stream, Chunkable presz limit stream ↔ Settled limit {} stream) ∧
      ((∀ stream, Chunkable presz limit stream) ↔ 125 ≤ limit) := by
  refine ⟨chunkable_iff presz hlimit, fun same => ?_, fun h125 stream => ?_⟩
  · by_contra h
    exact not_settled (by omega) ((chunkable_iff presz hlimit _).mp (same _))
  · exact (chunkable_iff presz hlimit stream).mpr (settled_of_limit h125 stream)

/-- A first fragment of three bytes, an empty last fragment, and the first byte of the next frame. -/
def overTwo : List UInt8 := [0x01, 0x83, 0, 0, 0, 0, 97, 98, 99, 0x80, 0x80, 0, 0, 0, 0, 0x81]

/-- With a usual limit the chunks do not matter. Under a limit of two they do, for one stream. -/
theorem server_chunking_1024 : (∀ stream, Chunkable 512 1024 stream) ∧ ¬Chunkable 8 2 overTwo := by
  refine ⟨(server_chunking_iff 512 1024 (by decide)).2.mpr (by decide), fun same => ?_⟩
  have fails := ((server_chunking_iff 8 2 (by decide)).1 overTwo).mp same (overTwo.take 14) (overTwo.drop 14) rfl (by decide)
    (by decide)
  exact absurd fails (by decide)

/-- A first fragment of three bytes under a limit of two, and an empty last fragment that ends a chunk. -/
theorem server_chunking_counterexample :
    received .server 8 2
        [[0x01, 0x83, 0, 0, 0, 0, 97, 98, 99, 0x80, 0x80, 0, 0, 0, 0], [0x81]] =
      ([.message .text [97, 98, 99]], .ok .more) ∧
    received .server 8 2
        [[0x01, 0x83, 0, 0, 0, 0, 97, 98, 99, 0x80, 0x80, 0, 0, 0, 0, 0x81]] =
      ([.fail 1009], .ok .closeWithCode) := by
  decide +kernel

end LAppS.StreamProcessing

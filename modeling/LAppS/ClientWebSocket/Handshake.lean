import LAppS.Bytes

/-!
# The response to the upgrade request

`ClientWebSocket::responseOK` reads the 101 response and leaves in `cursor` where the bytes behind its blank
line begin, if there are any.
-/

namespace LAppS.ClientWebSocket

/-- The bytes of a string literal. -/
def ascii (s : String) : List UInt8 := s.toList.map fun c => UInt8.ofNat c.toNat

/-- A `std::map` of headers; the first value of a key stays. -/
abbrev Headers := List (List UInt8 × List UInt8)

namespace Headers

def emplace (headers : Headers) (key value : List UInt8) : Headers :=
  if headers.any (·.1 = key) then headers else headers ++ [(key, value)]

def get (headers : Headers) (key : List UInt8) : List UInt8 := (headers.lookup key).getD []

end Headers

def isCrLf (b : UInt8) : Bool := b = 13 || b = 10

def isNotColon (b : UInt8) : Bool := b ≠ 58

def isBlankOrColon (b : UInt8) : Bool := b = 9 || b = 32 || b = 58

def isNotCrLf (b : UInt8) : Bool := b ≠ 13 && b ≠ 10

/-- What is left behind the value of a header whose key begins at `rest`. -/
def afterValue (rest : List UInt8) : List UInt8 :=
  ((rest.dropWhile isNotColon).dropWhile isBlankOrColon).dropWhile isNotCrLf

theorem length_dropWhile_le (p : UInt8 → Bool) (l : List UInt8) : (l.dropWhile p).length ≤ l.length :=
  (List.dropWhile_suffix p).length_le

theorem afterValue_length_le (rest : List UInt8) : (afterValue rest).length ≤ rest.length :=
  ((length_dropWhile_le ..).trans (length_dropWhile_le ..)).trans (length_dropWhile_le ..)

/-- Every round of the loop reads something. -/
theorem afterValue_length {rest : List UInt8} (h : rest ≠ []) :
    (afterValue (rest.dropWhile isCrLf)).length < rest.length := by
  obtain ⟨b, rest, rfl⟩ := List.exists_cons_of_ne_nil h
  by_cases hb : isCrLf b = true
  · rw [List.dropWhile_cons_of_pos hb, List.length_cons]
    exact Nat.lt_succ_of_le ((afterValue_length_le _).trans (length_dropWhile_le ..))
  · rw [List.dropWhile_cons_of_neg hb, List.length_cons, afterValue]
    by_cases hc : isNotColon b = true
    · rw [List.dropWhile_cons_of_pos hc]
      exact Nat.lt_succ_of_le (afterValue_length_le rest)
    · have hblank : isBlankOrColon b = true := by simp_all [isNotColon, isBlankOrColon]
      rw [List.dropWhile_cons_of_neg hc, List.dropWhile_cons_of_pos hblank]
      exact Nat.lt_succ_of_le ((length_dropWhile_le ..).trans (length_dropWhile_le ..))

/-- The loop over the headers, with what follows the blank line if there is one. -/
def readHeaders (rest : List UInt8) (headers : Headers) : Headers × Option (List UInt8) :=
  if _h : rest ≠ [] then
    let line := rest.dropWhile isCrLf
    if (rest.takeWhile isCrLf).length = 4 then (headers, some line)
    else
      let key := line.takeWhile isNotColon
      let value := ((line.dropWhile isNotColon).dropWhile isBlankOrColon).takeWhile isNotCrLf
      readHeaders (afterValue line) (if key ≠ [] ∧ value ≠ [] then headers.emplace key value else headers)
  else (headers, none)
termination_by rest.length
decreasing_by exact afterValue_length _h

/-- A letter of ASCII as a capital. -/
def capital (b : UInt8) : UInt8 := if 97 ≤ b ∧ b ≤ 122 then b - 32 else b

def capitals (bs : List UInt8) : List UInt8 := bs.map capital

/-- What `itc::utils::toupper` does to a text of ASCII. -/
def Capitalizes (toupper : List UInt8 → List UInt8) : Prop := ∀ bs, (∀ b ∈ bs, b < 128) → toupper bs = capitals bs

-- `itc::utils::toupper`, which is not part of the repository
variable (toupper : List UInt8 → List UInt8)

/-- The headers that the client asks for. -/
def accepted (headers : Headers) (requiredSecWebsocketAccept : List UInt8) : Bool :=
  !headers.isEmpty && toupper (headers.get (ascii "Connection")) = ascii "UPGRADE" &&
    toupper (headers.get (ascii "Upgrade")) = ascii "WEBSOCKET" &&
    headers.get (ascii "Sec-WebSocket-Accept") = requiredSecWebsocketAccept

def statusLine : List UInt8 := ascii "HTTP/1.1 101 Switching Protocols\r\n"

/-- The verdict and the new value of `cursor`. -/
def responseOK (cursor : Nat) (buff : List UInt8) (requiredSecWebsocketAccept : List UInt8) : Bool × Nat :=
  if buff.length < 113 then (false, cursor)
  else if buff.take 34 = statusLine then
    let (headers, found) := readHeaders (buff.drop 34) []
    let cursor :=
      match found with
      | some rest => if rest ≠ [] then buff.length - rest.length else 0
      | none => cursor
    (accepted toupper headers requiredSecWebsocketAccept, cursor)
  else (false, cursor)

theorem responseOK_cursor {buff : List UInt8} (nonempty : buff ≠ []) (accept : List UInt8) :
    (responseOK toupper 0 buff accept).2 < buff.length := by
  have pos := List.length_pos_iff.mpr nonempty
  unfold responseOK
  split
  · exact pos
  · split
    · dsimp only
      split
      next rest found =>
        split
        next some_ =>
          have := List.length_pos_iff.mpr some_
          show buff.length - rest.length < buff.length
          omega
        · exact pos
      · exact pos
    · exact pos

/-! ### Bytes behind the response -/

/-- A 101 response that the client accepts and that ends with its blank line. -/
structure Response (accept resp : List UInt8) : Prop where
  key : accept ≠ []
  long : 113 ≤ resp.length
  status : resp.take 34 = statusLine
  headers : accepted toupper (readHeaders (resp.drop 34) []).1 accept = true
  complete : (readHeaders (resp.drop 34) []).2 = some []

theorem dropWhile_append_of_ne_nil {p : UInt8 → Bool} {xs : List UInt8} (ys : List UInt8) (h : xs.dropWhile p ≠ []) :
    (xs ++ ys).dropWhile p = xs.dropWhile p ++ ys := by
  rw [List.dropWhile_append, if_neg (by simpa using h)]

theorem takeWhile_append_of_ne_nil {p : UInt8 → Bool} {xs : List UInt8} (ys : List UInt8) (h : xs.dropWhile p ≠ []) :
    (xs ++ ys).takeWhile p = xs.takeWhile p := by
  rw [List.takeWhile_append, if_neg]
  intro all
  have := congrArg List.length (List.takeWhile_append_dropWhile (p := p) (l := xs))
  rw [List.length_append] at this
  exact h (List.eq_nil_of_length_eq_zero (by omega))

theorem dropWhile_ne_nil {p : UInt8 → Bool} {xs : List UInt8} (h : xs.dropWhile p ≠ []) : xs ≠ [] := by
  rintro rfl
  exact h rfl

theorem readHeaders_le (rest : List UInt8) (headers : Headers) {r : List UInt8}
    (h : (readHeaders rest headers).2 = some r) : r.length ≤ rest.length := by
  fun_induction readHeaders rest headers with
  | case1 rest headers hne line hblank =>
    rw [← Option.some.inj h]
    exact length_dropWhile_le ..
  | case2 rest headers hne line hblank key value ih =>
    exact (ih h).trans (afterValue_length hne).le
  | case3 => cases h

theorem prefix_line (headers : Headers) (key value : List UInt8) :
    headers <+: if key ≠ [] ∧ value ≠ [] then headers.emplace key value else headers := by
  unfold Headers.emplace
  repeat' split
  all_goals first
    | exact List.prefix_rfl
    | exact List.prefix_append ..

/-- The headers that are found are added at the end. -/
theorem readHeaders_extends (rest : List UInt8) (headers : Headers) :
    headers <+: (readHeaders rest headers).1 := by
  fun_induction readHeaders rest headers with
  | case1 => exact List.prefix_rfl
  | case2 rest headers hne line hblank key value ih =>
    exact (prefix_line headers key value).trans ih
  | case3 => exact List.prefix_rfl

/-- Bytes behind the blank line are found there, unless they begin with a line break themselves. -/
theorem readHeaders_append (rest : List UInt8) (headers : Headers) (glued : List UInt8)
    (complete : (readHeaders rest headers).2 = some []) :
    (glued.head?.any isCrLf = false → readHeaders (rest ++ glued) headers =
      ((readHeaders rest headers).1, some glued)) ∧
    (glued.head?.any isCrLf = true → (readHeaders rest headers).1 <+: (readHeaders (rest ++ glued) headers).1 ∧
      ∀ r, (readHeaders (rest ++ glued) headers).2 = some r → r.length < glued.length) := by
  fun_induction readHeaders rest headers with
  | case1 rest headers hne line hblank =>
    have all : rest.dropWhile isCrLf = [] := Option.some.inj complete
    have whole : rest.takeWhile isCrLf = rest := by
      have := List.takeWhile_append_dropWhile (p := isCrLf) (l := rest)
      rwa [all, List.append_nil] at this
    have taken : (rest ++ glued).takeWhile isCrLf = rest ++ glued.takeWhile isCrLf := by
      rw [List.takeWhile_append, if_pos (by rw [whole])]
    have dropped : (rest ++ glued).dropWhile isCrLf = glued.dropWhile isCrLf := by
      rw [List.dropWhile_append, if_pos (by simp [all])]
    rw [whole] at hblank
    rw [readHeaders, dif_pos (by simp [hne])]
    simp only [taken, dropped]
    cases glued with
    | nil => simp [hblank]
    | cons g glued =>
      constructor
      · intro hg
        have hg : ¬isCrLf g = true := by simpa using hg
        rw [List.takeWhile_cons_of_neg hg, List.dropWhile_cons_of_neg hg, List.append_nil, if_pos hblank]
      · intro hg
        have hg : isCrLf g = true := by simpa using hg
        rw [List.takeWhile_cons_of_pos hg, List.dropWhile_cons_of_pos hg, if_neg (by simp [hblank])]
        refine ⟨(prefix_line ..).trans (readHeaders_extends ..), fun r hr => Nat.lt_succ_of_le ?_⟩
        exact (readHeaders_le _ _ hr).trans ((afterValue_length_le _).trans (length_dropWhile_le ..))
  | case2 rest headers hne line hblank key value ih =>
    have more : afterValue line ≠ [] := by
      intro hnil
      rw [hnil, readHeaders, dif_neg (by simp)] at complete
      cases complete
    have h1 := dropWhile_ne_nil more
    have h2 := dropWhile_ne_nil h1
    have h3 := dropWhile_ne_nil h2
    have next := ih complete
    rw [readHeaders, dif_pos (by simp [hne])]
    have after : afterValue (line ++ glued) = afterValue line ++ glued := by
      rw [afterValue, dropWhile_append_of_ne_nil glued h2, dropWhile_append_of_ne_nil glued h1,
        dropWhile_append_of_ne_nil glued more]
      rfl
    have hline : rest.dropWhile isCrLf = line := rfl
    simp only [takeWhile_append_of_ne_nil glued h3, dropWhile_append_of_ne_nil glued h3, if_neg hblank]
    simp only [hline, after, takeWhile_append_of_ne_nil glued h2, dropWhile_append_of_ne_nil glued h2,
      dropWhile_append_of_ne_nil glued h1, takeWhile_append_of_ne_nil glued more]
    simpa only [dite_eq_ite] using next
  | case3 => cases complete

theorem get_extends {headers headers' : Headers} (h : headers <+: headers') {key : List UInt8}
    (found : headers.get key ≠ []) : headers'.get key = headers.get key := by
  obtain ⟨more, rfl⟩ := h
  unfold Headers.get at found ⊢
  rw [List.lookup_append]
  cases hl : headers.lookup key with
  | none => simp [hl] at found
  | some value => rfl

section Behind

variable {toupper} (empty : toupper [] = [])
include empty

/-- Later headers do not take back what is accepted. -/
theorem accepted_extends {headers headers' : Headers} (h : headers <+: headers') {accept : List UInt8}
    (key : accept ≠ []) (ok : accepted toupper headers accept = true) : accepted toupper headers' accept = true := by
  simp only [accepted, Bool.and_eq_true, decide_eq_true_eq, Bool.not_eq_true'] at ok ⊢
  obtain ⟨⟨⟨nonempty, connection⟩, upgrade⟩, secAccept⟩ := ok
  have c : headers.get (ascii "Connection") ≠ [] := fun h => by rw [h, empty] at connection; cases connection
  have u : headers.get (ascii "Upgrade") ≠ [] := fun h => by rw [h, empty] at upgrade; cases upgrade
  have s : headers.get (ascii "Sec-WebSocket-Accept") ≠ [] := fun h => key (by rw [← secAccept, h])
  rw [get_extends h c, get_extends h u, get_extends h s]
  refine ⟨⟨⟨?_, connection⟩, upgrade⟩, secAccept⟩
  obtain ⟨more, rfl⟩ := h
  cases headers with
  | nil => cases nonempty
  | cons => rfl

/-- Where the client finds the bytes behind a response. -/
theorem responseOK_append {accept resp : List UInt8} (response : Response toupper accept resp) (glued : List UInt8) :
    (responseOK toupper 0 (resp ++ glued) accept).1 = true ∧
    (glued = [] → (responseOK toupper 0 (resp ++ glued) accept).2 = 0) ∧
    (glued ≠ [] → glued.head?.any isCrLf = false → (responseOK toupper 0 (resp ++ glued) accept).2 = resp.length) ∧
    (glued.head?.any isCrLf = true → (responseOK toupper 0 (resp ++ glued) accept).2 = 0 ∨
      resp.length < (responseOK toupper 0 (resp ++ glued) accept).2) := by
  have long := response.long
  have first : (resp ++ glued).take 34 = statusLine := by
    rw [List.take_append_of_le_length (by omega), response.status]
  have rest : (resp ++ glued).drop 34 = resp.drop 34 ++ glued := List.drop_append_of_le_length (by omega)
  obtain ⟨plain, broken⟩ := readHeaders_append (resp.drop 34) [] glued response.complete
  simp only [responseOK, first, rest, if_true, if_neg (show ¬(resp ++ glued).length < 113 by simp; omega)]
  cases hg : glued.head?.any isCrLf with
  | false =>
    rw [plain hg]
    refine ⟨response.headers, ?_, ?_, by simp⟩
    · rintro rfl
      simp
    · intro hne _
      simp [hne]
  | true =>
    obtain ⟨more, later⟩ := broken hg
    refine ⟨accepted_extends empty more response.key response.headers, ?_, by simp, fun _ => ?_⟩
    · rintro rfl
      cases hg
    · cases found : (readHeaders (resp.drop 34 ++ glued) []).2 with
      | none => exact .inl rfl
      | some r =>
        have := later r found
        by_cases hr : r = []
        · exact .inl (by simp [hr])
        · refine .inr ?_
          simp only [hr, ne_eq, not_false_eq_true, if_true, List.length_append]
          omega

end Behind

end LAppS.ClientWebSocket

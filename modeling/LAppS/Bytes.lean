import Mathlib.Data.Nat.Bitwise
import Mathlib.Data.List.Induction

/-!
# Byte strings

Byte orders, in-place writes and masking over lists of bytes. A machine word is the natural
number it holds; `leToNat` and `leBytes` are its load and store on a little-endian host.
-/

namespace LAppS.Bytes

-- named, so that a literal of `Fin 4` or `Fin 8` is the same term in every module
instance four_ne : NeZero 4 := ⟨by decide⟩

instance eight_ne : NeZero 8 := ⟨by decide⟩

/-- The value of a byte string, most significant byte first. -/
def beToNat (bs : List UInt8) : Nat := bs.foldl (fun n b => n * 256 + b.toNat) 0

/-- The `n` low bytes of `w`, most significant first. -/
def beBytes : Nat → Nat → List UInt8
  | 0, _ => []
  | n + 1, w => UInt8.ofNat (w / 256 ^ n) :: beBytes n w

/-- The value of a byte string, least significant byte first. -/
def leToNat : List UInt8 → Nat
  | [] => 0
  | b :: bs => b.toNat + 256 * leToNat bs

/-- The `n` low bytes of `w`, least significant first. -/
def leBytes : Nat → Nat → List UInt8
  | 0, _ => []
  | n + 1, w => UInt8.ofNat w :: leBytes n (w / 256)

/-! ### Byte orders -/

@[simp] theorem length_beBytes (n w : Nat) : (beBytes n w).length = n := by
  induction n with
  | zero => rfl
  | succ n ih => simp [beBytes, ih]

@[simp] theorem length_leBytes (n w : Nat) : (leBytes n w).length = n := by
  induction n generalizing w with
  | zero => rfl
  | succ n ih => simp [leBytes, ih]

theorem toNat_ofNat_byte (n : Nat) : (UInt8.ofNat n).toNat = n % 256 := by
  simp [UInt8.toNat_ofNat']

theorem foldl_beBytes (n w acc : Nat) :
    (beBytes n w).foldl (fun m b => m * 256 + b.toNat) acc = acc * 256 ^ n + w % 256 ^ n := by
  induction n generalizing acc with
  | zero => simp [beBytes, Nat.mod_one]
  | succ n ih =>
    rw [beBytes, List.foldl_cons, ih, toNat_ofNat_byte]
    have digits : w % 256 ^ (n + 1) = (w / 256 ^ n % 256) * 256 ^ n + w % 256 ^ n := by
      rw [Nat.pow_succ, Nat.mod_mul, Nat.mul_comm (256 ^ n), Nat.add_comm]
    rw [digits, Nat.pow_succ, Nat.add_mul, Nat.mul_assoc, Nat.mul_comm 256, Nat.add_assoc]

/-- Reading back `n` big-endian bytes of a value that fits them. -/
theorem beToNat_beBytes {n w : Nat} (fits : w < 256 ^ n) : beToNat (beBytes n w) = w := by
  rw [beToNat, foldl_beBytes, Nat.zero_mul, Nat.zero_add, Nat.mod_eq_of_lt fits]

theorem beToNat_append_singleton (bs : List UInt8) (b : UInt8) :
    beToNat (bs ++ [b]) = beToNat bs * 256 + b.toNat := by
  simp [beToNat, List.foldl_append]

theorem beToNat_lt (bs : List UInt8) : beToNat bs < 256 ^ bs.length := by
  induction bs using List.reverseRecOn with
  | nil => simp [beToNat]
  | append_singleton bs b ih =>
    rw [beToNat_append_singleton, List.length_append, List.length_singleton, Nat.pow_succ]
    have := b.toNat_lt
    omega

theorem beToNat_cons (b : UInt8) (bs : List UInt8) : beToNat (b :: bs) = b.toNat * 256 ^ bs.length + beToNat bs := by
  induction bs using List.reverseRecOn with
  | nil => simp [beToNat]
  | append_singleton bs c ih =>
    rw [← List.cons_append, beToNat_append_singleton, ih, beToNat_append_singleton, List.length_append,
      List.length_singleton, Nat.pow_succ, Nat.add_mul, Nat.mul_assoc, Nat.add_assoc]

theorem beBytes_add (n a w : Nat) : beBytes n (a * 256 ^ n + w) = beBytes n w := by
  induction n generalizing a with
  | zero => rfl
  | succ n ih =>
    have high : UInt8.ofNat ((a * 256 ^ (n + 1) + w) / 256 ^ n) = UInt8.ofNat (w / 256 ^ n) := by
      apply UInt8.toNat_inj.mp
      rw [toNat_ofNat_byte, toNat_ofNat_byte, Nat.pow_succ', ← Nat.mul_assoc, Nat.mul_comm,
        Nat.mul_add_div (Nat.pow_pos (by decide)), Nat.add_comm, Nat.add_mul_mod_self_right]
    rw [beBytes, beBytes, high, Nat.pow_succ', ← Nat.mul_assoc, ih]

/-- Writing back the bytes that a value was read from. -/
theorem beBytes_beToNat (bs : List UInt8) : beBytes bs.length (beToNat bs) = bs := by
  induction bs with
  | nil => rfl
  | cons b bs ih =>
    have head : (b.toNat * 256 ^ bs.length + beToNat bs) / 256 ^ bs.length = b.toNat := by
      rw [Nat.mul_comm, Nat.mul_add_div (Nat.pow_pos (by decide)), Nat.div_eq_of_lt (beToNat_lt bs), Nat.add_zero]
    rw [List.length_cons, beBytes, beToNat_cons, beBytes_add, ih, head, UInt8.ofNat_toNat]

theorem leBytes_append (m n a b : Nat) (ha : a < 256 ^ m) :
    leBytes (m + n) (a + 256 ^ m * b) = leBytes m a ++ leBytes n b := by
  induction m generalizing a with
  | zero =>
    have : a = 0 := by simpa using ha
    subst this
    simp [leBytes]
  | succ m ih =>
    have head : UInt8.ofNat (a + 256 ^ (m + 1) * b) = UInt8.ofNat a := by
      apply UInt8.toNat_inj.mp
      rw [toNat_ofNat_byte, toNat_ofNat_byte, Nat.pow_succ, Nat.mul_comm (256 ^ m), Nat.mul_assoc,
        Nat.add_mul_mod_self_left]
    have tail : (a + 256 ^ (m + 1) * b) / 256 = a / 256 + 256 ^ m * b := by
      rw [Nat.pow_succ, Nat.mul_comm (256 ^ m), Nat.mul_assoc, Nat.add_mul_div_left _ _ (by decide)]
    rw [show m + 1 + n = (m + n) + 1 by omega, leBytes, head, tail,
      ih _ (by rw [Nat.pow_succ] at ha; omega)]
    rfl

theorem leToNat_leBytes {n w : Nat} (fits : w < 256 ^ n) : leToNat (leBytes n w) = w := by
  induction n generalizing w with
  | zero =>
    have : w = 0 := by simpa using fits
    simp [leBytes, leToNat, this]
  | succ n ih =>
    rw [leBytes, leToNat, toNat_ofNat_byte, ih (Nat.div_lt_of_lt_mul (by rwa [Nat.pow_succ, Nat.mul_comm] at fits)),
      Nat.mod_add_div]

theorem xor_byte_split {a b : Nat} (ha : a < 256) (hb : b < 256) (x y : Nat) :
    (a + 256 * x) ^^^ (b + 256 * y) = (a ^^^ b) + 256 * (x ^^^ y) := by
  have hab : a ^^^ b < 256 := Nat.xor_lt_two_pow (n := 8) ha hb
  have low : ((a + 256 * x) ^^^ (b + 256 * y)) % 2 ^ 8 = a ^^^ b := by
    rw [Nat.xor_mod_two_pow, show (2 : Nat) ^ 8 = 256 from rfl, Nat.add_mul_mod_self_left,
      Nat.add_mul_mod_self_left, Nat.mod_eq_of_lt ha, Nat.mod_eq_of_lt hb]
  have high : ((a + 256 * x) ^^^ (b + 256 * y)) / 2 ^ 8 = x ^^^ y := by
    rw [Nat.xor_div_two_pow, show (2 : Nat) ^ 8 = 256 from rfl, Nat.add_mul_div_left _ _ (by decide),
      Nat.add_mul_div_left _ _ (by decide), Nat.div_eq_of_lt ha, Nat.div_eq_of_lt hb, Nat.zero_add,
      Nat.zero_add]
  have := Nat.div_add_mod ((a + 256 * x) ^^^ (b + 256 * y)) (2 ^ 8)
  rw [low, high] at this
  omega

/-- Exclusive-or of two words, seen byte by byte in memory. -/
theorem leBytes_xor (xs ys : List UInt8) (same : xs.length = ys.length) :
    leBytes xs.length (leToNat xs ^^^ leToNat ys) = List.zipWith (· ^^^ ·) xs ys := by
  induction xs generalizing ys with
  | nil => simp [leBytes]
  | cons x xs ih =>
    obtain _ | ⟨y, ys⟩ := ys
    · simp at same
    have hx := x.toNat_lt
    have hy := y.toNat_lt
    rw [List.length_cons, leToNat, leToNat, xor_byte_split hx hy, leBytes, List.zipWith_cons_cons]
    have hxy : x.toNat ^^^ y.toNat < 256 := Nat.xor_lt_two_pow (n := 8) hx hy
    congr 1
    · apply UInt8.toNat_inj.mp
      rw [toNat_ofNat_byte, Nat.add_mul_mod_self_left, Nat.mod_eq_of_lt hxy, UInt8.toNat_xor]
    · rw [Nat.add_mul_div_left _ _ (by decide), Nat.div_eq_of_lt hxy, Nat.zero_add]
      exact ih ys (by simpa using same)

/-! ### Buffers -/

/-- `std::vector::resize`: keep a prefix, fill with zeros. -/
def resize (buf : List UInt8) (n : Nat) : List UInt8 := buf.take n ++ List.replicate (n - buf.length) 0

@[simp] theorem length_resize (buf : List UInt8) (n : Nat) : (resize buf n).length = n := by
  simp [resize]; omega

theorem take_resize (buf : List UInt8) {n : Nat} (h : buf.length ≤ n) :
    (resize buf n).take buf.length = buf := by
  simp [resize, List.take_of_length_le h]

@[simp] theorem resize_length (buf : List UInt8) : resize buf buf.length = buf := by simp [resize]

/-- Store the bytes `bs` at `i`, `i + 1`, ... -/
def writeBytes (buf : List UInt8) (i : Nat) : List UInt8 → List UInt8
  | [] => buf
  | b :: bs => writeBytes (buf.set i b) (i + 1) bs

@[simp] theorem length_writeBytes (buf : List UInt8) (i : Nat) (bs : List UInt8) :
    (writeBytes buf i bs).length = buf.length := by
  induction bs generalizing buf i with
  | nil => rfl
  | cons b bs ih => simp [writeBytes, ih]

theorem writeBytes_append (buf : List UInt8) (i : Nat) (xs ys : List UInt8) :
    writeBytes buf i (xs ++ ys) = writeBytes (writeBytes buf i xs) (i + xs.length) ys := by
  induction xs generalizing buf i with
  | nil => simp [writeBytes]
  | cons x xs ih =>
    simp only [List.cons_append, writeBytes, ih, List.length_cons]
    rw [show i + 1 + xs.length = i + (xs.length + 1) by omega]

theorem take_writeBytes (buf : List UInt8) (i : Nat) (bs : List UInt8) (room : i + bs.length ≤ buf.length) :
    (writeBytes buf i bs).take (i + bs.length) = buf.take i ++ bs := by
  induction bs generalizing buf i with
  | nil => simp [writeBytes]
  | cons b bs ih =>
    rw [List.length_cons] at room
    have hi : i < buf.length := by omega
    rw [writeBytes, List.length_cons, show i + (bs.length + 1) = i + 1 + bs.length by omega,
      ih _ _ (by rw [List.length_set]; omega)]
    have : (buf.set i b).take (i + 1) = buf.take i ++ [b] := by
      rw [List.take_succ_eq_append_getElem (by simpa using hi), List.getElem_set_self,
        List.take_set_of_le (by omega)]
    rw [this, List.append_assoc, List.singleton_append]

theorem getElem?_writeBytes (buf : List UInt8) (i : Nat) (bs : List UInt8) (room : i + bs.length ≤ buf.length)
    (j : Nat) : (writeBytes buf i bs)[j]? = if i ≤ j ∧ j < i + bs.length then bs[j - i]? else buf[j]? := by
  induction bs generalizing buf i with
  | nil => simp [writeBytes]
  | cons b bs ih =>
    rw [List.length_cons] at room ⊢
    rw [writeBytes, ih (buf.set i b) (i + 1) (by rw [List.length_set]; omega)]
    by_cases first : j = i
    · subst first
      have inside : j < buf.length := by omega
      simp [inside]
    · rw [List.getElem?_set_ne (Ne.symm first)]
      by_cases later : i + 1 ≤ j ∧ j < i + 1 + bs.length
      · rw [if_pos later, if_pos (by omega), show j - i = j - (i + 1) + 1 by omega, List.getElem?_cons_succ]
      · rw [if_neg later, if_neg (by omega)]

/-! ### Masking -/

theorem writeBytes_resize (buf bs : List UInt8) :
    writeBytes (resize buf (buf.length + bs.length)) buf.length bs = buf ++ bs := by
  have written := take_writeBytes (resize buf (buf.length + bs.length)) buf.length bs (by simp)
  rwa [take_resize buf (Nat.le_add_right _ _), List.take_of_length_le (by simp)] at written

/-- The bytes `bs`, which stand at payload positions `r`, `r + 1`, ..., masked with the
four-byte key. Masking is its own inverse. -/
def maskFrom (key : Fin 4 → UInt8) (r : Nat) : List UInt8 → List UInt8
  | [] => []
  | b :: bs => (b ^^^ key (Fin.ofNat 4 r)) :: maskFrom key (r + 1) bs

@[simp] theorem length_maskFrom (key : Fin 4 → UInt8) (r : Nat) (bs : List UInt8) :
    (maskFrom key r bs).length = bs.length := by
  induction bs generalizing r with
  | nil => rfl
  | cons b bs ih => simp [maskFrom, ih]

theorem maskFrom_append (key : Fin 4 → UInt8) (r : Nat) (xs ys : List UInt8) :
    maskFrom key r (xs ++ ys) = maskFrom key r xs ++ maskFrom key (r + xs.length) ys := by
  induction xs generalizing r with
  | nil => simp [maskFrom]
  | cons x xs ih =>
    simp only [List.cons_append, maskFrom, ih, List.length_cons]
    rw [show r + 1 + xs.length = r + (xs.length + 1) by omega]

theorem maskFrom_maskFrom (key : Fin 4 → UInt8) (r : Nat) (bs : List UInt8) :
    maskFrom key r (maskFrom key r bs) = bs := by
  induction bs generalizing r with
  | nil => rfl
  | cons b bs ih => rw [maskFrom, maskFrom, ih, UInt8.xor_assoc, UInt8.xor_self, UInt8.xor_zero]

theorem getElem?_maskFrom (key : Fin 4 → UInt8) (r : Nat) (bs : List UInt8) (i : Nat) :
    (maskFrom key r bs)[i]? = bs[i]?.map (· ^^^ key (Fin.ofNat 4 (r + i))) := by
  induction bs generalizing r i with
  | nil => rfl
  | cons b bs ih =>
    cases i with
    | zero => rfl
    | succ i => rw [maskFrom, List.getElem?_cons_succ, List.getElem?_cons_succ, ih, Nat.add_right_comm, Nat.add_assoc]

theorem maskFrom_zero (r : Nat) (bs : List UInt8) : maskFrom (fun _ => 0) r bs = bs := by
  induction bs generalizing r with
  | nil => rfl
  | cons b bs ih => simp [maskFrom, ih]

theorem maskFrom_mod (key : Fin 4 → UInt8) (r : Nat) (bs : List UInt8) :
    maskFrom key (r % 4) bs = maskFrom key r bs := by
  induction bs generalizing r with
  | nil => rfl
  | cons b bs ih =>
    have same : (Fin.ofNat 4 (r % 4)) = Fin.ofNat 4 r := by simp [Fin.ofNat]
    rw [maskFrom, maskFrom, same, ← ih (r % 4 + 1), ← ih (r + 1), Nat.add_mod (r % 4) 1, Nat.mod_mod,
      ← Nat.add_mod]

/-- The key repeated twice, as the word that is exclusive-ored with eight payload bytes. -/
def keyWord (key : Fin 4 → UInt8) : Nat :=
  leToNat [key 0, key 1, key 2, key 3, key 0, key 1, key 2, key 3]

/-- A word that starts at a multiple of four is masked as its eight bytes are. -/
theorem leBytes_keyWord (key : Fin 4 → UInt8) (r : Nat) (aligned : r % 4 = 0) (bs : List UInt8)
    (len : bs.length = 8) : leBytes 8 (leToNat bs ^^^ keyWord key) = maskFrom key r bs := by
  rw [keyWord, ← len, leBytes_xor _ _ (by simpa using len), ← maskFrom_mod key r, aligned]
  match bs, len with
  | [a, b, c, d, e, f, g, h], _ => rfl

end LAppS.Bytes

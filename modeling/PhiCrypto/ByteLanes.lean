import PhiCrypto.ByteString

/-!
# Bytes in a word

A word of `n` bytes, little-endian, is a lowest byte and a word of `n - 1` bytes above it.
Bitwise operations work on the two parts, and so does a subtraction that borrows nothing
from the upper one. `mark` is the subtraction that finds small bytes: it raises the top bit
of the lowest byte below a bound, and of no byte before that one. What it does above the
first such byte is not determined, and nobody reads it.
-/

namespace PhiCrypto

namespace ByteLanes

variable {n r s x y : Nat}

/-! ### Words -/

/-- The largest word of `n` bytes. -/
def wordMax (n : Nat) : Nat := 256 ^ n - 1

/-- The word with a one in each byte. -/
def oneBytes (n : Nat) : Nat := wordMax n / 255

/-- Subtraction of words. -/
def wrappingSub (n x y : Nat) : Nat := (x + 256 ^ n - y) % 256 ^ n

def complement (n x : Nat) : Nat := wordMax n - x

/-- The number of zero bits below the lowest one, in a word of `w` bits. -/
def trailingZeros : Nat → Nat → Nat
  | 0, _ => 0
  | w + 1, x => if x % 2 = 1 then 0 else trailingZeros w (x / 2) + 1

theorem wordMax_succ (n : Nat) : wordMax (n + 1) = 255 + 256 * wordMax n := by
  have hpos : 0 < 256 ^ n := Nat.pow_pos (by decide)
  rw [wordMax, wordMax, Nat.pow_succ]
  omega

theorem wordMax_eq (n : Nat) : wordMax n = 255 * oneBytes n := by
  have hdvd : 255 ∣ wordMax n := by
    induction n with
    | zero => exact ⟨0, rfl⟩
    | succ n ih =>
      rw [wordMax_succ]
      omega
  exact (Nat.mul_div_cancel' hdvd).symm

theorem oneBytes_succ (n : Nat) : oneBytes (n + 1) = 1 + 256 * oneBytes n := by
  have hmax := wordMax_eq n
  have hsucc := wordMax_eq (n + 1)
  rw [wordMax_succ] at hsucc
  omega

/-! ### One byte and the rest -/

/-- The lowest byte of a word and the word above it. -/
theorem lane_mod_div (hr : r < 256) :
    (r + 2 ^ 8 * x) % 2 ^ 8 = r ∧ (r + 2 ^ 8 * x) / 2 ^ 8 = x := by
  omega

/-- A bitwise operation that goes through `%` and `/` by a power of two works on the bytes. -/
theorem op_lanes {op : Nat → Nat → Nat}
    (hmod : ∀ a b, op a b % 2 ^ 8 = op (a % 2 ^ 8) (b % 2 ^ 8))
    (hdiv : ∀ a b, op a b / 2 ^ 8 = op (a / 2 ^ 8) (b / 2 ^ 8)) (hr : r < 256) (hs : s < 256) :
    op (r + 256 * x) (s + 256 * y) = op r s + 256 * op x y := by
  obtain ⟨hrmod, hrdiv⟩ := lane_mod_div (x := x) hr
  obtain ⟨hsmod, hsdiv⟩ := lane_mod_div (x := y) hs
  have h := Nat.mod_add_div (op (r + 2 ^ 8 * x) (s + 2 ^ 8 * y)) (2 ^ 8)
  rw [hmod, hdiv, hrmod, hrdiv, hsmod, hsdiv] at h
  exact h.symm

theorem and_lanes (hr : r < 256) (hs : s < 256) :
    (r + 256 * x) &&& (s + 256 * y) = (r &&& s) + 256 * (x &&& y) :=
  op_lanes (fun _ _ => Nat.and_mod_two_pow) (fun _ _ => Nat.and_div_two_pow) hr hs

theorem or_lanes (hr : r < 256) (hs : s < 256) :
    (r + 256 * x) ||| (s + 256 * y) = (r ||| s) + 256 * (x ||| y) :=
  op_lanes (fun _ _ => Nat.or_mod_two_pow) (fun _ _ => Nat.or_div_two_pow) hr hs

theorem xor_lanes (hr : r < 256) (hs : s < 256) :
    (r + 256 * x) ^^^ (s + 256 * y) = (r ^^^ s) + 256 * (x ^^^ y) :=
  op_lanes (fun _ _ => Nat.xor_mod_two_pow) (fun _ _ => Nat.xor_div_two_pow) hr hs

theorem complement_lanes (hr : r < 256) (hx : x < 256 ^ n) :
    complement (n + 1) (r + 256 * x) = (255 - r) + 256 * complement n x := by
  have hmax : x ≤ wordMax n := Nat.le_sub_one_of_lt hx
  rw [complement, complement, wordMax_succ]
  omega

/-- A subtraction that borrows nothing from the upper bytes. -/
theorem wrappingSub_lanes (hr : r < 256) (hle : s ≤ r) (hy : y ≤ 256 ^ n) :
    wrappingSub (n + 1) (r + 256 * x) (s + 256 * y) = (r - s) + 256 * wrappingSub n x y := by
  have hsplit : r + 256 * x + 256 ^ (n + 1) - (s + 256 * y)
      = (r - s) + 256 * (x + 256 ^ n - y) := by
    rw [Nat.pow_succ]
    omega
  rw [wrappingSub, wrappingSub, hsplit, Nat.pow_succ, Nat.mul_comm (256 ^ n), Nat.mod_mul,
    Nat.add_mul_mod_self_left, Nat.mod_eq_of_lt (by omega), Nat.add_mul_div_left _ _ (by decide),
    Nat.div_eq_of_lt (by omega), Nat.zero_add]

/-- The lowest byte of a subtraction that borrows. -/
theorem wrappingSub_mod (hr : r < 256) (hs : s < 256) (hlt : r < s) (hy : y < 256 ^ n) :
    wrappingSub (n + 1) (r + 256 * x) (s + 256 * y) % 256 = r + 256 - s := by
  have hsplit : r + 256 * x + 256 ^ (n + 1) - (s + 256 * y)
      = (r + 256 - s) + 256 * (x + 256 ^ n - y - 1) := by
    rw [Nat.pow_succ]
    omega
  rw [wrappingSub, Nat.mod_mod_of_dvd _ (Dvd.intro_left _ (Nat.pow_succ ..).symm), hsplit,
    Nat.add_mul_mod_self_left, Nat.mod_eq_of_lt (by omega)]

/-! ### Small bytes -/

/-- The subtraction that marks bytes below `k`. -/
def mark (n k x : Nat) : Nat := wrappingSub n x (oneBytes n * k) &&& complement n x

/-- The top bit of each byte. -/
def topBits (n : Nat) : Nat := oneBytes n <<< 7

theorem topBits_succ (n : Nat) : topBits (n + 1) = 128 + 256 * topBits n := by
  rw [topBits, topBits, Nat.shiftLeft_eq, Nat.shiftLeft_eq, oneBytes_succ]
  omega

theorem topBit_of_le : ∀ b < 256, ∀ k ≤ b, (b - k) &&& (255 - b) &&& 128 = 0 := by
  decide +kernel

theorem topBit_of_lt : ∀ k ≤ 128, ∀ b < k, (b + 256 - k) &&& (255 - b) &&& 128 = 128 := by
  decide +kernel

theorem oneBytes_mul_le {k : Nat} (hk : k ≤ 128) : oneBytes n * k < 256 ^ n := by
  have hpos : 0 < 256 ^ n := Nat.pow_pos (by decide)
  have hmax := wordMax_eq n
  have hmul : oneBytes n * k ≤ oneBytes n * 128 := Nat.mul_le_mul_left _ hk
  rw [wordMax] at hmax
  omega

variable {b k : Nat}

/-- A byte that is not below the bound is not marked, and the bytes above it are marked as
    if it were not there. -/
theorem mark_lanes_of_le (hb : b < 256) (hk : k ≤ 128) (hle : k ≤ b) (hx : x < 256 ^ n) :
    mark (n + 1) k (b + 256 * x) &&& topBits (n + 1) = 256 * (mark n k x &&& topBits n) := by
  have hsub : wrappingSub (n + 1) (b + 256 * x) (oneBytes (n + 1) * k)
      = (b - k) + 256 * wrappingSub n x (oneBytes n * k) := by
    rw [oneBytes_succ, Nat.add_mul, Nat.one_mul, Nat.mul_assoc]
    exact wrappingSub_lanes hb hle (oneBytes_mul_le hk).le
  have hand : (b - k) &&& (255 - b) < 256 := Nat.and_le_left.trans_lt (by omega)
  rw [mark, hsub, complement_lanes hb hx, and_lanes (by omega) (by omega), topBits_succ,
    and_lanes hand (by decide), topBit_of_le b hb k hle, Nat.zero_add, mark]

/-- The first byte below the bound is marked. -/
theorem mark_mod_of_lt (hb : b < k) (hk : k ≤ 128) (hx : x < 256 ^ n) :
    (mark (n + 1) k (b + 256 * x) &&& topBits (n + 1)) % 256 = 128 := by
  have hlow : wrappingSub (n + 1) (b + 256 * x) (oneBytes (n + 1) * k) % 256 = b + 256 - k := by
    rw [oneBytes_succ, Nat.add_mul, Nat.one_mul, Nat.mul_assoc]
    exact wrappingSub_mod (by omega) (by omega) hb (oneBytes_mul_le hk)
  have hcomplement : complement (n + 1) (b + 256 * x) % 256 = 255 - b := by
    rw [complement_lanes (by omega) hx]
    omega
  have htop : topBits (n + 1) % 256 = 128 := by
    rw [topBits_succ]
    omega
  have hmod : ∀ u v : Nat, (u &&& v) % 256 = (u % 256) &&& (v % 256) := fun u v =>
    @Nat.and_mod_two_pow u v 8
  rw [hmod, mark, hmod, hlow, hcomplement, htop, topBit_of_lt k hk b hb]

theorem trailingZeros_two_pow_mul (w j m : Nat) :
    trailingZeros (w + j) (2 ^ j * m) = trailingZeros w m + j := by
  induction j with
  | zero => simp
  | succ j ih =>
    have heven : ¬ 2 ^ (j + 1) * m % 2 = 1 := by
      rw [Nat.pow_succ, Nat.mul_right_comm]
      omega
    have hhalf : 2 ^ (j + 1) * m / 2 = 2 ^ j * m := by
      rw [Nat.pow_succ, Nat.mul_right_comm]
      omega
    rw [Nat.add_succ, trailingZeros, if_neg heven, hhalf, ih]
    rfl

/-- A marked lowest byte has the index 0. -/
theorem trailingZeros_of_mod {w : Nat} (h : x % 256 = 128) : trailingZeros (w + 8) x = 7 := by
  obtain ⟨m, rfl⟩ : ∃ m, x = 2 ^ 7 * (1 + 2 * m) := ⟨x / 256, by omega⟩
  have hodd : (1 + 2 * m) % 2 = 1 := by omega
  rw [show w + 8 = w + 1 + 7 from rfl, trailingZeros_two_pow_mul, trailingZeros, if_pos hodd]

/-- Any other lowest byte counts one. -/
theorem trailingZeros_lanes (w m : Nat) :
    trailingZeros (w + 8) (256 * m) = trailingZeros w m + 8 :=
  trailingZeros_two_pow_mul w 8 m

end ByteLanes

end PhiCrypto

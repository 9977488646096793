import Mathlib.Tactic.Ring
import Mathlib.Data.List.Basic

/-!
# Byte strings and fixed-width integers

Wire formats and hash preimages are concatenations of fixed-width integers and
of byte strings. This module has the two integer encodings (little- and
big-endian, at any width), their inverse laws, and the one cancellation rule
that every framing argument uses: pieces of equal length split a concatenation
in one way only.
-/

namespace PhiCrypto

/-- A byte string (`&[u8]` and `Vec<u8>`). -/
abbrev Bytes := List UInt8

/-! ### Little-endian integers -/

/-- The `width` low-order bytes of `n`, least significant first. -/
def leBytes : Nat → Nat → Bytes
  | 0, _ => []
  | width + 1, n => UInt8.ofNat (n % 256) :: leBytes width (n / 256)

def leNat : Bytes → Nat
  | [] => 0
  | b :: rest => b.toNat + 256 * leNat rest

@[simp] theorem leBytes_length (width n : Nat) : (leBytes width n).length = width := by
  induction width generalizing n with
  | zero => rfl
  | succ width ih => simp only [leBytes, List.length_cons, ih]

theorem leNat_lt (b : Bytes) : leNat b < 256 ^ b.length := by
  induction b with
  | nil => simp [leNat]
  | cons x rest ih =>
    have hx : x.toNat < 256 := x.toNat_lt
    simp only [leNat, List.length_cons, pow_succ]
    omega

theorem leNat_leBytes {width n : Nat} (h : n < 256 ^ width) :
    leNat (leBytes width n) = n := by
  induction width generalizing n with
  | zero =>
    simp only [pow_zero] at h
    simp only [leBytes, leNat]
    omega
  | succ width ih =>
    have hdiv : n / 256 < 256 ^ width := by
      rw [pow_succ] at h
      exact Nat.div_lt_of_lt_mul (by rwa [Nat.mul_comm] at h)
    have hbyte : (UInt8.ofNat (n % 256)).toNat = n % 256 := by
      rw [UInt8.toNat_ofNat']
      omega
    simp only [leBytes, leNat, ih hdiv, hbyte]
    omega

theorem leBytes_leNat (b : Bytes) : leBytes b.length (leNat b) = b := by
  induction b with
  | nil => rfl
  | cons x rest ih =>
    have hx : x.toNat < 256 := x.toNat_lt
    have hmod : (x.toNat + 256 * leNat rest) % 256 = x.toNat := by omega
    have hdiv : (x.toNat + 256 * leNat rest) / 256 = leNat rest := by omega
    simp only [List.length_cons, leNat, leBytes, hmod, hdiv, ih, UInt8.ofNat_toNat]

theorem leBytes_injective {width n m : Nat} (hn : n < 256 ^ width) (hm : m < 256 ^ width)
    (h : leBytes width n = leBytes width m) : n = m := by
  rw [← leNat_leBytes hn, ← leNat_leBytes hm, h]

/-! ### Big-endian integers -/

/-- The `width` low-order bytes of `n`, most significant first (`to_be_bytes`). -/
def beBytes (width n : Nat) : Bytes := (leBytes width n).reverse

def beNat (b : Bytes) : Nat := leNat b.reverse

@[simp] theorem beBytes_length (width n : Nat) : (beBytes width n).length = width := by
  simp [beBytes]

theorem beNat_lt (b : Bytes) : beNat b < 256 ^ b.length := by
  simpa [beNat] using leNat_lt b.reverse

theorem beNat_beBytes {width n : Nat} (h : n < 256 ^ width) :
    beNat (beBytes width n) = n := by
  simp [beNat, beBytes, leNat_leBytes h]

theorem beBytes_beNat (b : Bytes) : beBytes b.length (beNat b) = b := by
  have h := leBytes_leNat b.reverse
  rw [List.length_reverse] at h
  rw [beBytes, beNat, h, List.reverse_reverse]

theorem beBytes_injective {width n m : Nat} (hn : n < 256 ^ width) (hm : m < 256 ^ width)
    (h : beBytes width n = beBytes width m) : n = m := by
  rw [← beNat_beBytes hn, ← beNat_beBytes hm, h]

theorem beBytes_toNat_injective {x y : UInt32} (h : beBytes 4 x.toNat = beBytes 4 y.toNat) :
    x = y :=
  UInt32.toNat_inj.mp (beBytes_injective x.toNat_lt y.toNat_lt h)

/-! ### Splitting concatenations -/

/-- A `width`-byte length prefix followed by a byte string. -/
def frame (width : Nat) (b : Bytes) : Bytes := beBytes width b.length ++ b

@[simp] theorem frame_length (width : Nat) (b : Bytes) :
    (frame width b).length = width + b.length := by
  simp [frame]

theorem append_split {a a' s s' : Bytes} (hlen : a.length = a'.length)
    (h : a ++ s = a' ++ s') : a = a' ∧ s = s' :=
  List.append_inj h hlen

/-- A length-prefixed field can be read off the front of a string: the prefix
    fixes where the field ends, so equal strings have equal fields. -/
theorem frame_append_split {width : Nat} {b b' s s' : Bytes}
    (hb : b.length < 256 ^ width) (hb' : b'.length < 256 ^ width)
    (h : frame width b ++ s = frame width b' ++ s') : b = b' ∧ s = s' := by
  simp only [frame, List.append_assoc] at h
  obtain ⟨hcount, hrest⟩ := append_split (by simp) h
  exact append_split (beBytes_injective hb hb' hcount) hrest

/-- The same for a field that ends the string: the prefix may even have wrapped,
    since what follows it is the field itself. -/
theorem frame_injective {width : Nat} {b b' : Bytes} (h : frame width b = frame width b') :
    b = b' := by
  simp only [frame] at h
  exact (append_split (by simp) h).2

/-- Pieces of one width can be read off the front of a string once their number is known. -/
theorem flatten_append_split {α β : Type} {f : α → Bytes} {g : β → Bytes} {width : Nat}
    (hf : ∀ a, (f a).length = width) (hg : ∀ b, (g b).length = width) :
    ∀ {xs : List α} {ys : List β} {s s' : Bytes}, xs.length = ys.length →
      (xs.map f).flatten ++ s = (ys.map g).flatten ++ s' → xs.map f = ys.map g ∧ s = s' := by
  intro xs
  induction xs with
  | nil =>
    intro ys s s' hlen h
    obtain rfl := List.length_eq_zero_iff.mp hlen.symm
    exact ⟨rfl, h⟩
  | cons x xs ih =>
    intro ys s s' hlen h
    obtain ⟨y, ys, rfl⟩ := List.exists_cons_of_length_eq_add_one hlen.symm
    simp only [List.map_cons, List.flatten_cons, List.append_assoc] at h
    obtain ⟨hhead, htail⟩ := append_split ((hf x).trans (hg y).symm) h
    obtain ⟨hrest, hs⟩ := ih (by simpa using hlen) htail
    exact ⟨by rw [List.map_cons, List.map_cons, hhead, hrest], hs⟩

/-! ### Byte ranges -/

def byteRange (b : Bytes) (lo n : Nat) : Bytes := (b.drop lo).take n

theorem byteRange_append_left {a s : Bytes} {n : Nat} (h : a.length = n) :
    byteRange (a ++ s) 0 n = a := by
  rw [byteRange, List.drop_zero, ← h, List.take_left]

theorem drop_append_right {a s : Bytes} {k : Nat} (h : a.length = k) (lo : Nat) :
    (a ++ s).drop (k + lo) = s.drop lo := by
  rw [← h, List.drop_length_add_append]

theorem byteRange_append_right {a s : Bytes} {k : Nat} (h : a.length = k) (lo n : Nat) :
    byteRange (a ++ s) (k + lo) n = byteRange s lo n := by
  rw [byteRange, drop_append_right h, byteRange]

end PhiCrypto

import PhiCrypto.EcdsaLaws
import PhiCrypto.Sha256

/-!
# A curve that computes

The curve `y² = x³ + 3` over the field of seven elements has thirteen points, all of
them multiples of `(1, 2)`. It meets what ECDSA asks of a curve and is small enough to
check that point by point: statements over all lawful curves can be run on it.
-/

namespace PhiCrypto

namespace SmallCurve

/-- The coordinates of the multiples of the generator, the identity first. -/
def coordinates : List (Nat × Nat) :=
  [(0, 0), (1, 2), (6, 3), (2, 2), (4, 5), (3, 3), (5, 3), (5, 4), (3, 4), (4, 2), (2, 5), (6, 4),
   (1, 5)]

def x (P : Fin 13) : Nat := (coordinates.getD P.val (0, 0)).1

def y (P : Fin 13) : Nat := (coordinates.getD P.val (0, 0)).2

def toEncodedPoint (P : Fin 13) (compress : Bool) : Bytes :=
  if P = 0 then [0]
  else if compress then (if y P % 2 = 1 then 3 else 2) :: beBytes 32 (x P)
  else 4 :: (beBytes 32 (x P) ++ beBytes 32 (y P))

/-- The identity is not a key. -/
def fromSec1Bytes (b : Bytes) : Option (Fin 13) :=
  (List.finRange 13).find? fun P =>
    P ≠ 0 ∧ (b = toEncodedPoint P true ∨ b = toEncodedPoint P false)

theorem ne_zero_of_fromSec1Bytes {b : Bytes} {P : Fin 13} (h : fromSec1Bytes b = some P) :
    P ≠ 0 := by
  have hfound := List.find?_some h
  exact (of_decide_eq_true hfound).1

/-- Both encodings of a key are read back. -/
theorem fromSec1Bytes_toEncodedPoint :
    ∀ P : Fin 13, P ≠ 0 → ∀ compress, fromSec1Bytes (toEncodedPoint P compress) = some P := by
  decide +kernel

/-- A point is the number of times that the generator is taken. -/
def arithmetic : CurveArithmetic where
  order := 13
  Point := Fin 13
  invert := fun a => a ^ 11 % 13
  mulByGenerator := Fin.ofNat 13
  lincomb := fun u q v => Fin.ofNat 13 (u + v * q.val)
  x := x
  fromSec1Bytes := fromSec1Bytes
  toEncodedPoint := toEncodedPoint
  digest := sha256
  generateK := fun d z => 1 + (d + beNat z) % 12

theorem lawful : arithmetic.Lawful where
  order_odd := rfl
  order_le := by decide
  invert_mul := by
    intro a hpos hlt
    have hall : ∀ a < 13, 1 ≤ a → a ^ 11 % 13 * a % 13 = 1 := by decide
    exact hall a hlt hpos
  lincomb_mulByGenerator := by
    intro d u v _ _ _
    apply Fin.ext
    change (u + v * (d % 13)) % 13 = (u + v * d) % 13 % 13
    rw [Nat.mod_mod, Nat.add_mod, Nat.mul_mod, Nat.mod_mod, ← Nat.mul_mod, ← Nat.add_mod]
  x_lincomb_neg := by
    have hall : ∀ q : Fin 13, ∀ u < 13, ∀ v < 13,
        x (Fin.ofNat 13 (negScalar 13 u + negScalar 13 v * q.val))
          = x (Fin.ofNat 13 (u + v * q.val)) := by decide +kernel
    intro q u v _ hu hv
    exact hall q u hu v hv
  generateK_range := by
    intro d z _ _
    change 1 ≤ 1 + (d + beNat z) % 12 ∧ 1 + (d + beNat z) % 12 < 13
    omega

theorem sec1Lawful : arithmetic.Sec1Lawful where
  fromSec1Bytes_toEncodedPoint := by
    intro P compress hkey
    obtain ⟨b, hb⟩ := hkey
    exact fromSec1Bytes_toEncodedPoint P (ne_zero_of_fromSec1Bytes hb) compress

end SmallCurve

/-- The small curve in both places. -/
def smallCurves : SigningCurves where
  k256 := SmallCurve.arithmetic
  p256 := SmallCurve.arithmetic

theorem smallCurves_lawful (curve : Curve) : (smallCurves.of curve).Lawful := by
  cases curve with
  | secp256k1 => exact SmallCurve.lawful
  | secp256r1 => exact SmallCurve.lawful

theorem smallCurves_sec1Lawful (curve : Curve) : (smallCurves.of curve).Sec1Lawful := by
  cases curve with
  | secp256k1 => exact SmallCurve.sec1Lawful
  | secp256r1 => exact SmallCurve.sec1Lawful

end PhiCrypto

import PhiCrypto.EcdsaCore
import PhiCrypto.Sha256

/-!
# NIST P-256

The arithmetic that the `p256` crate gives to `ecdsa`, in the words of `primeorder`:
field elements modulo `p`, the complete projective formulas for `a = -3`, the window
multiplication, and the SEC1 forms of a point. Field elements are natural numbers below
`p`, evaluated as they are made, so that the kernel can run a verification.
-/

namespace PhiCrypto

namespace P256

/-! ### Field elements -/

/-- The modulus of the base field. -/
def modulus : Nat := 0xffffffff00000001000000000000000000000000ffffffffffffffffffffffff

/-- The order of the group. -/
def order : Nat := 0xffffffff00000000ffffffffffffffffbce6faada7179e84f3b9cac2fc632551

/-- `EQUATION_B`. -/
def equationB : Nat := 0x5ac635d8aa3a93e7b3ebbd55769886bc651d06b0cc53b0f63bce3c3e27d2604b

def add (a b : Nat) : Nat := (a + b) % modulus

def sub (a b : Nat) : Nat := (a + (modulus - b)) % modulus

def mul (a b : Nat) : Nat := a * b % modulus

/-- `a ^ e` modulo `m`, from the highest of `n` bits. -/
def powLoop (m a e : Nat) : Nat → Nat → Nat
  | 0, acc => acc
  | n + 1, acc =>
    strict (acc * acc % m) fun acc =>
    strict (if e.testBit n then acc * a % m else acc) fun acc =>
      powLoop m a e n acc

def pow (m a e : Nat) : Nat := powLoop m a e 256 1

/-- `FieldElement::invert_unchecked`. -/
def invert (a : Nat) : Nat := pow modulus a (modulus - 2)

/-- `FieldElement::sqrt`. -/
def sqrt (a : Nat) : Option Nat :=
  strict (pow modulus a ((modulus + 1) / 4)) fun root =>
    if mul root root = a then some root else none

/-- `x³ - 3 x + b`. -/
def equation (x : Nat) : Nat :=
  add (sub (mul (mul x x) x) (mul 3 x)) equationB

/-- `FieldElement::from_repr`. -/
def fromRepr (b : Bytes) : Option Nat :=
  strict (beNat b) fun x => if x < modulus then some x else none

/-! ### Points -/

structure ProjectivePoint where
  x : Nat
  y : Nat
  z : Nat
deriving DecidableEq, Repr

structure AffinePoint where
  x : Nat
  y : Nat
  infinity : Bool
deriving DecidableEq, Repr

namespace ProjectivePoint

def identity : ProjectivePoint := ⟨0, 1, 0⟩

def generator : ProjectivePoint where
  x := 0x6b17d1f2e12c4247f8bce6e563a440f277037d812deb33a0f4a13945d898c296
  y := 0x4fe342e2fe1a7f9b8ee7eb4a7c0f9e162bce33576b315ececbb6406837bf51f5
  z := 1

/-- `EquationAIsMinusThree::add`. -/
def add : ProjectivePoint → ProjectivePoint → ProjectivePoint
  | ⟨x₁, y₁, z₁⟩, ⟨x₂, y₂, z₂⟩ =>
    strict (P256.mul x₁ x₂) fun xx =>
    strict (P256.mul y₁ y₂) fun yy =>
    strict (P256.mul z₁ z₂) fun zz =>
    strict (sub (P256.mul (x₁ + y₁) (x₂ + y₂)) (P256.add xx yy)) fun xyPairs =>
    strict (sub (P256.mul (y₁ + z₁) (y₂ + z₂)) (P256.add yy zz)) fun yzPairs =>
    strict (sub (P256.mul (x₁ + z₁) (x₂ + z₂)) (P256.add xx zz)) fun xzPairs =>
    strict (sub xzPairs (P256.mul equationB zz)) fun bzzPart =>
    strict (P256.mul 3 bzzPart) fun bzz3Part =>
    strict (sub yy bzz3Part) fun yyMBzz3 =>
    strict (P256.add yy bzz3Part) fun yyPBzz3 =>
    strict (P256.mul 3 zz) fun zz3 =>
    strict (sub (P256.mul equationB xzPairs) (P256.add zz3 xx)) fun bxzPart =>
    strict (P256.mul 3 bxzPart) fun bxz3Part =>
    strict (sub (P256.mul 3 xx) zz3) fun xx3MZz3 =>
    strict (sub (P256.mul yyPBzz3 xyPairs) (P256.mul yzPairs bxz3Part)) fun x =>
    strict (P256.add (P256.mul yyPBzz3 yyMBzz3) (P256.mul xx3MZz3 bxz3Part)) fun y =>
    strict (P256.add (P256.mul yyMBzz3 yzPairs) (P256.mul xyPairs xx3MZz3)) fun z =>
      ⟨x, y, z⟩

/-- `EquationAIsMinusThree::double`. -/
def double : ProjectivePoint → ProjectivePoint
  | ⟨px, py, pz⟩ =>
    strict (P256.mul px px) fun xx =>
    strict (P256.mul py py) fun yy =>
    strict (P256.mul pz pz) fun zz =>
    strict (P256.mul 2 (P256.mul px py)) fun xy2 =>
    strict (P256.mul 2 (P256.mul px pz)) fun xz2 =>
    strict (sub (P256.mul equationB zz) xz2) fun bzzPart =>
    strict (P256.mul 3 bzzPart) fun bzz3Part =>
    strict (sub yy bzz3Part) fun yyMBzz3 =>
    strict (P256.add yy bzz3Part) fun yyPBzz3 =>
    strict (P256.mul yyPBzz3 yyMBzz3) fun yFrag =>
    strict (P256.mul yyMBzz3 xy2) fun xFrag =>
    strict (P256.mul 3 zz) fun zz3 =>
    strict (sub (P256.mul equationB xz2) (P256.add zz3 xx)) fun bxz2Part =>
    strict (P256.mul 3 bxz2Part) fun bxz6Part =>
    strict (sub (P256.mul 3 xx) zz3) fun xx3MZz3 =>
    strict (P256.add yFrag (P256.mul xx3MZz3 bxz6Part)) fun y =>
    strict (P256.mul 2 (P256.mul py pz)) fun yz2 =>
    strict (sub xFrag (P256.mul bxz6Part yz2)) fun x =>
    strict (P256.mul 4 (P256.mul yz2 yy)) fun z =>
      ⟨x, y, z⟩

/-- Apply `f` to an evaluated point. -/
def strictPoint {α : Type} (p : ProjectivePoint) (f : ProjectivePoint → α) : α :=
  match p with
  | ⟨x, y, z⟩ => f ⟨x, y, z⟩

/-- The table of `mul`, from its first `i` multiples on. -/
def tableLoop (p : ProjectivePoint) (i : Nat) : Nat → List ProjectivePoint → List ProjectivePoint
  | 0, pc => pc
  | n + 1, pc =>
    let next := if i % 2 = 0 then double (pc.getD (i / 2) identity)
      else add (pc.getD (i - 1) identity) p
    strictPoint next fun next => tableLoop p (i + 1) n (pc ++ [next])

/-- The window loop of `mul`: the position of the window counts down. -/
def mulLoop (pc : List ProjectivePoint) (k : Nat) : Nat → ProjectivePoint → ProjectivePoint
  | 0, q => add q (pc.getD (k % 16) identity)
  | pos + 1, q =>
    strictPoint (add q (pc.getD ((k >>> (4 * (pos + 1))) % 16) identity)) fun q =>
    strictPoint (double q) fun q =>
    strictPoint (double q) fun q =>
    strictPoint (double q) fun q =>
    strictPoint (double q) fun q =>
      mulLoop pc k pos q

/-- `ProjectivePoint::mul`, for scalars of 64 windows. -/
def mul (p : ProjectivePoint) (k : Nat) : ProjectivePoint :=
  strict k fun k => mulLoop (tableLoop p 2 14 [identity, p]) k 63 identity

def toAffine : ProjectivePoint → AffinePoint
  | ⟨x, y, z⟩ =>
    if z = 0 then ⟨0, 0, true⟩
    else strict (P256.invert z) fun zinv => ⟨P256.mul x zinv, P256.mul y zinv, false⟩

end ProjectivePoint

namespace AffinePoint

def toProjective (p : AffinePoint) : ProjectivePoint :=
  if p.infinity then ProjectivePoint.identity else ⟨p.x, p.y, 1⟩

/-- `decompress`. -/
def decompress (xBytes : Bytes) (yIsOdd : Bool) : Option AffinePoint := do
  let x ← fromRepr xBytes
  let beta ← sqrt (equation x)
  let y := if decide (beta % 2 = 1) = yIsOdd then beta else sub 0 beta
  pure ⟨x, y, false⟩

/-- `to_compact`: the smaller of the two values of `y`. -/
def toCompact (p : AffinePoint) : AffinePoint :=
  if p.y > sub 0 p.y then { p with y := sub 0 p.y } else p

/-- `PublicKey::from_sec1_bytes`: the identity is not a key. -/
def fromSec1Bytes : Bytes → Option AffinePoint
  | [] => none
  | tag :: coordinates =>
    if tag = 2 ∨ tag = 3 then
      if coordinates.length = 32 then decompress coordinates (tag = 3) else none
    else if tag = 4 then
      if coordinates.length = 64 then do
        let y ← fromRepr (coordinates.drop 32)
        let x ← fromRepr (coordinates.take 32)
        if P256.mul y y = equation x then some ⟨x, y, false⟩ else none
      else none
    else if tag = 5 then
      if coordinates.length = 32 then (decompress coordinates false).map toCompact else none
    else none

/-- `to_encoded_point`. -/
def toEncodedPoint (p : AffinePoint) (compress : Bool) : Bytes :=
  if p.infinity then [0]
  else if compress then (if p.y % 2 = 1 then 3 else 2) :: beBytes 32 p.x
  else 4 :: (beBytes 32 p.x ++ beBytes 32 p.y)

end AffinePoint

/-- The curve for `ecdsa`. Verification does not draw nonces. -/
def arithmetic (generateK : Nat → Bytes → Nat) : CurveArithmetic where
  order := order
  Point := AffinePoint
  invert := fun s => pow order s (order - 2)
  mulByGenerator := fun k => (ProjectivePoint.generator.mul k).toAffine
  lincomb := fun u q v =>
    ((ProjectivePoint.generator.mul u).add (q.toProjective.mul v)).toAffine
  x := AffinePoint.x
  fromSec1Bytes := AffinePoint.fromSec1Bytes
  toEncodedPoint := AffinePoint.toEncodedPoint
  digest := sha256
  generateK := generateK

/-- The test vector of the `p256` crate for RFC 6979: the signature of `sample` under its
    nonce. -/
example :
    (signPrehashed (arithmetic fun _ _ => 0)
      0xc9afa9d845ba75166b5c215767b1d6934e50c3db36e89b127b8a622b120f6721
      0xa6e3c57dd01abe90086538398355dd4c3b17aa873382b0f24d6129493d8aad60
      (sha256 [0x73, 0x61, 0x6d, 0x70, 0x6c, 0x65])).map (fun sig => (sig.r, sig.s))
    = some (0xefd48b2aacb6a8fd1140dd9cd45e81d69d2c877b56aaf991c34d0ea84eaf3716,
        0xf7cb1c942d657c41d436c7a1b6e29f65f3e900dbb9aff4064dc4ab2f843acda8) := by
  decide +kernel

end P256

end PhiCrypto

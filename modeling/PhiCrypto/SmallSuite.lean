import PhiCrypto.Suite
import Mathlib.LinearAlgebra.BilinearMap
import Mathlib.Algebra.Algebra.Bilinear
import Mathlib.GroupTheory.SpecificGroups.Cyclic

/-!
# A suite that computes

`smallSuite` has groups of order 7, with multiplication as the pairing. It meets
all that `Suite` asks for, the many encodings of the identity included, and it
can be evaluated: what is stated over all suites can be run on concrete bytes.
-/

namespace PhiCrypto

namespace SmallSuite

instance prime_seven : Fact (Nat.Prime 7) := ⟨by decide⟩

/-- The format of a point: a flag byte as in the compressed BLS12-381 formats, then
    the discrete logarithm in the last byte. -/
def ser (padding : Nat) (P : ZMod 7) : Bytes :=
  if P = 0 then 0xc0 :: List.replicate (padding + 1) 0
  else 0x80 :: (List.replicate padding 0 ++ [UInt8.ofNat P.val])

/-- The point that the last byte stands for. -/
def lastPoint (b : Bytes) : ZMod 7 := ((b.getLastD 0).toNat : ZMod 7)

/-- Once the infinity flag is set the other bits are not looked at. -/
def de (padding : Nat) (b : Bytes) : Option (ZMod 7) :=
  if (b.headD 0) &&& 0xc0 = 0xc0 then some 0
  else if b = ser padding (lastPoint b) then some (lastPoint b)
  else none

theorem ser_length (padding : Nat) (P : ZMod 7) : (ser padding P).length = padding + 2 := by
  unfold ser
  split <;> simp

theorem natCast_ofNat_val : ∀ P : ZMod 7, ((UInt8.ofNat P.val).toNat : ZMod 7) = P := by
  decide

theorem lastPoint_ser {padding : Nat} {P : ZMod 7} (h : P ≠ 0) :
    lastPoint (ser padding P) = P := by
  have hlast : (ser padding P).getLastD 0 = UInt8.ofNat P.val := by
    rw [ser, if_neg h]
    simp [List.getLastD]
  rw [lastPoint, hlast]
  exact natCast_ofNat_val P

theorem de_ser (padding : Nat) (P : ZMod 7) : de padding (ser padding P) = some P := by
  by_cases h : P = 0
  · have hflag : (ser padding P).headD 0 &&& 0xc0 = 0xc0 := by
      rw [ser, if_pos h, List.headD_cons]
      decide
    rw [de, if_pos hflag, h]
  · have hflag : ¬ ((ser padding P).headD 0 &&& 0xc0 = 0xc0) := by
      rw [ser, if_neg h, List.headD_cons]
      decide
    rw [de, if_neg hflag, lastPoint_ser h]
    exact if_pos rfl

def codec (padding : Nat) : PointCodec (ZMod 7) (padding + 2) where
  ser := ser padding
  de := de padding
  ser_length := ser_length padding
  de_ser := de_ser padding
  canonical := by
    intro b P _ h hP
    unfold de at h
    split at h
    · cases h
      exact absurd rfl hP
    · split at h
      next heq =>
        cases h
        exact heq
      · cases h

def hash (b : Bytes) : Nat :=
  b.foldl (fun h x => (h * 257 + x.toNat + 1) % (2 ^ 256 - 189)) 0

def digest (b : Bytes) : Bytes := leBytes 32 (hash b)

theorem digest_length (b : Bytes) : (digest b).length = 32 := leBytes_length 32 _

def elem (n : Nat) : ZMod 7 := n

def point (b : Bytes) : ZMod 7 :=
  (hash b % 6 + 1 : Nat)

end SmallSuite

def smallSuite : Suite where
  r := 7
  prime := inferInstance
  order_le := by norm_num
  G1 := ZMod 7
  G2 := ZMod 7
  GT := ZMod 7
  addG1 := inferInstance
  addG2 := inferInstance
  addGT := inferInstance
  moduleG1 := inferInstance
  moduleG2 := inferInstance
  moduleGT := inferInstance
  decEqG1 := inferInstance
  decEqG2 := inferInstance
  decEqGT := inferInstance
  pairing := LinearMap.mul (ZMod 7) (ZMod 7)
  pairing_nondegenerate := by
    intro P Q h
    exact mul_eq_zero.mp h
  g1Codec := SmallSuite.codec 46
  g2Codec := SmallSuite.codec 94
  sha256 := SmallSuite.digest
  sha256_length := SmallSuite.digest_length
  mapToCurve := fun _ => some fun b => some (SmallSuite.point b)
  tryAndIncrG1 := SmallSuite.point
  tryAndIncrG2 := SmallSuite.point
  generatorG2_ne_zero := by decide +kernel

def smallOracle (b : Bytes) : smallSuite.Fr := (SmallSuite.hash b : Nat)

end PhiCrypto

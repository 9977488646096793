import PhiCrypto.Suite

/-!
# ECDSA signatures

`did::verify` on the two curves. Key and signature parsing and the verification
equation are those of the `k256` and `p256` crates.
-/

namespace PhiCrypto

/-- What the crate takes from an ECDSA implementation. -/
structure Ecdsa where
  VerifyingKey : Type
  Signature : Type
  fromSec1Bytes : Bytes → Option VerifyingKey
  fromDer : Bytes → Option Signature
  /-- `Signature::from_slice`, for the raw `r ‖ s`. -/
  fromSlice : Bytes → Option Signature
  /-- `Signature::normalize_s`: the low-S form of a high-S signature. -/
  normalizeS : Signature → Option Signature
  verify : VerifyingKey → Bytes → Signature → Bool

inductive Curve where
  | secp256k1
  | secp256r1
deriving DecidableEq, Repr

/-- `Curve::tag`: the first byte of an identifier's preimage. -/
def Curve.tag : Curve → UInt8
  | .secp256k1 => 0x01
  | .secp256r1 => 0x02

/-- The SHA-256 preimage of an identifier, for a key in its canonical encoding. -/
def didPreimage (curve : Curve) (canonical : Bytes) : Bytes := curve.tag :: canonical

structure EcdsaCurves where
  k256 : Ecdsa
  p256 : Ecdsa

def EcdsaCurves.of (E : EcdsaCurves) : Curve → Ecdsa
  | .secp256k1 => E.k256
  | .secp256r1 => E.p256

/-- The branch of `did::verify` for one curve. -/
def verifyRaw (E : Ecdsa) (publicKey msg sig : Bytes) : Bool :=
  match E.fromSec1Bytes publicKey with
  | none => false
  | some vk =>
    match E.fromSlice sig with
    | none => false
    | some signature =>
      if (E.normalizeS signature).isSome then false else E.verify vk msg signature

def didVerify (E : EcdsaCurves) (curve : Curve) (publicKey msg sig : Bytes) : Bool :=
  if sig.length ≠ 64 then false else verifyRaw (E.of curve) publicKey msg sig

end PhiCrypto

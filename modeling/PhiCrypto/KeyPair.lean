import PhiCrypto.DidIdentifier
import PhiCrypto.Signing

/-!
# Key pairs

A signing key is a scalar that is not zero. `did::KeyPair` holds its 32 bytes and the SEC1
form of its public half that the curve has for canonical: an identity, whose identifier is
computed from the bytes as they are, and whose signatures verify under them.
-/

namespace PhiCrypto

open Exec

/-- `ecdsa::SigningKey`: a scalar of a group of order `n` that is not zero. -/
structure SigningKey (n : Nat) where
  d : Nat
  pos : 1 ≤ d
  lt : d < n

def SigningKey.toBytes {n : Nat} (key : SigningKey n) : Bytes := beBytes 32 key.d

/-- `KeyPair`. -/
structure KeyPair where
  curve : Curve
  secret : Bytes
  publicKey : Bytes
deriving DecidableEq, Repr

namespace KeyPair

/-- The pair of a signing key; `to_sec1_bytes` compresses points on one curve. -/
def ofSigningKey (curves : SigningCurves) (curve : Curve)
    (key : SigningKey (curves.of curve).order) : KeyPair where
  curve := curve
  secret := key.toBytes
  publicKey := (curves.of curve).toEncodedPoint ((curves.of curve).mulByGenerator key.d)
    curve.compressed

/-- `generate_keypair`, for the key that `SigningKey::random` draws. -/
def generateKeypair (curves : SigningCurves) (curve : Curve)
    (random : SigningKey (curves.of curve).order) : KeyPair :=
  match curve with
  | .secp256k1 => ofSigningKey curves .secp256k1 random
  | .secp256r1 => ofSigningKey curves .secp256r1 random

/-- A pair that works as an identity. -/
structure IsIdentity (S : Suite) (curves : SigningCurves) (pair : KeyPair) : Prop where
  secret_length : pair.secret.length = 32
  /-- The public key is in canonical form. -/
  canonical : canonicalSec1 curves pair.curve pair.publicKey = some pair.publicKey
  did_eq : didFromPublic S curves pair.curve pair.publicKey
    = .ok (ascii "did:phi:" ++ hexEncode (S.sha256 (didPreimage pair.curve pair.publicKey)))
  /-- Whatever the pair signs is accepted. -/
  signs : ∀ msg, ¬ (didSign curves pair.curve pair.secret msg).run.Panics →
    ∃ sig, (didSign curves pair.curve pair.secret msg).run.Returns (.ok sig) ∧
      sig.length = 64 ∧ didVerify curves.ecdsa pair.curve pair.publicKey msg sig = true

end KeyPair

theorem SigningKey.secretFromSlice_toBytes {C : CurveArithmetic} (hle : C.order ≤ 2 ^ 256)
    (key : SigningKey C.order) : secretFromSlice C key.toBytes = some key.d := by
  have hlt : key.d < 256 ^ 32 := by
    have := key.lt
    omega
  rw [secretFromSlice, toBytes, beBytes_length, if_pos (by omega), beNat_beBytes hlt,
    if_pos ⟨key.pos, key.lt⟩]

/-- `did::sign` and `did::verify` agree on a secret and the point it stands for. -/
theorem didVerify_of_not_panics {curves : SigningCurves} {curve : Curve}
    (hC : (curves.of curve).Lawful) {secret publicKey msg : Bytes} {d : Nat}
    (hd : secretFromSlice (curves.of curve) secret = some d)
    (hq : (curves.of curve).fromSec1Bytes publicKey = some ((curves.of curve).mulByGenerator d))
    (hreturns : ¬ (didSign curves curve secret msg).run.Panics) :
    ∃ sig, (didSign curves curve secret msg).run.Returns (.ok sig) ∧ sig.length = 64 ∧
      didVerify curves.ecdsa curve publicKey msg sig = true := by
  obtain ⟨hpos, hlt⟩ := of_secretFromSlice hd
  rw [didSign_panics_iff hC hd, not_not] at hreturns
  have hk := (hC.generateK_range d ((curves.of curve).digest msg) hpos hlt).2
  obtain ⟨sig, hsig⟩ :=
    Option.isSome_iff_exists.mp ((hC.isSome_signPrehashed hpos hlt _).mpr hreturns)
  have haccepts := hC.acceptsSignature_of_sign ⟨publicKey, hq⟩ hlt hk hsig
  refine ⟨_, didSign_returns hC hd hsig, EcdsaSignature.toBytes_length _, ?_⟩
  rw [didVerify_toBytes hC hq]
  exact decide_eq_true haccepts

theorem KeyPair.isIdentity_ofSigningKey (S : Suite) {curves : SigningCurves} {curve : Curve}
    (hC : (curves.of curve).Lawful) (hsec1 : (curves.of curve).Sec1Lawful)
    (key : SigningKey (curves.of curve).order)
    (hkey : (curves.of curve).IsKey ((curves.of curve).mulByGenerator key.d)) :
    (ofSigningKey curves curve key).IsIdentity S curves := by
  have hdecode := hsec1.fromSec1Bytes_toEncodedPoint _ curve.compressed hkey
  have hcanonical : canonicalSec1 curves curve (ofSigningKey curves curve key).publicKey
      = some (ofSigningKey curves curve key).publicKey := by
    rw [canonicalSec1_eq, ofSigningKey, hdecode, Option.map_some]
  exact
    { secret_length := beBytes_length 32 key.d
      canonical := hcanonical
      did_eq := didFromPublic_of_canonical hcanonical
      signs := fun _ hreturns =>
        didVerify_of_not_panics hC (key.secretFromSlice_toBytes hC.order_le) hdecode hreturns }

end PhiCrypto

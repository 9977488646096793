import PhiCrypto.Der
import PhiCrypto.WebAuthn

/-!
# The ECDSA crates

`k256` and `p256` share the code of the `ecdsa` crate, which is generic over the
arithmetic of the curve. It is modelled here over `CurveArithmetic`: parsing of
raw and DER signatures, the low-S form, signing and the verification equation. A
signature carries the range of its scalars.

The two crates differ in one place: `k256` refuses high-S signatures in its verifier
and normalizes in its signer, `p256` leaves both to the caller. `Ecdsa`, which the
verifiers of the crate are written over, is filled in for both.
-/

namespace PhiCrypto

open Exec

/-- What the `ecdsa` crate takes from a curve. Scalars are natural numbers below the
    order. -/
structure CurveArithmetic where
  /-- `C::ORDER`. -/
  order : Nat
  /-- Affine points, the identity included. -/
  Point : Type
  /-- `Invert` on nonzero scalars. -/
  invert : Nat → Nat
  /-- `MulByGenerator`, as an affine point. -/
  mulByGenerator : Nat → Point
  /-- `LinearCombination` of the generator and a point, as an affine point. -/
  lincomb : Nat → Point → Nat → Point
  /-- `AffineCoordinates::x`, as an integer. -/
  x : Point → Nat
  /-- `PublicKey::from_sec1_bytes`. -/
  fromSec1Bytes : Bytes → Option Point
  /-- `to_encoded_point`, with or without compression. -/
  toEncodedPoint : Point → Bool → Bytes
  /-- The digest of `DigestPrimitive`, SHA-256 on both curves. -/
  digest : Bytes → Bytes
  /-- `rfc6979::generate_k`, for a secret scalar and a prehash. -/
  generateK : Nat → Bytes → Nat

/-! ### Signatures -/

/-- `ecdsa::Signature`: two nonzero scalars of a group of order `n`. -/
structure EcdsaSignature (n : Nat) where
  r : Nat
  s : Nat
  r_pos : 1 ≤ r
  r_lt : r < n
  s_pos : 1 ≤ s
  s_lt : s < n
deriving DecidableEq, Repr

namespace EcdsaSignature

variable {n : Nat}

/-- `Signature::from_scalars`. -/
def fromScalars (n r s : Nat) : Option (EcdsaSignature n) :=
  if h : (1 ≤ r ∧ r < n) ∧ 1 ≤ s ∧ s < n then some ⟨r, s, h.1.1, h.1.2, h.2.1, h.2.2⟩ else none

/-- `Signature::from_slice`. -/
def fromSlice (n : Nat) (b : Bytes) : Option (EcdsaSignature n) :=
  if b.length = 64 then fromScalars n (beNat (b.take 32)) (beNat (b.drop 32)) else none

/-- `decode_der`: the two integers without leading zeroes. -/
def decodeDer (b : Bytes) : Except Unit (Bytes × Bytes) :=
  Der.decode (Der.sequence do
    let r ← Der.uint
    let s ← Der.uint
    pure (r, s)) b

/-- An integer of at most 32 octets, in 32 octets. -/
def pad32 (b : Bytes) : Bytes := List.replicate (32 - b.length) 0 ++ b

/-- `Signature::from_der`. The second integer ends where the input ends, since the
    decoders leave nothing over. -/
def fromDer (n : Nat) (b : Bytes) : Option (EcdsaSignature n) :=
  match decodeDer b with
  | .error () => none
  | .ok (r, s) =>
    if r.length > 32 ∨ s.length > 32 then none else fromSlice n (pad32 r ++ pad32 s)

def toBytes (sig : EcdsaSignature n) : Bytes := beBytes 32 sig.r ++ beBytes 32 sig.s

/-- `Signature::to_der`. -/
def toDer (sig : EcdsaSignature n) : Bytes :=
  Der.encodeSequence (Der.encodeUint (beBytes 32 sig.r) ++ Der.encodeUint (beBytes 32 sig.s))

/-- `IsHigh`: above half of the order. -/
def isHigh (sig : EcdsaSignature n) : Bool := decide (sig.s > n / 2)

/-- The signature with `-s`. -/
def negS (sig : EcdsaSignature n) : EcdsaSignature n where
  r := sig.r
  s := n - sig.s
  r_pos := sig.r_pos
  r_lt := sig.r_lt
  s_pos := Nat.sub_pos_of_lt sig.s_lt
  s_lt := Nat.sub_lt (Nat.lt_of_le_of_lt (Nat.zero_le _) sig.s_lt) sig.s_pos

/-- `Signature::normalize_s`. -/
def normalizeS (sig : EcdsaSignature n) : Option (EcdsaSignature n) :=
  if sig.isHigh then some sig.negS else none

end EcdsaSignature

/-! ### Signing and verifying -/

section Core

variable (C : CurveArithmetic)

/-- The ECDSA verification equation of a key, a prehash and two scalars. -/
def VerificationEquation (q : C.Point) (z : Bytes) (r s : Nat) : Prop :=
  r = C.x (C.lincomb (beNat z % C.order * C.invert s % C.order) q
    (r * C.invert s % C.order)) % C.order

instance (q : C.Point) (z : Bytes) (r s : Nat) : Decidable (VerificationEquation C q z r s) :=
  inferInstanceAs (Decidable (_ = _))

/-- `hazmat::verify_prehashed`. -/
def verifyPrehashed (q : C.Point) (z : Bytes) (sig : EcdsaSignature C.order) : Bool :=
  decide (VerificationEquation C q z sig.r sig.s)

/-- `hazmat::sign_prehashed`, for the nonce `k`. -/
def signPrehashed (d k : Nat) (z : Bytes) : Option (EcdsaSignature C.order) :=
  if k = 0 then none
  else
    let r := C.x (C.mulByGenerator k) % C.order
    let s := C.invert k * (beNat z % C.order + r * d) % C.order
    EcdsaSignature.fromScalars C.order r s

/-- `SecretKey::from_slice`: 32 bytes, or 24 and more after padding. -/
def secretFromSlice (b : Bytes) : Option Nat :=
  if 24 ≤ b.length ∧ b.length ≤ 32 then
    if 1 ≤ beNat b ∧ beNat b < C.order then some (beNat b) else none
  else none

/-- `p256`: the generic code as it is. -/
def p256Ecdsa : Ecdsa where
  VerifyingKey := C.Point
  Signature := EcdsaSignature C.order
  fromSec1Bytes := C.fromSec1Bytes
  fromDer := EcdsaSignature.fromDer C.order
  fromSlice := EcdsaSignature.fromSlice C.order
  normalizeS := EcdsaSignature.normalizeS
  verify := fun q msg sig => verifyPrehashed C q (C.digest msg) sig

/-- `k256`: its `verify_prehashed` refuses high-S signatures. -/
def k256Ecdsa : Ecdsa where
  VerifyingKey := C.Point
  Signature := EcdsaSignature C.order
  fromSec1Bytes := C.fromSec1Bytes
  fromDer := EcdsaSignature.fromDer C.order
  fromSlice := EcdsaSignature.fromSlice C.order
  normalizeS := EcdsaSignature.normalizeS
  verify := fun q msg sig => if sig.isHigh then false else verifyPrehashed C q (C.digest msg) sig

/-- `Signer::try_sign` of `p256`. -/
def p256TrySign (d : Nat) (msg : Bytes) : Option (EcdsaSignature C.order) :=
  let z := C.digest msg
  signPrehashed C d (C.generateK d z) z

/-- `Signer::try_sign` of `k256`, which normalizes. -/
def k256TrySign (d : Nat) (msg : Bytes) : Option (EcdsaSignature C.order) :=
  let z := C.digest msg
  (signPrehashed C d (C.generateK d z) z).map fun sig => sig.normalizeS.getD sig

end Core

/-- The arithmetic of the two curves. -/
structure SigningCurves where
  k256 : CurveArithmetic
  p256 : CurveArithmetic

namespace SigningCurves

variable (curves : SigningCurves)

def of : Curve → CurveArithmetic
  | .secp256k1 => curves.k256
  | .secp256r1 => curves.p256

def ecdsa : EcdsaCurves where
  k256 := k256Ecdsa curves.k256
  p256 := p256Ecdsa curves.p256

end SigningCurves

/-- The branch of `did::sign` for one curve. `Signer::sign` expects `try_sign` to
    succeed. -/
def signRaw (C : CurveArithmetic) (trySign : Nat → Bytes → Option (EcdsaSignature C.order))
    (secret msg : Bytes) : RustResult Bytes :=
  match secretFromSlice C secret with
  | none => throw .invalidKey
  | some d => do
    let sig ← liftM (unwrap (trySign d msg) : Exec Event (EcdsaSignature C.order))
    pure (sig.normalizeS.getD sig).toBytes

def didSign (curves : SigningCurves) (curve : Curve) (secret msg : Bytes) : RustResult Bytes :=
  match curve with
  | .secp256k1 => signRaw curves.k256 (k256TrySign curves.k256) secret msg
  | .secp256r1 => signRaw curves.p256 (p256TrySign curves.p256) secret msg

/-! ### Parsing inverts encoding -/

namespace EcdsaSignature

variable {n : Nat} (sig : EcdsaSignature n)

theorem fromScalars_self : fromScalars n sig.r sig.s = some sig := by
  rw [fromScalars, dif_pos ⟨⟨sig.r_pos, sig.r_lt⟩, sig.s_pos, sig.s_lt⟩]

@[simp] theorem toBytes_length : sig.toBytes.length = 64 := by
  rw [toBytes, List.length_append, beBytes_length, beBytes_length]

/-- The second half of the raw form is `s`. -/
theorem beNat_drop_toBytes (hn : n ≤ 2 ^ 256) : beNat (sig.toBytes.drop 32) = sig.s := by
  have hs : sig.s < 256 ^ 32 := by
    have := sig.s_lt
    omega
  rw [toBytes, List.drop_left' (beBytes_length 32 _), beNat_beBytes hs]

theorem fromSlice_toBytes (hn : n ≤ 2 ^ 256) : fromSlice n sig.toBytes = some sig := by
  have hr : sig.r < 256 ^ 32 := by
    have := sig.r_lt
    omega
  have htake : sig.toBytes.take 32 = beBytes 32 sig.r := by
    rw [toBytes, List.take_left' (beBytes_length 32 _)]
  rw [fromSlice, if_pos sig.toBytes_length, htake, beNat_beBytes hr, sig.beNat_drop_toBytes hn,
    fromScalars_self]

theorem pad32_strip {b : Bytes} (hb : b.length = 32) :
    (Der.stripLeadingZeroes b).length ≤ 32 ∧ pad32 (Der.stripLeadingZeroes b) = b := by
  have h := Der.pad_stripLeadingZeroes b
  rw [hb] at h
  exact h

/-- A scalar takes at most 33 octets in DER. -/
theorem valueLen_beBytes_le (v : Nat) : Der.valueLen (beBytes 32 v) ≤ 33 := by
  have hle : Der.valueLen (beBytes 32 v) ≤ (beBytes 32 v).length + 1 := Der.valueLen_le
  rwa [beBytes_length] at hle

theorem uint_encodeUint_beBytes (v : Nat) (s : Bytes) :
    Der.uint (Der.encodeUint (beBytes 32 v) ++ s)
      = .ok (Der.stripLeadingZeroes (beBytes 32 v), s) := by
  have hne : beBytes 32 v ≠ [] := by
    intro hnil
    have hlen := beBytes_length 32 v
    rw [hnil] at hlen
    cases hlen
  have hshort := valueLen_beBytes_le v
  exact Der.uint_encodeUint hne (by omega) s

theorem length_encodeUint_beBytes_le (v : Nat) : (Der.encodeUint (beBytes 32 v)).length ≤ 35 := by
  have hshort := valueLen_beBytes_le v
  rw [Der.encodeUint_length (by omega)]
  omega

theorem decodeDer_toDer :
    decodeDer sig.toDer
      = .ok (Der.stripLeadingZeroes (beBytes 32 sig.r), Der.stripLeadingZeroes (beBytes 32 sig.s)) := by
  have hlen : (Der.encodeUint (beBytes 32 sig.r) ++ Der.encodeUint (beBytes 32 sig.s)).length
      < 0x80 := by
    have hr := length_encodeUint_beBytes_le sig.r
    have hs := length_encodeUint_beBytes_le sig.s
    rw [List.length_append]
    omega
  have hbody : (do
      let r ← Der.uint
      let s ← Der.uint
      pure (r, s) : Decoder Unit (Bytes × Bytes))
        (Der.encodeUint (beBytes 32 sig.r) ++ Der.encodeUint (beBytes 32 sig.s))
      = .ok ((Der.stripLeadingZeroes (beBytes 32 sig.r),
          Der.stripLeadingZeroes (beBytes 32 sig.s)), []) := by
    have hs := uint_encodeUint_beBytes sig.s []
    rw [List.append_nil] at hs
    rw [Decoder.bind_ok (uint_encodeUint_beBytes sig.r _), Decoder.bind_ok hs]
    rfl
  have hread := Der.sequence_encodeSequence hlen hbody []
  rw [List.append_nil] at hread
  have hshort : ¬ sig.toDer.length > Der.maxLength := by
    rw [toDer, Der.encodeSequence, Der.encodeLength_short hlen, List.length_cons, List.length_append,
      List.length_singleton, Der.maxLength]
    omega
  rw [decodeDer, Der.decode, if_neg hshort, Decoder.runAll_eq_ok_iff, toDer, hread]

theorem fromDer_toDer (hn : n ≤ 2 ^ 256) : fromDer n sig.toDer = some sig := by
  obtain ⟨hrlen, hrpad⟩ := pad32_strip (beBytes_length 32 sig.r)
  obtain ⟨hslen, hspad⟩ := pad32_strip (beBytes_length 32 sig.s)
  rw [fromDer, sig.decodeDer_toDer]
  dsimp only
  rw [if_neg (by omega), hrpad, hspad]
  exact sig.fromSlice_toBytes hn

/-! ### Low S -/

@[simp] theorem negS_s : sig.negS.s = n - sig.s := rfl

theorem isSome_normalizeS : sig.normalizeS.isSome = sig.isHigh := by
  unfold normalizeS
  cases sig.isHigh <;> rfl

/-- Of `s` and `n - s` one is above half of an odd order, and the other is not. -/
theorem isHigh_negS (hodd : n % 2 = 1) : sig.negS.isHigh = !sig.isHigh := by
  have hs := sig.s_lt
  unfold isHigh
  rw [Bool.eq_iff_iff, negS_s]
  simp only [decide_eq_true_eq, Bool.not_eq_true', decide_eq_false_iff_not]
  omega

/-- The normalized form, whatever the signature. -/
theorem getD_normalizeS : sig.normalizeS.getD sig = if sig.isHigh then sig.negS else sig := by
  unfold normalizeS
  cases sig.isHigh <;> rfl

theorem isHigh_getD_normalizeS (hodd : n % 2 = 1) :
    (sig.normalizeS.getD sig).isHigh = false := by
  rw [getD_normalizeS]
  cases hhigh : sig.isHigh with
  | true =>
    rw [if_pos rfl, isHigh_negS sig hodd, hhigh]
    rfl
  | false => simpa using hhigh

end EcdsaSignature

/-! ### What the verifiers accept -/

section Verdicts

variable {C : CurveArithmetic} {q : C.Point}

/-- A signature that the verifiers accept once it is parsed. -/
def AcceptsSignature (C : CurveArithmetic) (q : C.Point) (msg : Bytes)
    (sig : EcdsaSignature C.order) : Prop :=
  sig.isHigh = false ∧ VerificationEquation C q (C.digest msg) sig.r sig.s

instance (C : CurveArithmetic) (q : C.Point) (msg : Bytes) (sig : EcdsaSignature C.order) :
    Decidable (AcceptsSignature C q msg sig) :=
  inferInstanceAs (Decidable (_ ∧ _))

/-- The check after parsing is the same for both crates: what `k256` refuses on its own
    has been refused before. -/
theorem check_eq_decide (msg : Bytes) (sig : EcdsaSignature C.order) :
    (if sig.normalizeS.isSome then false else (p256Ecdsa C).verify q msg sig)
        = decide (AcceptsSignature C q msg sig) ∧
      (if sig.normalizeS.isSome then false else (k256Ecdsa C).verify q msg sig)
        = decide (AcceptsSignature C q msg sig) := by
  rw [sig.isSome_normalizeS]
  cases hhigh : sig.isHigh with
  | true =>
    have hnot : ¬ AcceptsSignature C q msg sig := by
      intro h
      rw [h.1] at hhigh
      cases hhigh
    exact ⟨(decide_eq_false hnot).symm, (decide_eq_false hnot).symm⟩
  | false =>
    have hiff : AcceptsSignature C q msg sig ↔
        VerificationEquation C q (C.digest msg) sig.r sig.s := by
      rw [AcceptsSignature, hhigh]
      simp
    have hverify : verifyPrehashed C q (C.digest msg) sig
        = decide (AcceptsSignature C q msg sig) := by
      rw [verifyPrehashed]
      exact decide_eq_decide.mpr hiff.symm
    refine ⟨by simpa [p256Ecdsa] using hverify, ?_⟩
    simpa [k256Ecdsa, hhigh] using hverify

/-- The branch of `did::verify` once the key and the signature are parsed. -/
theorem verifyRaw_eq {E : Ecdsa} {publicKey : Bytes} {vk : E.VerifyingKey}
    (hkey : E.fromSec1Bytes publicKey = some vk) (msg sig : Bytes) :
    (E.fromSlice sig = none → verifyRaw E publicKey msg sig = false) ∧
    (∀ signature, E.fromSlice sig = some signature →
      verifyRaw E publicKey msg sig
        = if (E.normalizeS signature).isSome then false else E.verify vk msg signature) := by
  constructor
  · intro hsig
    rw [verifyRaw, hkey]
    dsimp only
    rw [hsig]
  · intro signature hsig
    rw [verifyRaw, hkey]
    dsimp only
    rw [hsig]

/-- `did::verify` for a key that decodes. -/
theorem didVerify_eq (curves : SigningCurves) (curve : Curve) {publicKey : Bytes}
    {q : (curves.of curve).Point} (hq : (curves.of curve).fromSec1Bytes publicKey = some q)
    (msg sig : Bytes) :
    didVerify curves.ecdsa curve publicKey msg sig
      = match EcdsaSignature.fromSlice (curves.of curve).order sig with
        | none => false
        | some signature => decide (AcceptsSignature (curves.of curve) q msg signature) := by
  rw [didVerify]
  split
  · next hne => rw [EcdsaSignature.fromSlice, if_neg hne]
  · cases curve with
    | secp256k1 =>
      have hraw := verifyRaw_eq (E := k256Ecdsa curves.k256) hq msg sig
      cases hsig : EcdsaSignature.fromSlice (curves.of .secp256k1).order sig with
      | none => exact hraw.1 hsig
      | some signature => exact (hraw.2 signature hsig).trans (check_eq_decide msg signature).2
    | secp256r1 =>
      have hraw := verifyRaw_eq (E := p256Ecdsa curves.p256) hq msg sig
      cases hsig : EcdsaSignature.fromSlice (curves.of .secp256r1).order sig with
      | none => exact hraw.1 hsig
      | some signature => exact (hraw.2 signature hsig).trans (check_eq_decide msg signature).1

/-- `verify_p256_low_s` for a key that decodes. -/
theorem verifyP256LowS_eq {publicKey : Bytes} (hq : C.fromSec1Bytes publicKey = some q)
    (msg sig : Bytes) :
    verifyP256LowS (p256Ecdsa C) publicKey msg sig
      = match (EcdsaSignature.fromDer C.order sig).orElse
            fun _ => EcdsaSignature.fromSlice C.order sig with
        | none => false
        | some signature => decide (AcceptsSignature C q msg signature) := by
  have hkey : (p256Ecdsa C).fromSec1Bytes publicKey = some q := hq
  rw [verifyP256LowS, hkey]
  dsimp only
  cases hsig : (EcdsaSignature.fromDer C.order sig).orElse
      fun _ => EcdsaSignature.fromSlice C.order sig with
  | none =>
    have hparsed : (((p256Ecdsa C).fromDer sig).orElse fun _ => (p256Ecdsa C).fromSlice sig) = none :=
      hsig
    rw [hparsed]
  | some signature =>
    have hparsed : (((p256Ecdsa C).fromDer sig).orElse fun _ => (p256Ecdsa C).fromSlice sig)
        = some signature := hsig
    rw [hparsed]
    exact (check_eq_decide msg signature).1

end Verdicts

end PhiCrypto

import PhiCrypto.SmallCurve

/-!
# Signatures verify, in one form only

`did::sign` normalizes what the backend returns, on one curve after the backend has done
so. What it returns is accepted by `did::verify` under every encoding of the key. The
verifiers refuse the other half of the scalars, each in its own place, so that of `r ‖ s`
and `r ‖ -s` one is accepted and the other is not; the DER forms fare alike with the
verifier of passkeys.

`Signer::sign` panics when the deterministic nonce gives a zero scalar
(`didSign_panics_iff`). The vendored signer does not try another nonce.
-/

namespace PhiCrypto

open Exec

theorem of_secretFromSlice {C : CurveArithmetic} {secret : Bytes} {d : Nat}
    (h : secretFromSlice C secret = some d) : 1 ≤ d ∧ d < C.order := by
  unfold secretFromSlice at h
  split at h
  · split at h
    · next hrange =>
      cases h
      exact hrange
    · cases h
  · cases h

theorem signRaw_returns {C : CurveArithmetic}
    {trySign : Nat → Bytes → Option (EcdsaSignature C.order)} {secret msg : Bytes} {d : Nat}
    (hd : secretFromSlice C secret = some d) {sig : EcdsaSignature C.order}
    (hsig : trySign d msg = some sig) :
    (signRaw C trySign secret msg).run.Returns (.ok (sig.normalizeS.getD sig).toBytes) := by
  rw [signRaw, hd]
  dsimp only
  rw [hsig]
  rfl

theorem signRaw_panics {C : CurveArithmetic}
    {trySign : Nat → Bytes → Option (EcdsaSignature C.order)} {secret msg : Bytes} {d : Nat}
    (hd : secretFromSlice C secret = some d) (hsig : trySign d msg = none) :
    (signRaw C trySign secret msg).run.Panics := by
  rw [signRaw, hd]
  dsimp only
  rw [hsig]
  rfl

/-- Both branches of `did::sign` return the normalized signature of `sign_prehashed`. -/
theorem didSign_returns {curves : SigningCurves} {curve : Curve}
    (hC : (curves.of curve).Lawful) {secret msg : Bytes} {d : Nat}
    (hd : secretFromSlice (curves.of curve) secret = some d)
    {sig : EcdsaSignature (curves.of curve).order}
    (hsig : signPrehashed (curves.of curve) d
      ((curves.of curve).generateK d ((curves.of curve).digest msg))
      ((curves.of curve).digest msg) = some sig) :
    (didSign curves curve secret msg).run.Returns (.ok (sig.normalizeS.getD sig).toBytes) := by
  cases curve with
  | secp256k1 =>
    have htry : k256TrySign curves.k256 d msg = some (sig.normalizeS.getD sig) := by
      rw [k256TrySign]
      exact congrArg _ hsig
    have hret := signRaw_returns hd htry
    rwa [EcdsaSignature.getD_normalizeS_idem hC.order_odd] at hret
  | secp256r1 => exact signRaw_returns hd hsig

/-- `did::sign` of a valid key either returns or panics, and it panics on the nonces that
    are of no use. -/
theorem didSign_panics_iff {curves : SigningCurves} {curve : Curve}
    (hC : (curves.of curve).Lawful) {secret : Bytes} {d : Nat}
    (hd : secretFromSlice (curves.of curve) secret = some d) (msg : Bytes) :
    (didSign curves curve secret msg).run.Panics ↔
      ¬ UsableNonce (curves.of curve) d ((curves.of curve).digest msg) := by
  obtain ⟨hpos, hlt⟩ := of_secretFromSlice hd
  rw [← hC.isSome_signPrehashed hpos hlt]
  cases hsig : signPrehashed (curves.of curve) d
      ((curves.of curve).generateK d ((curves.of curve).digest msg))
      ((curves.of curve).digest msg) with
  | some sig =>
    have hret := didSign_returns hC hd hsig
    refine iff_of_false ?_ (by simp)
    intro hpanics
    cases hpanics.symm.trans hret
  | none =>
    refine iff_of_true ?_ (by simp)
    cases curve with
    | secp256k1 =>
      have htry : k256TrySign curves.k256 d msg = none := by
        rw [k256TrySign]
        exact congrArg _ hsig
      exact signRaw_panics hd htry
    | secp256r1 => exact signRaw_panics hd hsig

/-! ### The verdicts on `s` and `-s` -/

theorem didVerify_toBytes {curves : SigningCurves} {curve : Curve}
    (hC : (curves.of curve).Lawful) {publicKey : Bytes} {q : (curves.of curve).Point}
    (hq : (curves.of curve).fromSec1Bytes publicKey = some q) (msg : Bytes)
    (sig : EcdsaSignature (curves.of curve).order) :
    didVerify curves.ecdsa curve publicKey msg sig.toBytes
      = decide (AcceptsSignature (curves.of curve) q msg sig) := by
  rw [didVerify_eq curves curve hq, sig.fromSlice_toBytes hC.order_le]

theorem verifyP256LowS_toDer {C : CurveArithmetic} (hC : C.Lawful) {publicKey : Bytes}
    {q : C.Point} (hq : C.fromSec1Bytes publicKey = some q) (msg : Bytes)
    (sig : EcdsaSignature C.order) :
    verifyP256LowS (p256Ecdsa C) publicKey msg sig.toDer
      = decide (AcceptsSignature C q msg sig) := by
  rw [verifyP256LowS_eq hq, sig.fromDer_toDer hC.order_le, Option.orElse_some]

/-- A message on which `did::sign` does not panic gets a signature in low-S form, and it
    verifies. Of a pair that satisfies the equation and its opposite exactly one is accepted,
    raw and in DER. -/
theorem signatures_verify_in_one_form (curves : SigningCurves)
    (hlaw : ∀ curve, (curves.of curve).Lawful) :
    (∀ curve secret publicKey msg d,
      secretFromSlice (curves.of curve) secret = some d →
      (curves.of curve).fromSec1Bytes publicKey = some ((curves.of curve).mulByGenerator d) →
      ¬ (didSign curves curve secret msg).run.Panics →
      ∃ sig, (didSign curves curve secret msg).run.Returns (.ok sig) ∧ sig.length = 64 ∧
        1 ≤ beNat (sig.drop 32) ∧ beNat (sig.drop 32) ≤ ((curves.of curve).order - 1) / 2 ∧
        didVerify curves.ecdsa curve publicKey msg sig = true) ∧
    (∀ curve publicKey msg q (pair : EcdsaSignature (curves.of curve).order),
      (curves.of curve).fromSec1Bytes publicKey = some q →
      VerificationEquation (curves.of curve) q ((curves.of curve).digest msg) pair.r pair.s →
      didVerify curves.ecdsa curve publicKey msg pair.negS.toBytes
        = !didVerify curves.ecdsa curve publicKey msg pair.toBytes) ∧
    (∀ publicKey msg q (pair : EcdsaSignature curves.p256.order),
      curves.p256.fromSec1Bytes publicKey = some q →
      VerificationEquation curves.p256 q (curves.p256.digest msg) pair.r pair.s →
      verifyP256LowS (p256Ecdsa curves.p256) publicKey msg pair.negS.toDer
        = !verifyP256LowS (p256Ecdsa curves.p256) publicKey msg pair.toDer) := by
  refine ⟨?_, ?_, ?_⟩
  · intro curve secret publicKey msg d hd hq hreturns
    have hC := hlaw curve
    rw [didSign_panics_iff hC hd, not_not] at hreturns
    obtain ⟨hpos, hlt⟩ := of_secretFromSlice hd
    have hk := (hC.generateK_range d ((curves.of curve).digest msg) hpos hlt).2
    obtain ⟨sig, hsig⟩ := Option.isSome_iff_exists.mp ((hC.isSome_signPrehashed hpos hlt _).mpr hreturns)
    have haccepts := hC.acceptsSignature_of_sign ⟨publicKey, hq⟩ hlt hk hsig
    refine ⟨_, didSign_returns hC hd hsig, EcdsaSignature.toBytes_length _, ?_, ?_, ?_⟩
    · rw [EcdsaSignature.beNat_drop_toBytes _ hC.order_le]
      exact EcdsaSignature.s_pos _
    · rw [EcdsaSignature.beNat_drop_toBytes _ hC.order_le]
      exact EcdsaSignature.le_half_of_not_high hC.order_odd haccepts.1
    · rw [didVerify_toBytes hC hq]
      exact decide_eq_true haccepts
  · intro curve publicKey msg q pair hq hpair
    rw [didVerify_toBytes (hlaw curve) hq, didVerify_toBytes (hlaw curve) hq]
    exact (hlaw curve).decide_acceptsSignature_neg ⟨publicKey, hq⟩ hpair
  · intro publicKey msg q pair hq hpair
    have hC : curves.p256.Lawful := hlaw .secp256r1
    rw [verifyP256LowS_toDer hC hq, verifyP256LowS_toDer hC hq]
    exact hC.decide_acceptsSignature_neg ⟨publicKey, hq⟩ hpair

/-- The secret key 5. -/
def smallEcdsaSecret : Bytes := List.replicate 31 0 ++ [5]

/-- The signature of `phi` under it: `r = 2` and `s = 4`. -/
def smallEcdsaSignature : EcdsaSignature 13 :=
  ⟨2, 4, by decide, by decide, by decide, by decide⟩

/-- On the small curve both keys sign, and of the two forms of the signature one is
    accepted. -/
theorem smallCurves_sign_and_verify :
    (∃ sig, (didSign smallCurves .secp256k1 smallEcdsaSecret (ascii "phi")).run.Returns (.ok sig) ∧
      sig.length = 64 ∧ 1 ≤ beNat (sig.drop 32) ∧ beNat (sig.drop 32) ≤ (13 - 1) / 2 ∧
      didVerify smallCurves.ecdsa .secp256k1 (SmallCurve.toEncodedPoint 5 true) (ascii "phi") sig
        = true) ∧
    (∃ sig, (didSign smallCurves .secp256r1 smallEcdsaSecret (ascii "phi")).run.Returns (.ok sig) ∧
      sig.length = 64 ∧ 1 ≤ beNat (sig.drop 32) ∧ beNat (sig.drop 32) ≤ (13 - 1) / 2 ∧
      didVerify smallCurves.ecdsa .secp256r1 (SmallCurve.toEncodedPoint 5 false) (ascii "phi") sig
        = true) ∧
    didVerify smallCurves.ecdsa .secp256k1 (SmallCurve.toEncodedPoint 5 true) (ascii "phi")
        smallEcdsaSignature.negS.toBytes
      = !didVerify smallCurves.ecdsa .secp256k1 (SmallCurve.toEncodedPoint 5 true) (ascii "phi")
          smallEcdsaSignature.toBytes ∧
    verifyP256LowS (p256Ecdsa smallCurves.p256) (SmallCurve.toEncodedPoint 5 true) (ascii "phi")
        smallEcdsaSignature.negS.toDer
      = !verifyP256LowS (p256Ecdsa smallCurves.p256) (SmallCurve.toEncodedPoint 5 true) (ascii "phi")
          smallEcdsaSignature.toDer := by
  obtain ⟨hsign, hraw, hder⟩ := signatures_verify_in_one_form smallCurves smallCurves_lawful
  have hkey := SmallCurve.fromSec1Bytes_toEncodedPoint 5 (by decide)
  have hequation : VerificationEquation SmallCurve.arithmetic
      (SmallCurve.arithmetic.mulByGenerator 5) (sha256 (ascii "phi")) 2 4 := by decide +kernel
  have hreturns (curve : Curve) :
      ¬ (didSign smallCurves curve smallEcdsaSecret (ascii "phi")).run.Panics := by
    unfold Panics
    cases curve <;> decide +kernel
  exact ⟨hsign .secp256k1 smallEcdsaSecret _ (ascii "phi") 5 (by decide) (hkey true) (hreturns _),
    hsign .secp256r1 smallEcdsaSecret _ (ascii "phi") 5 (by decide) (hkey false) (hreturns _),
    hraw .secp256k1 _ (ascii "phi") _ smallEcdsaSignature (hkey true) hequation,
    hder _ (ascii "phi") _ smallEcdsaSignature (hkey true) hequation⟩

end PhiCrypto

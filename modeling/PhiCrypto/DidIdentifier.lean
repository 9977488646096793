import PhiCrypto.Preimages
import PhiCrypto.SmallCurve
import PhiCrypto.SmallSuite

/-!
# did:phi identifiers

`did_from_public` decodes a key, writes it in the canonical form of its curve and hashes
that behind the tag of the curve. Decoding inverts both encodings, so the canonical form
of a key stands for its point, and the tag is the first byte of the preimage, so keys of
different curves never meet in one preimage. Equal identifiers then name one point of one
curve, or are a collision of SHA-256.
-/

namespace PhiCrypto

/-! ### Hexadecimal -/

/-- `HEX_CHARS_LOWER`. -/
def hexDigit (n : Nat) : UInt8 := UInt8.ofNat (if n < 10 then 48 + n else 87 + n)

/-- `hex::encode`. -/
def hexEncode : Bytes → Bytes
  | [] => []
  | b :: rest => hexDigit (b.toNat / 16) :: hexDigit (b.toNat % 16) :: hexEncode rest

theorem hexDigit_injOn : ∀ m < 16, ∀ n < 16, hexDigit m = hexDigit n → m = n := by decide

theorem hexEncode_injective : Function.Injective hexEncode := by
  intro xs
  induction xs with
  | nil =>
    intro ys h
    cases ys with
    | nil => rfl
    | cons b' rest' => cases h
  | cons b rest ih =>
    intro ys h
    cases ys with
    | nil => cases h
    | cons b' rest' =>
      simp only [hexEncode, List.cons.injEq] at h
      have hb := b.toNat_lt
      have hb' := b'.toNat_lt
      have hhigh := hexDigit_injOn _ (by omega) _ (by omega) h.1
      have hlow := hexDigit_injOn _ (by omega) _ (by omega) h.2.1
      rw [UInt8.toNat_inj.mp (show b.toNat = b'.toNat by omega), ih h.2.2]

/-! ### Canonical keys -/

/-- `canonical_sec1`: compressed on one curve, uncompressed on the other. -/
def canonicalSec1 (curves : SigningCurves) (curve : Curve) (publicKey : Bytes) : Option Bytes :=
  match curve with
  | .secp256k1 =>
    (curves.k256.fromSec1Bytes publicKey).map fun q => curves.k256.toEncodedPoint q true
  | .secp256r1 =>
    (curves.p256.fromSec1Bytes publicKey).map fun q => curves.p256.toEncodedPoint q false

/-- `did_from_public`, with the bytes of the string that it returns. -/
def didFromPublic (S : Suite) (curves : SigningCurves) (curve : Curve) (publicKey : Bytes) :
    Except CryptoError Bytes := do
  let canonical ← (canonicalSec1 curves curve publicKey).elim (throw .invalidKey) pure
  let digest := S.sha256 (didPreimage curve canonical)
  pure (ascii "did:phi:" ++ hexEncode digest)

section Identifiers

variable {S : Suite} {curves : SigningCurves} {curve curve' : Curve}
  {publicKey publicKey' canonical canonical' : Bytes}

/-- Whether the canonical form of a curve is the compressed one. -/
def Curve.compressed : Curve → Bool
  | .secp256k1 => true
  | .secp256r1 => false

theorem canonicalSec1_eq :
    canonicalSec1 curves curve publicKey = ((curves.of curve).fromSec1Bytes publicKey).map fun q =>
      (curves.of curve).toEncodedPoint q curve.compressed := by
  cases curve <;> rfl

/-- The canonical form of a key decodes to the key. -/
theorem fromSec1Bytes_canonical (hC : (curves.of curve).Sec1Lawful)
    (h : canonicalSec1 curves curve publicKey = some canonical) :
    (curves.of curve).fromSec1Bytes canonical = (curves.of curve).fromSec1Bytes publicKey := by
  rw [canonicalSec1_eq] at h
  obtain ⟨q, hq, rfl⟩ := Option.map_eq_some_iff.mp h
  rw [hC.fromSec1Bytes_toEncodedPoint q _ ⟨publicKey, hq⟩, hq]

theorem canonicalSec1_idempotent (hC : (curves.of curve).Sec1Lawful)
    (h : canonicalSec1 curves curve publicKey = some canonical) :
    canonicalSec1 curves curve canonical = some canonical := by
  rw [canonicalSec1_eq, fromSec1Bytes_canonical hC h, ← canonicalSec1_eq, h]

theorem didFromPublic_of_canonical (h : canonicalSec1 curves curve publicKey = some canonical) :
    didFromPublic S curves curve publicKey
      = .ok (ascii "did:phi:" ++ hexEncode (S.sha256 (didPreimage curve canonical))) := by
  rw [didFromPublic, h]
  rfl

/-- The identifier fails with the key, and with nothing else. -/
theorem didFromPublic_error_iff :
    ((∃ did, didFromPublic S curves curve publicKey = .ok did) ↔
      (curves.of curve).fromSec1Bytes publicKey ≠ none) ∧
    (didFromPublic S curves curve publicKey = .error .invalidKey ↔
      (curves.of curve).fromSec1Bytes publicKey = none) := by
  cases hkey : (curves.of curve).fromSec1Bytes publicKey with
  | none =>
    have hcanonical : canonicalSec1 curves curve publicKey = none := by
      rw [canonicalSec1_eq, hkey, Option.map_none]
    have herror : didFromPublic S curves curve publicKey = .error .invalidKey := by
      rw [didFromPublic, hcanonical]
      rfl
    simp [herror]
  | some q =>
    have hcanonical : canonicalSec1 curves curve publicKey
        = some ((curves.of curve).toEncodedPoint q curve.compressed) := by
      rw [canonicalSec1_eq, hkey, Option.map_some]
    simp [didFromPublic_of_canonical hcanonical]

/-- A preimage belongs to one curve and one canonical key. -/
theorem eq_of_didPreimage_eq (h : didPreimage curve canonical = didPreimage curve' canonical') :
    curve = curve' ∧ canonical = canonical' := by
  have hpurpose : Purpose.did curve = .did curve' := HashInput.purpose_eq_of_preimage_eq
    (x := .did curve canonical) (y := .did curve' canonical') h
  exact ⟨Purpose.did.inj hpurpose, (List.cons.inj h).2⟩

/-- Equal identifiers come from equal preimages, unless these collide. -/
theorem didPreimage_eq_of_did_eq
    (hfree : ¬ S.Collision (didPreimage curve canonical) (didPreimage curve' canonical'))
    (h : ascii "did:phi:" ++ hexEncode (S.sha256 (didPreimage curve canonical))
      = ascii "did:phi:" ++ hexEncode (S.sha256 (didPreimage curve' canonical'))) :
    didPreimage curve canonical = didPreimage curve' canonical' := by
  have hdigest := hexEncode_injective (List.append_cancel_left h)
  exact (Suite.eq_or_collision hdigest).resolve_right hfree

end Identifiers

/-- An identifier names one point of one curve, it fails on what does not decode, and the
    canonical form is its own canonical form. -/
theorem did_names_one_key (S : Suite) (curves : SigningCurves)
    (hsec1 : ∀ curve, (curves.of curve).Sec1Lawful) :
    (∀ c c' k k' did did' canonical canonical',
      didFromPublic S curves c k = .ok did → didFromPublic S curves c' k' = .ok did' →
      canonicalSec1 curves c k = some canonical → canonicalSec1 curves c' k' = some canonical' →
      ¬ S.Collision (didPreimage c canonical) (didPreimage c' canonical') →
      (did = did' ↔
        c = c' ∧ (curves.of c).fromSec1Bytes k = (curves.of c).fromSec1Bytes k')) ∧
    (∀ c k,
      ((∃ did, didFromPublic S curves c k = .ok did) ↔ (curves.of c).fromSec1Bytes k ≠ none) ∧
      (didFromPublic S curves c k = .error .invalidKey ↔ (curves.of c).fromSec1Bytes k = none)) ∧
    (∀ c k canonical, canonicalSec1 curves c k = some canonical →
      canonicalSec1 curves c canonical = some canonical) := by
  refine ⟨?_, fun c k => didFromPublic_error_iff, fun c k canonical =>
    canonicalSec1_idempotent (hsec1 c)⟩
  intro c c' k k' did did' canonical canonical' hdid hdid' hk hk' hfree
  rw [didFromPublic_of_canonical hk] at hdid
  rw [didFromPublic_of_canonical hk'] at hdid'
  cases hdid
  cases hdid'
  constructor
  · intro h
    obtain ⟨hc, hcanonical⟩ := eq_of_didPreimage_eq (didPreimage_eq_of_did_eq hfree h)
    subst hc hcanonical
    -- both keys decode as their common canonical form does
    exact ⟨rfl, (fromSec1Bytes_canonical (hsec1 c) hk).symm.trans
      (fromSec1Bytes_canonical (hsec1 c) hk')⟩
  · intro h
    obtain ⟨hc, hpoint⟩ := h
    subst hc
    rw [canonicalSec1_eq, hpoint, ← canonicalSec1_eq, hk'] at hk
    cases hk
    rfl

/-- The small suite with SHA-256 for its digest. -/
def sha256Suite : Suite := { smallSuite with sha256 := sha256, sha256_length := sha256_length }

/-- The two encodings of a point have one identifier, and it is not that of the point on
    the other curve. -/
theorem smallCurves_one_identifier :
    didFromPublic sha256Suite smallCurves .secp256k1 (SmallCurve.toEncodedPoint 5 true)
        = didFromPublic sha256Suite smallCurves .secp256k1 (SmallCurve.toEncodedPoint 5 false) ∧
      didFromPublic sha256Suite smallCurves .secp256k1 (SmallCurve.toEncodedPoint 5 true)
        ≠ didFromPublic sha256Suite smallCurves .secp256r1 (SmallCurve.toEncodedPoint 5 true) := by
  have hnames := (did_names_one_key sha256Suite smallCurves smallCurves_sec1Lawful).1
  have hkey := SmallCurve.fromSec1Bytes_toEncodedPoint 5 (by decide)
  have hk1 : ∀ compress, canonicalSec1 smallCurves .secp256k1 (SmallCurve.toEncodedPoint 5 compress)
      = some (SmallCurve.toEncodedPoint 5 true) := fun compress =>
    congrArg (Option.map fun q => SmallCurve.toEncodedPoint q true) (hkey compress)
  have hr1 : canonicalSec1 smallCurves .secp256r1 (SmallCurve.toEncodedPoint 5 true)
      = some (SmallCurve.toEncodedPoint 5 false) :=
    congrArg (Option.map fun q => SmallCurve.toEncodedPoint q false) (hkey true)
  constructor
  · rw [didFromPublic_of_canonical (hk1 true), didFromPublic_of_canonical (hk1 false),
      (hnames .secp256k1 .secp256k1 _ _ _ _ _ _ (didFromPublic_of_canonical (hk1 true))
        (didFromPublic_of_canonical (hk1 false)) (hk1 true) (hk1 false)
        (fun h => h.1 rfl)).mpr ⟨rfl, (hkey true).trans (hkey false).symm⟩]
  · intro h
    rw [didFromPublic_of_canonical (hk1 true), didFromPublic_of_canonical hr1] at h
    have hcurve := ((hnames .secp256k1 .secp256r1 _ _ _ _ _ _
      (didFromPublic_of_canonical (hk1 true)) (didFromPublic_of_canonical hr1) (hk1 true) hr1
      (fun hcollision => absurd hcollision.2 (by decide +kernel))).mp (Except.ok.inj h)).1
    cases hcurve

end PhiCrypto

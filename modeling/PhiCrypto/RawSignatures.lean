import PhiCrypto.P256

/-!
# One string of bytes, two signatures

`verify_p256_low_s` reads a signature as DER and, failing that, as the raw `r ‖ s`;
`did::verify` reads it as raw only. Sixty-four bytes can be both. The verifiers then
check different pairs `(r, s)` against the same key and message. They agree on all other
strings, and on those whose pairs are both refused before the equation is looked at
(`verifiers_agree_of_one_reading`). Bytes that are both begin `30 3e 02`
(`take_of_fromDer`).

A DER signature of 64 bytes that is a valid raw signature under a P-256 key is given at
the end: the passkey verifier refuses what the DID verifier accepts.
-/

namespace PhiCrypto

/-- Sixty-four bytes of DER: a sequence of 62, with two integers of at most 32 octets. -/
theorem layout_of_fromDer {n : Nat} {b : Bytes} {sig : EcdsaSignature n} (hlen : b.length = 64)
    (h : EcdsaSignature.fromDer n b = some sig) :
    ∃ r s first second : Bytes,
      b = 0x30 :: 0x3e :: 0x02 :: UInt8.ofNat first.length
        :: (first ++ 0x02 :: UInt8.ofNat second.length :: second) ∧
      r.length ≤ first.length ∧ s.length ≤ second.length ∧ r.length ≤ 32 ∧ s.length ≤ 32 ∧
      EcdsaSignature.fromSlice n (EcdsaSignature.pad32 r ++ EcdsaSignature.pad32 s) = some sig := by
  unfold EcdsaSignature.fromDer at h
  split at h
  · cases h
  next r s hdecode =>
  split at h
  · cases h
  next hshort =>
  rw [not_or, not_lt, not_lt] at hshort
  unfold EcdsaSignature.decodeDer Der.decode at hdecode
  split at hdecode
  · cases hdecode
  obtain ⟨octets, hb, hbody⟩ := Der.of_sequence_ok (Decoder.runAll_eq_ok_iff.mp hdecode) (by omega)
  have hlen62 : octets.length = 62 := by
    rw [hb, List.length_cons, List.length_cons] at hlen
    omega
  rw [Decoder.bind_eq_ok_iff] at hbody
  obtain ⟨r', t, hfirst, hbody⟩ := hbody
  rw [Decoder.bind_eq_ok_iff] at hbody
  obtain ⟨s', t', hsecond, hpair⟩ := hbody
  cases hpair
  obtain ⟨first, hoctets, hr⟩ := Der.of_uint_short hfirst (by omega)
  have hrest : t.length < 0x80 := by
    rw [hoctets] at hlen62
    simp only [List.length_cons, List.length_append] at hlen62
    omega
  obtain ⟨second, ht, hs⟩ := Der.of_uint_short hsecond hrest
  refine ⟨r, s, first, second, ?_, hr, hs, hshort.1, hshort.2, h⟩
  rw [hb, hlen62, hoctets, ht, List.append_nil]
  rfl

theorem take_of_fromDer {n : Nat} {b : Bytes} {sig : EcdsaSignature n} (hlen : b.length = 64)
    (h : EcdsaSignature.fromDer n b = some sig) : b.take 3 = [0x30, 0x3e, 0x02] := by
  obtain ⟨r, s, first, second, hb, -⟩ := layout_of_fromDer hlen h
  rw [hb]
  rfl

theorem toBytes_of_fromSlice {n : Nat} {b : Bytes} {sig : EcdsaSignature n}
    (h : EcdsaSignature.fromSlice n b = some sig) : sig.toBytes = b := by
  unfold EcdsaSignature.fromSlice EcdsaSignature.fromScalars at h
  split at h
  case isFalse => cases h
  next hlen =>
  split at h
  case isFalse => cases h
  cases h
  have hr : (b.take 32).length = 32 := by
    rw [List.length_take, hlen]
    rfl
  have hs : (b.drop 32).length = 32 := by rw [List.length_drop, hlen]
  calc beBytes 32 (beNat (b.take 32)) ++ beBytes 32 (beNat (b.drop 32))
      = beBytes (b.take 32).length (beNat (b.take 32))
          ++ beBytes (b.drop 32).length (beNat (b.drop 32)) := by rw [hr, hs]
    _ = b.take 32 ++ b.drop 32 := by rw [beBytes_beNat, beBytes_beNat]
    _ = b := List.take_append_drop 32 b

/-- A padded integer is zero in front of its octets. -/
theorem getElem?_pad32 {b : Bytes} {i : Nat} (hi : i < 32 - b.length) :
    (EcdsaSignature.pad32 b)[i]? = some 0 := by
  rw [EcdsaSignature.pad32, List.getElem?_append_left (by simpa using hi)]
  exact List.getElem?_replicate_of_lt hi

/-- The two readings of one string are never the same pair. -/
theorem readings_differ {n : Nat} {b : Bytes} {der raw : EcdsaSignature n}
    (hder : EcdsaSignature.fromDer n b = some der)
    (hraw : EcdsaSignature.fromSlice n b = some raw) : der ≠ raw := by
  intro heq
  have hbytes := toBytes_of_fromSlice hraw
  have hlen : b.length = 64 := by rw [← hbytes, EcdsaSignature.toBytes_length]
  obtain ⟨r, s, first, second, hb, hr, hs, hr32, hs32, hpadded⟩ := layout_of_fromDer hlen hder
  have hlayout : EcdsaSignature.pad32 r ++ EcdsaSignature.pad32 s = b := by
    rw [← toBytes_of_fromSlice hpadded, heq, hbytes]
  have hpad : (EcdsaSignature.pad32 r).length = 32 := by
    rw [EcdsaSignature.pad32, List.length_append, List.length_replicate]
    omega
  have hsum : first.length + second.length = 58 := by
    rw [hb] at hlen
    simp only [List.length_cons, List.length_append] at hlen
    omega
  -- the first byte is the tag of the sequence, so that `r` has no padding
  have hfull : r.length = 32 := by
    by_contra hne
    have hzero := getElem?_pad32 (b := r) (i := 0) (by omega)
    have hhead : b[0]? = (EcdsaSignature.pad32 r)[0]? := by
      rw [← hlayout, List.getElem?_append_left (by omega)]
    rw [hzero, hb] at hhead
    cases hhead
  -- the tag of the second integer lies in the padding of `s`
  have htag : b[first.length + 4]? = some 0x02 := by
    rw [hb]
    simp
  have hzero := getElem?_pad32 (b := s) (i := first.length + 4 - 32) (by omega)
  rw [← hlayout, List.getElem?_append_right (by omega), hpad, hzero] at htag
  cases htag

/-! ### Bytes that are both -/

/-- P-256 in both places: the verifiers at hand look only at the second. -/
def p256Curves : SigningCurves where
  k256 := P256.arithmetic fun _ _ => 1
  p256 := P256.arithmetic fun _ _ => 1

namespace Lookalike

/-- An uncompressed point of P-256. -/
def publicKey : Bytes :=
  [0x04, 0x59, 0x8c, 0xf4, 0x98, 0x88, 0x39, 0x4f, 0xe2, 0x13, 0xcb, 0x26, 0xbf, 0x48, 0x78, 0x82,
   0xb6, 0x5c, 0xe6, 0x01, 0x8e, 0x8f, 0x36, 0x53, 0xd8, 0x25, 0x35, 0x0d, 0x14, 0xf4, 0xe1, 0x16,
   0xe3, 0xb7, 0x78, 0xb5, 0xde, 0xcd, 0xb6, 0x73, 0x03, 0xff, 0x81, 0xcc, 0x7d, 0xc2, 0x0d, 0xef,
   0x6d, 0x2c, 0x7d, 0x9a, 0x1b, 0x8f, 0x31, 0x77, 0x28, 0xbc, 0xcc, 0x78, 0xef, 0x09, 0xa4, 0x02,
   0x40]

/-- `phi`. -/
def message : Bytes := [0x70, 0x68, 0x69]

/-- The DER of two integers of 29 octets. -/
def signature : Bytes :=
  [0x30, 0x3e, 0x02, 0x1d, 0x01, 0x01, 0x01, 0x01, 0x01, 0x01, 0x01, 0x01, 0x01, 0x01, 0x01, 0x01,
   0x01, 0x01, 0x01, 0x01, 0x01, 0x01, 0x01, 0x01, 0x01, 0x01, 0x01, 0x01, 0x01, 0x01, 0x00, 0x04,
   0x01, 0x02, 0x1d, 0x01, 0x01, 0x01, 0x01, 0x01, 0x01, 0x01, 0x01, 0x01, 0x01, 0x01, 0x01, 0x01,
   0x01, 0x01, 0x01, 0x01, 0x01, 0x01, 0x01, 0x01, 0x01, 0x01, 0x01, 0x01, 0x01, 0x01, 0x01, 0x01]

variable (generateK : Nat → Bytes → Nat)

/-- The raw reading verifies, the DER reading does not. -/
theorem verdicts :
    verifyRaw (p256Ecdsa (P256.arithmetic generateK)) publicKey message signature = true ∧
      verifyP256LowS (p256Ecdsa (P256.arithmetic generateK)) publicKey message signature = false := by
  -- Verification does not look at the nonces, so one generator stands for all.
  have hany : p256Ecdsa (P256.arithmetic generateK) = p256Ecdsa p256Curves.p256 := rfl
  rw [hany]
  exact ⟨by decide +kernel, by decide +kernel⟩

end Lookalike

/-! ### When the verifiers agree -/

/-- It does not matter how `sig` is read: the key does not decode, or `sig` is not DER, or
    no reading of it is a low-S signature. -/
def OneReading (C : CurveArithmetic) (publicKey sig : Bytes) : Prop :=
  C.fromSec1Bytes publicKey = none ∨ EcdsaSignature.fromDer C.order sig = none ∨
    (∀ der, EcdsaSignature.fromDer C.order sig = some der → der.isHigh = true) ∧
      ∀ raw, EcdsaSignature.fromSlice C.order sig = some raw → raw.isHigh = true

section Verifiers

variable {curves : SigningCurves} {publicKey msg sig : Bytes}

theorem verifiers_reject_of_no_key (hkey : curves.p256.fromSec1Bytes publicKey = none)
    (msg sig : Bytes) :
    verifyP256LowS (p256Ecdsa curves.p256) publicKey msg sig = false ∧
      didVerify curves.ecdsa .secp256r1 publicKey msg sig = false := by
  have hkey' : (p256Ecdsa curves.p256).fromSec1Bytes publicKey = none := hkey
  have hraw : verifyRaw (p256Ecdsa curves.p256) publicKey msg sig = false := by
    rw [verifyRaw, hkey']
  constructor
  · rw [verifyP256LowS, hkey']
  · rw [didVerify]
    split
    · rfl
    · exact hraw

/-- What is not DER is read as raw by both. -/
theorem verifiers_agree_of_not_der {q : curves.p256.Point}
    (hkey : curves.p256.fromSec1Bytes publicKey = some q)
    (hder : EcdsaSignature.fromDer curves.p256.order sig = none) :
    verifyP256LowS (p256Ecdsa curves.p256) publicKey msg sig
      = didVerify curves.ecdsa .secp256r1 publicKey msg sig := by
  rw [verifyP256LowS_eq hkey, hder, Option.orElse_none, didVerify_eq curves .secp256r1 hkey]
  cases hslice : EcdsaSignature.fromSlice (curves.of .secp256r1).order sig with
  | none =>
    have hraw : EcdsaSignature.fromSlice curves.p256.order sig = none := hslice
    rw [hraw]
  | some raw =>
    have hraw : EcdsaSignature.fromSlice curves.p256.order sig = some raw := hslice
    rw [hraw]
    rfl

theorem decide_acceptsSignature_of_high {C : CurveArithmetic} {q : C.Point}
    {signature : EcdsaSignature C.order} (hhigh : signature.isHigh = true) :
    decide (AcceptsSignature C q msg signature) = false := by
  refine decide_eq_false ?_
  intro haccepts
  cases hhigh.symm.trans haccepts.1

/-- High pairs are refused by both, whichever is read. -/
theorem verifiers_reject_high {q : curves.p256.Point}
    (hkey : curves.p256.fromSec1Bytes publicKey = some q)
    {der : EcdsaSignature curves.p256.order}
    (hder : EcdsaSignature.fromDer curves.p256.order sig = some der) (hhigh : der.isHigh = true)
    (hraw : ∀ raw, EcdsaSignature.fromSlice curves.p256.order sig = some raw → raw.isHigh = true) :
    verifyP256LowS (p256Ecdsa curves.p256) publicKey msg sig = false ∧
      didVerify curves.ecdsa .secp256r1 publicKey msg sig = false := by
  constructor
  · rw [verifyP256LowS_eq hkey, hder, Option.orElse_some]
    exact decide_acceptsSignature_of_high hhigh
  · refine (didVerify_eq curves .secp256r1 hkey msg sig).trans ?_
    cases hslice : EcdsaSignature.fromSlice (curves.of .secp256r1).order sig with
    | none => rfl
    | some raw => exact decide_acceptsSignature_of_high (hraw raw hslice)

/-- The two verifiers agree on 64 bytes that they read in one way, and so on all that do not
    begin like a DER sequence of that length. Where there are two readings, the verifiers
    look at different pairs. -/
theorem verifiers_agree_of_one_reading (curves : SigningCurves) (publicKey msg sig : Bytes)
    (hlen : sig.length = 64) :
    (OneReading curves.p256 publicKey sig →
      verifyP256LowS (p256Ecdsa curves.p256) publicKey msg sig
        = didVerify curves.ecdsa .secp256r1 publicKey msg sig) ∧
    (sig.take 3 ≠ [0x30, 0x3e, 0x02] → OneReading curves.p256 publicKey sig) ∧
    (∀ der raw, EcdsaSignature.fromDer curves.p256.order sig = some der →
      EcdsaSignature.fromSlice curves.p256.order sig = some raw → der ≠ raw) := by
  refine ⟨?_, ?_, fun _ _ => readings_differ⟩
  · intro hone
    cases hkey : curves.p256.fromSec1Bytes publicKey with
    | none =>
      obtain ⟨hlowS, hdid⟩ := verifiers_reject_of_no_key hkey msg sig
      exact hlowS.trans hdid.symm
    | some q =>
      cases hder : EcdsaSignature.fromDer curves.p256.order sig with
      | none => exact verifiers_agree_of_not_der hkey hder
      | some der =>
        rcases hone with hnone | hnone | ⟨hhigh, hraw⟩
        · cases hkey.symm.trans hnone
        · cases hder.symm.trans hnone
        · obtain ⟨hlowS, hdid⟩ := verifiers_reject_high hkey hder (hhigh der hder) hraw
          exact hlowS.trans hdid.symm
  · intro hstart
    refine .inr (.inl ?_)
    rw [Option.eq_none_iff_forall_ne_some]
    intro der hder
    exact hstart (take_of_fromDer hlen hder)

/-- Sixty-four bytes that do not look like DER, and some that do under a string that is no
    key. -/
theorem verifiers_agree_on_ones :
    verifyP256LowS (p256Ecdsa p256Curves.p256) Lookalike.publicKey Lookalike.message
        (List.replicate 64 1)
      = didVerify p256Curves.ecdsa .secp256r1 Lookalike.publicKey Lookalike.message
        (List.replicate 64 1) ∧
    verifyP256LowS (p256Ecdsa p256Curves.p256) [4] Lookalike.message Lookalike.signature
      = didVerify p256Curves.ecdsa .secp256r1 [4] Lookalike.message Lookalike.signature := by
  obtain ⟨hones, hstart, -⟩ := verifiers_agree_of_one_reading p256Curves Lookalike.publicKey
    Lookalike.message (List.replicate 64 1) (by decide)
  obtain ⟨hlookalike, -⟩ := verifiers_agree_of_one_reading p256Curves [4] Lookalike.message
    Lookalike.signature rfl
  exact ⟨hones (hstart (by decide)), hlookalike (.inl (by decide +kernel))⟩

end Verifiers

open Lookalike in
/-- Whatever the other curve and the nonces, the verifiers disagree on these bytes. -/
theorem lookalike_verifiers_disagree :
    signature.length = 64 ∧
      ¬ ∃ (k256 : CurveArithmetic) (generateK : Nat → Bytes → Nat),
        verifyP256LowS (p256Ecdsa (P256.arithmetic generateK)) publicKey message signature
          = didVerify (SigningCurves.ecdsa ⟨k256, P256.arithmetic generateK⟩) .secp256r1
              publicKey message signature := by
  refine ⟨rfl, ?_⟩
  intro h
  obtain ⟨k256, generateK, hagree⟩ := h
  obtain ⟨hraw, hlowS⟩ := verdicts generateK
  have hdid : didVerify (SigningCurves.ecdsa ⟨k256, P256.arithmetic generateK⟩) .secp256r1
      publicKey message signature
      = verifyRaw (p256Ecdsa (P256.arithmetic generateK)) publicKey message signature := rfl
  rw [hdid, hraw, hlowS] at hagree
  cases hagree

end PhiCrypto

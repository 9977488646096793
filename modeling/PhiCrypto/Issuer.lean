import PhiCrypto.Provers

/-!
# Issuing credentials

`DocknetBbsPlus::generate_keypair` and `sign_credential`, with the vendored
`SignatureG1::new` that they rest on. The signer draws `s`, and `e` until
`e + x` is not zero. `signs_of_signCredential` says what comes out, and
`SignatureG1.Signs.verifies` that it is valid under the public key of the signer,
unless its point is the identity.
-/

namespace PhiCrypto

variable {S : Suite}

/-- `SecretKey`: one scalar. -/
def secretKeyDecoder (S : Suite) : Ark S.Fr := Ark.fr S.r

/-- `PublicKeyG2::generate_using_secret_key`. -/
def generateUsingSecretKey (sk : S.Fr) (params : SignatureParamsG1 S) : S.G2 := sk • params.g2

structure BbsKeyPair where
  secret : Bytes
  publicKey : Bytes

def generateKeypair (S : Suite) (messageCount : UInt32) :
    ExceptT CryptoError (Rng S.Fr) BbsKeyPair := do
  rejectIf (countOutOfRange messageCount) countRangeError
  let params := paramsOf S messageCount.toNat
  let sk ← liftM (Rng.draw : Rng S.Fr S.Fr)
  pure
    { secret := S.serFr sk, publicKey := S.g2Codec.ser (generateUsingSecretKey sk params) }

/-- `SignatureG1::new`: all messages are known, so there is no commitment to add. -/
def SignatureG1.new (messages : List S.Fr) (sk : S.Fr) (params : SignatureParamsG1 S) :
    ExceptT BBSPlusError (Rng S.Fr) (SignatureG1 S) := do
  rejectIf (messages = []) BBSPlusError.noMessageToSign
  rejectIf (messages.length ≠ params.h.length) BBSPlusError.messageCountIncompatibleWithSigParams
  let s ← liftM (Rng.draw : Rng S.Fr S.Fr)
  let b := params.b messages s
  let e ← liftM (Rng.drawUntil fun e => e + sk ≠ 0 : Rng S.Fr S.Fr)
  let ePlusXInv := (e + sk)⁻¹
  pure { a := ePlusXInv • b, e, s }

def signCredential (claims : List Bytes) (secret : Bytes) :
    ExceptT CryptoError (Rng S.Fr) Bytes := do
  rejectIf (claims = []) (CryptoError.invalidInput "no claims")
  rejectIf (claims.length > maxBbsMessages) countRangeError
  let params := paramsOf S claims.length
  let sk ← liftExcept (deser (secretKeyDecoder S) secret)
  let messages := claims.map (claimToFr S)
  let sig ← ExceptT.adapt (fun _ => CryptoError.backend "bbs sign")
    (SignatureG1.new messages sk params)
  pure sig.ser

/-- The key pair of a secret key: the public key belongs to it, in any encoding. -/
structure BbsKeyPair.Matching (S : Suite) (pair : BbsKeyPair) (sk : S.Fr) : Prop where
  secret_eq : deser (secretKeyDecoder S) pair.secret = .ok sk
  public_eq : deser (publicKeyDecoder S) pair.publicKey
    = .ok (generateUsingSecretKey sk (paramsOf S 1))

theorem deser_secretKey (sk : S.Fr) : deser (secretKeyDecoder S) (S.serFr sk) = .ok sk := by
  have hread := S.canonical_fr.complete (a := sk) [] trivial
  rw [List.append_nil] at hread
  exact deser_eq_ok_iff.mpr hread

/-- Generated key pairs match, whatever was drawn. -/
theorem generateKeypair_matching {messageCount : UInt32} {pair : BbsKeyPair}
    (h : Succeeds (generateKeypair S messageCount) pair) : ∃ sk, pair.Matching S sk := by
  obtain ⟨-, h⟩ := succeeds_rejectIf_bind h
  obtain ⟨sk, -, tape, rest, h⟩ := succeeds_liftM_bind h
  cases h
  exact ⟨sk, deser_secretKey sk, deser_point S.g2Codec _⟩

/-! ### Signatures are valid -/

/-- The equation of the signer: `e + x` times `A` is the commitment. -/
def SignatureG1.Signs (sig : SignatureG1 S) (messages : List S.Fr) (sk : S.Fr)
    (params : SignatureParamsG1 S) : Prop :=
  (sig.e + sk) • sig.a = params.b messages sig.s

theorem SignatureG1.signs_of_new {messages : List S.Fr} {sk : S.Fr} {params : SignatureParamsG1 S}
    {sig : SignatureG1 S} (h : Succeeds (SignatureG1.new messages sk params) sig) :
    sig.Signs messages sk params := by
  obtain ⟨-, h⟩ := succeeds_rejectIf_bind h
  obtain ⟨-, h⟩ := succeeds_rejectIf_bind h
  obtain ⟨s, -, h⟩ := succeeds_liftM_bind h
  obtain ⟨e, ⟨tape, rest, he⟩, h⟩ := succeeds_liftM_bind h
  have hne : e + sk ≠ 0 := by simpa using Rng.test_of_drawUntil he
  obtain ⟨tape', rest', h⟩ := h
  cases h
  exact smul_inv_smul₀ hne _

/-- A credential is the encoding of a signature of the issuer on its claims. -/
theorem signs_of_signCredential {claims : List Bytes} {secret credential : Bytes} {sk : S.Fr}
    (hsk : deser (secretKeyDecoder S) secret = .ok sk)
    (h : Succeeds (signCredential (S := S) claims secret) credential) :
    ∃ sig : SignatureG1 S, credential = sig.ser ∧
      sig.Signs (claims.map (claimToFr S)) sk (paramsOf S claims.length) := by
  obtain ⟨-, h⟩ := succeeds_rejectIf_bind h
  obtain ⟨-, h⟩ := succeeds_rejectIf_bind h
  obtain ⟨sk', hsk', h⟩ := succeeds_liftExcept_bind h
  cases hsk.symm.trans hsk'
  obtain ⟨sig, hnew, tape, rest, h⟩ := succeeds_bind h
  cases h
  exact ⟨sig, rfl, SignatureG1.signs_of_new (succeeds_adapt hnew)⟩

theorem SignatureG1.deser_ser (sig : SignatureG1 S) : deser decoder sig.ser = .ok sig := by
  have hread : decoder (sig.ser ++ []) = .ok (sig, []) := by
    simp only [ser, List.append_assoc]
    rw [decoder, Decoder.bind_ok (S.g1Codec.decoder_ser _ _),
      Decoder.bind_ok (S.canonical_fr.complete _ trivial),
      Decoder.bind_ok (S.canonical_fr.complete _ trivial), Decoder.pure_apply]
  rw [List.append_nil] at hread
  exact deser_eq_ok_iff.mpr hread

/-- The equation of the signer is the pairing equation of the verifier. -/
theorem SignatureG1.Signs.verifies {sig : SignatureG1 S} {messages : List S.Fr} {sk : S.Fr}
    {params : SignatureParamsG1 S} (h : sig.Signs messages sk params) (hne : messages ≠ [])
    (hlen : messages.length = params.h.length) (ha : sig.a ≠ 0) :
    sig.verify messages (generateUsingSecretKey sk params) params = .ok () := by
  refine verify_eq_ok_iff.mpr ⟨hne, hlen, ha, ?_⟩
  have hb : sig.e • sig.a - params.b messages sig.s = -(sk • sig.a) := by
    rw [← h]
    module
  rw [hb, generateUsingSecretKey, map_smul, map_neg, map_smul]
  simp

end PhiCrypto

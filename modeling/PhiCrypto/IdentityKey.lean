import PhiCrypto.NonMalleability

/-!
# Verification under the identity key

`PublicKeyG2::is_valid` asks a verifier to refuse the identity before it uses a
key; the `bbs-2023` backend does so, the `phi-bbs-v1` and vote verifiers do not.
Under the identity the pairing equation reads `A_bar = 0` and says nothing about a
signature. So an identity key is refused exactly as long as no proof comes with
that point and otherwise valid Schnorr relations, which anyone can make: a
signature under the secret 0 is a division by `e`.
-/

namespace PhiCrypto

open Exec

variable {S : Suite}

/-- Anyone can sign any messages under the identity key. -/
theorem SignatureG1.verify_zero_key {params : SignatureParamsG1 S} {messages : List S.Fr}
    {e s : S.Fr} (hmessages : messages ≠ []) (hcount : messages.length = params.h.length)
    (he : e ≠ 0) (hb : params.b messages s ≠ 0) :
    SignatureG1.verify ⟨e⁻¹ • params.b messages s, e, s⟩ messages 0 params = .ok () := by
  have ha : e⁻¹ • params.b messages s ≠ 0 := smul_ne_zero (inv_ne_zero he) hb
  rw [SignatureG1.verify_eq_ok_iff]
  refine ⟨hmessages, hcount, ha, ?_⟩
  rw [map_zero, smul_inv_smul₀ he, sub_self, map_zero, LinearMap.zero_apply, add_zero]

/-! ### The pairing equation -/

/-- The checks of the BBS+ verifier other than the pairing equation. The issuer key does
    not occur in them. -/
structure PoKOfSignatureG1Proof.Schnorr (p : PoKOfSignatureG1Proof S) (revealed : OrderedMap S.Fr)
    (challenge : S.Fr) (params : SignatureParamsG1 S) : Prop where
  aPrime_ne_zero : p.aPrime ≠ 0
  first : p.scResp1.response1 • p.aPrime + p.scResp1.response2 • params.h0
    - challenge • (p.aBar - p.d) = p.scResp1.t
  second : p.SecondRelation revealed challenge params

theorem pairing_zero_key_iff {P Q : S.G1} {g2 : S.G2} (hg2 : g2 ≠ 0) :
    S.pairing P 0 + S.pairing (-Q) g2 = 0 ↔ Q = 0 := by
  rw [map_zero, zero_add]
  constructor
  · intro h
    rcases S.pairing_nondegenerate _ _ h with hQ | hzero
    · exact neg_eq_zero.mp hQ
    · exact absurd hzero hg2
  · rintro rfl
    rw [neg_zero, map_zero, LinearMap.zero_apply]

theorem PoKOfSignatureG1Proof.accepts_zero_key_iff (p : PoKOfSignatureG1Proof S)
    (revealed : OrderedMap S.Fr) (challenge : S.Fr) {params : SignatureParamsG1 S}
    (hg2 : params.g2 ≠ 0) :
    p.Accepts revealed challenge 0 params ↔ p.Schnorr revealed challenge params ∧ p.aBar = 0 := by
  constructor
  · intro h
    exact ⟨⟨h.aPrime_ne_zero, h.first, h.second⟩, (pairing_zero_key_iff hg2).mp h.pairing⟩
  · rintro ⟨h, haBar⟩
    exact ⟨h.aPrime_ne_zero, h.first, h.second, (pairing_zero_key_iff hg2).mpr haBar⟩

/-! ### The verifiers -/

/-- What `verify_proof` checks of a proof besides the pairing equation. -/
structure SelectiveProof.AcceptedButPairing (H : Bytes → S.Fr) (proof : SelectiveProof)
    (p : PoKOfSignatureG1Proof S) (nonce : Bytes) : Prop where
  count_pos : 1 ≤ proof.messageCount.toNat
  count_le : proof.messageCount.toNat ≤ 64
  in_range : ∀ k ∈ revealedIndices proof.revealed, k < proof.messageCount.toNat
  distinct : (revealedIndices proof.revealed).Nodup
  schnorr : p.Schnorr (messagesOf S proof.revealed) (H (proof.transcript p nonce))
    (paramsOf S proof.messageCount.toNat)

theorem SelectiveProof.accepted_zero_key_iff {H : Bytes → S.Fr} {proof : SelectiveProof}
    {p : PoKOfSignatureG1Proof S} {nonce : Bytes} :
    proof.Accepted H 0 p nonce ↔ proof.AcceptedButPairing H p nonce ∧ p.aBar = 0 := by
  have hkey := p.accepts_zero_key_iff (messagesOf S proof.revealed) (H (proof.transcript p nonce))
    (paramsOf_g2_ne_zero S proof.messageCount.toNat)
  constructor
  · rintro ⟨hpos, hle, hrange, hdistinct, haccepts⟩
    obtain ⟨hschnorr, haBar⟩ := hkey.mp haccepts
    exact ⟨⟨hpos, hle, hrange, hdistinct, hschnorr⟩, haBar⟩
  · rintro ⟨⟨hpos, hle, hrange, hdistinct, hschnorr⟩, haBar⟩
    exact ⟨hpos, hle, hrange, hdistinct, hkey.mpr ⟨hschnorr, haBar⟩⟩

/-- What `verify_inner` checks of a vote proof besides the pairing equation. -/
structure VoteProof.AcceptedButPairing (proof : VoteProof S) (o : OpenedVote S) (c : S.Fr) :
    Prop where
  count_pos : 1 ≤ proof.messageCount.toNat
  count_le : proof.messageCount.toNat ≤ 64
  nullifier_ne_zero : proof.nullifier ≠ 0
  in_range : ∀ k ∈ revealedIndices proof.revealed, 1 ≤ k ∧ k < proof.messageCount.toNat
  distinct : (revealedIndices proof.revealed).Nodup
  challenge_ne_zero : c ≠ 0
  schnorr : o.bbs.Schnorr (messagesOf S proof.revealed) c (paramsOf S proof.messageCount.toNat)
  dl_accepts : o.dl.response • o.hE - c • proof.nullifier = o.dl.t
  same_response : ∃ resp, o.bbs.scResp2 = some resp ∧ resp[0]? = some o.dl.response

theorem VoteProof.accepted_zero_key_iff {proof : VoteProof S} {o : OpenedVote S} {c : S.Fr}
    (hpk : o.pk = 0) :
    proof.Accepted o c ↔ proof.AcceptedButPairing o c ∧ o.bbs.aBar = 0 := by
  have hkey := o.bbs.accepts_zero_key_iff (messagesOf S proof.revealed) c
    (paramsOf_g2_ne_zero S proof.messageCount.toNat)
  rw [← hpk] at hkey
  constructor
  · rintro ⟨hpos, hle, hnull, hrange, hdistinct, hc, haccepts, hdl, hresp⟩
    obtain ⟨hschnorr, haBar⟩ := hkey.mp haccepts
    exact ⟨⟨hpos, hle, hnull, hrange, hdistinct, hc, hschnorr, hdl, hresp⟩, haBar⟩
  · rintro ⟨⟨hpos, hle, hnull, hrange, hdistinct, hc, hschnorr, hdl, hresp⟩, haBar⟩
    exact ⟨hpos, hle, hnull, hrange, hdistinct, hc, hkey.mpr ⟨hschnorr, haBar⟩, hdl, hresp⟩

section ZeroKey

variable {issuerPk : Bytes} (hkey : deser (publicKeyDecoder S) issuerPk = .ok 0)
include hkey

theorem verifyProof_zero_key_iff (H : Bytes → S.Fr) (proof : SelectiveProof) (nonce : Bytes) :
    (verifyProof H proof issuerPk nonce).Returns true ↔
      ∃ p, deser PoKOfSignatureG1Proof.decoder proof.proof = .ok p ∧
        proof.AcceptedButPairing H p nonce ∧ p.aBar = 0 := by
  rw [verifyProof_returns_true_iff]
  constructor
  · rintro ⟨pk, p, hpk, hp, hacc⟩
    cases hkey.symm.trans hpk
    exact ⟨p, hp, SelectiveProof.accepted_zero_key_iff.mp hacc⟩
  · rintro ⟨p, hp, hacc⟩
    exact ⟨0, p, hkey, hp, SelectiveProof.accepted_zero_key_iff.mpr hacc⟩

theorem verifyVoteProof_zero_key_iff (H : Bytes → S.Fr) (proof : VoteProof S)
    (chainId electionId signal : Bytes) :
    (verifyVoteProof H proof issuerPk chainId electionId signal).Returns true ↔
      ∃ o, proof.Opens issuerPk electionId o ∧
        proof.AcceptedButPairing o (H (proof.transcript o chainId electionId signal)) ∧
        o.bbs.aBar = 0 := by
  rw [verifyVoteProof_returns_true_iff]
  refine exists_congr fun o => and_congr_right fun hopen => ?_
  exact VoteProof.accepted_zero_key_iff (Except.ok.inj (hopen.pk_eq.symm.trans hkey))

end ZeroKey

/-- **The identity key.** A key that decodes to the identity is refused by
    `verify_proof`, `verify_bound_proof` and `verify_vote_proof` exactly on the
    proofs that fail another check or have an `A_bar` other than the identity. -/
theorem identity_key_refused_iff (H : Bytes → S.Fr) (issuerPk : Bytes)
    (hkey : deser (publicKeyDecoder S) issuerPk = .ok 0) :
    (∀ (proof : SelectiveProof) (nonce : Bytes),
      (verifyProof H proof issuerPk nonce).Returns false ↔
        ∀ p, deser PoKOfSignatureG1Proof.decoder proof.proof = .ok p →
          proof.AcceptedButPairing H p nonce → p.aBar ≠ 0) ∧
    (∀ b electionId nullifier signal : Bytes,
      (verifyBoundProof H b issuerPk electionId nullifier signal).Returns false ↔
        ∀ proof p, (SelectiveProof.fromBytes b).run.Returns (.ok proof) →
          deser PoKOfSignatureG1Proof.decoder proof.proof = .ok p →
          proof.AcceptedButPairing H p (bindNonce S electionId nullifier signal) → p.aBar ≠ 0) ∧
    (∀ (proof : VoteProof S) (chainId electionId signal : Bytes),
      (verifyVoteProof H proof issuerPk chainId electionId signal).Returns false ↔
        ∀ o, proof.Opens issuerPk electionId o →
          proof.AcceptedButPairing o (H (proof.transcript o chainId electionId signal)) →
          o.bbs.aBar ≠ 0) := by
  refine ⟨?_, ?_, ?_⟩
  · intro proof nonce
    rw [returns_false_iff_not_true (meets_verifyProof H proof (Nat.le_add_right _ _)),
      verifyProof_zero_key_iff hkey]
    simp only [not_exists, not_and, ne_eq]
  · intro b electionId nullifier signal
    rw [verifyBoundProof,
      returns_false_iff_not_true (meets_verifyProofBytes H b (Nat.le_add_right _ _)),
      verifyProofBytes_returns_true_iff]
    simp only [verifyProof_zero_key_iff hkey, not_exists, not_and, ne_eq]
    exact ⟨fun h proof p hproof => h proof hproof p, fun h proof hproof p => h proof p hproof⟩
  · intro proof chainId electionId signal
    rw [returns_false_iff_not_true (meets_verifyVoteProof H proof issuerPk chainId electionId
      signal 0), verifyVoteProof_zero_key_iff hkey]
    simp only [not_exists, not_and, ne_eq]

def zeroKey : Bytes := smallSuite.g2Codec.ser 0

theorem crossProof_refused_under_zeroKey :
    (verifyProof smallOracle crossProof zeroKey []).Returns false := by
  refine ((identity_key_refused_iff smallOracle zeroKey (deser_point smallSuite.g2Codec 0)).1
    crossProof []).mpr ?_
  intro p hp _
  have hbody := PoKOfSignatureG1Proof.deser_ser (p := crossBbs) rfl rfl (show 3 < 2 ^ 64 by decide)
  cases hbody.symm.trans hp
  decide +kernel

def zeroKeyBbs : PoKOfSignatureG1Proof smallSuite :=
  { crossBbs with aBar := (0 : ZMod 7), d := (0 : ZMod 7) }

def zeroKeyProof : SelectiveProof := { crossProof with proof := zeroKeyBbs.ser }

def zeroKeyVote : VoteProof smallSuite :=
  { crossVote with
    bbsProof := zeroKeyBbs.ser
    dlProof := PokDiscreteLog.ser (S := smallSuite) ⟨SmallSuite.elem 2, (1 : ZMod 7)⟩ }

theorem zeroKey_accepted :
    deser (publicKeyDecoder smallSuite) zeroKey = .ok 0 ∧
      (verifyProof smallOracle zeroKeyProof zeroKey []).Returns true ∧
      (verifyBoundProof smallOracle zeroKeyProof.toBytes zeroKey [] (List.replicate 32 0)
        []).Returns true ∧
      (verifyVoteProof smallOracle zeroKeyVote zeroKey [] [2] []).Returns true := by
  refine ⟨deser_point smallSuite.g2Codec 0, ?_, ?_, ?_⟩ <;> decide +kernel

end PhiCrypto

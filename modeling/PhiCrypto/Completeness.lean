import PhiCrypto.Issuer
import PhiCrypto.SmallSuite

/-!
# Completeness of selective disclosure

A holder of a credential convinces every verifier: `derive_proof` succeeds, and
what it returns is accepted by `verify_proof_bytes`. The prover builds the
parameters, the map of revealed messages and the transcript from its claims, the
verifier from the bytes it receives; `messagesOf_provenClaims` is where the two
meet.
-/

namespace PhiCrypto

open MessageOrBlinding

variable {S : Suite}

/-! ### The proof of knowledge -/

section ProofOfKnowledge

variable {sig : SignatureG1 S} {params : SignatureParamsG1 S} {revealed : OrderedMap S.Fr}
  {mbs : List (MessageOrBlinding S.Fr)} {k : InitCoins S.Fr} {pk : S.G2}

/-- The randomised signature is a valid signature without `e`: `A'` paired with the key
    is `Ā` paired with the generator. -/
theorem protocolOf_pairing (k : InitCoins S.Fr)
    (hvalid : S.pairing sig.a pk
      + S.pairing (sig.e • sig.a - params.b (mbs.map message) sig.s) params.g2 = 0) :
    S.pairing (protocolOf sig params mbs k).aPrime pk
      + S.pairing (-(protocolOf sig params mbs k).aBar) params.g2 = 0 := by
  have haBar : -(protocolOf sig params mbs k).aBar
      = k.r1 • (sig.e • sig.a - params.b (mbs.map message) sig.s) := by
    simp only [protocolOf]
    module
  have haPrime : (protocolOf sig params mbs k).aPrime = k.r1 • sig.a := rfl
  rw [haBar, haPrime, map_smul, map_smul, LinearMap.smul_apply, LinearMap.smul_apply, ← smul_add,
    hvalid, smul_zero]

/-- The proof that a prover makes of a valid signature is accepted, for every challenge. -/
theorem proofOf_accepts (hmarks : Marks revealed 0 mbs) (hlen : mbs.length = params.h.length)
    (hk : k.Drawn (mbs.countP isRandom))
    (hmap : ∀ j m, revealed.get? j = some m → j < mbs.length → (mbs.map message)[j]? = some m)
    (hvalid : sig.verify (mbs.map message) pk params = .ok ()) (c : S.Fr) :
    (proofOf sig params mbs k c).Accepts revealed c pk params := by
  obtain ⟨-, -, ha, hpairing⟩ := SignatureG1.verify_eq_ok_iff.mp hvalid
  have hlengths : (protocolOf sig params mbs k).blindings2.length
      = (protocolOf sig params mbs k).scWits2.length := protocolOf_lengths hmarks hk
  refine ⟨smul_ne_zero hk.r1_ne_zero ha, ?_, ?_, protocolOf_pairing k hpairing⟩
  · have hcommit : msm [(protocolOf sig params mbs k).aPrime, params.h0]
        [k.blinding1, k.blinding2] = (protocolOf sig params mbs k).scComm1.t := by
      simp [protocolOf, PokPedersenCommitmentProtocol.init]
    have hfirst := msm_respond (c := c) (by rfl) hcommit
      (protocolOf_first_relation sig params mbs k)
    simp only [respond, List.zipWith_cons_cons, List.zipWith_nil_left, msm_cons, msm_nil_left,
      add_zero, neg_smul, ← sub_eq_add_neg] at hfirst
    exact hfirst
  · refine ⟨_, rfl, ?_, ?_⟩
    · rw [respond, List.length_zipWith, hlengths, Nat.min_self, protocolOf_scWits2 hmarks hk,
        PoKOfSignatureG1Proof.bases2, List.length_append, List.length_append,
        length_hiddenPart_eq revealed (show (mbs.map message).length = params.h.length by
          simpa using hlen)]
      rfl
    · exact msm_respond hlengths (protocolOf_t2 hmarks hlen hk).symm
        (protocolOf_second_relation sig hmarks hlen hk hmap)

end ProofOfKnowledge

/-! ### The revealed claims -/

section Revealed

variable {revealSet : OrderedMap Unit} {claims : List Bytes}

/-- A prover's claims and body make a well-formed proof. -/
theorem wellFormed_provenClaims (hne : claims ≠ []) (hcount : claims.length ≤ 64)
    (hshort : ∀ claim ∈ claims, claim.length < 2 ^ 32)
    (hkeys : ∀ i ∈ revealSet.keys, i < claims.length) {body : Bytes}
    (hbody : body.length < 2 ^ 32) :
    SelectiveProof.WellFormed
      ⟨UInt32.ofNat claims.length, body, provenClaims revealSet claims⟩ := by
  have hpos := List.length_pos_iff.mpr hne
  have hcount' : (UInt32.ofNat claims.length).toNat = claims.length := toNat_ofNat_of_le hcount
  refine ⟨hcount'.symm ▸ hpos, hcount'.symm ▸ hcount, provenClaims_increasing hkeys (by omega), ?_,
    hbody, provenClaims_short hkeys hshort⟩
  intro entry hentry
  obtain ⟨i, hi, rfl⟩ := mem_provenClaims hentry
  have hlt := hkeys i hi
  rw [UInt32.lt_iff_toNat_lt, hcount', toNat_ofNat_of_le (hlt.le.trans hcount)]
  exact hlt

end Revealed

/-! ### `derive_proof` -/

section Derived

variable {claims : List Bytes} {sig : SignatureG1 S} {revealSet : OrderedMap Unit} {pk : S.G2}
  {k : InitCoins S.Fr}

/-- What `derive_proof` makes of its coins is accepted. -/
theorem derivedProof_accepted (H : Bytes → S.Fr) (hne : claims ≠ []) (hcount : claims.length ≤ 64)
    (hkeys : ∀ i ∈ revealSet.keys, i < claims.length)
    (hvalid : sig.verify (claims.map (claimToFr S)) pk (paramsOf S claims.length) = .ok ())
    (nonce : Bytes)
    (hk : k.Drawn ((deriveMarks revealSet (claims.map (claimToFr S))).countP isRandom)) :
    ∃ p, deser PoKOfSignatureG1Proof.decoder
        (derivedProof H claims sig revealSet nonce k).proof = .ok p ∧
      (derivedProof H claims sig revealSet nonce k).Accepted H pk p nonce := by
  have hpos := List.length_pos_iff.mpr hne
  have hcount' : (UInt32.ofNat claims.length).toNat = claims.length := toNat_ofNat_of_le hcount
  have hmarks := marks_deriveMarks revealSet (claims.map (claimToFr S))
  have hmarks' : Marks (provenMessages revealSet (claims.map (claimToFr S))) 0
      (deriveMarks revealSet (claims.map (claimToFr S))) := marks_provenMessages hmarks
  have hmessage := deriveMarks_message revealSet (claims.map (claimToFr S))
  have hindices := revealedIndices_provenClaims hkeys (by omega)
  have hmessages := messagesOf_provenClaims (S := S) hkeys hcount
  refine ⟨_, deser_proofOf hmarks hk (by simpa using hcount) _, ?_⟩
  refine ⟨by simp only [derivedProof, hcount']; exact hpos,
    by simp only [derivedProof, hcount']; exact hcount, ?_, ?_, ?_⟩
  · intro i hi
    simp only [derivedProof, hindices, hcount'] at hi ⊢
    exact hkeys i hi
  · simp only [derivedProof, hindices]
    exact revealSet.keys_nodup
  · simp only [SelectiveProof.transcript, derivedProof, hmessages, hcount']
    refine proofOf_accepts hmarks' (by simp) hk ?_ (by rw [hmessage]; exact hvalid) _
    intro j m hget hj
    rw [hmessage]
    exact getElem?_of_get?_provenMessages hget (by simpa using hj)

theorem deriveProof_outcome_iff (H : Bytes → S.Fr) {signature : Bytes} {reveal : List Nat}
    (nonce : Bytes) (hne : claims ≠ []) (hcount : claims.length ≤ 64)
    (hsig : deser SignatureG1.decoder signature = .ok sig)
    (hkeys : ∀ i ∈ (OrderedMap.ofKeys reveal).keys, i < claims.length) (ω : Nat → S.Fr)
    (out : Except CryptoError SelectiveProof) :
    Rng.Outcome (deriveProof H claims signature reveal nonce).run ω out ↔
      ∃ k, Rng.Outcome (drawInitCoins ((deriveMarks (OrderedMap.ofKeys reveal)
          (claims.map (claimToFr S))).countP isRandom)) ω k ∧
        out = .ok (derivedProof H claims sig (OrderedMap.ofKeys reveal) nonce k) :=
  Rng.outcome_iff_of_run
    (f := fun k => Except.ok (derivedProof H claims sig (OrderedMap.ofKeys reveal) nonce k))
    (deriveProof_run H nonce hne hcount hsig hkeys)

end Derived

/-! ### Endless randomness -/

/-- `init` ends as soon as a draw for `r1` is not zero, and only then. -/
theorem exists_outcome_drawInitCoins_iff {F : Type} [Zero F] [DecidableEq F] (n : Nat)
    (ω : Nat → F) :
    (∃ k, Rng.Outcome (drawInitCoins n) ω k) ↔ ∃ i, n ≤ i ∧ ω i ≠ 0 := by
  constructor
  · rintro ⟨k, hout⟩
    obtain ⟨hk, hat⟩ := (lossless_drawInitCoins n).getElem?_write hout
    refine ⟨n + k.rejected, by omega, ?_⟩
    rw [hat (n + k.rejected) k.r1 ?_]
    · exact hk.r1_ne_zero
    · simp [InitCoins.tape, hk.blindings_length]
  · rintro ⟨i, hi, hne⟩
    -- the first non-zero value at or behind position `n` becomes `r1`
    have hexists : ∃ j, ω (n + j) ≠ 0 := ⟨i - n, by rwa [Nat.add_sub_cancel' hi]⟩
    let j := Nat.find hexists
    have hj : ω (n + j) ≠ 0 := Nat.find_spec hexists
    have hzero : (List.range j).map (fun i => ω (n + i)) = List.replicate j 0 := by
      refine List.eq_replicate_iff.mpr ⟨by simp, fun x hx => ?_⟩
      obtain ⟨i, hi, rfl⟩ := List.mem_map.mp hx
      exact not_not.mp (Nat.find_min hexists (List.mem_range.mp hi))
    refine ⟨⟨(List.range n).map ω, j, ω (n + j), ω (n + (j + 1)), ω (n + (j + 2)), ω (n + (j + 3)),
      ω (n + (j + 4)), ω (n + (j + 5))⟩, ?_⟩
    apply (lossless_drawInitCoins n).outcome (n := n + (j + 6)) ⟨by simp, hj⟩
    simp only [InitCoins.tape, List.range_add, List.map_append, List.map_map, Function.comp_def,
      hzero, List.append_assoc]
    rfl

/-- The number of blindings that are drawn, where the index decides on each message. -/
theorem countP_isRandom_zipIdx {F : Type} {f : F × Nat → MessageOrBlinding F} {q : Nat → Prop}
    [DecidablePred q] (hq : ∀ e, (f e).isRandom = decide (q e.2)) (xs : List F) :
    (xs.zipIdx.map f).countP isRandom = ((List.range xs.length).filter fun i => q i).length := by
  have hindices : xs.zipIdx.map Prod.snd = List.range xs.length := by
    rw [List.zipIdx_map_snd, List.range_eq_range']
  rw [List.countP_map, ← List.countP_eq_length_filter, ← hindices, List.countP_map]
  congr 1
  funext e
  exact hq e

/-- `derive_proof` draws a blinding for each hidden claim. -/
theorem countP_deriveMarks {reveal : List Nat} (messages : List S.Fr) :
    (deriveMarks (OrderedMap.ofKeys reveal) messages).countP isRandom
      = ((List.range messages.length).filter (· ∉ reveal)).length := by
  refine countP_isRandom_zipIdx ?_ messages
  intro e
  have hcontains : (OrderedMap.ofKeys reveal).contains e.2 = true ↔ e.2 ∈ reveal :=
    OrderedMap.contains_iff.trans OrderedMap.mem_keys_ofKeys
  by_cases h : e.2 ∈ reveal
  · simp [hcontains.mpr h, h, isRandom]
  · simp [hcontains, h, isRandom]

/-! ### The theorem -/

/-- **Completeness of selective disclosure.** For a credential that `sign_credential`
    issued with a point other than the identity and a reveal list of claim indices,
    `derive_proof` ends on every stream of random scalars that has a non-zero value
    where it draws `r1`. What it returns is a proof; this proof reveals the chosen
    claims in increasing order, and its bytes verify under the public key. -/
theorem selective_disclosure_complete (H : Bytes → S.Fr) (claims : List Bytes)
    (hpos : 1 ≤ claims.length) (hcount : claims.length ≤ 64)
    (hshort : ∀ claim ∈ claims, claim.length < 2 ^ 32)
    (pair : BbsKeyPair) (sk : S.Fr) (hpair : pair.Matching S sk)
    (credential : Bytes) (hsigned : Succeeds (signCredential (S := S) claims pair.secret) credential)
    (sig : SignatureG1 S) (hsig : deser SignatureG1.decoder credential = .ok sig)
    (ha : sig.a ≠ 0) (reveal : List Nat) (hreveal : ∀ i ∈ reveal, i < claims.length)
    (nonce : Bytes) (ω : Nat → S.Fr) :
    ((∃ out, Rng.Outcome (deriveProof H claims credential reveal nonce).run ω out) ↔
      ∃ i, ((List.range claims.length).filter (· ∉ reveal)).length ≤ i ∧ ω i ≠ 0) ∧
    ∀ out, Rng.Outcome (deriveProof H claims credential reveal nonce).run ω out →
      ∃ p, out = .ok p ∧
        p.revealed = ((List.range claims.length).filter (· ∈ reveal)).map
          (fun i => (UInt32.ofNat i, claims.getD i [])) ∧
        (verifyProofBytes H p.toBytes pair.publicKey nonce).Returns true := by
  have hne : claims ≠ [] := List.ne_nil_of_length_pos hpos
  have hkeys : ∀ i ∈ (OrderedMap.ofKeys reveal).keys, i < claims.length := by
    intro i hi
    exact hreveal i (OrderedMap.mem_keys_ofKeys.mp hi)
  have houtcome := deriveProof_outcome_iff H nonce hne hcount hsig hkeys ω
  constructor
  · have hhidden : _ = ((List.range (claims.map (claimToFr S)).length).filter (· ∉ reveal)).length :=
      countP_deriveMarks (claims.map (claimToFr S))
    rw [List.length_map] at hhidden
    rw [← hhidden, ← exists_outcome_drawInitCoins_iff]
    constructor
    · rintro ⟨out, hout⟩
      obtain ⟨k, hk, -⟩ := (houtcome out).mp hout
      exact ⟨k, hk⟩
    · rintro ⟨k, hk⟩
      exact ⟨_, (houtcome _).mpr ⟨k, hk, rfl⟩⟩
  · intro out hout
    obtain ⟨k, hk, rfl⟩ := (houtcome out).mp hout
    have hdrawn := ((lossless_drawInitCoins _).getElem?_write hk).1
    -- the signature is valid under the public key of the signer
    obtain ⟨sig', hser, hsigns⟩ := signs_of_signCredential hpair.secret_eq hsigned
    obtain rfl : sig' = sig := by
      rw [hser, SignatureG1.deser_ser] at hsig
      exact Except.ok.inj hsig
    have hvalid : sig'.verify (claims.map (claimToFr S))
        (generateUsingSecretKey sk (paramsOf S 1)) (paramsOf S claims.length) = .ok () :=
      hsigns.verifies (by simpa using hne) (by simp) ha
    obtain ⟨p, hp, haccepted⟩ := derivedProof_accepted H hne hcount hkeys hvalid nonce hdrawn
    refine ⟨_, rfl, ?_, ?_⟩
    · rw [← OrderedMap.keys_ofKeys hreveal]
      rfl
    · rw [verifyProofBytes_returns_true_iff]
      refine ⟨_, (SelectiveProof.fromBytes_returns_iff _ _).mpr ⟨?_, rfl⟩,
        (verifyProof_returns_true_iff _ _ _ _).mpr ⟨_, p, hpair.public_eq, hp, haccepted⟩⟩
      apply wellFormed_provenClaims hne hcount hshort hkeys
      exact proofOf_ser_short (marks_deriveMarks _ _) hdrawn (by simpa using hcount) _

/-- An issuer of the small suite. -/
def smallIssuer : BbsKeyPair where
  secret := smallSuite.serFr (SmallSuite.elem 4)
  publicKey := smallSuite.g2Codec.ser
    (generateUsingSecretKey (S := smallSuite) (SmallSuite.elem 4) (paramsOf smallSuite 1))

/-- Its signature on the claims `[4]` and `[5]`, for the draws 1 and 1. -/
def smallSignature : SignatureG1 smallSuite where
  a := SmallSuite.elem 4
  e := (1 : ZMod 7)
  s := (1 : ZMod 7)

/-- The second claim of a credential, named twice in the reveal list, is disclosed. -/
theorem selective_disclosure_complete_example :
    ∃ p, Rng.Outcome (deriveProof smallOracle [[4], [5]] smallSignature.ser [1, 1] [9]).run
        (fun _ => (1 : ZMod 7)) (.ok p) ∧
      p.revealed = [(1, [5])] ∧
      (verifyProofBytes smallOracle p.toBytes smallIssuer.publicKey [9]).Returns true := by
  have hsigned : Succeeds (signCredential (S := smallSuite) [[4], [5]] smallIssuer.secret)
      smallSignature.ser := ⟨[(1 : ZMod 7), (1 : ZMod 7)], [], by decide +kernel⟩
  have hpair : smallIssuer.Matching smallSuite (SmallSuite.elem 4) :=
    ⟨deser_secretKey _, deser_point smallSuite.g2Codec
      (generateUsingSecretKey (S := smallSuite) (SmallSuite.elem 4) (paramsOf smallSuite 1))⟩
  obtain ⟨hends, hgood⟩ := selective_disclosure_complete smallOracle [[4], [5]] (by decide)
    (by decide) (by decide) smallIssuer (SmallSuite.elem 4)
    hpair smallSignature.ser hsigned smallSignature
    smallSignature.deser_ser (by decide) [1, 1] (by decide) [9] (fun _ => (1 : ZMod 7))
  obtain ⟨out, hout⟩ := hends.mpr ⟨1, by decide, show (1 : ZMod 7) ≠ 0 by decide⟩
  obtain ⟨p, rfl, hrevealed, hverified⟩ := hgood out hout
  exact ⟨p, hout, hrevealed.trans (by decide), hverified⟩

end PhiCrypto

import PhiCrypto.NonMalleability

/-!
# What a proof body fixes

The challenge of a selective proof does not contain the issuer key, and the
claim count enters it only through the generators. Both are fixed by the body all
the same. The pairing equation has one solution for the key, because `A'` is not
the identity and the pairing is not degenerate. The second response vector has
one entry for every generator that is not revealed and two more, so its length
gives the count.
-/

namespace PhiCrypto

open Exec

variable {S : Suite}

namespace PoKOfSignatureG1Proof

variable {p : PoKOfSignatureG1Proof S} {revealed : OrderedMap S.Fr} {c c' : S.Fr} {pk pk' : S.G2}
  {n n' : Nat}

/-- The pairing equation has at most one key. The generator of `G2` does not depend on
    the claim count. -/
theorem Accepts.key_unique (h : p.Accepts revealed c pk (paramsOf S n))
    (h' : p.Accepts revealed c' pk' (paramsOf S n')) : pk = pk' := by
  have hsame : S.pairing p.aPrime pk = S.pairing p.aPrime pk' :=
    add_right_cancel (h.pairing.trans h'.pairing.symm)
  have hdiff : S.pairing p.aPrime (pk - pk') = 0 := by
    rw [map_sub, hsame, sub_self]
  rcases S.pairing_nondegenerate _ _ hdiff with hzero | hzero
  · exact absurd hzero h.aPrime_ne_zero
  · exact sub_eq_zero.mp hzero

/-- The number of responses is the claim count, less what is revealed, plus two. -/
theorem Accepts.responses_length (h : p.Accepts revealed c pk (paramsOf S n))
    (hkeys : ∀ k ∈ revealed.keys, k < n) :
    ∃ resp, p.scResp2 = some resp ∧ resp.length + revealed.length = n + 2 := by
  rcases h.second with ⟨resp, hresp, hlen, -⟩
  have hgenerators : ∀ k ∈ revealed.keys, k < (paramsOf S n).h.length := by
    rw [paramsOf_h_length]
    exact hkeys
  have hsplit := length_hiddenPart_add hgenerators
  rw [paramsOf_h_length] at hsplit
  refine ⟨resp, hresp, ?_⟩
  rw [hlen, bases2, List.length_append]
  simp only [List.length_cons, List.length_nil]
  omega

/-- All responses but two are for the hidden claims. -/
theorem Accepts.count_eq {entries : List (UInt32 × Bytes)}
    (h : p.Accepts (messagesOf S entries) c pk (paramsOf S n))
    (hdistinct : (revealedIndices entries).Nodup) (hrange : ∀ k ∈ revealedIndices entries, k < n) :
    ∃ resp, p.scResp2 = some resp ∧ n = entries.length + (resp.length - 2) := by
  obtain ⟨resp, hresp, hlen⟩ := h.responses_length fun k hk => hrange k (mem_keys_messagesOf.mp hk)
  have hle := length_revealed_le hdistinct hrange
  rw [length_messagesOf hdistinct] at hlen
  exact ⟨resp, hresp, by omega⟩

theorem Accepts.count_unique (h : p.Accepts revealed c pk (paramsOf S n))
    (h' : p.Accepts revealed c' pk' (paramsOf S n')) (hkeys : ∀ k ∈ revealed.keys, k < n)
    (hkeys' : ∀ k ∈ revealed.keys, k < n') : n = n' := by
  obtain ⟨resp, hresp, hlen⟩ := h.responses_length hkeys
  obtain ⟨resp', hresp', hlen'⟩ := h'.responses_length hkeys'
  cases hresp.symm.trans hresp'
  omega

end PoKOfSignatureG1Proof

/-- **Issuer and claim count.** A proof body with its revealed list is accepted for at
    most one claim count and at most one issuer key, whatever the nonces are; so is
    the body of a vote proof, whatever the chains, elections and signals are. -/
theorem body_fixes_issuer_and_count (H : Bytes → S.Fr) :
    (∀ (body : Bytes) (revealed : List (UInt32 × Bytes)) (count count' : UInt32)
      (issuerPk issuerPk' nonce nonce' : Bytes),
      (verifyProof H ⟨count, body, revealed⟩ issuerPk nonce).Returns true →
      (verifyProof H ⟨count', body, revealed⟩ issuerPk' nonce').Returns true →
      count = count' ∧ ∃ pk, deser (publicKeyDecoder S) issuerPk = .ok pk ∧
        deser (publicKeyDecoder S) issuerPk' = .ok pk) ∧
    (∀ (bbsProof dlProof : Bytes) (nullifier : S.G1) (revealed : List (UInt32 × Bytes))
      (count count' : UInt32)
      (issuerPk issuerPk' chainId chainId' electionId electionId' signal signal' : Bytes),
      (verifyVoteProof H ⟨count, revealed, bbsProof, dlProof, nullifier⟩ issuerPk chainId electionId
        signal).Returns true →
      (verifyVoteProof H ⟨count', revealed, bbsProof, dlProof, nullifier⟩ issuerPk' chainId'
        electionId' signal').Returns true →
      count = count' ∧ ∃ pk, deser (publicKeyDecoder S) issuerPk = .ok pk ∧
        deser (publicKeyDecoder S) issuerPk' = .ok pk) := by
  constructor
  · intro body revealed count count' issuerPk issuerPk' nonce nonce' h h'
    obtain ⟨pk, p, hpk, hp, hacc⟩ := (verifyProof_returns_true_iff _ _ _ _).mp h
    obtain ⟨pk', p', hpk', hp', hacc'⟩ := (verifyProof_returns_true_iff _ _ _ _).mp h'
    cases hp.symm.trans hp'
    have hcount := hacc.accepts.count_unique hacc'.accepts
      (fun k hk => hacc.in_range k (mem_keys_messagesOf.mp hk))
      (fun k hk => hacc'.in_range k (mem_keys_messagesOf.mp hk))
    cases hacc.accepts.key_unique hacc'.accepts
    exact ⟨UInt32.toNat_inj.mp hcount, pk, hpk, hpk'⟩
  · intro bbsProof dlProof nullifier revealed count count' issuerPk issuerPk' chainId chainId'
      electionId electionId' signal signal' h h'
    obtain ⟨o, hopen, hacc⟩ := (verifyVoteProof_returns_true_iff _ _ _ _ _ _).mp h
    obtain ⟨o', hopen', hacc'⟩ := (verifyVoteProof_returns_true_iff _ _ _ _ _ _).mp h'
    have hbbs : o'.bbs = o.bbs := Except.ok.inj (hopen'.bbs_eq.symm.trans hopen.bbs_eq)
    have hsecond := hacc'.bbs_accepts
    rw [hbbs] at hsecond
    have hcount := hacc.bbs_accepts.count_unique hsecond
      (fun k hk => (hacc.in_range k (mem_keys_messagesOf.mp hk)).2)
      (fun k hk => (hacc'.in_range k (mem_keys_messagesOf.mp hk)).2)
    have hkey := hacc.bbs_accepts.key_unique hsecond
    exact ⟨UInt32.toNat_inj.mp hcount, o.pk, hopen.pk_eq, hkey ▸ hopen'.pk_eq⟩

/-- The bodies that are accepted for two nonces, and in two elections, fix their count and
    key. -/
theorem crossProofs_fix_issuer_and_count :
    ((verifyProof smallOracle crossProof smallKey [0]).Returns true ∧
      (verifyProof smallOracle crossProof smallKey [1]).Returns true ∧
      ∃ pk, deser (publicKeyDecoder smallSuite) smallKey = .ok pk) ∧
    ((verifyVoteProof smallOracle crossVote smallKey [] [2] [0]).Returns true ∧
      (verifyVoteProof smallOracle crossVote smallKey [] [6] [0]).Returns true ∧
      ∃ pk, deser (publicKeyDecoder smallSuite) smallKey = .ok pk) := by
  obtain ⟨hselective, hvote⟩ := body_fixes_issuer_and_count smallOracle
  have hproof : (verifyProof smallOracle crossProof smallKey [0]).Returns true := by
    decide +kernel
  have hproof' : (verifyProof smallOracle crossProof smallKey [1]).Returns true := by
    decide +kernel
  have hballot : (verifyVoteProof smallOracle crossVote smallKey [] [2] [0]).Returns true := by
    decide +kernel
  have hballot' : (verifyVoteProof smallOracle crossVote smallKey [] [6] [0]).Returns true := by
    decide +kernel
  obtain ⟨-, pk, hpk, -⟩ := hselective _ _ _ _ _ _ _ _ hproof hproof'
  obtain ⟨-, pk', hpk', -⟩ := hvote _ _ _ _ _ _ _ _ _ _ _ _ _ _ hballot hballot'
  exact ⟨⟨hproof, hproof', pk, hpk⟩, hballot, hballot', pk', hpk'⟩

end PhiCrypto

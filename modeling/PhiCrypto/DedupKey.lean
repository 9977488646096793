import PhiCrypto.Ffi
import PhiCrypto.VoteSoundness
import PhiCrypto.VoteWire

/-!
# The nullifier argument as a deduplication key

The chain counts a vote by the bytes of the nullifier that it passes to
`phi_voting_verify_vote_v1`. An accepted call fixes these bytes: they are the one
encoding of the nullifier that the proof embeds. So two accepted calls have the
same key exactly when their proofs have the same nullifier, and for honest
proofs in one election exactly when the voter secret is the same.
-/

namespace PhiCrypto

open Exec

variable {S : Suite}

/-- The arguments of a call of `phi_voting_verify_vote_v1`. -/
structure VoteCall where
  proof : Region
  publicKey : Region
  chainId : Region
  electionId : Region
  nullifier : Region
  signal : Region

namespace VoteCall

def run (H : Bytes → S.Fr) (call : VoteCall) : Exec Event Int :=
  phiVotingVerifyVoteV1 H call.proof call.publicKey call.chainId call.electionId call.nullifier
    call.signal

/-- The proof bytes of the call decode to `p`. -/
def Embeds (call : VoteCall) (p : VoteProof S) : Prop :=
  ∃ b, asSlice call.proof = some b ∧ (VoteProof.fromBytes b).run.Returns (.ok p)

/-- What an accepted call has read and checked. -/
structure Accepted (H : Bytes → S.Fr) (call : VoteCall) (p : VoteProof S)
    (b pk chain election null sig : Bytes) : Prop where
  proof_eq : asSlice call.proof = some b
  publicKey_eq : asSlice call.publicKey = some pk
  chainId_eq : asSlice call.chainId = some chain
  electionId_eq : asSlice call.electionId = some election
  nullifier_eq : asSlice call.nullifier = some null
  signal_eq : asSlice call.signal = some sig
  decodes : (VoteProof.fromBytes b).run.Returns (.ok p)
  null_eq : null = S.g1Codec.ser p.nullifier
  verifies : (verifyVoteProof H p pk chain election sig).Returns true

end VoteCall

theorem VoteCall.accepted_of_returns_one {H : Bytes → S.Fr} {call : VoteCall}
    (h : (call.run H).Returns 1) :
    ∃ p b pk chain election null sig, call.Accepted H p b pk chain election null sig := by
  unfold run phiVotingVerifyVoteV1 guard at h
  split at h
  case h_2 => cases h
  case h_1 b pk chain election sig hproof hpk hchain helection hsignal =>
  split at h
  · cases h
  next null hnull =>
  split at h
  · cases h
  next hlen =>
  obtain ⟨res, hdecode, h⟩ := returns_bind_iff.mp h
  cases res with
  | error k => cases h
  | ok p =>
  dsimp only at h
  rw [VoteProof.nullifierBytes_eq] at h
  dsimp only at h
  split at h
  · cases h
  next heq =>
  exact ⟨p, b, pk, chain, election, null, sig, hproof, hpk, hchain, helection, hnull, hsignal,
    hdecode, not_not.mp heq, returns_one_iff.mp h⟩

namespace VoteCall

variable {H : Bytes → S.Fr} {call call' : VoteCall} {p p' : VoteProof S}
  {b pk chain election null sig b' pk' chain' election' null' sig' : Bytes}

theorem Embeds.unique (h : call.Embeds p) (h' : call.Embeds p') : p = p' := by
  rcases h with ⟨b, hb, hp⟩
  rcases h' with ⟨b', hb', hp'⟩
  cases hb.symm.trans hb'
  cases hp.unique hp'
  rfl

theorem Accepted.wellFormed (h : call.Accepted H p b pk chain election null sig) : p.WellFormed :=
  ((VoteProof.fromBytes_returns_iff b p).mp h.decodes).1

/-- The key is the encoding of the embedded nullifier, so equal keys mean equal
    nullifiers. -/
theorem Accepted.key_eq_iff (h : call.Accepted H p b pk chain election null sig)
    (h' : call'.Accepted H p' b' pk' chain' election' null' sig') :
    asSlice call.nullifier = asSlice call'.nullifier ↔ p.nullifier = p'.nullifier := by
  rw [h.nullifier_eq, h'.nullifier_eq, h.null_eq, h'.null_eq, Option.some.injEq]
  exact ⟨S.g1Codec.ser_injective, congrArg _⟩

/-- The nullifier can be read off the front of an encoding, whatever claims
    follow it. -/
theorem nullifier_eq_of_encoding_eq (hbbs : p.bbsProof.length < 2 ^ 32)
    (hdl : p.dlProof.length < 2 ^ 32) (hp' : p'.WellFormed) (h : p.encoding = p'.encoding) :
    p.nullifier = p'.nullifier := by
  have hbbs' := hp'.bbs_short
  have hdl' := hp'.dl_short
  simp only [VoteProof.encoding, List.append_assoc] at h
  obtain ⟨-, h⟩ := append_split (by simp) h
  obtain ⟨-, h⟩ := frame_append_split (by omega) (by omega) h
  obtain ⟨-, h⟩ := frame_append_split (by omega) (by omega) h
  obtain ⟨hnull, -⟩ := frame_append_split (by simp [S.g1Codec.ser_length])
    (by simp [S.g1Codec.ser_length]) h
  exact S.g1Codec.ser_injective hnull

end VoteCall

/-- A vote that `prove_vote` has made for these claims in this election, on the
    wire. -/
def ProvenBytes (S : Suite) (claims : List Bytes) (electionId b : Bytes) : Prop :=
  ∃ (H : Bytes → S.Fr) (signature issuerPublicKey chainId signal : Bytes) (reveal : List Nat)
    (p : VoteProof S), p.toBytes = .ok b ∧
      Succeeds (proveVote H claims signature issuerPublicKey reveal chainId electionId signal) p

/-- The bytes of an honest vote decode to a proof with its nullifier. -/
theorem nullifier_of_provenBytes {claims : List Bytes} {electionId b : Bytes} {p : VoteProof S}
    (h : ProvenBytes S claims electionId b) (hdecode : (VoteProof.fromBytes b).run.Returns (.ok p)) :
    ∃ hE, hashToG1 S electionId = .ok hE ∧ hE ≠ 0 ∧
      p.nullifier = claimToFr S (claims.getD voterSecretMsgIndex []) • hE := by
  rcases h with ⟨H, signature, issuerPublicKey, chainId, signal, reveal, proven, hbytes, hrun⟩
  obtain ⟨run⟩ := proveVote_inversion hrun
  obtain ⟨hwf, rfl⟩ := (VoteProof.fromBytes_returns_iff b p).mp hdecode
  rw [VoteProof.toBytes_eq, Except.ok.injEq] at hbytes
  have hnull := VoteCall.nullifier_eq_of_encoding_eq run.bbsProof_short run.dlProof_short hwf hbytes
  have hsecret : (claims.map (claimToFr S)).getD voterSecretMsgIndex 0
      = claimToFr S (claims.getD voterSecretMsgIndex []) := by
    have hpos := List.length_pos_iff.mpr run.inputs.claims_ne
    simp [List.getD, voterSecretMsgIndex, hpos]
  refine ⟨run.hE, run.hE_eq, ?_, ?_⟩
  · intro hzero
    exact run.nullifier_ne_zero (by rw [hzero, smul_zero])
  · rw [← hnull, run.nullifier_eq, hsecret]

/-- **The deduplication key.** The nullifier argument of an accepted call is the one
    48-byte encoding of the non-identity nullifier embedded in the proof, which
    `verify_vote` accepts. Keys of accepted calls are equal exactly when the
    embedded nullifiers are, and on honest votes of one election exactly when the
    voter secrets have the same field image. -/
theorem vote_dedup_key (H : Bytes → S.Fr) :
    (∀ call : VoteCall, (call.run H).Returns 1 →
      ∃ (p : VoteProof S) (b pk chain election null sig : Bytes),
        call.Accepted H p b pk chain election null sig ∧ p.nullifier ≠ 0 ∧
        (null.length = 48 ∧ S.g1Codec.de null = some p.nullifier ∧
          ∀ x : Bytes, x.length = 48 → S.g1Codec.de x = some p.nullifier → x = null) ∧
        (verifyVote H b pk chain election sig).Returns true) ∧
    (∀ (call call' : VoteCall) (p p' : VoteProof S), (call.run H).Returns 1 →
      (call'.run H).Returns 1 → call.Embeds p → call'.Embeds p' →
      (asSlice call.nullifier = asSlice call'.nullifier ↔ p.nullifier = p'.nullifier)) ∧
    (∀ (call call' : VoteCall) (claims claims' : List Bytes) (electionId b b' : Bytes),
      (call.run H).Returns 1 → (call'.run H).Returns 1 →
      asSlice call.proof = some b → asSlice call'.proof = some b' →
      ProvenBytes S claims electionId b → ProvenBytes S claims' electionId b' →
      (asSlice call.nullifier = asSlice call'.nullifier ↔
        claimToFr S (claims.getD voterSecretMsgIndex [])
          = claimToFr S (claims'.getD voterSecretMsgIndex []))) := by
  refine ⟨?_, ?_, ?_⟩
  · intro call hcall
    obtain ⟨p, b, pk, chain, election, null, sig, h⟩ := VoteCall.accepted_of_returns_one hcall
    have hne := h.wellFormed.nullifier_ne_zero
    refine ⟨p, b, pk, chain, election, null, sig, h, hne, ⟨?_, ?_, ?_⟩, ?_⟩
    · rw [h.null_eq, S.g1Codec.ser_length]
    · rw [h.null_eq, S.g1Codec.de_ser]
    · intro x hx hde
      rw [h.null_eq]
      exact S.g1Codec.canonical hx hde hne
    · exact (verifyVote_returns_true_iff H b pk chain election sig).mpr ⟨p, h.decodes, h.verifies⟩
  · intro call call' p p' hcall hcall' hp hp'
    obtain ⟨q, b, pk, chain, election, null, sig, h⟩ := VoteCall.accepted_of_returns_one hcall
    obtain ⟨q', b', pk', chain', election', null', sig', h'⟩ :=
      VoteCall.accepted_of_returns_one hcall'
    cases hp.unique ⟨b, h.proof_eq, h.decodes⟩
    cases hp'.unique ⟨b', h'.proof_eq, h'.decodes⟩
    exact h.key_eq_iff h'
  · intro call call' claims claims' electionId b b' hcall hcall' hb hb' hproven hproven'
    obtain ⟨p, _, pk, chain, election, null, sig, h⟩ := VoteCall.accepted_of_returns_one hcall
    obtain ⟨p', _, pk', chain', election', null', sig', h'⟩ :=
      VoteCall.accepted_of_returns_one hcall'
    cases hb.symm.trans h.proof_eq
    cases hb'.symm.trans h'.proof_eq
    obtain ⟨hE, hhE, hne, hnull⟩ := nullifier_of_provenBytes hproven h.decodes
    obtain ⟨hE', hhE', -, hnull'⟩ := nullifier_of_provenBytes hproven' h'.decodes
    cases hhE.symm.trans hhE'
    rw [h.key_eq_iff h', hnull, hnull']
    exact (smul_left_injective S.Fr hne).eq_iff

/-- The call for a vote proof, with its own nullifier. -/
def VoteCall.ofProof (p : VoteProof S) (publicKey chainId electionId signal : Bytes) : VoteCall where
  proof := Region.of p.encoding
  publicKey := Region.of publicKey
  chainId := Region.of chainId
  electionId := Region.of electionId
  nullifier := Region.of (S.g1Codec.ser p.nullifier)
  signal := Region.of signal

/-- The vote of the small fork whose challenge is that of `smallOracle` for the signal `[1]`. -/
def revealingVote : VoteProof smallSuite := smallVote (SmallSuite.elem 2)

/-- A vote for the claims `[0]`, `[4]` and `[2]` that reveals nothing. -/
def hidingVote : VoteProof smallSuite where
  nullifier := SmallSuite.elem 5
  messageCount := 3
  revealed := []
  bbsProof := PoKOfSignatureG1Proof.ser (S := smallSuite)
    { aPrime := SmallSuite.elem 6
      aBar := SmallSuite.elem 4
      d := SmallSuite.elem 2
      scResp1 := ⟨SmallSuite.elem 4, SmallSuite.elem 6, SmallSuite.elem 6⟩
      t2 := SmallSuite.elem 3
      scResp2 := some [SmallSuite.elem 0, SmallSuite.elem 2, SmallSuite.elem 6, SmallSuite.elem 0,
        SmallSuite.elem 6]
      scPartialResp2 := none }
  dlProof := PokDiscreteLog.ser (S := smallSuite) ⟨SmallSuite.elem 2, SmallSuite.elem 0⟩

/-- Two votes of one voter in one election, with different credentials, are counted once. -/
theorem smallVotes_share_key :
    ((VoteCall.ofProof revealingVote smallKey [] [] [1]).run smallOracle).Returns 1 ∧
      ((VoteCall.ofProof hidingVote smallKey [] [] [2]).run smallOracle).Returns 1 ∧
      ProvenBytes smallSuite [[0], [4], [1]] [] revealingVote.encoding ∧
      ProvenBytes smallSuite [[0], [4], [2]] [] hidingVote.encoding ∧
      asSlice (VoteCall.ofProof revealingVote smallKey [] [] [1]).nullifier
        = asSlice (VoteCall.ofProof hidingVote smallKey [] [] [2]).nullifier := by
  have hone : ((VoteCall.ofProof revealingVote smallKey [] [] [1]).run smallOracle).Returns 1 := by
    decide +kernel
  have hone' : ((VoteCall.ofProof hidingVote smallKey [] [] [2]).run smallOracle).Returns 1 := by
    decide +kernel
  have hproven : ProvenBytes smallSuite [[0], [4], [1]] [] revealingVote.encoding :=
    ⟨smallOracle, (SignatureG1.mk (S := smallSuite) (6 : ZMod 7) (0 : ZMod 7) (0 : ZMod 7)).ser,
      smallKey, [], [1], [1], revealingVote, rfl, [1, 2, 3, 4, 5, 6, 1, 2, 3].map SmallSuite.elem, [],
      by decide +kernel⟩
  have hproven' : ProvenBytes smallSuite [[0], [4], [2]] [] hidingVote.encoding :=
    ⟨smallOracle, (SignatureG1.mk (S := smallSuite) (3 : ZMod 7) (0 : ZMod 7) (0 : ZMod 7)).ser,
      smallKey, [], [2], [], hidingVote, rfl, [6, 5, 4, 3, 2, 1, 6, 5, 4, 3].map SmallSuite.elem, [],
      by decide +kernel⟩
  refine ⟨hone, hone', hproven, hproven', ?_⟩
  exact ((vote_dedup_key smallOracle).2.2 _ _ _ _ _ _ _ hone hone' (asSlice_of _) (asSlice_of _)
    hproven hproven').mpr rfl

end PhiCrypto

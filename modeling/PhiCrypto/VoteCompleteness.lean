import PhiCrypto.Completeness
import PhiCrypto.DedupKey
import PhiCrypto.Unlinkability

/-!
# Completeness of anonymous voting

A voter with a valid credential can vote: `prove_vote` succeeds unless the
nullifier is the identity or the challenge is zero, and
`phi_voting_verify_vote_v1` returns 1 for what it made. The two halves of a vote
proof answer one challenge with one blinding for the voter secret, so their
responses agree (`VoteRun.same_response`).
-/

namespace PhiCrypto

open Exec MessageOrBlinding

variable {S : Suite}

/-! ### The vote is accepted -/

namespace VoteRun

variable {H : Bytes → S.Fr} {claims : List Bytes} {signature issuerPublicKey : Bytes}
  {reveal : List Nat} {chainId electionId signal : Bytes} {p : VoteProof S}
  (run : VoteRun H claims signature issuerPublicKey reveal chainId electionId signal p)

/-- The inner proofs of the vote, as the prover made them. -/
def opened : OpenedVote S where
  pk := run.pk
  bbs := proofOf run.sig (paramsOf S claims.length)
    (voteMarks (OrderedMap.ofKeys reveal) run.coins.r0 (claims.map (claimToFr S)))
    run.coins.init run.challenge
  dl :=
    { t := run.coins.r0 • run.hE
      response := run.coins.r0
        + (claims.map (claimToFr S)).getD voterSecretMsgIndex 0 * run.challenge }
  hE := run.hE

theorem marks : Marks (OrderedMap.ofKeys reveal) 0
    (voteMarks (OrderedMap.ofKeys reveal) run.coins.r0 (claims.map (claimToFr S))) :=
  marks_voteMarks _ run.inputs.secret_hidden run.coins.r0

theorem drawn_marks : run.coins.init.Drawn ((voteMarks (OrderedMap.ofKeys reveal) run.coins.r0
    (claims.map (claimToFr S))).countP isRandom) := by
  rw [countP_voteMarks _ run.coins.r0 0]
  exact run.drawn

theorem opens : p.Opens issuerPublicKey electionId run.opened where
  pk_eq := run.inputs.pk_eq
  bbs_eq := by
    rw [congrArg VoteProof.bbsProof run.proof_eq]
    exact deser_proofOf run.marks run.drawn_marks (by simpa using run.inputs.count_le) _
  dl_eq := by
    rw [congrArg VoteProof.dlProof run.proof_eq]
    exact PokDiscreteLog.deser_ser _
  hE_eq := run.hE_eq

include run in
theorem messagesOf_revealed : messagesOf S p.revealed
    = provenMessages (OrderedMap.ofKeys reveal) (claims.map (claimToFr S)) := by
  rw [congrArg VoteProof.revealed run.proof_eq]
  exact messagesOf_provenClaims run.inputs.reveal_lt run.inputs.count_le

/-- The verifier computes the challenge that the prover answered. -/
theorem transcript_eq :
    H (p.transcript run.opened chainId electionId signal) = run.challenge ∧ run.challenge ≠ 0 := by
  obtain ⟨hchallenge, hne⟩ := computeChallenge_eq_ok_iff.mp run.challenge_eq
  refine ⟨?_, hne⟩
  rw [hchallenge, VoteProof.transcript, run.messagesOf_revealed, run.messageCount_toNat,
    run.nullifier_eq, congrArg VoteProof.messageCount run.proof_eq]
  rfl

/-- The voter secret is hidden at position 0 of the second relation, under the blinding
    of the discrete-logarithm proof. -/
theorem same_response :
    ∃ resp, run.opened.bbs.scResp2 = some resp ∧ resp[0]? = some run.opened.dl.response := by
  refine ⟨_, rfl, ?_⟩
  obtain ⟨claim, claims', rfl⟩ := List.exists_cons_of_ne_nil run.inputs.claims_ne
  rfl

theorem accepted (hvalid : run.sig.verify (claims.map (claimToFr S)) run.pk
      (paramsOf S claims.length) = .ok ()) :
    p.Accepted run.opened run.challenge := by
  have hcount := run.messageCount_toNat
  have hindices : revealedIndices p.revealed = (OrderedMap.ofKeys reveal).keys := by
    rw [congrArg VoteProof.revealed run.proof_eq]
    exact revealedIndices_provenClaims run.inputs.reveal_lt (run.inputs.count_le.trans (by decide))
  have hmessage : (voteMarks (OrderedMap.ofKeys reveal) run.coins.r0
      (claims.map (claimToFr S))).map message = claims.map (claimToFr S) := voteMarks_message _ _
  refine ⟨?_, ?_, run.nullifier_eq ▸ run.nullifier_ne_zero, ?_, ?_, run.transcript_eq.2, ?_, ?_,
    run.same_response⟩
  · rw [hcount]
    exact List.length_pos_iff.mpr run.inputs.claims_ne
  · rw [hcount]
    exact run.inputs.count_le
  · intro k hk
    rw [hindices] at hk
    rw [hcount]
    refine ⟨Nat.one_le_iff_ne_zero.mpr ?_, run.inputs.reveal_lt k hk⟩
    rintro rfl
    exact Bool.false_ne_true (run.inputs.secret_hidden.symm.trans (OrderedMap.contains_iff.mpr hk))
  · rw [hindices]
    exact OrderedMap.keys_nodup _
  · rw [run.messagesOf_revealed, hcount]
    refine proofOf_accepts (marks_provenMessages run.marks) (by simp) run.drawn_marks ?_
      (by rw [hmessage]; exact hvalid) _
    intro j m hget hj
    rw [hmessage]
    exact getElem?_of_get?_provenMessages hget (by simpa using hj)
  · rw [run.nullifier_eq]
    change (run.coins.r0 + _ * run.challenge) • run.hE - run.challenge • (_ • run.hE)
      = run.coins.r0 • run.hE
    module

end VoteRun

/-! ### The export returns 1 -/

theorem phiVotingVerifyVoteV1_of {H : Bytes → S.Fr} {p : VoteProof S}
    {issuerPk chainId electionId signal : Bytes} (hp : p.WellFormed)
    (hverify : (verifyVoteProof H p issuerPk chainId electionId signal).Returns true) :
    (phiVotingVerifyVoteV1 H (Region.of p.encoding) (Region.of issuerPk) (Region.of chainId)
      (Region.of electionId) (Region.of (S.g1Codec.ser p.nullifier)) (Region.of signal)).Returns
        1 := by
  have hlen : ¬ (S.g1Codec.ser p.nullifier).length ≠ nullifierPointLen :=
    not_not.mpr (S.g1Codec.ser_length _)
  unfold phiVotingVerifyVoteV1 guard
  simp only [asSlice_of]
  rw [if_neg hlen, returns_bind_iff]
  refine ⟨.ok p, (VoteProof.fromBytes_returns_iff _ p).mpr ⟨hp, rfl⟩, ?_⟩
  dsimp only
  rw [VoteProof.nullifierBytes_eq]
  dsimp only
  rw [if_neg (not_not.mpr rfl), returns_bind_iff]
  exact ⟨true, hverify, rfl⟩

/-! ### The draws of `prove_vote` -/

theorem countP_voteMarks_eq {reveal : List Nat} (r0 : S.Fr) (messages : List S.Fr) :
    (voteMarks (OrderedMap.ofKeys reveal) r0 messages).countP isRandom
      = ((List.range messages.length).filter fun i => i ≠ 0 ∧ i ∉ reveal).length := by
  refine countP_isRandom_zipIdx ?_ messages
  intro e
  have hcontains : (OrderedMap.ofKeys reveal).contains e.2 = true ↔ e.2 ∈ reveal :=
    OrderedMap.contains_iff.trans OrderedMap.mem_keys_ofKeys
  by_cases hzero : e.2 = voterSecretMsgIndex
  · rw [if_pos hzero]
    simp [isRandom, show e.2 = 0 from hzero]
  · have hne : e.2 ≠ 0 := hzero
    rw [if_neg hzero]
    by_cases h : e.2 ∈ reveal
    · simp [hcontains.mpr h, h, isRandom]
    · simp [hcontains, h, hne, isRandom]

theorem exists_outcome_drawVoteCoins_iff {F : Type} [Zero F] [DecidableEq F] (n : Nat)
    (ω : Nat → F) :
    (∃ k, Rng.Outcome (drawVoteCoins n) ω k) ↔ ∃ i, n + 2 ≤ i ∧ ω i ≠ 0 := by
  have hinit : (∃ k, Rng.Outcome (drawVoteCoins n) ω k) ↔
      ∃ k, Rng.Outcome (drawInitCoins n) (fun i => ω (i + 1 + 1)) k := by
    have hcoins : ∀ k, Rng.Outcome (drawVoteCoins n) ω k ↔
        ∃ init, Rng.Outcome (drawInitCoins n) (fun i => ω (i + 1 + 1)) init ∧
          k = ⟨ω 0, ω 1, init⟩ := by
      intro k
      rw [drawVoteCoins, Rng.outcome_draw_bind_iff, Rng.outcome_draw_bind_iff]
      refine Rng.outcome_iff_of_run fun tape => ?_
      rw [Rng.bind_apply]
      cases drawInitCoins n tape <;> rfl
    constructor
    · rintro ⟨k, hk⟩
      obtain ⟨init, hinit, -⟩ := (hcoins k).mp hk
      exact ⟨init, hinit⟩
    · rintro ⟨init, hinit⟩
      exact ⟨_, (hcoins _).mpr ⟨init, hinit, rfl⟩⟩
  rw [hinit, exists_outcome_drawInitCoins_iff]
  constructor
  · rintro ⟨i, hi, hne⟩
    exact ⟨i + 2, by omega, hne⟩
  · rintro ⟨i, hi, hne⟩
    obtain ⟨j, rfl⟩ := Nat.exists_eq_add_of_le hi
    exact ⟨n + j, by omega, by rwa [show n + j + 1 + 1 = n + 2 + j by omega]⟩

/-! ### The theorem -/

section Theorem

variable {pk : S.G2} (cred : Credential S pk) (reveal : List Nat)

/-- The number of claims, other than the voter secret, that a vote does not reveal. -/
def Credential.hiddenClaims : Nat :=
  ((List.range cred.claims.length).filter fun i => i ≠ 0 ∧ i ∉ reveal).length

/-- The challenge that `prove_vote` derives with the coins `k`. -/
def Credential.voteChallenge (H : Bytes → S.Fr) (hE : S.G1) (chainId electionId signal : Bytes)
    (k : VoteCoins S.Fr) : S.Fr :=
  cred.voteHash H pk hE chainId electionId signal k.r0
    ((protocolOf cred.sig (paramsOf S cred.claims.length)
      (voteMarks (OrderedMap.ofKeys reveal) k.r0 cred.messages) k.init).contribution
        (provenMessages (OrderedMap.ofKeys reveal) cred.messages) (paramsOf S cred.claims.length))

variable {cred reveal}

/-- With a valid credential and hidden voter secret, `prove_vote` computes on its coins. -/
theorem Credential.proveVote_outcome_iff (H : Bytes → S.Fr) {issuerPk : Bytes}
    (hpk : deser (publicKeyDecoder S) issuerPk = .ok pk)
    (hreveal : ∀ i ∈ reveal, i ≠ 0 ∧ i < cred.claims.length) (chainId signal : Bytes)
    {electionId : Bytes} {hE : S.G1} (hhE : hashToG1 S electionId = .ok hE)
    (hnull : cred.voterSecret • hE ≠ 0) (ω : Nat → S.Fr) (out : Except CryptoError (VoteProof S)) :
    Rng.Outcome (proveVote H cred.claims cred.signature issuerPk reveal chainId electionId
        signal).run ω out ↔
      ∃ k, Rng.Outcome (drawVoteCoins (cred.hiddenClaims reveal)) ω k ∧
        out = provenVote H cred.claims cred.sig pk (OrderedMap.ofKeys reveal) hE chainId electionId
          signal k := by
  have hrange : ¬ ∃ i ∈ (OrderedMap.ofKeys reveal).keys, i ≥ cred.claims.length := by
    rintro ⟨i, hi, hge⟩
    have hlt := (hreveal i (OrderedMap.mem_keys_ofKeys.mp hi)).2
    omega
  have hhidden : (OrderedMap.ofKeys reveal).contains voterSecretMsgIndex = false := by
    rw [Bool.eq_false_iff, ne_eq, OrderedMap.contains_iff, OrderedMap.mem_keys_ofKeys]
    exact fun h => (hreveal 0 h).1 rfl
  have hcount : (voteMarks (OrderedMap.ofKeys reveal) 0 cred.messages).countP isRandom
      = cred.hiddenClaims reveal := by
    rw [countP_voteMarks_eq, List.length_map]
    rfl
  rw [cred.proveVote_eq, rejectIf_false_bind hrange, rejectIf_false_bind (by simp [hhidden]), hpk,
    liftExcept_ok_bind, ← hcount]
  exact Rng.outcome_iff_of_run (proveOpened_run H cred.sig pk chainId signal hhidden hhE
    (cred.getD_messages_zero ▸ hnull))

/-- A reveal list with the voter secret or an index that is no claim is refused before
    anything is drawn. -/
theorem Credential.proveVote_refuses (cred : Credential S pk) (H : Bytes → S.Fr) (issuerPk : Bytes)
    (hbad : 0 ∈ reveal ∨ ∃ i ∈ reveal, cred.claims.length ≤ i) (chainId electionId signal : Bytes) :
    ∃ e, proveVote H cred.claims cred.signature issuerPk reveal chainId electionId signal
      = throw e := by
  rw [cred.proveVote_eq]
  by_cases hrange : ∃ i ∈ (OrderedMap.ofKeys reveal).keys, i ≥ cred.claims.length
  · exact ⟨revealOutOfRange, rejectIf_true_bind hrange _ _⟩
  have hzero : 0 ∈ reveal := by
    refine hbad.resolve_right ?_
    rintro ⟨i, hi, hge⟩
    exact hrange ⟨i, OrderedMap.mem_keys_ofKeys.mpr hi, hge⟩
  have hcontains : (OrderedMap.ofKeys reveal).contains voterSecretMsgIndex = true :=
    OrderedMap.contains_iff.mpr (OrderedMap.mem_keys_ofKeys.mpr hzero)
  rw [rejectIf_false_bind hrange]
  exact ⟨voterSecretRevealed, rejectIf_true_bind hcontains _ _⟩

end Theorem

/-- **Completeness of anonymous voting.** For a valid credential, a reveal list of
    claims other than the voter secret and a nullifier other than the identity,
    `prove_vote` reads its coins off every stream of random scalars that has a
    non-zero value where `r1` is drawn. Unless the challenge of these coins is zero,
    it returns a vote proof, and the export returns 1 for its bytes and its nullifier.
    Any other reveal list is refused. -/
theorem anonymous_voting_complete (H : Bytes → S.Fr) {pk : S.G2} (cred : Credential S pk)
    (hshort : ∀ claim ∈ cred.claims, claim.length < 2 ^ 32) (issuerPk : Bytes)
    (hpk : deser (publicKeyDecoder S) issuerPk = .ok pk) (reveal : List Nat)
    (chainId electionId signal : Bytes) :
    ((∀ i ∈ reveal, i ≠ 0 ∧ i < cred.claims.length) →
      ∀ hE, hashToG1 S electionId = .ok hE → cred.voterSecret • hE ≠ 0 → ∀ ω : Nat → S.Fr,
        ((∃ k, Rng.Outcome (drawVoteCoins (cred.hiddenClaims reveal)) ω k) ↔
          ∃ i, cred.hiddenClaims reveal + 2 ≤ i ∧ ω i ≠ 0) ∧
        ∀ k, Rng.Outcome (drawVoteCoins (cred.hiddenClaims reveal)) ω k →
          cred.voteChallenge reveal H hE chainId electionId signal k ≠ 0 →
          ∃ p bytes nullifier,
            (∀ out, Rng.Outcome (proveVote H cred.claims cred.signature issuerPk reveal chainId
              electionId signal).run ω out ↔ out = .ok p) ∧
            p.toBytes = .ok bytes ∧ p.nullifierBytes = .ok nullifier ∧
            (phiVotingVerifyVoteV1 H (Region.of bytes) (Region.of issuerPk) (Region.of chainId)
              (Region.of electionId) (Region.of nullifier) (Region.of signal)).Returns 1) ∧
    ((0 ∈ reveal ∨ ∃ i ∈ reveal, cred.claims.length ≤ i) →
      ∀ tape, ∃ e, (proveVote H cred.claims cred.signature issuerPk reveal chainId electionId
        signal).run tape = some (.error e, tape)) := by
  constructor
  · intro hreveal hE hhE hnull ω
    refine ⟨exists_outcome_drawVoteCoins_iff _ ω, fun k hk hchallenge => ?_⟩
    have houtcome := Credential.proveVote_outcome_iff H hpk hreveal chainId signal hhE hnull ω
    have hproven : provenVote H cred.claims cred.sig pk (OrderedMap.ofKeys reveal) hE chainId
        electionId signal k = .ok (voteOf cred.claims cred.sig (OrderedMap.ofKeys reveal) hE k
          (cred.voteChallenge reveal H hE chainId electionId signal k)) := by
      refine provenVote_eq_ok_iff.mpr ⟨_, ?_, rfl⟩
      refine computeChallenge_eq_ok_iff.mpr ⟨?_, hchallenge⟩
      rw [cred.getD_messages_zero]
      rfl
    have hrun : Rng.Outcome (proveVote H cred.claims cred.signature issuerPk reveal chainId
        electionId signal).run ω (.ok _) := (houtcome _).mpr ⟨k, hk, hproven.symm⟩
    obtain ⟨n, rest, htape⟩ := hrun
    obtain ⟨run⟩ := proveVote_inversion ⟨_, rest, htape⟩
    have hsig : run.sig = cred.sig := Except.ok.inj (run.inputs.sig_eq.symm.trans cred.decodes)
    have hkey : run.pk = pk := Except.ok.inj (run.inputs.pk_eq.symm.trans hpk)
    have haccepted := run.accepted (by rw [hsig, hkey]; exact cred.verifies)
    refine ⟨_, _, _, fun out => ?_, VoteProof.toBytes_eq _, VoteProof.nullifierBytes_eq _,
      phiVotingVerifyVoteV1_of (run.wellFormed hshort)
        ((verifyVoteProof_returns_true_iff _ _ _ _ _ _).mpr
          ⟨run.opened, run.opens, run.transcript_eq.1 ▸ haccepted⟩)⟩
    rw [houtcome]
    constructor
    · rintro ⟨k', hk', rfl⟩
      rw [(lossless_drawVoteCoins _).outcome_unique hk' hk, hproven]
    · rintro rfl
      exact ⟨k, hk, hproven.symm⟩
  · intro hbad tape
    obtain ⟨e, he⟩ := cred.proveVote_refuses H issuerPk hbad chainId electionId signal
    exact ⟨e, by rw [he]; rfl⟩

/-- The key that `smallCredential` is signed under. -/
def credentialKey : Bytes := smallSuite.g2Codec.ser (SmallSuite.elem 4)

def votingCredential : Credential smallSuite (SmallSuite.elem 4) :=
  smallCredential 1 (SmallSuite.elem 6) (by decide +kernel)

/-- A vote with a credential of three claims, the second of them revealed. -/
theorem smallCredential_votes :
    ∃ (p : VoteProof smallSuite) (bytes nullifier : Bytes),
      Rng.Outcome (proveVote smallOracle [[0], [4], [1]] votingCredential.signature credentialKey [1]
        [] [] [1]).run (fun _ => (1 : ZMod 7)) (.ok p) ∧
      p.toBytes = .ok bytes ∧ p.nullifierBytes = .ok nullifier ∧
      (phiVotingVerifyVoteV1 smallOracle (Region.of bytes) (Region.of credentialKey) (Region.of [])
        (Region.of []) (Region.of nullifier) (Region.of [1])).Returns 1 := by
  let hE : smallSuite.G1 := SmallSuite.point (externalNullifier smallSuite [])
  let init : InitCoins smallSuite.Fr :=
    ⟨[(1 : ZMod 7)], 0, (1 : ZMod 7), (1 : ZMod 7), (1 : ZMod 7), (1 : ZMod 7), (1 : ZMod 7),
      (1 : ZMod 7)⟩
  let k : VoteCoins smallSuite.Fr := ⟨(1 : ZMod 7), (1 : ZMod 7), init⟩
  have hk : Rng.Outcome (drawVoteCoins (votingCredential.hiddenClaims [1]))
      (fun _ => (1 : ZMod 7)) k := ⟨9, [], rfl⟩
  obtain ⟨p, bytes, nullifier, hout, hbytes, hnullifier, hone⟩ :=
    ((anonymous_voting_complete smallOracle votingCredential (by decide) credentialKey
      (deser_point smallSuite.g2Codec (SmallSuite.elem 4)) [1] [] [] [1]).1 (by decide) hE rfl
        (by decide +kernel) (fun _ => (1 : ZMod 7))).2 k hk (by decide +kernel)
  exact ⟨p, bytes, nullifier, (hout _).mpr rfl, hbytes, hnullifier, hone⟩

end PhiCrypto

import PhiCrypto.Selective
import PhiCrypto.VoteProofWire

/-!
# Verifying vote proofs

`voting_snark::verify_inner` and its entry points. A vote proof composes a
BBS+ proof of knowledge with a discrete-logarithm proof for the nullifier; the
two are linked by comparing one response. `VoteProof.Accepted` states what an
accepted vote proof satisfies.
-/

namespace PhiCrypto

open Exec

variable {S : Suite}

/-- The loop of `verify_inner` that rebuilds the revealed set and the message map. -/
def collectVoteRevealed (S : Suite) (messageCount : UInt32) :
    List (UInt32 × Bytes) → OrderedMap Unit → OrderedMap S.Fr →
      Except CryptoError (OrderedMap Unit × OrderedMap S.Fr)
  | [], revealIds, revealedMsgs => .ok (revealIds, revealedMsgs)
  | (idx, bytes) :: rest, revealIds, revealedMsgs =>
    let i := idx.toNat
    if i = voterSecretMsgIndex ∨ i ≥ messageCount.toNat then
      .error (.invalidInput "revealed index invalid")
    else if revealIds.contains i then .error (.invalidInput "duplicate revealed index")
    else
      collectVoteRevealed S messageCount rest (revealIds.insert i ())
        (revealedMsgs.insert i (claimToFr S bytes))

def computeChallenge (H : Bytes → S.Fr) (bbsContribution dlContribution : Bytes)
    (messageCount : UInt32) (issuerPk chainId electionId nullifierBytes signal : Bytes) :
    Except CryptoError S.Fr := do
  let c := H (voteTranscript S bbsContribution dlContribution messageCount issuerPk chainId
    electionId nullifierBytes signal)
  rejectIf (c = 0) (CryptoError.backend "degenerate challenge")
  pure c

/-- A vote proof with its inner proofs decoded, the issuer key as a point and the
    per-election generator. -/
structure OpenedVote (S : Suite) where
  pk : S.G2
  bbs : PoKOfSignatureG1Proof S
  dl : PokDiscreteLog S
  hE : S.G1

/-- The second half of `verify_inner`: everything is decoded, the challenge is
    computed and the two proofs are checked and linked. -/
def checkOpened (H : Bytes → S.Fr) (proof : VoteProof S) (o : OpenedVote S)
    (params : SignatureParamsG1 S) (revealIds : OrderedMap Unit) (revealedMsgs : OrderedMap S.Fr)
    (chainId electionId signal : Bytes) : RustResult Unit := do
  let nullifierBytes ← ofExcept (serG1 proof.nullifier)
  let c ← ofExcept (computeChallenge H (o.bbs.contribution revealedMsgs params)
    (PokDiscreteLog.challengeContribution o.hE proof.nullifier o.dl.t) proof.messageCount
    (S.g2Codec.ser o.pk) chainId electionId nullifierBytes signal)
  mapErr CryptoError.verificationFailed (o.bbs.verify revealedMsgs c o.pk params)
  rejectIf (o.dl.verify proof.nullifier o.hE c = false) CryptoError.verificationFailed
  let bbsResp ← mapErr CryptoError.verificationFailed
    (o.bbs.getRespForMessage voterSecretMsgIndex revealIds)
  rejectIf (S.serFr bbsResp ≠ S.serFr o.dl.response) CryptoError.verificationFailed

def verifyInner (H : Bytes → S.Fr) (proof : VoteProof S)
    (issuerPk chainId electionId signal : Bytes) : RustResult Unit := do
  rejectIf (countOutOfRange proof.messageCount) countRangeError
  rejectIf (proof.nullifier = 0) nullifierIsIdentity
  let params ← paramsFor S proof.messageCount.toNat
  let pk ← ofExcept (deser (publicKeyDecoder S) issuerPk)
  let bbs ← ofExcept (deser PoKOfSignatureG1Proof.decoder proof.bbsProof)
  let dl ← ofExcept (deser PokDiscreteLog.decoder proof.dlProof)
  let (revealIds, revealedMsgs) ←
    ofExcept (collectVoteRevealed S proof.messageCount proof.revealed .empty .empty)
  let hE ← ofExcept (hashToG1 S electionId)
  checkOpened H proof ⟨pk, bbs, dl, hE⟩ params revealIds revealedMsgs chainId electionId signal

def verifyVoteProof (H : Bytes → S.Fr) (proof : VoteProof S)
    (issuerPk chainId electionId signal : Bytes) : Exec Event Bool := do
  match ← (verifyInner H proof issuerPk chainId electionId signal).run with
  | .ok () => pure true
  | .error _ => pure false

def verifyVote (H : Bytes → S.Fr) (proofBytes issuerPk chainId electionId signal : Bytes) :
    Exec Event Bool := do
  match ← (VoteProof.fromBytes (S := S) proofBytes).run with
  | .ok p => verifyVoteProof H p issuerPk chainId electionId signal
  | .error _ => pure false

/-! ### What an accepted vote proof satisfies -/

structure VoteProof.Opens (proof : VoteProof S) (issuerPk electionId : Bytes)
    (o : OpenedVote S) : Prop where
  pk_eq : deser (publicKeyDecoder S) issuerPk = .ok o.pk
  bbs_eq : deser PoKOfSignatureG1Proof.decoder proof.bbsProof = .ok o.bbs
  dl_eq : deser PokDiscreteLog.decoder proof.dlProof = .ok o.dl
  hE_eq : hashToG1 S electionId = .ok o.hE

/-- The transcript that is hashed to the challenge. -/
def VoteProof.transcript (proof : VoteProof S) (o : OpenedVote S)
    (chainId electionId signal : Bytes) : Bytes :=
  voteTranscript S
    (o.bbs.contribution (messagesOf S proof.revealed) (paramsOf S proof.messageCount.toNat))
    (PokDiscreteLog.challengeContribution o.hE proof.nullifier o.dl.t) proof.messageCount
    (S.g2Codec.ser o.pk) chainId electionId (S.g1Codec.ser proof.nullifier) signal

/-- What `verify_inner` checks of a vote proof for the challenge `c`. -/
structure VoteProof.Accepted (proof : VoteProof S) (o : OpenedVote S) (c : S.Fr) : Prop where
  count_pos : 1 ≤ proof.messageCount.toNat
  count_le : proof.messageCount.toNat ≤ 64
  nullifier_ne_zero : proof.nullifier ≠ 0
  in_range : ∀ k ∈ revealedIndices proof.revealed, 1 ≤ k ∧ k < proof.messageCount.toNat
  distinct : (revealedIndices proof.revealed).Nodup
  challenge_ne_zero : c ≠ 0
  bbs_accepts : o.bbs.Accepts (messagesOf S proof.revealed) c o.pk
    (paramsOf S proof.messageCount.toNat)
  dl_accepts : o.dl.response • o.hE - c • proof.nullifier = o.dl.t
  same_response : ∃ resp, o.bbs.scResp2 = some resp ∧ resp[0]? = some o.dl.response

/-- The nullifier relation in the form of the generalised protocol. -/
theorem VoteProof.Accepted.dl_msm {proof : VoteProof S} {o : OpenedVote S} {c : S.Fr}
    (h : proof.Accepted o c) :
    msm [o.hE] [o.dl.response] + (-c) • proof.nullifier = o.dl.t := by
  rw [← h.dl_accepts, msm_cons, msm_nil_left]
  module

theorem collectVoteRevealed_eq_ok_iff {messageCount : UInt32} {revealed : List (UInt32 × Bytes)}
    {ids ids' : OrderedMap Unit} {m m' : OrderedMap S.Fr} :
    collectVoteRevealed S messageCount revealed ids m = .ok (ids', m') ↔
      (∀ k ∈ revealedIndices revealed, (1 ≤ k ∧ k < messageCount.toNat) ∧ k ∉ ids.keys) ∧
        (revealedIndices revealed).Nodup ∧
        ids' = ((revealedIndices revealed).map fun k => (k, ())).foldl
          (fun m p => m.insert p.1 p.2) ids ∧
        m' = (revealed.map fun entry => (entry.1.toNat, claimToFr S entry.2)).foldl
          (fun m p => m.insert p.1 p.2) m := by
  induction revealed generalizing ids m with
  | nil => simp [collectVoteRevealed, revealedIndices, eq_comm]
  | cons entry rest ih =>
    obtain ⟨i, bytes⟩ := entry
    have hcons : revealedIndices ((i, bytes) :: rest) = i.toNat :: revealedIndices rest := rfl
    rw [hcons, collectVoteRevealed]
    by_cases hrange : i.toNat = voterSecretMsgIndex ∨ i.toNat ≥ messageCount.toNat
    · rw [if_pos hrange]
      refine iff_of_false (by simp) (fun h => ?_)
      have := (h.1 i.toNat List.mem_cons_self).1
      unfold voterSecretMsgIndex at hrange
      omega
    rw [if_neg hrange]
    by_cases hdup : ids.contains i.toNat = true
    · rw [if_pos hdup]
      refine iff_of_false (by simp) (fun h => ?_)
      exact (h.1 i.toNat List.mem_cons_self).2 (OrderedMap.contains_iff.mp hdup)
    have hfresh : i.toNat ∉ ids.keys := fun h => hdup (OrderedMap.contains_iff.mpr h)
    have hin : 1 ≤ i.toNat ∧ i.toNat < messageCount.toNat := by
      unfold voterSecretMsgIndex at hrange
      omega
    have hcond := OrderedMap.fresh_cons_iff (R := fun k => 1 ≤ k ∧ k < messageCount.toNat)
      (v := ()) (l := revealedIndices rest) hin hfresh
    rw [if_neg hdup, ih, ← and_assoc, hcond, and_assoc]
    rfl

/-- The loop succeeds on distinct indices in range other than the voter secret's. -/
theorem collectVoteRevealed_empty_eq_ok_iff {messageCount : UInt32}
    {revealed : List (UInt32 × Bytes)} {ids : OrderedMap Unit} {m : OrderedMap S.Fr} :
    collectVoteRevealed S messageCount revealed .empty .empty = .ok (ids, m) ↔
      (∀ k ∈ revealedIndices revealed, 1 ≤ k ∧ k < messageCount.toNat) ∧
        (revealedIndices revealed).Nodup ∧
        ids = OrderedMap.ofKeys (revealedIndices revealed) ∧ m = messagesOf S revealed := by
  have hempty : ∀ k, k ∉ (OrderedMap.empty : OrderedMap Unit).keys := by
    simp [OrderedMap.empty, OrderedMap.keys]
  rw [collectVoteRevealed_eq_ok_iff]
  simp only [hempty, not_false_eq_true, and_true]
  rfl

theorem computeChallenge_eq_ok_iff {H : Bytes → S.Fr} {bbs dl : Bytes} {messageCount : UInt32}
    {issuerPk chainId electionId nullifierBytes signal : Bytes} {c : S.Fr} :
    computeChallenge H bbs dl messageCount issuerPk chainId electionId nullifierBytes signal = .ok c
      ↔ c = H (voteTranscript S bbs dl messageCount issuerPk chainId electionId nullifierBytes
          signal) ∧ c ≠ 0 := by
  unfold computeChallenge rejectIf
  dsimp only
  split
  · next hzero =>
    apply iff_of_false (by simp [throw, throwThe, MonadExceptOf.throw, bind, Except.bind])
    rintro ⟨rfl, hne⟩
    exact hne hzero
  · next hne =>
    simp only [pure_bind]
    constructor
    · intro h
      cases h
      exact ⟨rfl, hne⟩
    · rintro ⟨rfl, -⟩
      rfl

/-- The response that `verify_inner` compares: position 0 of the second relation,
    since the voter secret is not revealed. -/
theorem meets_getRespForMessage_zero {P : Event → Prop} {bbs : PoKOfSignatureG1Proof S}
    {resp : List S.Fr} {z : S.Fr} {revealIds : OrderedMap Unit} (hresp : bbs.scResp2 = some resp)
    (hz : resp[0]? = some z) (hzero : 0 ∉ revealIds.keys) :
    MeetsResult P (· = .ok z) (bbs.getRespForMessage 0 revealIds) := by
  rw [PoKOfSignatureG1Proof.getRespForMessage, msgIndexToSchnorrResponseIndex_zero hzero]
  apply MeetsResult.lift_bind (Q := (· = some 0)) (meets_pure rfl)
  rintro _ rfl
  apply meetsResult_ofExcept
  simp [PoKOfSignatureG1Proof.getResponse, hresp, hz]

/-- The second half accepts exactly when the equations hold. -/
theorem meets_checkOpened (H : Bytes → S.Fr) {proof : VoteProof S} (o : OpenedVote S)
    (chainId electionId signal : Bytes) (held : Nat) (hpos : 1 ≤ proof.messageCount.toNat)
    (hle : proof.messageCount.toNat ≤ 64) (hnull : proof.nullifier ≠ 0)
    (hrange : ∀ k ∈ revealedIndices proof.revealed, 1 ≤ k ∧ k < proof.messageCount.toNat)
    (hdistinct : (revealedIndices proof.revealed).Nodup) :
    MeetsResult (Event.Safe held)
      (fun res => res = .ok () ↔
        proof.Accepted o (H (proof.transcript o chainId electionId signal)))
      (checkOpened H proof o (paramsOf S proof.messageCount.toNat)
        (.ofKeys (revealedIndices proof.revealed)) (messagesOf S proof.revealed)
        chainId electionId signal) := by
  refine meets_ofExcept_bind (x := serG1 proof.nullifier) ?_ (fun k hk => by cases hk)
  rintro nullifierBytes ⟨⟩
  refine meets_ofExcept_bind ?_ ?_
  swap
  · intro k hk
    refine iff_of_false (by simp) (fun h => ?_)
    cases hk.symm.trans (computeChallenge_eq_ok_iff.mpr ⟨rfl, h.challenge_ne_zero⟩)
  intro c hc
  obtain ⟨hceq, hcne⟩ := computeChallenge_eq_ok_iff.mp hc
  have hchallenge : H (proof.transcript o chainId electionId signal) = c := hceq.symm
  rw [hchallenge]
  have hkeys : ∀ k ∈ (messagesOf S proof.revealed).keys,
      k < (paramsOf S proof.messageCount.toNat).h.length := by
    intro k hk
    rw [paramsOf_h_length]
    exact (hrange k (mem_keys_messagesOf.mp hk)).2
  have hverify := PoKOfSignatureG1Proof.meets_verify (p := o.bbs) c o.pk hkeys
    (Event.safe_bbsPlusVerify hkeys) (Event.safe_schnorrBases held (by simpa using hle))
    (Event.safe_revealedTerms held hkeys (by simpa using hle))
  refine MeetsResult.bind
    (hverify.mapErr (T := fun res => res = .ok () ↔ o.bbs.Accepts (messagesOf S proof.revealed) c
        o.pk (paramsOf S proof.messageCount.toNat))
      (fun _ h => by simpa using h) (fun _ h => by simpa using h)) ?_ ?_
  swap
  · intro k hk
    refine iff_of_false (by simp) (fun h => ?_)
    cases hk.mpr h.bbs_accepts
  rintro ⟨⟩ hacc
  have hacc := hacc.mp rfl
  refine MeetsResult.rejectIf_bind ?_ ?_
  · intro hbad
    refine iff_of_false (by simp) (fun h => ?_)
    simp [PokDiscreteLog.verify, h.dl_accepts] at hbad
  intro hdl
  have hdl : o.dl.response • o.hE - c • proof.nullifier = o.dl.t := by
    simpa [PokDiscreteLog.verify] using hdl
  -- the BBS+ check has established that there is a full response, of length at least two
  rcases hacc.second with ⟨resp, hresp, hresplen, -⟩
  obtain ⟨z, hz⟩ : ∃ z, resp[0]? = some z := by
    refine ⟨_, List.getElem?_eq_getElem ?_⟩
    rw [hresplen]
    simp [PoKOfSignatureG1Proof.bases2]
  have hzero : 0 ∉ (OrderedMap.ofKeys (revealedIndices proof.revealed)).keys := by
    rw [OrderedMap.mem_keys_ofKeys]
    intro h
    have := (hrange 0 h).1
    omega
  refine MeetsResult.bind
    ((meets_getRespForMessage_zero hresp hz hzero).mapErr (T := (· = .ok z))
      (fun _ h => by simpa using h) (fun _ h => by cases h)) ?_ (fun k hk => by cases hk)
  rintro _ ⟨⟩
  refine meetsResult_rejectIf ?_ ?_
  · intro hne
    refine iff_of_false (by simp) (fun h => ?_)
    rcases h.same_response with ⟨resp', hresp', hz'⟩
    cases hresp.symm.trans hresp'
    cases hz.symm.trans hz'
    exact hne rfl
  · intro heq
    refine iff_of_true rfl ⟨hpos, hle, hnull, hrange, hdistinct, hcne, hacc, hdl, resp, hresp, ?_⟩
    rw [hz, S.serFr_injective (not_not.mp heq)]

theorem VoteProof.Opens.unique {proof : VoteProof S} {issuerPk electionId : Bytes}
    {o o' : OpenedVote S} (h : proof.Opens issuerPk electionId o)
    (h' : proof.Opens issuerPk electionId o') : o = o' := by
  obtain ⟨pk, bbs, dl, hE⟩ := o
  obtain ⟨pk', bbs', dl', hE'⟩ := o'
  cases h.pk_eq.symm.trans h'.pk_eq
  cases h.bbs_eq.symm.trans h'.bbs_eq
  cases h.dl_eq.symm.trans h'.dl_eq
  cases h.hE_eq.symm.trans h'.hE_eq
  rfl

/-- The verifier returns a verdict on every input, calls the backend within its
    preconditions, and accepts exactly the vote proofs described by `Accepted`. -/
theorem meets_verifyInner (H : Bytes → S.Fr) (proof : VoteProof S)
    (issuerPk chainId electionId signal : Bytes) (held : Nat) :
    MeetsResult (Event.Safe held)
      (fun res => res = .ok () ↔ ∃ o, proof.Opens issuerPk electionId o ∧
        proof.Accepted o (H (proof.transcript o chainId electionId signal)))
      (verifyInner H proof issuerPk chainId electionId signal) := by
  refine MeetsResult.rejectIf_bind ?_ ?_
  · intro hbad
    apply iff_of_false (by simp)
    rintro ⟨o, -, h⟩
    exact not_countOutOfRange_iff.mpr ⟨h.count_pos, h.count_le⟩ hbad
  intro hcount
  obtain ⟨hpos, hle⟩ := not_countOutOfRange_iff.mp hcount
  refine MeetsResult.rejectIf_bind ?_ ?_
  · intro hzero
    apply iff_of_false (by simp)
    rintro ⟨o, -, h⟩
    exact h.nullifier_ne_zero hzero
  intro hnull
  refine MeetsResult.lift_bind
    (meets_paramsFor (P := Event.Safe held) ⟨hpos, hle⟩ (by omega)) ?_
  rintro params rfl
  refine meets_ofExcept_bind ?_ ?_
  swap
  · intro k hk
    apply iff_of_false (by simp)
    rintro ⟨o, h, -⟩
    cases hk.symm.trans h.pk_eq
  intro pk hpk
  refine meets_ofExcept_bind ?_ ?_
  swap
  · intro k hk
    apply iff_of_false (by simp)
    rintro ⟨o, h, -⟩
    cases hk.symm.trans h.bbs_eq
  intro bbs hbbs
  refine meets_ofExcept_bind ?_ ?_
  swap
  · intro k hk
    apply iff_of_false (by simp)
    rintro ⟨o, h, -⟩
    cases hk.symm.trans h.dl_eq
  intro dl hdl
  refine meets_ofExcept_bind ?_ ?_
  swap
  · intro k hk
    apply iff_of_false (by simp)
    rintro ⟨o, -, h⟩
    cases hk.symm.trans
      (collectVoteRevealed_empty_eq_ok_iff.mpr ⟨h.in_range, h.distinct, rfl, rfl⟩)
  rintro ⟨revealIds, revealedMsgs⟩ hrev
  obtain ⟨hrange, hdistinct, rfl, rfl⟩ := collectVoteRevealed_empty_eq_ok_iff.mp hrev
  refine meets_ofExcept_bind ?_ ?_
  swap
  · intro k hk
    apply iff_of_false (by simp)
    rintro ⟨o, h, -⟩
    cases hk.symm.trans h.hE_eq
  intro hE hhE
  have hopen : proof.Opens issuerPk electionId ⟨pk, bbs, dl, hE⟩ := ⟨hpk, hbbs, hdl, hhE⟩
  refine (meets_checkOpened H ⟨pk, bbs, dl, hE⟩ chainId electionId signal held hpos hle hnull
    hrange hdistinct).post ?_
  intro res hres
  rw [hres]
  constructor
  · intro h
    exact ⟨_, hopen, h⟩
  · rintro ⟨o, ho, h⟩
    cases hopen.unique ho
    exact h

theorem verifyInner_returns_ok_iff (H : Bytes → S.Fr) (proof : VoteProof S)
    (issuerPk chainId electionId signal : Bytes) :
    (verifyInner H proof issuerPk chainId electionId signal).run.Returns (.ok ()) ↔
      ∃ o, proof.Opens issuerPk electionId o ∧
        proof.Accepted o (H (proof.transcript o chainId electionId signal)) :=
  (meets_verifyInner H proof issuerPk chainId electionId signal 0).returns_ok_iff

/-! ### The entry points -/

theorem meets_verifyVoteProof (H : Bytes → S.Fr) (proof : VoteProof S)
    (issuerPk chainId electionId signal : Bytes) (held : Nat) :
    (verifyVoteProof H proof issuerPk chainId electionId signal).Meets (Event.Safe held)
      (fun verdict => verdict = true ↔ ∃ o, proof.Opens issuerPk electionId o ∧
        proof.Accepted o (H (proof.transcript o chainId electionId signal))) := by
  refine (show Exec.Meets (Event.Safe held) _ (ExceptT.run _) from
    meets_verifyInner H proof issuerPk chainId electionId signal held).bind ?_
  rintro (k | ⟨⟨⟩⟩) hres
  · exact meets_pure (by simpa using hres)
  · exact meets_pure (by simpa using hres)

theorem verifyVoteProof_returns_true_iff (H : Bytes → S.Fr) (proof : VoteProof S)
    (issuerPk chainId electionId signal : Bytes) :
    (verifyVoteProof H proof issuerPk chainId electionId signal).Returns true ↔
      ∃ o, proof.Opens issuerPk electionId o ∧
        proof.Accepted o (H (proof.transcript o chainId electionId signal)) :=
  (meets_verifyVoteProof H proof issuerPk chainId electionId signal 0).returns_true_iff

theorem meets_verifyVote (H : Bytes → S.Fr)
    (proofBytes issuerPk chainId electionId signal : Bytes) (held : Nat) :
    (verifyVote H proofBytes issuerPk chainId electionId signal).Meets (Event.Safe held)
      (fun verdict => verdict = true ↔
        ∃ proof : VoteProof S, (VoteProof.fromBytes proofBytes).run.Returns (.ok proof) ∧
          (verifyVoteProof H proof issuerPk chainId electionId signal).Returns true) := by
  have hdecode := VoteProof.meets_fromBytes (S := S) (P := Event.Safe held) (fun _ h => h)
    proofBytes
  exact hdecode.decode_then
    (fun proof => meets_verifyVoteProof H proof issuerPk chainId electionId signal held)
    (fun _ => rfl) (fun _ => rfl)

theorem verifyVote_returns_true_iff (H : Bytes → S.Fr)
    (proofBytes issuerPk chainId electionId signal : Bytes) :
    (verifyVote H proofBytes issuerPk chainId electionId signal).Returns true ↔
      ∃ proof : VoteProof S, (VoteProof.fromBytes proofBytes).run.Returns (.ok proof) ∧
        (verifyVoteProof H proof issuerPk chainId electionId signal).Returns true :=
  (meets_verifyVote H proofBytes issuerPk chainId electionId signal 0).returns_true_iff

end PhiCrypto

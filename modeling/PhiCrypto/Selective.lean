import PhiCrypto.BbsPlusCodec
import PhiCrypto.SelectiveProofWire

/-!
# Verifying selective-disclosure proofs

`DocknetBbsPlus::verify_proof`, its entry point on bytes, and the Semaphore
binding in front of it. `SelectiveProof.Accepted` states what an accepted proof
satisfies; `verifyProof_returns_true_iff` ties it to the code.
-/

namespace PhiCrypto

open Exec

variable {S : Suite}

/-! ### Revealed claims -/

def revealedIndices (revealed : List (UInt32 × Bytes)) : List Nat :=
  revealed.map fun entry => entry.1.toNat

/-- The field images of the revealed claims, by index. -/
def messagesOf (S : Suite) (revealed : List (UInt32 × Bytes)) : OrderedMap S.Fr :=
  OrderedMap.ofList (revealed.map fun entry => (entry.1.toNat, claimToFr S entry.2))

theorem mem_keys_messagesOf {revealed : List (UInt32 × Bytes)} {k : Nat} :
    k ∈ (messagesOf S revealed).keys ↔ k ∈ revealedIndices revealed := by
  rw [messagesOf, OrderedMap.mem_keys_ofList, List.map_map]
  rfl

theorem length_messagesOf {revealed : List (UInt32 × Bytes)}
    (hnodup : (revealedIndices revealed).Nodup) :
    (messagesOf S revealed).length = revealed.length := by
  rw [messagesOf, OrderedMap.length_ofList, List.length_map]
  rw [List.map_map]
  exact hnodup

theorem get?_messagesOf {revealed : List (UInt32 × Bytes)}
    (hnodup : (revealedIndices revealed).Nodup) {idx : UInt32} {claim : Bytes}
    (hmem : (idx, claim) ∈ revealed) :
    (messagesOf S revealed).get? idx.toNat = some (claimToFr S claim) := by
  refine OrderedMap.get?_ofList_of_mem ?_ (List.mem_map.mpr ⟨(idx, claim), hmem, rfl⟩)
  rw [List.map_map]
  exact hnodup

/-- The loop of `verify_proof` that rebuilds the map of revealed messages:
    `None` stands for its `return false`. -/
def collectRevealed (S : Suite) (messageCount : UInt32) :
    List (UInt32 × Bytes) → OrderedMap S.Fr → Option (OrderedMap S.Fr)
  | [], revealedMsgs => some revealedMsgs
  | (i, bytes) :: rest, revealedMsgs =>
    if i.toNat ≥ messageCount.toNat then none
    else if (revealedMsgs.get? i.toNat).isSome then none
    else collectRevealed S messageCount rest (revealedMsgs.insert i.toNat (claimToFr S bytes))

theorem collectRevealed_eq_some_iff {messageCount : UInt32} {revealed : List (UInt32 × Bytes)}
    {m m' : OrderedMap S.Fr} :
    collectRevealed S messageCount revealed m = some m' ↔
      (∀ k ∈ revealedIndices revealed, k < messageCount.toNat ∧ k ∉ m.keys) ∧
        (revealedIndices revealed).Nodup ∧
        m' = (revealed.map fun entry => (entry.1.toNat, claimToFr S entry.2)).foldl
          (fun m p => m.insert p.1 p.2) m := by
  induction revealed generalizing m with
  | nil => simp [collectRevealed, revealedIndices, eq_comm]
  | cons entry rest ih =>
    obtain ⟨i, bytes⟩ := entry
    have hcons : revealedIndices ((i, bytes) :: rest) = i.toNat :: revealedIndices rest := rfl
    rw [hcons, collectRevealed]
    by_cases hrange : i.toNat ≥ messageCount.toNat
    · rw [if_pos hrange]
      refine iff_of_false (by simp) (fun h => ?_)
      have := (h.1 i.toNat List.mem_cons_self).1
      omega
    rw [if_neg hrange]
    by_cases hdup : (m.get? i.toNat).isSome
    · rw [if_pos hdup]
      refine iff_of_false (by simp) (fun h => ?_)
      exact (h.1 i.toNat List.mem_cons_self).2 (OrderedMap.mem_keys_iff.mpr hdup)
    have hfresh : i.toNat ∉ m.keys := fun h => hdup (OrderedMap.mem_keys_iff.mp h)
    have hcond := OrderedMap.fresh_cons_iff (R := (· < messageCount.toNat))
      (v := claimToFr S bytes) (l := revealedIndices rest) (not_le.mp hrange) hfresh
    rw [if_neg hdup, ih, ← and_assoc, hcond, and_assoc]
    rfl

/-- The loop succeeds on distinct indices in range, with the map of all of them. -/
theorem collectRevealed_empty_eq_some_iff {messageCount : UInt32}
    {revealed : List (UInt32 × Bytes)} {m : OrderedMap S.Fr} :
    collectRevealed S messageCount revealed .empty = some m ↔
      (∀ k ∈ revealedIndices revealed, k < messageCount.toNat) ∧
        (revealedIndices revealed).Nodup ∧ m = messagesOf S revealed := by
  have hempty : ∀ k, k ∉ (OrderedMap.empty : OrderedMap S.Fr).keys := by
    simp [OrderedMap.empty, OrderedMap.keys]
  rw [collectRevealed_eq_some_iff]
  simp only [hempty, not_false_eq_true, and_true]
  rfl

/-! ### Verification -/

def messageCountInRange (messageCount : UInt32) (revealedCount : Nat) : Bool :=
  messageCount != 0 && messageCount.toNat ≤ maxBbsMessages && revealedCount ≤ messageCount.toNat

theorem messageCountInRange_iff {messageCount : UInt32} {revealedCount : Nat} :
    messageCountInRange messageCount revealedCount = true ↔
      (1 ≤ messageCount.toNat ∧ messageCount.toNat ≤ 64) ∧ revealedCount ≤ messageCount.toNat := by
  rw [← not_countOutOfRange_iff]
  simp [messageCountInRange, countOutOfRange, not_or]

def PoKOfSignatureG1Proof.contribution (p : PoKOfSignatureG1Proof S)
    (revealed : OrderedMap S.Fr) (params : SignatureParamsG1 S) : Bytes :=
  challengeContribution p.aPrime p.aBar p.d p.scResp1.t p.t2 revealed params

def challenge (H : Bytes → S.Fr) (contribution nonce : Bytes) : Exec Event S.Fr := do
  withCapacity .transcript (proofChallengeDomain.length + contribution.length + nonce.length + 12)
  pure (H (proofTranscript contribution nonce))

def verifyProof (H : Bytes → S.Fr) (proof : SelectiveProof) (issuerPk nonce : Bytes) :
    Exec Event Bool :=
  if messageCountInRange proof.messageCount proof.revealed.length then do
    let params ← paramsFor S proof.messageCount.toNat
    match deser (publicKeyDecoder S) issuerPk with
    | .error _ => pure false
    | .ok pk =>
      match deser PoKOfSignatureG1Proof.decoder proof.proof with
      | .error _ => pure false
      | .ok p =>
        match collectRevealed S proof.messageCount proof.revealed .empty with
        | none => pure false
        | some revealedMsgs => do
          let c ← challenge H (p.contribution revealedMsgs params) nonce
          let res ← (p.verify revealedMsgs c pk params).run
          match res with
          | .ok () => pure true
          | .error _ => pure false
  else pure false

def verifyProofBytes (H : Bytes → S.Fr) (proofBytes issuerPk nonce : Bytes) :
    Exec Event Bool := do
  match ← (SelectiveProof.fromBytes proofBytes).run with
  | .ok p => verifyProof H p issuerPk nonce
  | .error _ => pure false

def verifyBoundProof (H : Bytes → S.Fr) (bbsProof issuerPk electionId nullifier signal : Bytes) :
    Exec Event Bool :=
  verifyProofBytes H bbsProof issuerPk (bindNonce S electionId nullifier signal)

/-- The transcript that is hashed to the challenge. -/
def SelectiveProof.transcript (proof : SelectiveProof) (p : PoKOfSignatureG1Proof S)
    (nonce : Bytes) : Bytes :=
  proofTranscript (p.contribution (messagesOf S proof.revealed)
    (paramsOf S proof.messageCount.toNat)) nonce

/-- What `verify_proof` checks of a proof whose key and body decode to `pk` and
    `p`. -/
structure SelectiveProof.Accepted (H : Bytes → S.Fr) (proof : SelectiveProof) (pk : S.G2)
    (p : PoKOfSignatureG1Proof S) (nonce : Bytes) : Prop where
  count_pos : 1 ≤ proof.messageCount.toNat
  count_le : proof.messageCount.toNat ≤ 64
  in_range : ∀ k ∈ revealedIndices proof.revealed, k < proof.messageCount.toNat
  distinct : (revealedIndices proof.revealed).Nodup
  accepts : p.Accepts (messagesOf S proof.revealed) (H (proof.transcript p nonce)) pk
    (paramsOf S proof.messageCount.toNat)

theorem length_revealed_le {revealed : List (UInt32 × Bytes)} {n : Nat}
    (hnodup : (revealedIndices revealed).Nodup) (hlt : ∀ k ∈ revealedIndices revealed, k < n) :
    revealed.length ≤ n := by
  have hsub : revealedIndices revealed ⊆ List.range n := fun k hk => List.mem_range.mpr (hlt k hk)
  have hle := (hnodup.subperm hsub).length_le
  simpa [revealedIndices] using hle

/-- The verifier returns a verdict on every input, calls the backend within its
    preconditions, and accepts exactly the proofs described by `Accepted`. -/
theorem meets_verifyProof (H : Bytes → S.Fr) (proof : SelectiveProof) {issuerPk nonce : Bytes}
    {held : Nat} (hheld : nonce.length ≤ held + 32) :
    (verifyProof H proof issuerPk nonce).Meets (Event.Safe held) (fun verdict =>
      verdict = true ↔ ∃ pk p, deser (publicKeyDecoder S) issuerPk = .ok pk ∧
        deser PoKOfSignatureG1Proof.decoder proof.proof = .ok p ∧
        proof.Accepted H pk p nonce) := by
  unfold verifyProof
  by_cases hcount : messageCountInRange proof.messageCount proof.revealed.length = true
  swap
  · rw [if_neg hcount]
    refine meets_pure (iff_of_false (by simp) ?_)
    rintro ⟨pk, p, -, -, h⟩
    exact hcount (messageCountInRange_iff.mpr
      ⟨⟨h.count_pos, h.count_le⟩, length_revealed_le h.distinct h.in_range⟩)
  rw [if_pos hcount]
  obtain ⟨⟨hpos, hle⟩, -⟩ := messageCountInRange_iff.mp hcount
  apply (meets_paramsFor (P := Event.Safe held) ⟨hpos, hle⟩ (by omega)).bind
  rintro params rfl
  cases hpk : deser (publicKeyDecoder S) issuerPk with
  | error k => exact meets_pure (by simp)
  | ok pk =>
  cases hp : deser (PoKOfSignatureG1Proof.decoder (S := S)) proof.proof with
  | error k => exact meets_pure (by simp)
  | ok p =>
  dsimp only
  cases hrev : collectRevealed S proof.messageCount proof.revealed .empty with
  | none =>
    refine meets_pure (iff_of_false (by simp) ?_)
    rintro ⟨pk', p', -, -, h⟩
    rw [collectRevealed_empty_eq_some_iff.mpr ⟨h.in_range, h.distinct, rfl⟩] at hrev
    cases hrev
  | some revealedMsgs =>
  obtain ⟨hrange, hdistinct, rfl⟩ := collectRevealed_empty_eq_some_iff.mp hrev
  have hkeys : ∀ k ∈ (messagesOf S proof.revealed).keys,
      k < (paramsOf S proof.messageCount.toNat).h.length := by
    intro k hk
    rw [paramsOf_h_length]
    exact hrange k (mem_keys_messagesOf.mp hk)
  have hcontr := challengeContribution_length_le p.aPrime p.aBar p.d p.scResp1.t p.t2
    (messagesOf S proof.revealed) (paramsOf S proof.messageCount.toNat)
    (by rw [paramsOf_h_length]; exact hle)
  have hchallenge : (challenge H (p.contribution (messagesOf S proof.revealed)
      (paramsOf S proof.messageCount.toNat)) nonce).Meets (Event.Safe held)
      (· = H (proof.transcript p nonce)) := by
    refine (meets_emit (Q := fun _ => True) ?_ trivial).bind fun _ _ => meets_pure rfl
    have hdomain : proofChallengeDomain.length = 16 := by decide
    simp only [Event.Safe, PoKOfSignatureG1Proof.contribution, hdomain]
    omega
  apply hchallenge.bind
  rintro c rfl
  refine (show Exec.Meets (Event.Safe held) _ (ExceptT.run _) from
    PoKOfSignatureG1Proof.meets_verify _ pk hkeys (Event.safe_bbsPlusVerify hkeys)
      (Event.safe_schnorrBases held (by simpa using hle))
      (Event.safe_revealedTerms held hkeys (by simpa using hle))).bind ?_
  rintro (k | ⟨⟨⟩⟩) hres
  · refine meets_pure (iff_of_false (by simp) ?_)
    rintro ⟨pk', p', hpk', hp', h⟩
    cases hpk'
    cases hp'
    cases hres.mpr h.accepts
  · exact meets_pure (iff_of_true rfl ⟨pk, p, rfl, rfl, hpos, hle, hrange, hdistinct, hres.mp rfl⟩)

theorem verifyProof_returns_true_iff (H : Bytes → S.Fr) (proof : SelectiveProof)
    (issuerPk nonce : Bytes) :
    (verifyProof H proof issuerPk nonce).Returns true ↔
      ∃ pk p, deser (publicKeyDecoder S) issuerPk = .ok pk ∧
        deser PoKOfSignatureG1Proof.decoder proof.proof = .ok p ∧
        proof.Accepted H pk p nonce :=
  (meets_verifyProof H proof (Nat.le_add_right _ _)).returns_true_iff

theorem meets_verifyProofBytes (H : Bytes → S.Fr) (proofBytes : Bytes) {issuerPk nonce : Bytes}
    {held : Nat} (hheld : nonce.length ≤ held + 32) :
    (verifyProofBytes H proofBytes issuerPk nonce).Meets (Event.Safe held) (fun verdict =>
      verdict = true ↔ ∃ proof, (SelectiveProof.fromBytes proofBytes).run.Returns (.ok proof) ∧
        (verifyProof H proof issuerPk nonce).Returns true) := by
  have hdecode := SelectiveProof.meets_fromBytes (P := Event.Safe held) (fun _ h => h) proofBytes
  exact hdecode.decode_then (fun proof => meets_verifyProof H proof hheld) (fun _ => rfl)
    (fun _ => rfl)

theorem verifyProofBytes_returns_true_iff (H : Bytes → S.Fr) (proofBytes issuerPk nonce : Bytes) :
    (verifyProofBytes H proofBytes issuerPk nonce).Returns true ↔
      ∃ proof, (SelectiveProof.fromBytes proofBytes).run.Returns (.ok proof) ∧
        (verifyProof H proof issuerPk nonce).Returns true :=
  (meets_verifyProofBytes H proofBytes (Nat.le_add_right _ _)).returns_true_iff

end PhiCrypto

import PhiCrypto.Ffi
import PhiCrypto.SmallSuite

/-!
# The exports fail closed

With `panic = "abort"` a single reachable panic stops the process, so the exports
must not reach one, whatever bytes they are given. Each panic site is ruled out
by a check that some earlier function made: the length of authenticatorData, the
claim ceiling of the decoders, the strictly increasing indices of
`decode_revealed`. Here these are put together, export by export, and then for a
call of any of them.
-/

namespace PhiCrypto

open Exec

variable {S : Suite}

/-! ### The arguments -/

theorem length_le_of_asSlice {region : Region} {b : Bytes} (h : asSlice region = some b) :
    b.length ≤ region.len := by
  unfold asSlice at h
  split at h
  · cases h
    exact Nat.zero_le _
  · cases hptr : region.ptr with
    | null =>
      rw [hptr] at h
      cases h
    | valid memory =>
      rw [hptr] at h
      cases h
      exact List.length_take_le _ _

theorem asI32_eq_zero_or_one (verdict : Bool) : asI32 verdict = 0 ∨ asI32 verdict = 1 := by
  cases verdict with
  | false => exact Or.inl rfl
  | true => exact Or.inr rfl

def ReturnCode (code : Int) : Prop := code = 0 ∨ code = 1

theorem meets_zero {P : Event → Prop} : (pure 0 : Exec Event Int).Meets P ReturnCode :=
  meets_pure (Or.inl rfl)

theorem meets_asI32 {P : Event → Prop} {Q : Bool → Prop} {x : Exec Event Bool}
    (hx : x.Meets P Q) :
    (do let verdict ← x; pure (asI32 verdict) : Exec Event Int).Meets P ReturnCode :=
  hx.bind fun verdict _ => meets_pure (asI32_eq_zero_or_one verdict)

/-! ### `decode_revealed` -/

/-- The decoded indices increase strictly from the last one read. -/
theorem decodeRevealedEntries_spec {b : Bytes} {n : Nat} {prev : Option Nat} {pos fin : Nat}
    {out : List (Nat × Bytes)} (h : decodeRevealedEntries b n prev pos = some (out, fin)) :
    out.length = n ∧ (out.map Prod.fst).Pairwise (· < ·) ∧
      ∀ p ∈ prev, ∀ index ∈ out.map Prod.fst, p < index := by
  induction n generalizing prev pos out with
  | zero =>
    cases h
    exact ⟨rfl, List.Pairwise.nil, fun _ _ _ hmem => absurd hmem List.not_mem_nil⟩
  | succ n ih =>
    simp only [decodeRevealedEntries, Option.bind_eq_bind, Option.bind_eq_some_iff] at h
    rcases h with ⟨⟨index, pos₁⟩, -, h⟩
    split at h
    · cases h
    next hprev =>
    simp only [Option.bind_eq_some_iff] at h
    rcases h with ⟨⟨len, pos₂⟩, -, next, -, value, -, ⟨rest, pos₃⟩, hrest, h⟩
    cases h
    obtain ⟨hlen, hpairwise, habove⟩ := ih hrest
    have hindex : ∀ later ∈ rest.map Prod.fst, index < later := habove index rfl
    refine ⟨by rw [List.length_cons, hlen], List.pairwise_cons.mpr ⟨hindex, hpairwise⟩, ?_⟩
    intro p hp
    have hlt : p < index := by
      by_contra hge
      exact hprev ⟨p, hp, not_lt.mp hge⟩
    rw [List.map_cons, List.forall_mem_cons]
    exact ⟨hlt, fun later hlater => hlt.trans (hindex later hlater)⟩

/-- What a decoded revealed list is: within the claim ceiling, and without a
    repeated index. -/
def RevealedList (revealed : List (Nat × Bytes)) : Prop :=
  revealed.length ≤ maxBbsMessages ∧ (revealed.map Prod.fst).Nodup

theorem meets_decodeRevealed {P : Event → Prop}
    (hP : ∀ n ≤ maxBbsMessages, P (.capacity .decodedClaims n)) (b : Bytes) :
    (decodeRevealed b).Meets P (fun out => ∀ revealed ∈ out, RevealedList revealed) := by
  have hnone : ∀ revealed ∈ (none : Option (List (Nat × Bytes))), RevealedList revealed := by simp
  unfold decodeRevealed
  split
  · exact meets_pure hnone
  next count pos hcount =>
  split
  · exact meets_pure hnone
  next hle =>
  have hle : count ≤ maxBbsMessages := not_lt.mp hle
  refine (meets_emit (Q := fun _ => True) (hP count hle) trivial).bind ?_
  rintro ⟨⟩ -
  split
  · exact meets_pure hnone
  next out fin hentries =>
  split
  · exact meets_pure hnone
  · apply meets_pure
    rintro _ ⟨⟩
    obtain ⟨hlen, hincreasing, -⟩ := decodeRevealedEntries_spec hentries
    exact ⟨hlen ▸ hle, hincreasing.imp Nat.ne_of_lt⟩

/-! ### The exports, one by one -/

section Exports

variable {held : Nat}

theorem meets_phiVerifySignature (E : EcdsaCurves) (curveCode : UInt8)
    (publicKey msg sig : Region) :
    (phiVerifySignature E curveCode publicKey msg sig).Meets (Event.Safe held) ReturnCode := by
  unfold phiVerifySignature guard
  split
  · exact meets_pure (asI32_eq_zero_or_one _)
  · exact meets_zero

theorem meets_phiWebauthnVerify {parse : Bytes → Option ClientData} {E : Ecdsa}
    {authData clientDataJson signature challenge publicKey origin rpId : Region} {requireUv : Int}
    (hheld : authData.len ≤ held) :
    (phiWebauthnVerify S parse E authData clientDataJson signature challenge publicKey origin rpId
      requireUv).Meets (Event.Safe held) ReturnCode := by
  unfold phiWebauthnVerify guard
  split
  next ad cdj s ch pk org rp had _ _ _ _ _ _ =>
    have hlen := length_le_of_asSlice had
    refine meets_asI32 (meets_verifyWebauthn ?_ ch pk org rp _)
    show ad.length + 32 ≤ held + 32
    omega
  · exact meets_zero

theorem meets_phiBbsVerifyProof (H : Bytes → S.Fr) {proof publicKey nonce : Region}
    (hheld : nonce.len ≤ held) :
    (phiBbsVerifyProof H proof publicKey nonce).Meets (Event.Safe held) ReturnCode := by
  unfold phiBbsVerifyProof guard
  split
  next p pk n _ _ hn =>
    have hlen := length_le_of_asSlice hn
    exact meets_asI32 (meets_verifyProofBytes H p (by omega))
  · exact meets_zero

/-- The allocations of `pairing_crypto` stay within the proof's length and the claim
    ceiling. -/
theorem proofVerifyEvents_safe {n revealed : Nat} (hn : n ≤ held) (hrev : revealed ≤ maxBbsMessages) :
    PairingCrypto.ProofVerifyEvents (Event.Safe held) n revealed := by
  simp only [maxBbsMessages] at hrev
  refine ⟨?_, ?_, ?_⟩
  · intro hidden hlen
    show hidden ≤ held / 32
    omega
  · intro hidden hlen
    show hidden + revealed + 1 ≤ held / 32 + 64 + 1
    omega
  · intro hidden hlen
    constructor <;> simp only [Event.Safe, maxBbsMessages] <;> omega

theorem meets_phiBbs2023VerifyProof (B : Blstrs S)
    {proof publicKey header presentationHeader revealed : Region} (hheld : proof.len ≤ held) :
    (phiBbs2023VerifyProof B proof publicKey header presentationHeader revealed).Meets
      (Event.Safe held) ReturnCode := by
  unfold phiBbs2023VerifyProof guard
  split
  next p pk h ph rev hp _ _ _ _ =>
    have hlen := length_le_of_asSlice hp
    refine (meets_decodeRevealed (P := Event.Safe held) (fun _ h => h) rev).bind ?_
    rintro (_ | revealedMsgs) hrevealed
    · exact meets_zero
    · obtain ⟨hcount, hdistinct⟩ := hrevealed revealedMsgs rfl
      exact meets_asI32 (meets_bbs2023ProofVerify B pk h ph hdistinct hdistinct
        (proofVerifyEvents_safe (by omega) hcount))
  · exact meets_zero

theorem meets_phiSemaphoreVerifyVote (H : Bytes → S.Fr)
    (bbsProof publicKey electionId nullifier signal : Region) :
    (phiSemaphoreVerifyVote H bbsProof publicKey electionId nullifier signal).Meets
      (Event.Safe held) ReturnCode := by
  unfold phiSemaphoreVerifyVote guard
  split
  next proof pk election sig _ _ _ _ =>
    split
    · exact meets_zero
    next null _ =>
    split
    · exact meets_zero
    · exact meets_asI32 (meets_verifyProofBytes H proof (by simp))
  · exact meets_zero

theorem meets_phiVotingVerifyVoteV1 (H : Bytes → S.Fr)
    (proof publicKey chainId electionId nullifier signal : Region) :
    (phiVotingVerifyVoteV1 H proof publicKey chainId electionId nullifier signal).Meets
      (Event.Safe held) ReturnCode := by
  unfold phiVotingVerifyVoteV1 guard
  split
  next proofBytes pk chain election sig _ _ _ _ _ =>
    split
    · exact meets_zero
    next null _ =>
    split
    · exact meets_zero
    · refine (show Exec.Meets (Event.Safe held) _ (ExceptT.run _) from
        VoteProof.meets_fromBytes (fun _ h => h) proofBytes).bind ?_
      rintro (k | voteProof) -
      · exact meets_zero
      · dsimp only
        split
        · exact meets_zero
        next embedded _ =>
        split
        · exact meets_zero
        · exact meets_asI32 (meets_verifyVoteProof H voteProof pk chain election sig held)
  · exact meets_zero

/-- What `phi_compute_nullifier` leaves behind `out`: on failure the memory is
    unchanged, on success its first 32 bytes are the nullifier and the others
    are unchanged. -/
def NullifierWritten (S : Suite) (secret topic out : Region) (result : Int × Pointer) : Prop :=
  (result.1 = 0 ∧ result.2 = out.ptr) ∨
    (result.1 = 1 ∧ ∃ memory sec top : Bytes, out.ptr = .valid memory ∧ 32 ≤ out.len ∧
      asSlice secret = some sec ∧ asSlice topic = some top ∧
      (computeNullifier S sec top).length = 32 ∧
      result.2 = .valid (computeNullifier S sec top ++ memory.drop 32))

theorem meets_phiComputeNullifier {P : Event → Prop} (secret topic out : Region) :
    (phiComputeNullifier S secret topic out).Meets P (NullifierWritten S secret topic out) := by
  have hzero : NullifierWritten S secret topic out (0, out.ptr) := Or.inl ⟨rfl, rfl⟩
  unfold phiComputeNullifier guard
  cases hptr : out.ptr with
  | null => exact meets_pure (hptr ▸ hzero)
  | valid memory =>
  rw [hptr] at hzero
  dsimp only
  split
  · exact meets_pure hzero
  next hlen =>
  have hlen : 32 ≤ out.len := not_lt.mp hlen
  split
  next sec top hsec htop =>
    have hnull : (computeNullifier S sec top).length = 32 := S.sha256_length _
    have hdst : (memory.take nullifierLen).length = (computeNullifier S sec top).length := by
      rw [hnull, List.length_take]
      exact min_eq_left (hlen.trans (out.accessible memory hptr))
    rw [copyFromSlice, if_pos hdst, pure_bind]
    exact meets_pure (Or.inr ⟨rfl, memory, sec, top, hptr, hlen, hsec, htop, hnull, rfl⟩)
  · exact meets_pure hzero

end Exports

/-! ### Any call -/

/-- A call of an export, with its arguments. -/
inductive Call where
  | verifySignature (curveCode : UInt8) (publicKey msg sig : Region)
  | webauthnVerify (authData clientDataJson signature challenge publicKey origin rpId : Region)
      (requireUv : Int)
  | bbsVerifyProof (proof publicKey nonce : Region)
  | bbs2023VerifyProof (proof publicKey header presentationHeader revealed : Region)
  | computeNullifier (secret topic out : Region)
  | semaphoreVerifyVote (bbsProof publicKey electionId nullifier signal : Region)
  | votingVerifyVoteV1 (proof publicKey chainId electionId nullifier signal : Region)

namespace Call

def regions : Call → List Region
  | .verifySignature _ publicKey msg sig => [publicKey, msg, sig]
  | .webauthnVerify authData clientDataJson signature challenge publicKey origin rpId _ =>
    [authData, clientDataJson, signature, challenge, publicKey, origin, rpId]
  | .bbsVerifyProof proof publicKey nonce => [proof, publicKey, nonce]
  | .bbs2023VerifyProof proof publicKey header presentationHeader revealed =>
    [proof, publicKey, header, presentationHeader, revealed]
  | .computeNullifier secret topic out => [secret, topic, out]
  | .semaphoreVerifyVote bbsProof publicKey electionId nullifier signal =>
    [bbsProof, publicKey, electionId, nullifier, signal]
  | .votingVerifyVoteV1 proof publicKey chainId electionId nullifier signal =>
    [proof, publicKey, chainId, electionId, nullifier, signal]

/-- How many bytes the arguments hold. -/
def held (call : Call) : Nat := (call.regions.map Region.len).sum

def run (X : Backends S) : Call → Exec Event Int
  | .verifySignature curveCode publicKey msg sig =>
    phiVerifySignature X.curves curveCode publicKey msg sig
  | .webauthnVerify authData clientDataJson signature challenge publicKey origin rpId requireUv =>
    phiWebauthnVerify S X.parseClientData X.curves.p256 authData clientDataJson signature challenge
      publicKey origin rpId requireUv
  | .bbsVerifyProof proof publicKey nonce => phiBbsVerifyProof X.challengeHash proof publicKey nonce
  | .bbs2023VerifyProof proof publicKey header presentationHeader revealed =>
    phiBbs2023VerifyProof X.blstrs proof publicKey header presentationHeader revealed
  | .computeNullifier secret topic out => do
    let result ← phiComputeNullifier S secret topic out
    pure result.1
  | .semaphoreVerifyVote bbsProof publicKey electionId nullifier signal =>
    phiSemaphoreVerifyVote X.challengeHash bbsProof publicKey electionId nullifier signal
  | .votingVerifyVoteV1 proof publicKey chainId electionId nullifier signal =>
    phiVotingVerifyVoteV1 X.challengeHash proof publicKey chainId electionId nullifier signal

theorem len_le_held {call : Call} {region : Region} (h : region ∈ call.regions) :
    region.len ≤ call.held :=
  List.le_sum_of_mem (List.mem_map_of_mem h)

end Call

/-- **The exports fail closed.** No call reaches a panic, whatever its arguments; it
    returns 0 or 1, keeps every recorded allocation within the claim ceiling or the data
    that it was given, and calls the vendored verifiers within their preconditions.
    `phi_compute_nullifier` writes only when it returns 1, and then the first 32
    bytes of its output. -/
theorem exports_fail_closed (X : Backends S) :
    (∀ call : Call, (call.run X).Meets (Event.Safe call.held) ReturnCode) ∧
    (∀ secret topic out : Region, (phiComputeNullifier S secret topic out).Meets
      (Event.Safe 0) (NullifierWritten S secret topic out)) := by
  refine ⟨fun call => ?_, meets_phiComputeNullifier⟩
  cases call with
  | verifySignature curveCode publicKey msg sig =>
    exact meets_phiVerifySignature X.curves curveCode publicKey msg sig
  | webauthnVerify authData clientDataJson signature challenge publicKey origin rpId requireUv =>
    exact meets_phiWebauthnVerify (Call.len_le_held (by simp [Call.regions]))
  | bbsVerifyProof proof publicKey nonce =>
    exact meets_phiBbsVerifyProof X.challengeHash (Call.len_le_held (by simp [Call.regions]))
  | bbs2023VerifyProof proof publicKey header presentationHeader revealed =>
    exact meets_phiBbs2023VerifyProof X.blstrs (Call.len_le_held (by simp [Call.regions]))
  | computeNullifier secret topic out =>
    apply (meets_phiComputeNullifier secret topic out).bind
    rintro result (⟨hcode, -⟩ | ⟨hcode, -⟩)
    · exact meets_pure (Or.inl hcode)
    · exact meets_pure (Or.inr hcode)
  | semaphoreVerifyVote bbsProof publicKey electionId nullifier signal =>
    exact meets_phiSemaphoreVerifyVote X.challengeHash bbsProof publicKey electionId nullifier
      signal
  | votingVerifyVoteV1 proof publicKey chainId electionId nullifier signal =>
    exact meets_phiVotingVerifyVoteV1 X.challengeHash proof publicKey chainId electionId nullifier
      signal

/-- A selective proof for 64 hidden claims, whose first relation holds for every
    challenge. -/
def wideProof : SelectiveProof where
  messageCount := 64
  revealed := []
  proof := PoKOfSignatureG1Proof.ser (S := smallSuite)
    { aPrime := (1 : ZMod 7)
      aBar := (0 : ZMod 7)
      d := (0 : ZMod 7)
      scResp1 := ⟨(0 : ZMod 7), (0 : ZMod 7), (0 : ZMod 7)⟩
      t2 := (0 : ZMod 7)
      scResp2 := none
      scPartialResp2 := none }

/-- The claim ceiling is not a bound on every allocation: the BBS+ verifier asks for two
    bases more. -/
theorem wideProof_requests_bases :
    ¬ ∀ buffer n, Event.capacity buffer n ∈
      (phiBbsVerifyProof smallOracle (Region.of wideProof.toBytes)
        (Region.of (smallSuite.g2Codec.ser (1 : ZMod 7))) (Region.of [])).trace → n ≤ 64 := by
  intro h
  exact absurd (h .schnorrBases 66 (by decide +kernel)) (by decide)

end PhiCrypto

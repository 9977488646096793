import PhiCrypto.Bbs2023Wire
import PhiCrypto.DedupKey
import PhiCrypto.RevealedDecoders
import PhiCrypto.SuiteContract

/-!
# The claim ceiling at the C ABI

`MAX_BBS_MESSAGES` bounds the claims that an export accepts. Three exports read
`message_count` and check it, and their verifiers tie it to the responses in the
proof. `phi_bbs2023_verify_proof` has no such field: `decode_revealed` bounds the
revealed claims, and nothing bounds the hidden ones, whose number is the length of
the proof. So an honest presentation passes the export for a credential with any number
of claims (`presentation_call_accepted_iff`).
-/

namespace PhiCrypto

open Exec

variable {S : Suite}

/-- A proof body with `revealed` revealed claims is over `count` claims: there is a
    response for each hidden claim and two more. -/
def ClaimCount (S : Suite) (body : Bytes) (revealed count : Nat) : Prop :=
  ∃ (p : PoKOfSignatureG1Proof S) (resp : List S.Fr),
    deser PoKOfSignatureG1Proof.decoder body = .ok p ∧ p.scResp2 = some resp ∧
      count = revealed + (resp.length - 2)

/-! ### The exports with a claim count -/

theorem claimCount_of_verifyProofBytes {H : Bytes → S.Fr} {b pk nonce : Bytes}
    (h : (verifyProofBytes H b pk nonce).Returns true) :
    ∃ p count, (SelectiveProof.fromBytes b).run.Returns (.ok p) ∧
      ClaimCount S p.proof p.revealed.length count ∧ count ≤ 64 := by
  obtain ⟨p, hdecode, hverify⟩ := (verifyProofBytes_returns_true_iff H b pk nonce).mp h
  obtain ⟨key, body, -, hbody, hacc⟩ := (verifyProof_returns_true_iff H p pk nonce).mp hverify
  obtain ⟨resp, hresp, hcount⟩ := hacc.accepts.count_eq hacc.distinct hacc.in_range
  exact ⟨p, p.messageCount.toNat, hdecode, ⟨body, resp, hbody, hresp, hcount⟩, hacc.count_le⟩

theorem claimCount_of_phiBbsVerifyProof {H : Bytes → S.Fr} {proof publicKey nonce : Region}
    (h : (phiBbsVerifyProof H proof publicKey nonce).Returns 1) :
    ∃ b p count, asSlice proof = some b ∧ (SelectiveProof.fromBytes b).run.Returns (.ok p) ∧
      ClaimCount S p.proof p.revealed.length count ∧ count ≤ 64 := by
  unfold phiBbsVerifyProof guard at h
  split at h
  case h_2 => cases h
  case h_1 b pk n hproof hpk hnonce =>
  obtain ⟨p, count, hp⟩ := claimCount_of_verifyProofBytes (returns_one_iff.mp h)
  exact ⟨b, p, count, hproof, hp⟩

theorem claimCount_of_phiSemaphoreVerifyVote {H : Bytes → S.Fr}
    {bbsProof publicKey electionId nullifier signal : Region}
    (h : (phiSemaphoreVerifyVote H bbsProof publicKey electionId nullifier signal).Returns 1) :
    ∃ b p count, asSlice bbsProof = some b ∧ (SelectiveProof.fromBytes b).run.Returns (.ok p) ∧
      ClaimCount S p.proof p.revealed.length count ∧ count ≤ 64 := by
  unfold phiSemaphoreVerifyVote guard at h
  split at h
  case h_2 => cases h
  case h_1 b pk election sig hproof hpk helection hsignal =>
  split at h
  · cases h
  split at h
  · cases h
  obtain ⟨p, count, hp⟩ := claimCount_of_verifyProofBytes (returns_one_iff.mp h)
  exact ⟨b, p, count, hproof, hp⟩

theorem VoteCall.claimCount {H : Bytes → S.Fr} {call : VoteCall} (h : (call.run H).Returns 1) :
    ∃ (p : VoteProof S) (count : Nat), call.Embeds p ∧
      ClaimCount S p.bbsProof p.revealed.length count ∧ count ≤ 64 := by
  obtain ⟨p, b, pk, chain, election, null, sig, hacc⟩ := VoteCall.accepted_of_returns_one h
  obtain ⟨o, hopen, haccepted⟩ := (verifyVoteProof_returns_true_iff _ _ _ _ _ _).mp hacc.verifies
  obtain ⟨resp, hresp, hcount⟩ := haccepted.bbs_accepts.count_eq haccepted.distinct
    fun k hk => (haccepted.in_range k hk).2
  exact ⟨p, p.messageCount.toNat, ⟨b, hacc.proof_eq, hacc.decodes⟩,
    ⟨o.bbs, resp, hopen.bbs_eq, hresp, hcount⟩, haccepted.count_le⟩

/-! ### The export without one -/

/-- The arguments of a call of `phi_bbs2023_verify_proof`. -/
structure Bbs2023Call where
  proof : Region
  publicKey : Region
  header : Region
  presentationHeader : Region
  revealed : Region

namespace Bbs2023Call

def run (B : Blstrs S) (call : Bbs2023Call) : Exec Event Int :=
  phiBbs2023VerifyProof B call.proof call.publicKey call.header call.presentationHeader
    call.revealed

/-- What the call reads from its arguments. -/
structure Reads (call : Bbs2023Call) (p pk h ph : Bytes) (revealed : List (Nat × Bytes)) :
    Prop where
  proof_eq : asSlice call.proof = some p
  publicKey_eq : asSlice call.publicKey = some pk
  header_eq : asSlice call.header = some h
  presentationHeader_eq : asSlice call.presentationHeader = some ph
  revealed_eq : ∃ rev, asSlice call.revealed = some rev ∧
    (decodeRevealed rev).Returns (some revealed)

theorem run_of_reads (B : Blstrs S) {call : Bbs2023Call} {p pk h ph : Bytes}
    {revealed : List (Nat × Bytes)} (hreads : call.Reads p pk h ph revealed) :
    (call.run B).Returns 1 ↔ Bbs2023Accepts B pk h ph p revealed := by
  obtain ⟨rev, hrev, hdecode⟩ := hreads.revealed_eq
  unfold run phiBbs2023VerifyProof guard
  rw [hreads.proof_eq, hreads.publicKey_eq, hreads.header_eq, hreads.presentationHeader_eq, hrev,
    ← bbs2023ProofVerify_returns_true_iff, ← returns_one_iff]
  dsimp only
  rw [returns_bind_iff]
  constructor
  · rintro ⟨out, hout, hcode⟩
    cases hdecode.unique hout
    exact hcode
  · intro hcode
    exact ⟨some revealed, hdecode, hcode⟩

theorem reads_of_returns_one {B : Blstrs S} {call : Bbs2023Call} (h : (call.run B).Returns 1) :
    ∃ p pk h ph revealed, call.Reads p pk h ph revealed := by
  unfold run phiBbs2023VerifyProof guard at h
  split at h
  case h_2 => cases h
  case h_1 p pk header ph rev hproof hpk hheader hph hrev =>
  obtain ⟨out, hdecode, hcode⟩ := returns_bind_iff.mp h
  cases out with
  | none => cases hcode
  | some revealed =>
    exact ⟨p, pk, header, ph, revealed, hproof, hpk, hheader, hph, rev, hrev, hdecode⟩

theorem Reads.unique {call : Bbs2023Call} {p pk h ph p' pk' h' ph' : Bytes}
    {revealed revealed' : List (Nat × Bytes)} (hreads : call.Reads p pk h ph revealed)
    (hreads' : call.Reads p' pk' h' ph' revealed') : p = p' ∧ revealed = revealed' := by
  obtain ⟨rev, hrev, hdecode⟩ := hreads.revealed_eq
  obtain ⟨rev', hrev', hdecode'⟩ := hreads'.revealed_eq
  cases hreads.proof_eq.symm.trans hreads'.proof_eq
  cases hrev.symm.trans hrev'
  cases hdecode.unique hdecode'
  exact ⟨rfl, rfl⟩

/-- The accepted proof is over at most 64 claims, revealed and hidden together. -/
def WithinCeiling (B : Blstrs S) (call : Bbs2023Call) : Prop :=
  ∃ p pk h ph revealed q, call.Reads p pk h ph revealed ∧
    (PairingCrypto.Proof.fromOctets B p).run.Returns (.ok q) ∧
    revealed.length + q.mHatList.length ≤ 64

/-- The ceiling holds exactly for the accepted calls whose proof is short enough. -/
theorem withinCeiling_iff {B : Blstrs S} {call : Bbs2023Call} {p pk h ph : Bytes}
    {revealed : List (Nat × Bytes)} (hreads : call.Reads p pk h ph revealed)
    (hone : (call.run B).Returns 1) :
    call.WithinCeiling B ↔ p.length + 32 * revealed.length ≤ 192 + 32 * 64 := by
  constructor
  · rintro ⟨p', pk', h', ph', revealed', q, hreads', hq, hle⟩
    obtain ⟨rfl, rfl⟩ := hreads.unique hreads'
    have hlen := PairingCrypto.fromOctets_length hq
    omega
  · intro hle
    obtain ⟨q, hq, hlen, -⟩ := ((run_of_reads B hreads).mp hone).total
    exact ⟨p, pk, h, ph, revealed, q, hreads, hq, by omega⟩

end Bbs2023Call

/-! ### Presentations at the C ABI -/

namespace Bbs2023Call

/-- The call for a proof and a nonce, with the claims as `decode_revealed` reads them. -/
def ofProof (p : SelectiveProof) (publicKey nonce : Bytes) : Bbs2023Call where
  proof := Region.of p.proof
  publicKey := Region.of publicKey
  header := Region.of []
  presentationHeader := Region.of nonce
  revealed := Region.of (listBytes p.revealed)

theorem reads_ofProof {p : SelectiveProof} (hlist : DecodedList p.revealed)
    (publicKey nonce : Bytes) :
    (ofProof p publicKey nonce).Reads p.proof publicKey [] nonce (usizeEntries p.revealed) where
  proof_eq := asSlice_of _
  publicKey_eq := asSlice_of _
  header_eq := asSlice_of _
  presentationHeader_eq := asSlice_of _
  revealed_eq := ⟨_, asSlice_of _, decodeRevealed_usizeEntries_iff.mpr ⟨hlist, rfl⟩⟩

end Bbs2023Call

section Presentation

variable {B : Blstrs S} {claims : List Bytes} {signature nonce : Bytes} {reveal : List Nat}
  {p : SelectiveProof}

/-- The export accepts a presentation exactly when it decodes, whatever the number of
    claims, and this number decides whether the ceiling is kept. -/
theorem presentation_call_accepted_iff (hB : B.Encodes) (hcount : claims.length ≤ 2 ^ 32)
    (hshort : ∀ claim ∈ claims, claim.length < 2 ^ 32)
    (h : Succeeds (Bbs2023Sha256.deriveProof B claims signature reveal nonce) p)
    (hrevealed : p.revealed.length ≤ 64) :
    (((Bbs2023Call.ofProof p (signature.take publicKeyLen) nonce).run B).Returns 1 ↔
      ∃ q, (PairingCrypto.Proof.fromOctets B p.proof).run.Returns (.ok q)) ∧
    (((Bbs2023Call.ofProof p (signature.take publicKeyLen) nonce).run B).Returns 1 →
      ((Bbs2023Call.ofProof p (signature.take publicKeyLen) nonce).WithinCeiling B ↔
        claims.length ≤ 64)) := by
  have hderived := Bbs2023Sha256.derived_of_succeeds hB.g1_length h
  have hlist : DecodedList p.revealed := by
    rw [hderived.revealed_eq] at hrevealed ⊢
    exact ⟨hrevealed, provenClaims_increasing hderived.reveal_lt hcount,
      provenClaims_short hderived.reveal_lt hshort⟩
  have hreads := Bbs2023Call.reads_ofProof hlist (signature.take publicKeyLen) nonce
  constructor
  · rw [Bbs2023Call.run_of_reads B hreads, ← bbs2023_verifyProof_returns_true_iff]
    exact presentation_accepted_iff hB hcount h
  · intro hone
    have hlen := hderived.proof_length
    rw [Bbs2023Call.withinCeiling_iff hreads hone, length_usizeEntries]
    omega

end Presentation

theorem manyClaimsProof_verifies :
    (Bbs2023Sha256.verifyProof smallBlstrs manyClaimsProof smallBbs2023Key []).Returns true := by
  decide +kernel

/-- **The claim ceiling, export by export.** An accepted proof of the first suite, bare,
    bound to an election or in a vote, is over at most 64 claims. An honest presentation
    of the second suite with at most 64 revealed claims is accepted by
    `phi_bbs2023_verify_proof` if it decodes, however many claims it hides: the ceiling is
    kept on no credential with more than 64. -/
theorem claim_ceiling (H : Bytes → S.Fr) (B : Blstrs S) :
    (∀ proof publicKey nonce : Region, (phiBbsVerifyProof H proof publicKey nonce).Returns 1 →
      ∃ b p count, asSlice proof = some b ∧ (SelectiveProof.fromBytes b).run.Returns (.ok p) ∧
        ClaimCount S p.proof p.revealed.length count ∧ count ≤ 64) ∧
    (∀ bbsProof publicKey electionId nullifier signal : Region,
      (phiSemaphoreVerifyVote H bbsProof publicKey electionId nullifier signal).Returns 1 →
      ∃ b p count, asSlice bbsProof = some b ∧ (SelectiveProof.fromBytes b).run.Returns (.ok p) ∧
        ClaimCount S p.proof p.revealed.length count ∧ count ≤ 64) ∧
    (∀ call : VoteCall, (call.run H).Returns 1 →
      ∃ (p : VoteProof S) (count : Nat), call.Embeds p ∧
        ClaimCount S p.bbsProof p.revealed.length count ∧ count ≤ 64) ∧
    (B.Encodes → ∀ (claims : List Bytes) (signature : Bytes) (reveal : List Nat) (nonce : Bytes)
        (p : SelectiveProof), claims.length ≤ 2 ^ 32 → (∀ claim ∈ claims, claim.length < 2 ^ 32) →
      Succeeds (Bbs2023Sha256.deriveProof B claims signature reveal nonce) p →
      p.revealed.length ≤ 64 →
      (∃ q, (PairingCrypto.Proof.fromOctets B p.proof).run.Returns (.ok q)) →
      ((Bbs2023Call.ofProof p (signature.take publicKeyLen) nonce).run B).Returns 1 ∧
        (64 < claims.length →
          ¬ (Bbs2023Call.ofProof p (signature.take publicKeyLen) nonce).WithinCeiling B) ∧
        (claims.length ≤ 64 →
          (Bbs2023Call.ofProof p (signature.take publicKeyLen) nonce).WithinCeiling B)) := by
  refine ⟨fun _ _ _ => claimCount_of_phiBbsVerifyProof,
    fun _ _ _ _ _ => claimCount_of_phiSemaphoreVerifyVote, fun _ => VoteCall.claimCount, ?_⟩
  intro hB claims signature reveal nonce p hcount hshort hderive hrevealed hdecodes
  obtain ⟨haccepted, hceiling⟩ := presentation_call_accepted_iff hB hcount hshort hderive hrevealed
  have hone := haccepted.mpr hdecodes
  refine ⟨hone, ?_, (hceiling hone).mpr⟩
  intro hmany hwithin
  exact absurd ((hceiling hone).mp hwithin) (not_le.mpr hmany)

/-- A presentation of 65 claims, 64 of them revealed, is derived and accepted. -/
theorem manyClaimsProof_over_ceiling :
    Succeeds (Bbs2023Sha256.deriveProof smallBlstrs manyClaims manyClaimsCredential
        (List.range 64) []) manyClaimsProof ∧
      ((Bbs2023Call.ofProof manyClaimsProof (manyClaimsCredential.take publicKeyLen) []).run
        smallBlstrs).Returns 1 ∧
      ¬ (Bbs2023Call.ofProof manyClaimsProof (manyClaimsCredential.take publicKeyLen)
        []).WithinCeiling smallBlstrs := by
  obtain ⟨q, hq, -⟩ := (bbs2023_verifyProof_returns_true_iff.mp manyClaimsProof_verifies).total
  obtain ⟨hone, hmany, -⟩ := (claim_ceiling smallOracle smallBlstrs).2.2.2
    smallBlstrs_canonical.toEncodes manyClaims manyClaimsCredential (List.range 64) []
    manyClaimsProof (by decide) (by decide) manyClaimsProof_derived (by decide +kernel) ⟨q, hq⟩
  exact ⟨manyClaimsProof_derived, hone, hmany (by decide)⟩

/-- The presentation of 65 claims at the C ABI. -/
def manyClaimsCall : Bbs2023Call := .ofProof manyClaimsProof smallBbs2023Key []

theorem manyClaimsCall_reads :
    manyClaimsCall.Reads manyClaimsProof.proof smallBbs2023Key [] []
      (usizeEntries manyClaimsProof.revealed) :=
  Bbs2023Call.reads_ofProof ⟨by decide +kernel, by decide +kernel, by decide +kernel⟩ _ _

/-- The export accepts 64 revealed claims and a hidden one. -/
theorem manyClaims_accepted :
    (manyClaimsCall.run smallBlstrs).Returns 1 ∧ ¬ manyClaimsCall.WithinCeiling smallBlstrs := by
  have haccepts := bbs2023ProofVerify_returns_true_iff.mp manyClaimsProof_verifies
  refine ⟨(Bbs2023Call.run_of_reads smallBlstrs manyClaimsCall_reads).mpr haccepts, ?_⟩
  rintro ⟨p, pk, h, ph, revealed, q, hreads, hq, hle⟩
  obtain ⟨rfl, rfl⟩ := manyClaimsCall_reads.unique hreads
  have hlen := PairingCrypto.fromOctets_length hq
  have hproof : manyClaimsProof.proof.length = 224 := by decide +kernel
  have hrevealed : (usizeEntries manyClaimsProof.revealed).length = 64 := by decide +kernel
  omega

end PhiCrypto

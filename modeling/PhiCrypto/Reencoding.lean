import PhiCrypto.NonMalleability

/-!
# Re-encoding accepted proofs

The wire formats around a proof are canonical, but the body inside is an
`ark-serialize` structure, and verification does not look at all of it. Two
accepted byte strings with the same checked components may differ in two places:
in the bytes of an identity point, and in `sc_partial_resp_2`, which the verifier
never reads once there is a full response. They differ nowhere else
(`body_eq_iff`), so a proof has one accepted encoding exactly as far as these
bytes are fixed.
-/

namespace PhiCrypto

open Exec

variable {S : Suite}

namespace PoKOfSignatureG1Proof

/-- The proofs agree on all that verification checks. -/
structure SameChecked (p p' : PoKOfSignatureG1Proof S) : Prop where
  aPrime : p.aPrime = p'.aPrime
  aBar : p.aBar = p'.aBar
  d : p.d = p'.d
  scResp1 : p.scResp1 = p'.scResp1
  t2 : p.t2 = p'.t2
  scResp2 : p.scResp2 = p'.scResp2

/-- Where the last field starts. -/
def partialOffset (p : PoKOfSignatureG1Proof S) : Nat := 313 + 32 * (p.scResp2.getD []).length

/-- Two encodings of `p` agree where verification does not look: on its identity points
    and on `sc_partial_resp_2`. -/
structure SameUnchecked (p : PoKOfSignatureG1Proof S) (b b' : Bytes) : Prop where
  aBar : p.aBar = 0 → byteRange b 48 48 = byteRange b' 48 48
  d : p.d = 0 → byteRange b 96 48 = byteRange b' 96 48
  t1 : p.scResp1.t = 0 → byteRange b 144 48 = byteRange b' 144 48
  t2 : p.t2 = 0 → byteRange b 256 48 = byteRange b' 256 48
  partialResp : b.drop p.partialOffset = b'.drop p.partialOffset

end PoKOfSignatureG1Proof

/-- Only the identity has a choice of encodings. -/
theorem PointCodec.raw_eq {G : Type} [Zero G] {size : Nat} (codec : PointCodec G size)
    {raw raw' : Bytes} {P : G} (h : raw.length = size ∧ codec.de raw = some P)
    (h' : raw'.length = size ∧ codec.de raw' = some P) (hzero : P = 0 → raw = raw') :
    raw = raw' := by
  by_cases hP : P = 0
  · exact hzero hP
  · rw [codec.canonical h.1 h.2 hP, codec.canonical h'.1 h'.2 hP]

namespace PoKOfSignatureG1Proof

/-- `b` encodes `p`, with these bytes for the five points and for the last field. -/
structure Layout (p : PoKOfSignatureG1Proof S)
    (b rawAPrime rawABar rawD rawT1 rawT2 tail : Bytes) : Prop where
  aPrime : rawAPrime.length = 48 ∧ S.g1Codec.de rawAPrime = some p.aPrime
  aBar : rawABar.length = 48 ∧ S.g1Codec.de rawABar = some p.aBar
  d : rawD.length = 48 ∧ S.g1Codec.de rawD = some p.d
  t1 : rawT1.length = 48 ∧ S.g1Codec.de rawT1 = some p.scResp1.t
  t2 : rawT2.length = 48 ∧ S.g1Codec.de rawT2 = some p.t2
  bytes : b = rawAPrime ++ (rawABar ++ (rawD ++ (rawT1 ++ ((S.serFr p.scResp1.response1
    ++ S.serFr p.scResp1.response2) ++ (rawT2 ++ (Ark.boolBytes true
    ++ Ark.vecBytes S.serFr (p.scResp2.getD []) ++ tail))))))

variable {p p' : PoKOfSignatureG1Proof S} {b b' : Bytes} {responses : List S.Fr}

theorem exists_layout (h : deser decoder b = .ok p) (hresp : p.scResp2 = some responses) :
    ∃ rawAPrime rawABar rawD rawT1 rawT2 tail,
      p.Layout b rawAPrime rawABar rawD rawT1 rawT2 tail := by
  obtain ⟨rawAPrime, rawABar, rawD, rawT1, rawT2, tail, hA, hB, hD, hT1, hT2, -, hb⟩ :=
    decoder_sound (deser_eq_ok_iff.mp h) hresp
  refine ⟨rawAPrime, rawABar, rawD, rawT1, rawT2, tail, hA, hB, hD, hT1, hT2, ?_⟩
  rw [hb, hresp]
  simp only [List.append_assoc, Option.getD_some]

namespace Layout

variable {rawAPrime rawABar rawD rawT1 rawT2 tail : Bytes}
  (h : p.Layout b rawAPrime rawABar rawD rawT1 rawT2 tail)
include h

theorem byteRange_aBar : byteRange b 48 48 = rawABar := by
  rw [h.bytes, byteRange_append_right h.aPrime.1 0]
  exact byteRange_append_left h.aBar.1

theorem byteRange_d : byteRange b 96 48 = rawD := by
  rw [h.bytes, byteRange_append_right h.aPrime.1 48, byteRange_append_right h.aBar.1 0]
  exact byteRange_append_left h.d.1

theorem byteRange_t1 : byteRange b 144 48 = rawT1 := by
  rw [h.bytes, byteRange_append_right h.aPrime.1 96, byteRange_append_right h.aBar.1 48,
    byteRange_append_right h.d.1 0]
  exact byteRange_append_left h.t1.1

/-- The encoding after the two responses of the first relation. -/
theorem drop_responses1 (lo : Nat) : b.drop (256 + lo)
    = (rawT2 ++ (Ark.boolBytes true ++ Ark.vecBytes S.serFr (p.scResp2.getD []) ++ tail)).drop lo := by
  have hlen : (S.serFr p.scResp1.response1 ++ S.serFr p.scResp1.response2).length = 64 := by simp
  rw [h.bytes, show 256 + lo = 48 + (48 + (48 + (48 + (64 + lo)))) by omega,
    drop_append_right h.aPrime.1, drop_append_right h.aBar.1, drop_append_right h.d.1,
    drop_append_right h.t1.1, drop_append_right hlen]

theorem byteRange_t2 : byteRange b 256 48 = rawT2 := by
  rw [byteRange, h.drop_responses1 0]
  exact byteRange_append_left h.t2.1

theorem drop_partialOffset : b.drop p.partialOffset = tail := by
  have hlen : (Ark.boolBytes true ++ Ark.vecBytes S.serFr (p.scResp2.getD [])).length
      = 9 + 32 * (p.scResp2.getD []).length := by
    simp only [Ark.boolBytes, Ark.vecBytes, List.length_append, leBytes_length,
      PoKOfSignatureG1Proof.length_flatten_serFr]
    simp
    omega
  rw [partialOffset, show 313 + 32 * (p.scResp2.getD []).length
      = 256 + (48 + ((9 + 32 * (p.scResp2.getD []).length) + 0)) by omega,
    h.drop_responses1, drop_append_right h.t2.1, drop_append_right hlen, List.drop_zero]

end Layout

/-- Two encodings of a proof with a full response and a non-identity `A'` are equal as
    soon as they agree where verification does not look. -/
theorem body_eq_iff (hp : deser decoder b = .ok p) (hp' : deser decoder b' = .ok p')
    (hresp : p.scResp2 = some responses) (hne : p.aPrime ≠ 0) (hsame : p.SameChecked p') :
    b = b' ↔ p.SameUnchecked b b' := by
  constructor
  · rintro rfl
    exact ⟨fun _ => rfl, fun _ => rfl, fun _ => rfl, fun _ => rfl, rfl⟩
  intro hunchecked
  obtain ⟨rawAPrime, rawABar, rawD, rawT1, rawT2, tail, h⟩ := exists_layout hp hresp
  obtain ⟨rawAPrime', rawABar', rawD', rawT1', rawT2', tail', h'⟩ :=
    exists_layout hp' (hsame.scResp2 ▸ hresp)
  have hoffset : p.partialOffset = p'.partialOffset := by
    rw [partialOffset, partialOffset, hsame.scResp2]
  have hAPrime : rawAPrime = rawAPrime' :=
    S.g1Codec.raw_eq h.aPrime (hsame.aPrime ▸ h'.aPrime) (fun hzero => absurd hzero hne)
  have hABar : rawABar = rawABar' := by
    refine S.g1Codec.raw_eq h.aBar (hsame.aBar ▸ h'.aBar) (fun hzero => ?_)
    rw [← h.byteRange_aBar, ← h'.byteRange_aBar, hunchecked.aBar hzero]
  have hD : rawD = rawD' := by
    refine S.g1Codec.raw_eq h.d (hsame.d ▸ h'.d) (fun hzero => ?_)
    rw [← h.byteRange_d, ← h'.byteRange_d, hunchecked.d hzero]
  have hT1 : rawT1 = rawT1' := by
    refine S.g1Codec.raw_eq h.t1 (hsame.scResp1 ▸ h'.t1) (fun hzero => ?_)
    rw [← h.byteRange_t1, ← h'.byteRange_t1, hunchecked.t1 hzero]
  have hT2 : rawT2 = rawT2' := by
    refine S.g1Codec.raw_eq h.t2 (hsame.t2 ▸ h'.t2) (fun hzero => ?_)
    rw [← h.byteRange_t2, ← h'.byteRange_t2, hunchecked.t2 hzero]
  have htail : tail = tail' := by
    rw [← h.drop_partialOffset, ← h'.drop_partialOffset, ← hoffset, hunchecked.partialResp]
  rw [h.bytes, h'.bytes, hAPrime, hABar, hD, hT1, hT2, htail, hsame.scResp1, hsame.scResp2]

end PoKOfSignatureG1Proof

/-- Two encodings of a discrete-logarithm proof differ at most in an identity point. -/
theorem PokDiscreteLog.bytes_eq_iff {p : PokDiscreteLog S} {b b' : Bytes}
    (hp : deser decoder b = .ok p) (hp' : deser decoder b' = .ok p) :
    b = b' ↔ (p.t = 0 → byteRange b 0 48 = byteRange b' 0 48) := by
  constructor
  · rintro rfl _
    rfl
  intro hzero
  obtain ⟨rawT, hlen, hde, rfl⟩ := decoder_sound (deser_eq_ok_iff.mp hp)
  obtain ⟨rawT', hlen', hde', rfl⟩ := decoder_sound (deser_eq_ok_iff.mp hp')
  simp only [List.append_assoc, byteRange_append_left hlen, byteRange_append_left hlen'] at hzero
  rw [S.g1Codec.raw_eq ⟨hlen, hde⟩ ⟨hlen', hde'⟩ hzero]

/-! ### Accepted byte strings -/

/-- Bytes that `verify_proof_bytes` accepts, with what they decode to. -/
structure AcceptedSelective (H : Bytes → S.Fr) (issuerPk nonce b : Bytes) (proof : SelectiveProof)
    (p : PoKOfSignatureG1Proof S) : Prop where
  accepted : (verifyProofBytes H b issuerPk nonce).Returns true
  decodes : (SelectiveProof.fromBytes b).run.Returns (.ok proof)
  body : deser PoKOfSignatureG1Proof.decoder proof.proof = .ok p

/-- Bytes that `verify_vote` accepts, with what they decode to. -/
structure AcceptedVote (H : Bytes → S.Fr) (issuerPk chainId electionId signal b : Bytes)
    (proof : VoteProof S) (bbs : PoKOfSignatureG1Proof S) (dl : PokDiscreteLog S) : Prop where
  accepted : (verifyVote H b issuerPk chainId electionId signal).Returns true
  decodes : (VoteProof.fromBytes b).run.Returns (.ok proof)
  bbs_eq : deser PoKOfSignatureG1Proof.decoder proof.bbsProof = .ok bbs
  dl_eq : deser PokDiscreteLog.decoder proof.dlProof = .ok dl

section Accepted

variable {H : Bytes → S.Fr} {issuerPk nonce chainId electionId signal b b' : Bytes}
  {p : PoKOfSignatureG1Proof S} {dl : PokDiscreteLog S}

theorem AcceptedSelective.full_response {proof : SelectiveProof}
    (h : AcceptedSelective H issuerPk nonce b proof p) :
    p.aPrime ≠ 0 ∧ ∃ responses, p.scResp2 = some responses := by
  obtain ⟨q, hq, hverify⟩ := (verifyProofBytes_returns_true_iff _ _ _ _).mp h.accepted
  cases h.decodes.unique hq
  obtain ⟨pk, hacc⟩ := SelectiveProof.accepted_of_returns h.body hverify
  rcases hacc.accepts.second with ⟨responses, hresp, -⟩
  exact ⟨hacc.accepts.aPrime_ne_zero, responses, hresp⟩

theorem AcceptedVote.full_response {proof : VoteProof S}
    (h : AcceptedVote H issuerPk chainId electionId signal b proof p dl) :
    p.aPrime ≠ 0 ∧ ∃ responses, p.scResp2 = some responses := by
  obtain ⟨q, hq, hverify⟩ := (verifyVote_returns_true_iff _ _ _ _ _ _).mp h.accepted
  cases h.decodes.unique hq
  obtain ⟨o, hopen, hacc⟩ := (verifyVoteProof_returns_true_iff _ _ _ _ _ _).mp hverify
  cases h.bbs_eq.symm.trans hopen.bbs_eq
  rcases hacc.bbs_accepts.second with ⟨responses, hresp, -⟩
  exact ⟨hacc.bbs_accepts.aPrime_ne_zero, responses, hresp⟩

theorem AcceptedSelective.bytes_eq_iff {proof proof' : SelectiveProof}
    {p' : PoKOfSignatureG1Proof S} (h : AcceptedSelective H issuerPk nonce b proof p)
    (h' : AcceptedSelective H issuerPk nonce b' proof' p')
    (hcount : proof.messageCount = proof'.messageCount)
    (hrevealed : proof.revealed = proof'.revealed) :
    b = b' ↔ proof.proof = proof'.proof := by
  obtain ⟨-, hb⟩ := (SelectiveProof.fromBytes_returns_iff b proof).mp h.decodes
  obtain ⟨-, hb'⟩ := (SelectiveProof.fromBytes_returns_iff b' proof').mp h'.decodes
  constructor
  · rintro rfl
    cases h.decodes.unique h'.decodes
    rfl
  · intro hbody
    obtain ⟨count, body, revealed⟩ := proof
    obtain ⟨count', body', revealed'⟩ := proof'
    cases hcount
    cases hbody
    cases hrevealed
    rw [hb, hb']

theorem AcceptedVote.bytes_eq_iff {proof proof' : VoteProof S}
    {p' : PoKOfSignatureG1Proof S} {dl' : PokDiscreteLog S}
    (h : AcceptedVote H issuerPk chainId electionId signal b proof p dl)
    (h' : AcceptedVote H issuerPk chainId electionId signal b' proof' p' dl')
    (hcount : proof.messageCount = proof'.messageCount)
    (hrevealed : proof.revealed = proof'.revealed)
    (hnullifier : proof.nullifier = proof'.nullifier) :
    b = b' ↔ proof.bbsProof = proof'.bbsProof ∧ proof.dlProof = proof'.dlProof := by
  obtain ⟨-, hb⟩ := (VoteProof.fromBytes_returns_iff b proof).mp h.decodes
  obtain ⟨-, hb'⟩ := (VoteProof.fromBytes_returns_iff b' proof').mp h'.decodes
  constructor
  · rintro rfl
    cases h.decodes.unique h'.decodes
    exact ⟨rfl, rfl⟩
  · rintro ⟨hbbs, hdl⟩
    obtain ⟨count, revealed, bbs, dlProof, nullifier⟩ := proof
    obtain ⟨count', revealed', bbs', dlProof', nullifier'⟩ := proof'
    cases hcount
    cases hrevealed
    cases hbbs
    cases hdl
    cases hnullifier
    rw [hb, hb']

end Accepted

/-- **One encoding up to the unchecked bytes.** Accepted byte strings that agree on
    every checked component are equal exactly when they also agree on the bytes
    of their identity points and on those of `sc_partial_resp_2`. -/
theorem accepted_encoding_unique_iff (H : Bytes → S.Fr) (issuerPk : Bytes) :
    (∀ (nonce b b' : Bytes) (proof proof' : SelectiveProof) (p p' : PoKOfSignatureG1Proof S),
      AcceptedSelective H issuerPk nonce b proof p →
      AcceptedSelective H issuerPk nonce b' proof' p' →
      proof.messageCount = proof'.messageCount → proof.revealed = proof'.revealed →
      p.SameChecked p' →
      (b = b' ↔ p.SameUnchecked proof.proof proof'.proof)) ∧
    (∀ (chainId electionId signal b b' : Bytes) (proof proof' : VoteProof S)
      (p p' : PoKOfSignatureG1Proof S) (dl : PokDiscreteLog S),
      AcceptedVote H issuerPk chainId electionId signal b proof p dl →
      AcceptedVote H issuerPk chainId electionId signal b' proof' p' dl →
      proof.messageCount = proof'.messageCount → proof.revealed = proof'.revealed →
      proof.nullifier = proof'.nullifier → p.SameChecked p' →
      (b = b' ↔ p.SameUnchecked proof.bbsProof proof'.bbsProof ∧
        (dl.t = 0 → byteRange proof.dlProof 0 48 = byteRange proof'.dlProof 0 48))) := by
  constructor
  · intro nonce b b' proof proof' p p' h h' hcount hrevealed hsame
    rcases h.full_response with ⟨hne, responses, hresp⟩
    rw [h.bytes_eq_iff h' hcount hrevealed]
    exact PoKOfSignatureG1Proof.body_eq_iff h.body h'.body hresp hne hsame
  · intro chainId electionId signal b b' proof proof' p p' dl h h' hcount hrevealed hnullifier hsame
    rcases h.full_response with ⟨hne, responses, hresp⟩
    rw [h.bytes_eq_iff h' hcount hrevealed hnullifier,
      PoKOfSignatureG1Proof.body_eq_iff h.bbs_eq h'.bbs_eq hresp hne hsame,
      PokDiscreteLog.bytes_eq_iff h.dl_eq h'.dl_eq]

/-- `crossBbs` with a partial response that nothing reads. -/
def reencodedBbs : PoKOfSignatureG1Proof smallSuite :=
  { crossBbs with scPartialResp2 := some { responses := .empty, totalResponses := 0 } }

def reencodedProof : SelectiveProof := { crossProof with proof := reencodedBbs.ser }

def reencodedVote : VoteProof smallSuite := { crossVote with bbsProof := reencodedBbs.ser }

theorem crossProof_has_two_encodings :
    (AcceptedSelective smallOracle smallKey [] crossProof.toBytes crossProof crossBbs ∧
      AcceptedSelective smallOracle smallKey [] reencodedProof.toBytes reencodedProof reencodedBbs ∧
      crossProof.messageCount = reencodedProof.messageCount ∧
      crossProof.revealed = reencodedProof.revealed ∧
      crossProof.toBytes ≠ reencodedProof.toBytes) ∧
    (AcceptedVote smallOracle smallKey [] [2] [0] crossVote.encoding crossVote crossBbs crossDl ∧
      AcceptedVote smallOracle smallKey [] [2] [0] reencodedVote.encoding reencodedVote reencodedBbs
        crossDl ∧
      crossVote.messageCount = reencodedVote.messageCount ∧
      crossVote.revealed = reencodedVote.revealed ∧
      crossVote.nullifier = reencodedVote.nullifier ∧
      crossVote.encoding ≠ reencodedVote.encoding) ∧
    crossBbs.SameChecked reencodedBbs := by
  have hbody : deser PoKOfSignatureG1Proof.decoder crossBbs.ser = .ok crossBbs :=
    PoKOfSignatureG1Proof.deser_ser rfl rfl (show 3 < 2 ^ 64 by decide)
  have hbody' : deser PoKOfSignatureG1Proof.decoder reencodedBbs.ser = .ok reencodedBbs := by
    decide +kernel
  have hdl : deser PokDiscreteLog.decoder crossDl.ser = .ok crossDl := PokDiscreteLog.deser_ser _
  refine ⟨⟨⟨?_, ?_, hbody⟩, ⟨?_, ?_, hbody'⟩, rfl, rfl, ?_⟩,
    ⟨⟨?_, ?_, hbody, hdl⟩, ⟨?_, ?_, hbody', hdl⟩, rfl, rfl, rfl, ?_⟩, ⟨rfl, rfl, rfl, rfl, rfl, rfl⟩⟩
  all_goals decide +kernel

end PhiCrypto

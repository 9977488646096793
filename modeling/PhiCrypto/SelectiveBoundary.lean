import PhiCrypto.Selective
import PhiCrypto.SmallSuite

/-!
# The two entry points of selective verification

A selective proof is verified as a value (`verify_proof`, whose fields a caller
fills in) or from bytes (`verify_proof_bytes`). The decoder orders the revealed
indices and bounds the counts, the verifier inserts the indices into a map and
bounds the counts again. Both accept the same proofs but for the order of the
revealed list, and on a value the order does not matter.
-/

namespace PhiCrypto

open Exec

variable {S : Suite}

namespace SelectiveProof

/-! ### Any value is read back from its encoding -/

/-- The fields fit their length prefixes. -/
structure Encodable (p : SelectiveProof) : Prop where
  proof_short : p.proof.length < 2 ^ 32
  claims_short : ∀ entry ∈ p.revealed, entry.2.length < 2 ^ 32
  entries_few : p.revealed.length < 2 ^ 32

theorem WellFormed.encodable {p : SelectiveProof} (hp : p.WellFormed) : p.Encodable where
  proof_short := hp.proof_short
  claims_short := hp.claims_short
  entries_few := by
    have hle := hp.revealed_length_le
    have hcount := hp.count_le
    omega

end SelectiveProof

theorem Wire.revealedBytes_injective {entries : List (UInt32 × Bytes)} :
    ∀ {entries' : List (UInt32 × Bytes)}, entries.length = entries'.length →
      (∀ entry ∈ entries, entry.2.length < 2 ^ 32) →
      (∀ entry ∈ entries', entry.2.length < 2 ^ 32) →
      revealedBytes entries = revealedBytes entries' → entries = entries' := by
  induction entries with
  | nil =>
    intro entries' hlen _ _ _
    exact (List.length_eq_zero_iff.mp hlen.symm).symm
  | cons entry entries ih =>
    intro entries' hlen hshort hshort' h
    obtain ⟨entry', entries', rfl⟩ := List.exists_cons_of_length_eq_add_one hlen.symm
    simp only [revealedBytes_cons, entryBytes, List.append_assoc] at h
    obtain ⟨hidx, h⟩ := append_split (by simp) h
    obtain ⟨hclaim, h⟩ := frame_append_split (hshort entry List.mem_cons_self)
      (hshort' entry' List.mem_cons_self) h
    have htail := ih (by simpa using hlen) (fun e he => hshort e (List.mem_cons_of_mem _ he))
      (fun e he => hshort' e (List.mem_cons_of_mem _ he)) h
    rw [htail, Prod.ext (beBytes_toNat_injective hidx) hclaim]

namespace SelectiveProof

/-- The encoding loses nothing, also for proofs that no decoder accepts. -/
theorem toBytes_injective {p q : SelectiveProof} (hp : p.Encodable) (hq : q.Encodable)
    (h : p.toBytes = q.toBytes) : p = q := by
  simp only [toBytes, List.append_assoc] at h
  obtain ⟨hcount, h⟩ := append_split (by simp) h
  obtain ⟨hproof, h⟩ := frame_append_split hp.proof_short hq.proof_short h
  obtain ⟨hlen, h⟩ := append_split (by simp) h
  have hentries := Wire.revealedBytes_injective
    (beBytes_injective hp.entries_few hq.entries_few hlen) hp.claims_short hq.claims_short h
  cases p
  cases q
  cases beBytes_toNat_injective hcount
  cases hproof
  cases hentries
  rfl

/-- An encoded value is decoded exactly when it is well formed, and then to itself. -/
theorem fromBytes_toBytes_iff {p q : SelectiveProof} (hp : p.Encodable) :
    (fromBytes p.toBytes).run.Returns (.ok q) ↔ p.WellFormed ∧ q = p := by
  rw [fromBytes_returns_iff]
  constructor
  · rintro ⟨hq, h⟩
    obtain rfl := toBytes_injective hp hq.encodable h
    exact ⟨hq, rfl⟩
  · rintro ⟨hwf, rfl⟩
    exact ⟨hwf, rfl⟩

/-- What an accepted value lacks of being well formed is the order. -/
theorem Accepted.wellFormed {H : Bytes → S.Fr} {proof : SelectiveProof} {pk : S.G2}
    {p : PoKOfSignatureG1Proof S} {nonce : Bytes} (h : proof.Accepted H pk p nonce)
    (hfields : proof.Encodable) (hincreasing : (proof.revealed.map Prod.fst).Pairwise (· < ·)) :
    proof.WellFormed where
  count_pos := h.count_pos
  count_le := h.count_le
  increasing := hincreasing
  in_range := fun entry hentry => UInt32.lt_iff_toNat_lt.mpr
    (h.in_range entry.1.toNat (List.mem_map.mpr ⟨entry, hentry, rfl⟩))
  proof_short := hfields.proof_short
  claims_short := hfields.claims_short

/-! ### The order of the revealed list -/

theorem Accepted.of_perm {H : Bytes → S.Fr} {proof : SelectiveProof} {pk : S.G2}
    {p : PoKOfSignatureG1Proof S} {nonce : Bytes} {revealed : List (UInt32 × Bytes)}
    (h : proof.Accepted H pk p nonce) (hperm : proof.revealed.Perm revealed) :
    ({ proof with revealed := revealed } : SelectiveProof).Accepted H pk p nonce := by
  have hindices : (revealedIndices proof.revealed).Perm (revealedIndices revealed) := hperm.map _
  have hmessages : messagesOf S proof.revealed = messagesOf S revealed := by
    apply OrderedMap.ofList_perm (hperm.map _)
    rw [List.map_map]
    exact h.distinct
  have haccepts := h.accepts
  rw [SelectiveProof.transcript, hmessages] at haccepts
  exact
    { count_pos := h.count_pos
      count_le := h.count_le
      in_range := fun k hk => h.in_range k (hindices.mem_iff.mpr hk)
      distinct := hindices.nodup_iff.mp h.distinct
      accepts := haccepts }

end SelectiveProof

theorem verifyProof_returns_true_perm {H : Bytes → S.Fr} {proof : SelectiveProof}
    {issuerPk nonce : Bytes} {revealed : List (UInt32 × Bytes)}
    (h : (verifyProof H proof issuerPk nonce).Returns true) (hperm : proof.revealed.Perm revealed) :
    (verifyProof H { proof with revealed := revealed } issuerPk nonce).Returns true := by
  obtain ⟨pk, p, hpk, hp, haccepted⟩ := (verifyProof_returns_true_iff H proof issuerPk nonce).mp h
  exact (verifyProof_returns_true_iff H _ issuerPk nonce).mpr
    ⟨pk, p, hpk, hp, haccepted.of_perm hperm⟩

/-- The verifier gives one verdict to all orders of a revealed list. -/
theorem verifyProof_returns_perm_iff (H : Bytes → S.Fr) {proof : SelectiveProof}
    (issuerPk nonce : Bytes) {revealed : List (UInt32 × Bytes)}
    (hperm : proof.revealed.Perm revealed) (verdict : Bool) :
    (verifyProof H proof issuerPk nonce).Returns verdict ↔
      (verifyProof H { proof with revealed := revealed } issuerPk nonce).Returns verdict := by
  have htrue : (verifyProof H proof issuerPk nonce).Returns true ↔
      (verifyProof H { proof with revealed := revealed } issuerPk nonce).Returns true := by
    constructor
    · intro h
      exact verifyProof_returns_true_perm h hperm
    · intro h
      have hback := verifyProof_returns_true_perm h hperm.symm
      exact hback
  cases verdict with
  | true => exact htrue
  | false =>
    rw [returns_false_iff_not_true (meets_verifyProof H proof (Nat.le_add_right nonce.length 32)),
      returns_false_iff_not_true (meets_verifyProof H _ (Nat.le_add_right nonce.length 32)), htrue]

/-! ### Agreement -/

/-- **In-memory and wire verification agree.** The bytes of a proof verify exactly
    when the proof does and its revealed indices are strictly increasing. The
    verdict on a value, which always comes, is the same for every order of its
    revealed list. -/
theorem selective_verification_agrees (H : Bytes → S.Fr) (p : SelectiveProof)
    (issuerPk nonce : Bytes) (hfields : p.Encodable) :
    ((verifyProofBytes H p.toBytes issuerPk nonce).Returns true ↔
      (verifyProof H p issuerPk nonce).Returns true ∧ (p.revealed.map Prod.fst).Pairwise (· < ·)) ∧
    (∃ verdict, (verifyProof H p issuerPk nonce).Returns verdict) ∧
    ∀ revealed, p.revealed.Perm revealed → ∀ verdict,
      (verifyProof H p issuerPk nonce).Returns verdict ↔
        (verifyProof H { p with revealed := revealed } issuerPk nonce).Returns verdict := by
  refine ⟨?_, ?_, fun revealed hperm => verifyProof_returns_perm_iff H issuerPk nonce hperm⟩
  · rw [verifyProofBytes_returns_true_iff]
    constructor
    · rintro ⟨q, hdecode, hverify⟩
      obtain ⟨hwf, rfl⟩ := (SelectiveProof.fromBytes_toBytes_iff hfields).mp hdecode
      exact ⟨hverify, hwf.increasing⟩
    · rintro ⟨hverify, hincreasing⟩
      obtain ⟨pk, body, -, -, haccepted⟩ :=
        (verifyProof_returns_true_iff H p issuerPk nonce).mp hverify
      exact ⟨p, (SelectiveProof.fromBytes_toBytes_iff hfields).mpr
        ⟨haccepted.wellFormed hfields hincreasing, rfl⟩, hverify⟩
  · have hmeets : (verifyProof H p issuerPk nonce).Meets _ _ :=
      meets_verifyProof H p (Nat.le_add_right nonce.length 32)
    obtain ⟨verdict, hret, -⟩ := hmeets.exists_returns
    exact ⟨verdict, hret⟩

/-- A body for two revealed claims, under the key of discrete logarithm 4. -/
def twoClaimsBody : PoKOfSignatureG1Proof smallSuite where
  aPrime := (1 : ZMod 7)
  aBar := SmallSuite.elem 3
  d := SmallSuite.elem 2
  scResp1 := ⟨SmallSuite.elem 3, (0 : ZMod 7), (0 : ZMod 7)⟩
  t2 := SmallSuite.elem 2
  scResp2 := some [(0 : ZMod 7), (0 : ZMod 7)]
  scPartialResp2 := none

def twoClaims : SelectiveProof where
  messageCount := 2
  revealed := [(0, [4]), (1, [5])]
  proof := twoClaimsBody.ser

/-- A proof that verifies in memory verifies on the wire and in the other order. -/
theorem twoClaims_verification_agrees :
    (verifyProofBytes smallOracle twoClaims.toBytes (smallSuite.g2Codec.ser (SmallSuite.elem 4))
        [0]).Returns true ∧
      (verifyProof smallOracle { twoClaims with revealed := [(1, [5]), (0, [4])] }
        (smallSuite.g2Codec.ser (SmallSuite.elem 4)) [0]).Returns true := by
  have hverify : (verifyProof smallOracle twoClaims
      (smallSuite.g2Codec.ser (SmallSuite.elem 4)) [0]).Returns true := by decide +kernel
  have hfields : twoClaims.Encodable := by
    refine ⟨?_, by decide, by decide⟩
    change twoClaimsBody.ser.length < 2 ^ 32
    rw [PoKOfSignatureG1Proof.ser_length rfl rfl]
    decide
  obtain ⟨hwire, -, hperm⟩ := selective_verification_agrees smallOracle twoClaims
    (smallSuite.g2Codec.ser (SmallSuite.elem 4)) [0] hfields
  constructor
  · exact hwire.mpr ⟨hverify, by decide⟩
  · exact (hperm [(1, [5]), (0, [4])] (.swap _ _ _) true).mp hverify

end PhiCrypto

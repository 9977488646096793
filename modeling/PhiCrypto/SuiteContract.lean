import PhiCrypto.Bbs2023
import PhiCrypto.IssuerBinding
import PhiCrypto.Completeness

/-!
# The two suites behind one interface

`DocknetBbsPlus` and `Bbs2023Sha256` share the proof type and its wire format. The
first suite checks the indices and the claim count itself. The second hands both to
the backend, which counts the total from the list and the proof: a repeated index
makes it panic, `message_count` is not looked at, and a credential may have more
claims than the wire format can carry. Each law of the interface is stated for the
first suite as it is, and for the second with the exact condition under which it
holds; the law on `message_count` holds for no proof that the second suite accepts.
-/

namespace PhiCrypto

open Exec

variable {S : Suite}

theorem usizeEntries_map_fst (revealed : List (UInt32 × Bytes)) :
    (usizeEntries revealed).map Prod.fst = revealedIndices revealed := by
  rw [usizeEntries, List.map_map]
  rfl

/-! ### A backend that computes -/

/-- The backend over `smallSuite`. The domain tags of the crate differ in their lengths. -/
def smallBlstrs : Blstrs smallSuite where
  g1FromCompressed := smallSuite.g1Codec.de
  g1ToCompressed := smallSuite.g1Codec.ser
  g2FromCompressed := smallSuite.g2Codec.de
  g2ToCompressed := smallSuite.g2Codec.ser
  g2Generator := (1 : ZMod 7)
  expandMessage := fun msg dst n => beBytes n (SmallSuite.hash (UInt8.ofNat dst.length :: msg))
  hashToG1 := fun msg dst => SmallSuite.point (UInt8.ofNat dst.length :: msg)

def smallBbs2023Secret : Bytes := beBytes 32 4

def smallBbs2023Key : Bytes := smallSuite.g2Codec.ser (SmallSuite.elem 4)

/-- A credential on the claim `[4]`. -/
def oneClaimCredential : Bytes :=
  smallBbs2023Key ++
    PairingCrypto.Signature.toOctets smallBlstrs ⟨SmallSuite.elem 2, SmallSuite.elem 2⟩

/-- The proof that reveals this claim, for the draws 1, 0 and 0. -/
def oneClaimProof : SelectiveProof where
  messageCount := 1
  proof := PairingCrypto.Proof.toOctets smallBlstrs
    { aBar := SmallSuite.elem 2, bBar := (1 : ZMod 7), r2Hat := (1 : ZMod 7),
      zHat := SmallSuite.elem 4, mHatList := [], c := SmallSuite.elem 3 }
  revealed := [(0, [4])]

/-! ### Failing closed -/

/-- A verdict is returned, and it is `false` if an index is repeated. -/
def FailsClosed (indices : List Nat) (x : Exec Event Bool) : Prop :=
  ∃ verdict, x.Returns verdict ∧ (¬ indices.Nodup → verdict = false)

theorem failsClosed_verifyProof (H : Bytes → S.Fr) (proof : SelectiveProof)
    (issuerPk nonce : Bytes) :
    FailsClosed (revealedIndices proof.revealed) (verifyProof H proof issuerPk nonce) := by
  obtain ⟨verdict, hret, hverdict⟩ :=
    (meets_verifyProof H proof (Nat.le_add_right nonce.length 32)).exists_returns
  refine ⟨verdict, hret, ?_⟩
  intro hrepeat
  rw [Bool.eq_false_iff]
  intro htrue
  obtain ⟨pk, p, -, -, h⟩ := hverdict.mp htrue
  exact hrepeat h.distinct

/-- The backend fails closed on distinct indices, and on a repeated one only if it
    rejects the request before the loop over the generators. -/
theorem failsClosed_bbs2023ProofVerify_iff (B : Blstrs S)
    (publicKey header presentationHeader proof : Bytes) (revealed : List (Nat × Bytes)) :
    FailsClosed (revealed.map Prod.fst)
        (bbs2023ProofVerify B publicKey header presentationHeader proof revealed) ↔
      (revealed.map Prod.fst).Nodup ∨ ¬ Bbs2023Reaches B publicKey header proof revealed := by
  constructor
  · rintro ⟨verdict, hret, -⟩
    by_contra hneither
    obtain ⟨hrepeat, hreaches⟩ := not_or.mp hneither
    exact (bbs2023ProofVerify_panics hrepeat (not_not.mp hreaches)).not_returns verdict hret
  · rintro (hdistinct | hreaches)
    · obtain ⟨verdict, hret, -⟩ := (meets_bbs2023ProofVerify B publicKey header presentationHeader
        hdistinct trivial PairingCrypto.proofVerifyEvents_trivial).exists_returns
      exact ⟨verdict, hret, fun hrepeat => absurd hdistinct hrepeat⟩
    · obtain ⟨verdict, hret, hfalse⟩ :=
        (meets_bbs2023ProofVerify_of_not_reaches hreaches).exists_returns
      exact ⟨verdict, hret, fun _ => hfalse⟩

/-- **Failing closed, suite by suite.** The first suite always returns a verdict, and
    rejects a repeated index. The second suite, and the entry to its backend, do so
    exactly when the indices are distinct or the request is rejected before the
    backend's loop. -/
theorem suite_verifiers_fail_closed (H : Bytes → S.Fr) (B : Blstrs S) :
    (∀ (proof : SelectiveProof) (publicKey nonce : Bytes),
      FailsClosed (revealedIndices proof.revealed) (verifyProof H proof publicKey nonce)) ∧
    (∀ (proof : SelectiveProof) (publicKey nonce : Bytes),
      FailsClosed (revealedIndices proof.revealed)
          (Bbs2023Sha256.verifyProof B proof publicKey nonce) ↔
        (revealedIndices proof.revealed).Nodup ∨
          ¬ Bbs2023Reaches B publicKey [] proof.proof (usizeEntries proof.revealed)) ∧
    (∀ (publicKey header presentationHeader proof : Bytes) (revealed : List (Nat × Bytes)),
      FailsClosed (revealed.map Prod.fst)
          (bbs2023ProofVerify B publicKey header presentationHeader proof revealed) ↔
        (revealed.map Prod.fst).Nodup ∨ ¬ Bbs2023Reaches B publicKey header proof revealed) := by
  refine ⟨failsClosed_verifyProof H, ?_, failsClosed_bbs2023ProofVerify_iff B⟩
  intro proof publicKey nonce
  rw [← usizeEntries_map_fst]
  exact failsClosed_bbs2023ProofVerify_iff B publicKey [] nonce proof.proof (usizeEntries proof.revealed)

/-- The entry of an accepted proof, given twice, stops the verifier. -/
theorem repeated_entry_panics :
    (Bbs2023Sha256.verifyProof smallBlstrs oneClaimProof smallBbs2023Key []).Returns true ∧
      ¬ FailsClosed [0, 0] (Bbs2023Sha256.verifyProof smallBlstrs
        { oneClaimProof with revealed := [(0, [4]), (0, [4])] } smallBbs2023Key []) := by
  constructor
  · decide +kernel
  · have hpanic : (Bbs2023Sha256.verifyProof smallBlstrs
        { oneClaimProof with revealed := [(0, [4]), (0, [4])] } smallBbs2023Key []).value = none := by
      decide +kernel
    rintro ⟨verdict, hret, -⟩
    exact Panics.not_returns hpanic verdict hret

/-! ### The claim count -/

/-- `message_count` counts the claims, revealed and hidden, and bounds the indices. -/
structure CountAuthenticated (proof : SelectiveProof) (hidden : Nat) : Prop where
  count_eq : proof.messageCount.toNat = proof.revealed.length + hidden
  in_range : ∀ k ∈ revealedIndices proof.revealed, k < proof.messageCount.toNat

/-- Two of the second responses are not for a message. -/
theorem countAuthenticated_of_verifyProof {H : Bytes → S.Fr} {proof : SelectiveProof}
    {issuerPk nonce : Bytes} (h : (verifyProof H proof issuerPk nonce).Returns true) :
    ∃ (p : PoKOfSignatureG1Proof S) (resp : List S.Fr),
      deser PoKOfSignatureG1Proof.decoder proof.proof = .ok p ∧ p.scResp2 = some resp ∧
        CountAuthenticated proof (resp.length - 2) := by
  obtain ⟨pk, p, -, hp, hacc⟩ := (verifyProof_returns_true_iff H proof issuerPk nonce).mp h
  obtain ⟨resp, hresp, hcount⟩ := hacc.accepts.count_eq hacc.distinct hacc.in_range
  exact ⟨p, resp, hp, hresp, hcount, hacc.in_range⟩

/-- The backend counts the total from the revealed list and the proof. -/
theorem Bbs2023Accepts.total {B : Blstrs S} {publicKey header presentationHeader proof : Bytes}
    {revealed : List (Nat × Bytes)}
    (h : Bbs2023Accepts B publicKey header presentationHeader proof revealed) :
    ∃ p, (PairingCrypto.Proof.fromOctets B proof).run.Returns (.ok p) ∧
      192 + 32 * p.mHatList.length = proof.length ∧
      ∀ entry ∈ revealed, entry.1 < revealed.length + p.mHatList.length := by
  obtain ⟨pk, p, hacc⟩ := h.accepts
  refine ⟨p, hacc.proof_eq, PairingCrypto.fromOctets_length hacc.proof_eq, ?_⟩
  intro entry hentry
  rw [Nat.add_comm]
  exact hacc.in_range entry hentry

theorem bbs2023_verifyProof_returns_true_iff {B : Blstrs S} {proof : SelectiveProof}
    {publicKey nonce : Bytes} :
    (Bbs2023Sha256.verifyProof B proof publicKey nonce).Returns true ↔
      Bbs2023Accepts B publicKey [] nonce proof.proof (usizeEntries proof.revealed) :=
  bbs2023ProofVerify_returns_true_iff

/-- For an accepted proof the field is the number of claims exactly when it is the total
    that the backend counts by itself. -/
theorem countAuthenticated_iff {B : Blstrs S} {proof : SelectiveProof} {publicKey nonce : Bytes}
    (h : (Bbs2023Sha256.verifyProof B proof publicKey nonce).Returns true) :
    (∃ p, (PairingCrypto.Proof.fromOctets B proof.proof).run.Returns (.ok p) ∧
        CountAuthenticated proof p.mHatList.length) ↔
      proof.messageCount.toNat = proof.revealed.length + (proof.proof.length - 192) / 32 := by
  obtain ⟨p, hp, hlen, hrange⟩ := (bbs2023_verifyProof_returns_true_iff.mp h).total
  rw [length_usizeEntries] at hrange
  constructor
  · rintro ⟨p', hp', hcount⟩
    cases hp.unique hp'
    rw [hcount.count_eq]
    omega
  · intro hcount
    have htotal : proof.messageCount.toNat = proof.revealed.length + p.mHatList.length := by omega
    refine ⟨p, hp, htotal, ?_⟩
    intro k hk
    rw [← usizeEntries_map_fst] at hk
    obtain ⟨entry, hentry, rfl⟩ := List.mem_map.mp hk
    rw [htotal]
    exact hrange entry hentry

/-- Of the proofs that differ from `proof` in `message_count` alone, none but `proof` is
    accepted. -/
def CountFixed (verify : SelectiveProof → Exec Event Bool) (proof : SelectiveProof) : Prop :=
  ∀ count : UInt32, (verify { proof with messageCount := count }).Returns true →
    count = proof.messageCount

/-- Two counts for one body are the same number of claims. -/
theorem countFixed_of_verifyProof {H : Bytes → S.Fr} {proof : SelectiveProof}
    {issuerPk nonce : Bytes} (h : (verifyProof H proof issuerPk nonce).Returns true) :
    CountFixed (fun p => verifyProof H p issuerPk nonce) proof := by
  intro count hother
  obtain ⟨p, resp, hp, hresp, hcount⟩ := countAuthenticated_of_verifyProof h
  obtain ⟨p', resp', hp', hresp', hcount'⟩ := countAuthenticated_of_verifyProof hother
  cases hp.symm.trans hp'
  cases hresp.symm.trans hresp'
  exact UInt32.toNat_inj.mp (hcount'.count_eq.trans hcount.count_eq.symm)

theorem exists_toNat_ne (n : Nat) : ∃ count : UInt32, count.toNat ≠ n := by
  by_cases h : n = 0
  · refine ⟨1, ?_⟩
    rw [h]
    decide
  · exact ⟨0, fun hzero => h hzero.symm⟩

/-- The second suite accepts a proof under every `message_count`, among them one that
    differs from the proof's own and one that is not the number of its claims. -/
theorem countUnbound_of_verifyProof {B : Blstrs S} {proof : SelectiveProof}
    {publicKey nonce : Bytes}
    (h : (Bbs2023Sha256.verifyProof B proof publicKey nonce).Returns true) :
    ¬ CountFixed (fun p => Bbs2023Sha256.verifyProof B p publicKey nonce) proof ∧
      ∃ count : UInt32, (Bbs2023Sha256.verifyProof B { proof with messageCount := count } publicKey
          nonce).Returns true ∧
        ¬ ∃ p, (PairingCrypto.Proof.fromOctets B proof.proof).run.Returns (.ok p) ∧
          CountAuthenticated { proof with messageCount := count } p.mHatList.length := by
  -- the verifier never reads the field, so `h` is acceptance for any value of it
  constructor
  · intro hfixed
    obtain ⟨count, hcount⟩ := exists_toNat_ne proof.messageCount.toNat
    exact hcount (congrArg UInt32.toNat (hfixed count h))
  · obtain ⟨count, hcount⟩ :=
      exists_toNat_ne (proof.revealed.length + (proof.proof.length - 192) / 32)
    have hother : (Bbs2023Sha256.verifyProof B { proof with messageCount := count } publicKey
      nonce).Returns true := h
    exact ⟨count, hother, fun hauth => hcount ((countAuthenticated_iff hother).mp hauth)⟩

/-- **The claim count, suite by suite.** The first suite accepts a proof only if its
    `message_count` is the number of claims, and under no other one. The second suite
    accepts every proof that it accepts under all other counts as well, so that for none
    of them the count is fixed, and each of them is accepted under a wrong one. -/
theorem message_count_authenticated (H : Bytes → S.Fr) (B : Blstrs S) (proof : SelectiveProof)
    (publicKey nonce : Bytes) :
    ((verifyProof H proof publicKey nonce).Returns true →
      (∃ (p : PoKOfSignatureG1Proof S) (resp : List S.Fr),
        deser PoKOfSignatureG1Proof.decoder proof.proof = .ok p ∧ p.scResp2 = some resp ∧
          CountAuthenticated proof (resp.length - 2)) ∧
      CountFixed (fun p => verifyProof H p publicKey nonce) proof) ∧
    ((Bbs2023Sha256.verifyProof B proof publicKey nonce).Returns true →
      (∀ count : UInt32, (Bbs2023Sha256.verifyProof B { proof with messageCount := count } publicKey
        nonce).Returns true) ∧
      ¬ CountFixed (fun p => Bbs2023Sha256.verifyProof B p publicKey nonce) proof ∧
      ∃ count : UInt32, (Bbs2023Sha256.verifyProof B { proof with messageCount := count } publicKey
          nonce).Returns true ∧
        ¬ ∃ p, (PairingCrypto.Proof.fromOctets B proof.proof).run.Returns (.ok p) ∧
          CountAuthenticated { proof with messageCount := count } p.mHatList.length) :=
  ⟨fun h => ⟨countAuthenticated_of_verifyProof h, countFixed_of_verifyProof h⟩,
    fun h => ⟨fun _ => h, countUnbound_of_verifyProof h⟩⟩

/-- The proof over two claims has its count fixed, the one over one claim does not. -/
theorem crossProof_count_fixed :
    CountFixed (fun p => verifyProof smallOracle p smallKey [0]) crossProof ∧
      ¬ CountFixed (fun p => Bbs2023Sha256.verifyProof smallBlstrs p smallBbs2023Key [])
        oneClaimProof :=
  ⟨((message_count_authenticated smallOracle smallBlstrs crossProof smallKey [0]).1
      (by decide +kernel)).2,
    ((message_count_authenticated smallOracle smallBlstrs oneClaimProof smallBbs2023Key []).2
      (by decide +kernel)).2.1⟩

/-- A proof over one claim is accepted as one over no claims. -/
theorem message_count_ignored :
    (Bbs2023Sha256.verifyProof smallBlstrs oneClaimProof smallBbs2023Key []).Returns true ∧
      (Bbs2023Sha256.verifyProof smallBlstrs { oneClaimProof with messageCount := 0 }
        smallBbs2023Key []).Returns true ∧
      ¬ ∃ hidden, CountAuthenticated { oneClaimProof with messageCount := 0 } hidden := by
  refine ⟨by decide +kernel, by decide +kernel, ?_⟩
  rintro ⟨hidden, h⟩
  have hcount : 0 = 1 + hidden := h.count_eq
  omega

/-! ### The wire -/

section Wire

variable {claims : List Bytes} {reveal : List Nat} {p : SelectiveProof}

theorem wellFormed_of_deriveProof {H : Bytes → S.Fr} {signature nonce : Bytes}
    (hshort : ∀ claim ∈ claims, claim.length < 2 ^ 32)
    (h : Succeeds (deriveProof H claims signature reveal nonce) p) : p.WellFormed := by
  obtain ⟨hne, hcheck⟩ := succeeds_rejectIf_bind h
  obtain ⟨hmax, hcheck⟩ := succeeds_rejectIf_bind hcheck
  obtain ⟨sig, hsig, hcheck⟩ := succeeds_liftExcept_bind hcheck
  obtain ⟨hrange, -⟩ := succeeds_rejectIf_bind hcheck
  have hcount : claims.length ≤ 64 := not_lt.mp hmax
  have hkeys : ∀ i ∈ (OrderedMap.ofKeys reveal).keys, i < claims.length := by
    intro i hi
    by_contra hge
    exact hrange ⟨i, hi, not_lt.mp hge⟩
  rcases h with ⟨tape, rest, hrun⟩
  rw [deriveProof_run H nonce hne hcount hsig hkeys, Option.map_eq_some_iff] at hrun
  rcases hrun with ⟨⟨k, rest'⟩, hdraw, hresult⟩
  cases hresult
  have hdrawn := ((lossless_drawInitCoins _).sound hdraw).1
  apply wellFormed_provenClaims hne hcount hshort hkeys
  exact proofOf_ser_short (marks_deriveMarks _ _) hdrawn (by simpa using hcount) _

/-- The claim count wraps at `2^32`, but then the proof is too long for its length
    field or the revealed list is longer than the count. -/
theorem Bbs2023Derived.wellFormed_iff (h : Bbs2023Derived claims reveal p)
    (hshort : ∀ claim ∈ claims, claim.length < 2 ^ 32) : p.WellFormed ↔ claims.length ≤ 64 := by
  have hlen := h.proof_length
  constructor
  · intro hp
    have hle := hp.count_le
    have hfew := hp.revealed_length_le
    have hproof := hp.proof_short
    rw [h.count_eq, UInt32.toNat_ofNat'] at hle
    rw [h.count_eq, UInt32.toNat_ofNat'] at hfew
    omega
  · intro hcount
    have hproof : p.proof.length < 2 ^ 32 := by omega
    have hwf := wellFormed_provenClaims h.claims_ne hcount hshort h.reveal_lt hproof
    rw [← h.count_eq, ← h.revealed_eq] at hwf
    exact hwf

/-- **Derived proofs on the wire, suite by suite.** What the first suite derives is read
    back from its encoding. What the second derives is read back exactly when the
    credential has at most 64 claims. -/
theorem derived_proofs_survive_wire (H : Bytes → S.Fr) (B : Blstrs S)
    (hB : ∀ P, (B.g1ToCompressed P).length = 48) (claims : List Bytes)
    (hshort : ∀ claim ∈ claims, claim.length < 2 ^ 32) (signature : Bytes) (reveal : List Nat)
    (nonce : Bytes) :
    (∀ p, Succeeds (deriveProof H claims signature reveal nonce) p →
      (SelectiveProof.fromBytes p.toBytes).run.Returns (.ok p)) ∧
    (∀ p, Succeeds (Bbs2023Sha256.deriveProof B claims signature reveal nonce) p →
      ((SelectiveProof.fromBytes p.toBytes).run.Returns (.ok p) ↔ claims.length ≤ 64)) := by
  constructor
  · intro p h
    exact (SelectiveProof.fromBytes_returns_iff _ _).mpr ⟨wellFormed_of_deriveProof hshort h, rfl⟩
  · intro p h
    have hderived := Bbs2023Sha256.derived_of_succeeds hB h
    rw [SelectiveProof.fromBytes_returns_iff, and_iff_left rfl]
    exact hderived.wellFormed_iff hshort

/-- A credential on the claims `[4]`, `[3]` and `[5]`. -/
def threeClaimsCredential : Bytes :=
  smallBbs2023Key ++
    PairingCrypto.Signature.toOctets smallBlstrs ⟨SmallSuite.elem 5, SmallSuite.elem 6⟩

/-- Presentations of either suite that reveal the second claim and hide the others. -/
theorem presentations_survive_wire :
    (∃ p, Succeeds (deriveProof smallOracle [[4], [5]] smallSignature.ser [1] [9]) p ∧
      (SelectiveProof.fromBytes p.toBytes).run.Returns (.ok p)) ∧
    ∃ p, Succeeds (Bbs2023Sha256.deriveProof smallBlstrs [[4], [3], [5]] threeClaimsCredential [1]
        [9]) p ∧
      (SelectiveProof.fromBytes p.toBytes).run.Returns (.ok p) := by
  obtain ⟨p, hp⟩ : ∃ p, Succeeds (deriveProof smallOracle [[4], [5]] smallSignature.ser [1] [9]) p :=
    exists_succeeds ([2, 3, 4, 5, 6, 1, 2].map SmallSuite.elem) (by decide +kernel)
  obtain ⟨p', hp'⟩ : ∃ p, Succeeds (Bbs2023Sha256.deriveProof smallBlstrs [[4], [3], [5]]
      threeClaimsCredential [1] [9]) p :=
    exists_succeeds ([2, 3, 4, 5, 6].map SmallSuite.elem) (by decide +kernel)
  have hlength := fun P => smallSuite.g1Codec.ser_length P
  refine ⟨⟨p, hp, ?_⟩, p', hp', ?_⟩
  · exact (derived_proofs_survive_wire smallOracle smallBlstrs hlength [[4], [5]] (by decide)
      smallSignature.ser [1] [9]).1 p hp
  · exact ((derived_proofs_survive_wire smallOracle smallBlstrs hlength [[4], [3], [5]] (by decide)
      threeClaimsCredential [1] [9]).2 p' hp').mpr (by decide)

/-- A list of 65 claims. -/
def manyClaims : List Bytes := List.replicate 65 [4]

def manyClaimsCredential : Bytes :=
  smallBbs2023Key ++ PairingCrypto.Signature.toOctets smallBlstrs ⟨(1 : ZMod 7), SmallSuite.elem 5⟩

/-- The proof that reveals all claims but the last, for the draws 1, 0, 0 and 0. -/
def manyClaimsProof : SelectiveProof where
  messageCount := 65
  proof := PairingCrypto.Proof.toOctets smallBlstrs
    { aBar := (1 : ZMod 7), bBar := SmallSuite.elem 4, r2Hat := (1 : ZMod 7),
      zHat := SmallSuite.elem 3, mHatList := [SmallSuite.elem 5], c := SmallSuite.elem 4 }
  revealed := provenClaims (OrderedMap.ofKeys (List.range 64)) manyClaims

theorem manyClaimsProof_derived :
    Succeeds (Bbs2023Sha256.deriveProof smallBlstrs manyClaims manyClaimsCredential
      (List.range 64) []) manyClaimsProof :=
  ⟨[(1 : ZMod 7), (0 : ZMod 7), (0 : ZMod 7), (0 : ZMod 7)], [], by decide +kernel⟩

/-- A credential with 65 claims is issued and presented, and the proof is not read back. -/
theorem manyClaimsProof_lost :
    Bbs2023Sha256.signCredential smallBlstrs manyClaims smallBbs2023Secret
        = .ok manyClaimsCredential ∧
      Succeeds (Bbs2023Sha256.deriveProof smallBlstrs manyClaims manyClaimsCredential
        (List.range 64) []) manyClaimsProof ∧
      ¬ (SelectiveProof.fromBytes manyClaimsProof.toBytes).run.Returns (.ok manyClaimsProof) := by
  refine ⟨by decide +kernel, manyClaimsProof_derived, ?_⟩
  rw [SelectiveProof.fromBytes_returns_iff]
  rintro ⟨hwf, -⟩
  have hcount : 65 ≤ 64 := hwf.count_le
  omega

end Wire

end PhiCrypto

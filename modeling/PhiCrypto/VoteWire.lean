import PhiCrypto.Provers

/-!
# Votes on the wire

Every vote proof that a caller can hold, because `prove_vote` returned it or
`VoteProof::from_bytes` decoded it, is well formed. Such a proof survives
encoding and decoding, and verifying its bytes is verifying the proof.

`proveVote_inversion` says once what a run of `prove_vote` that returns a proof
has done.
-/

namespace PhiCrypto

open Exec MessageOrBlinding

variable {S : Suite}

/-! ### What a successful `prove_vote` has done -/

/-- A run of `prove_vote` that returns `p`, with everything it has computed. -/
structure VoteRun (H : Bytes → S.Fr) (claims : List Bytes) (signature issuerPublicKey : Bytes)
    (reveal : List Nat) (chainId electionId signal : Bytes) (p : VoteProof S) where
  sig : SignatureG1 S
  pk : S.G2
  hE : S.G1
  coins : VoteCoins S.Fr
  challenge : S.Fr
  inputs : VoteInputs claims signature issuerPublicKey reveal sig pk
  hE_eq : hashToG1 S electionId = .ok hE
  nullifier_ne_zero : (claims.map (claimToFr S)).getD voterSecretMsgIndex 0 • hE ≠ 0
  drawn : coins.init.Drawn
    ((voteMarks (OrderedMap.ofKeys reveal) 0 (claims.map (claimToFr S))).countP isRandom)
  challenge_eq : provenChallenge H claims sig pk (OrderedMap.ofKeys reveal) hE chainId electionId
    signal coins = .ok challenge
  proof_eq : p = voteOf claims sig (OrderedMap.ofKeys reveal) hE coins challenge

variable {H : Bytes → S.Fr} {claims : List Bytes} {signature issuerPublicKey : Bytes}
  {reveal : List Nat} {chainId electionId signal : Bytes} {p : VoteProof S}

/-- The checks of `prove_vote`, read off a run that returns a proof. -/
theorem voteInputs_of_succeeds
    (h : Succeeds (proveVote H claims signature issuerPublicKey reveal chainId electionId signal)
      p) :
    ∃ sig pk, VoteInputs claims signature issuerPublicKey reveal sig pk ∧
      Succeeds (proveOpened H claims sig pk (OrderedMap.ofKeys reveal) chainId electionId signal)
        p := by
  obtain ⟨hne, h⟩ := succeeds_rejectIf_bind h
  obtain ⟨hmax, h⟩ := succeeds_rejectIf_bind h
  obtain ⟨-, h⟩ := succeeds_rejectIf_bind h
  obtain ⟨hrange, h⟩ := succeeds_rejectIf_bind h
  obtain ⟨hhidden, h⟩ := succeeds_rejectIf_bind h
  obtain ⟨sig, hsig, h⟩ := succeeds_liftExcept_bind h
  obtain ⟨pk, hpk, h⟩ := succeeds_liftExcept_bind h
  unfold maxBbsMessages at hmax
  refine ⟨sig, pk, ⟨hne, by omega, ?_, by simpa using hhidden, hsig, hpk⟩, h⟩
  intro i hi
  by_contra hge
  exact hrange ⟨i, hi, not_lt.mp hge⟩

theorem proveVote_inversion
    (h : Succeeds (proveVote H claims signature issuerPublicKey reveal chainId electionId signal)
      p) :
    Nonempty (VoteRun H claims signature issuerPublicKey reveal chainId electionId signal p) := by
  obtain ⟨sig, pk, hin, h⟩ := voteInputs_of_succeeds h
  obtain ⟨hE, hhE, hnull⟩ : ∃ hE, hashToG1 S electionId = .ok hE ∧
      (claims.map (claimToFr S)).getD voterSecretMsgIndex 0 • hE ≠ 0 := by
    obtain ⟨r0, -, h⟩ := succeeds_liftM_bind h
    obtain ⟨hE, hhE, h⟩ := succeeds_liftExcept_bind h
    obtain ⟨blind, -, h⟩ := succeeds_liftM_bind h
    obtain ⟨hnull, -⟩ := succeeds_rejectIf_bind h
    exact ⟨hE, hhE, by rwa [blindedMul_eq] at hnull⟩
  rcases h with ⟨tape, rest, hrun⟩
  rw [proveOpened_run _ _ _ _ _ hin.secret_hidden hhE hnull, Option.map_eq_some_iff] at hrun
  rcases hrun with ⟨⟨coins, left⟩, hdraw, hresult⟩
  obtain ⟨hresult, -⟩ := Prod.mk.inj hresult
  obtain ⟨challenge, hchallenge, hproof⟩ := provenVote_eq_ok_iff.mp hresult
  exact ⟨{ sig, pk, hE, coins, challenge, inputs := hin, hE_eq := hhE, nullifier_ne_zero := hnull,
           drawn := ((lossless_drawVoteCoins _).sound hdraw).1, challenge_eq := hchallenge,
           proof_eq := hproof }⟩

namespace VoteRun

variable (run : VoteRun H claims signature issuerPublicKey reveal chainId electionId signal p)
include run

theorem nullifier_eq :
    p.nullifier = (claims.map (claimToFr S)).getD voterSecretMsgIndex 0 • run.hE :=
  congrArg VoteProof.nullifier run.proof_eq

theorem bbsProof_short : p.bbsProof.length < 2 ^ 32 := by
  have hle := run.inputs.count_le
  have hdrawn := run.drawn
  rw [countP_voteMarks _ 0 run.coins.r0] at hdrawn
  have hmarks := marks_voteMarks (claims.map (claimToFr S)) run.inputs.secret_hidden run.coins.r0
  rw [run.proof_eq, voteOf]
  exact proofOf_ser_short hmarks hdrawn (by simpa using hle) _

theorem dlProof_short : p.dlProof.length < 2 ^ 32 := by
  rw [run.proof_eq, voteOf, PokDiscreteLog.ser_length]
  decide

/-- Every revealed entry is a claim other than the voter secret, under its index. -/
theorem exists_index_of_mem_revealed {entry : UInt32 × Bytes} (h : entry ∈ p.revealed) :
    ∃ i, 1 ≤ i ∧ i < claims.length ∧ entry.1.toNat = i ∧ claims[i]? = some entry.2 := by
  rw [run.proof_eq] at h
  obtain ⟨i, hi, rfl⟩ := mem_provenClaims h
  have hlt := run.inputs.reveal_lt i hi
  refine ⟨i, ?_, hlt, ?_, ?_⟩
  · rw [Nat.one_le_iff_ne_zero]
    rintro rfl
    have hcontains := OrderedMap.contains_iff.mpr hi
    have hhidden := run.inputs.secret_hidden
    rw [voterSecretMsgIndex, hcontains] at hhidden
    cases hhidden
  · exact toNat_ofNat_of_le (hlt.le.trans run.inputs.count_le)
  · simp [List.getD, hlt]

theorem messageCount_toNat : p.messageCount.toNat = claims.length := by
  rw [run.proof_eq, voteOf, toNat_ofNat_of_le run.inputs.count_le]

theorem revealed_increasing : (p.revealed.map Prod.fst).Pairwise (· < ·) := by
  rw [run.proof_eq, voteOf]
  exact provenClaims_increasing run.inputs.reveal_lt (run.inputs.count_le.trans (by decide))

/-- What `prove_vote` returns for claims of the wire's size is well formed. -/
theorem wellFormed (hshort : ∀ claim ∈ claims, claim.length < 2 ^ 32) : p.WellFormed where
  count_pos := by
    rw [run.messageCount_toNat]
    exact List.length_pos_iff.mpr run.inputs.claims_ne
  count_le := run.messageCount_toNat ▸ run.inputs.count_le
  nullifier_ne_zero := run.nullifier_eq ▸ run.nullifier_ne_zero
  increasing := run.revealed_increasing
  secret_hidden := by
    intro entry hentry
    obtain ⟨i, hi, -, heq, -⟩ := run.exists_index_of_mem_revealed hentry
    omega
  in_range := by
    intro entry hentry
    obtain ⟨i, -, hi, heq, -⟩ := run.exists_index_of_mem_revealed hentry
    rw [UInt32.lt_iff_toNat_lt, heq, run.messageCount_toNat]
    exact hi
  bbs_short := run.bbsProof_short
  dl_short := run.dlProof_short
  claims_short := by
    intro entry hentry
    obtain ⟨i, -, -, -, hget⟩ := run.exists_index_of_mem_revealed hentry
    exact hshort _ (List.mem_of_getElem? hget)

end VoteRun

/-! ### Proofs that a caller can hold -/

/-- The vote proofs that the public functions produce. -/
inductive Obtainable : VoteProof S → Prop
  | proved {H : Bytes → S.Fr} {claims : List Bytes} {signature issuerPublicKey : Bytes}
      {reveal : List Nat} {chainId electionId signal : Bytes} {p : VoteProof S}
      (hshort : ∀ claim ∈ claims, claim.length < 2 ^ 32)
      (hrun : Succeeds
        (proveVote H claims signature issuerPublicKey reveal chainId electionId signal) p) :
      Obtainable p
  | decoded {b : Bytes} {p : VoteProof S}
      (hdecode : (VoteProof.fromBytes b).run.Returns (.ok p)) : Obtainable p

theorem Obtainable.wellFormed {p : VoteProof S} (h : Obtainable p) : p.WellFormed := by
  cases h with
  | proved hshort hrun =>
    obtain ⟨run⟩ := proveVote_inversion hrun
    exact run.wellFormed hshort
  | decoded hdecode => exact ((VoteProof.fromBytes_returns_iff _ _).mp hdecode).1

theorem verifyVote_encoding {p : VoteProof S} (hp : p.WellFormed) (H : Bytes → S.Fr)
    (issuerPk chainId electionId signal : Bytes) (verdict : Bool) :
    (verifyVote H p.encoding issuerPk chainId electionId signal).Returns verdict ↔
      (verifyVoteProof H p issuerPk chainId electionId signal).Returns verdict := by
  have hdecode := (VoteProof.fromBytes_returns_iff p.encoding p).mpr ⟨hp, rfl⟩
  rw [verifyVote, returns_bind_iff]
  constructor
  · rintro ⟨res, hres, h⟩
    cases hdecode.unique hres
    exact h
  · intro h
    exact ⟨.ok p, hdecode, h⟩

/-- **Votes on the wire.** Every vote proof that the public functions produce has an
    encoding, decodes from it, and verifies as its encoding does; every byte string
    that decodes is the encoding of a proof with a real nullifier, a count in
    range and increasing revealed indices, none of them the voter secret's. -/
theorem voteProof_wire_canonical :
    (∀ p : VoteProof S, Obtainable p → ∃ b, p.toBytes = .ok b ∧
      (VoteProof.fromBytes b).run.Returns (.ok p) ∧
      ∀ (H : Bytes → S.Fr) (issuerPk chainId electionId signal : Bytes), ∃ verdict,
        (verifyVote H b issuerPk chainId electionId signal).Returns verdict ∧
        (verifyVoteProof H p issuerPk chainId electionId signal).Returns verdict) ∧
    (∀ (b : Bytes) (p : VoteProof S), (VoteProof.fromBytes b).run.Returns (.ok p) →
      p.toBytes = .ok b ∧ p.nullifier ≠ 0 ∧
        (1 ≤ p.messageCount.toNat ∧ p.messageCount.toNat ≤ 64) ∧
        (p.revealed.map Prod.fst).Pairwise (· < ·) ∧
        ∀ entry ∈ p.revealed, 1 ≤ entry.1.toNat ∧ entry.1 < p.messageCount) := by
  constructor
  · intro p hp
    have hwf := hp.wellFormed
    refine ⟨p.encoding, p.toBytes_eq, (VoteProof.fromBytes_returns_iff _ _).mpr ⟨hwf, rfl⟩, ?_⟩
    intro H issuerPk chainId electionId signal
    obtain ⟨verdict, hverdict, -⟩ :=
      (meets_verifyVoteProof H p issuerPk chainId electionId signal 0).exists_returns
    exact ⟨verdict, (verifyVote_encoding hwf H issuerPk chainId electionId signal verdict).mpr
      hverdict, hverdict⟩
  · intro b p h
    obtain ⟨hwf, rfl⟩ := (VoteProof.fromBytes_returns_iff b p).mp h
    exact ⟨p.toBytes_eq, hwf.nullifier_ne_zero, ⟨hwf.count_pos, hwf.count_le⟩, hwf.increasing,
      fun entry hentry => ⟨hwf.secret_hidden entry hentry, hwf.in_range entry hentry⟩⟩

end PhiCrypto

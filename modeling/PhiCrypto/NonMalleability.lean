import PhiCrypto.VoteSoundness

/-!
# Non-malleability across contexts

One proof body, accepted twice. For a vote proof the two verifications differ in
their ballot context; for a selective proof in the nonce and the revealed
claims. In both cases the challenge separates the contexts unless a hash
collides, and a body that answers two challenges exhibits a relation among the
public generators. Within one election a vote proof cannot even do that: its
nullifier is not the identity, and a discrete-logarithm proof for a non-identity
point answers one challenge only.
-/

namespace PhiCrypto

open Exec

variable {S : Suite}

def NoCollision {α β : Type} (f : α → β) (x y : α) : Prop := f x = f y → x = y

/-- What a ballot is cast in. The byte strings fit the address space, so their
    lengths survive the cast to `u64`. -/
structure BallotContext where
  issuerPk : Bytes
  chainId : Bytes
  electionId : Bytes
  signal : Bytes
  chainId_lt : chainId.length < 2 ^ 64
  electionId_lt : electionId.length < 2 ^ 64
  signal_lt : signal.length < 2 ^ 64

namespace VoteProof

/-- `verify_vote_proof` accepts the proof in this context. -/
def AcceptedIn (H : Bytes → S.Fr) (proof : VoteProof S) (ctx : BallotContext) : Prop :=
  (verifyVoteProof H proof ctx.issuerPk ctx.chainId ctx.electionId ctx.signal).Returns true

def transcriptIn (proof : VoteProof S) (o : OpenedVote S) (ctx : BallotContext) : Bytes :=
  proof.transcript o ctx.chainId ctx.electionId ctx.signal

/-- The SHA-256 preimage that binds the proof to this context. -/
def preimageIn (proof : VoteProof S) (ctx : BallotContext) : Bytes :=
  bindContextPreimage ctx.chainId ctx.electionId (S.g1Codec.ser proof.nullifier) ctx.signal

variable {H : Bytes → S.Fr} {proof : VoteProof S} {ctx ctx' : BallotContext} {o o' : OpenedVote S}

theorem AcceptedIn.accepted (h : proof.AcceptedIn H ctx)
    (hopen : proof.Opens ctx.issuerPk ctx.electionId o) :
    proof.Accepted o (H (proof.transcriptIn o ctx)) := by
  obtain ⟨o', ho', hacc⟩ := (verifyVoteProof_returns_true_iff _ _ _ _ _ _).mp h
  cases hopen.unique ho'
  exact hacc

theorem eq_of_transcript_eq (hle : proof.messageCount.toNat ≤ 64)
    (hsha : NoCollision S.sha256 (proof.preimageIn ctx) (proof.preimageIn ctx'))
    (h : proof.transcriptIn o ctx = proof.transcriptIn o' ctx') :
    o.pk = o'.pk ∧ ctx.chainId = ctx'.chainId ∧ ctx.electionId = ctx'.electionId ∧
      ctx.signal = ctx'.signal := by
  have hpk : ∀ Q : S.G2, (S.g2Codec.ser Q).length < 2 ^ 32 := by
    intro Q
    rw [S.g2Codec.ser_length]
    decide
  have hbbs : ∀ p : PoKOfSignatureG1Proof S, (p.contribution (messagesOf S proof.revealed)
      (paramsOf S proof.messageCount.toNat)).length < 2 ^ 32 := by
    intro p
    have hlen := challengeContribution_length_le p.aPrime p.aBar p.d p.scResp1.t p.t2
      (messagesOf S proof.revealed) (paramsOf S proof.messageCount.toNat)
      (by rw [paramsOf_h_length]; exact hle)
    exact lt_of_le_of_lt hlen (by decide)
  have hdl : ∀ base y t : S.G1,
      (PokDiscreteLog.challengeContribution base y t).length < 2 ^ 32 := by
    intro base y t
    rw [PokDiscreteLog.challengeContribution_length]
    decide
  obtain ⟨-, hkey, -, -, hbind⟩ := voteTranscript_injective S (hpk _) (hpk _) (hbbs _) (hbbs _)
    (hdl _ _ _) (hdl _ _ _) h
  obtain ⟨hchain, helection, -, hsignal⟩ := bindContextPreimage_injective ctx.chainId_lt
    ctx'.chainId_lt ctx.electionId_lt ctx'.electionId_lt ctx.signal_lt ctx'.signal_lt (hsha hbind)
  exact ⟨S.g2Codec.ser_injective hkey, hchain, helection, hsignal⟩

/-- In one election, one body answers one challenge. -/
theorem challenge_eq_of_same_election (hopen : proof.Opens ctx.issuerPk ctx.electionId o)
    (hopen' : proof.Opens ctx'.issuerPk ctx'.electionId o')
    (helection : ctx.electionId = ctx'.electionId) {c c' : S.Fr} (hacc : proof.Accepted o c)
    (hacc' : proof.Accepted o' c') : c = c' := by
  have hdl : o'.dl = o.dl := Except.ok.inj (hopen'.dl_eq.symm.trans hopen.dl_eq)
  have hE : o'.hE = o.hE :=
    Except.ok.inj (hopen'.hE_eq.symm.trans (helection ▸ hopen.hE_eq))
  have h' := hacc'.dl_msm
  rw [hdl, hE] at h'
  exact challenge_unique hacc.nullifier_ne_zero hacc.dl_msm h'

end VoteProof

/-- **Ballot non-malleability.** A vote proof body accepted in two contexts of
    one election was accepted in one context: the issuer key as a point, the
    chain and the signal agree. Accepted in two elections, it exhibits a
    non-trivial relation among the public generators. -/
theorem vote_non_malleable (H : Bytes → S.Fr) (proof : VoteProof S) (ctx ctx' : BallotContext)
    (o o' : OpenedVote S) (hopen : proof.Opens ctx.issuerPk ctx.electionId o)
    (hopen' : proof.Opens ctx'.issuerPk ctx'.electionId o')
    (haccepted : proof.AcceptedIn H ctx) (haccepted' : proof.AcceptedIn H ctx')
    (hH : NoCollision H (proof.transcriptIn o ctx) (proof.transcriptIn o' ctx'))
    (hsha : NoCollision S.sha256 (proof.preimageIn ctx) (proof.preimageIn ctx')) :
    (ctx.electionId = ctx'.electionId →
      o.pk = o'.pk ∧ ctx.chainId = ctx'.chainId ∧ ctx.signal = ctx'.signal) ∧
    (ctx.electionId ≠ ctx'.electionId →
      H (proof.transcriptIn o ctx) ≠ H (proof.transcriptIn o' ctx') ∧
        GeneratorRelation (paramsOf S proof.messageCount.toNat) (revealedIndices proof.revealed)
          (H (proof.transcriptIn o ctx)) (H (proof.transcriptIn o' ctx'))
          (messagesOf S proof.revealed) (messagesOf S proof.revealed)) := by
  have hacc := haccepted.accepted hopen
  have hacc' := haccepted'.accepted hopen'
  constructor
  · intro helection
    have hc := VoteProof.challenge_eq_of_same_election hopen hopen' helection hacc hacc'
    obtain ⟨hpk, hchain, -, hsignal⟩ :=
      VoteProof.eq_of_transcript_eq hacc.count_le hsha (hH hc)
    exact ⟨hpk, hchain, hsignal⟩
  · intro helection
    constructor
    · intro hc
      obtain ⟨-, -, heq, -⟩ := VoteProof.eq_of_transcript_eq hacc.count_le hsha (hH hc)
      exact helection heq
    · have hbbs : o'.bbs = o.bbs := Except.ok.inj (hopen'.bbs_eq.symm.trans hopen.bbs_eq)
      have hsecond := hacc'.bbs_accepts
      rw [hbbs] at hsecond
      refine generatorRelation_of_accepts (fun k => mem_keys_messagesOf)
        (fun k => mem_keys_messagesOf) ?_ hacc.bbs_accepts hsecond
      intro k hk
      rw [paramsOf_h_length]
      exact (hacc.in_range k hk).2

/-- A BBS+ proof that answers every challenge, for the revealed claim `[4]`. -/
def crossBbs : PoKOfSignatureG1Proof smallSuite where
  aPrime := (1 : ZMod 7)
  aBar := SmallSuite.elem 3
  d := SmallSuite.elem 3
  scResp1 := ⟨SmallSuite.elem 3, (1 : ZMod 7), (1 : ZMod 7)⟩
  t2 := (1 : ZMod 7)
  scResp2 := some [(1 : ZMod 7), (0 : ZMod 7), (0 : ZMod 7)]
  scPartialResp2 := none

def crossDl : PokDiscreteLog smallSuite := ⟨SmallSuite.elem 3, (1 : ZMod 7)⟩

/-- Discrete logarithms are known in the small suite, so a vote proof can be made that
    is accepted in two elections. -/
def crossVote : VoteProof smallSuite where
  nullifier := (1 : ZMod 7)
  messageCount := 2
  revealed := [(1, [4])]
  bbsProof := crossBbs.ser
  dlProof := crossDl.ser

def crossContext (election : UInt8) : BallotContext where
  issuerPk := smallKey
  chainId := []
  electionId := [election]
  signal := [0]
  chainId_lt := by decide
  electionId_lt := by simp
  signal_lt := by decide

def crossOpened (hE : ZMod 7) : OpenedVote smallSuite :=
  ⟨SmallSuite.elem 4, crossBbs, crossDl, hE⟩

theorem crossVote_opens {election : UInt8} {hE : ZMod 7}
    (h : SmallSuite.point (externalNullifier smallSuite [election]) = hE) :
    crossVote.Opens smallKey [election] (crossOpened hE) where
  pk_eq := deser_point smallSuite.g2Codec _
  bbs_eq := PoKOfSignatureG1Proof.deser_ser rfl rfl (show 3 < 2 ^ 64 by decide)
  dl_eq := PokDiscreteLog.deser_ser _
  hE_eq := congrArg Except.ok h

theorem crossVote_relates_generators :
    crossVote.AcceptedIn smallOracle (crossContext 2) ∧
      crossVote.AcceptedIn smallOracle (crossContext 6) ∧
      GeneratorRelation (paramsOf smallSuite 2) [1]
        (smallOracle (crossVote.transcriptIn (crossOpened 4) (crossContext 2)))
        (smallOracle (crossVote.transcriptIn (crossOpened 6) (crossContext 6)))
        (messagesOf smallSuite [(1, [4])]) (messagesOf smallSuite [(1, [4])]) := by
  have haccepted : crossVote.AcceptedIn smallOracle (crossContext 2) := by
    unfold VoteProof.AcceptedIn
    decide +kernel
  have haccepted' : crossVote.AcceptedIn smallOracle (crossContext 6) := by
    unfold VoteProof.AcceptedIn
    decide +kernel
  have hH : smallOracle (crossVote.transcriptIn (crossOpened 4) (crossContext 2))
      ≠ smallOracle (crossVote.transcriptIn (crossOpened 6) (crossContext 6)) := by
    decide +kernel
  have hsha : smallSuite.sha256 (crossVote.preimageIn (crossContext 2))
      ≠ smallSuite.sha256 (crossVote.preimageIn (crossContext 6)) := by
    decide +kernel
  refine ⟨haccepted, haccepted', ?_⟩
  exact ((vote_non_malleable smallOracle crossVote (crossContext 2) (crossContext 6)
    (crossOpened 4) (crossOpened 6) (crossVote_opens (by decide +kernel))
    (crossVote_opens (by decide +kernel)) haccepted haccepted' (fun h => absurd h hH)
    (fun h => absurd h hsha)).2 (by decide)).2

/-! ### Selective proofs -/

namespace SelectiveProof

/-- The verifier sees the same message at every revealed index. -/
def SameImages (S : Suite) (proof proof' : SelectiveProof) : Prop :=
  ∀ idx claim claim', (idx, claim) ∈ proof.revealed → (idx, claim') ∈ proof'.revealed →
    claimToFr S claim = claimToFr S claim'

/-- The two proofs have the same body, message count and revealed indices; the
    revealed claims may differ. -/
structure SameBody (proof proof' : SelectiveProof) : Prop where
  count : proof.messageCount = proof'.messageCount
  body : proof.proof = proof'.proof
  indices : ∀ k, k ∈ revealedIndices proof.revealed ↔ k ∈ revealedIndices proof'.revealed

/-- The relation that a body accepted for both proofs under two challenges yields. -/
def Relation (S : Suite) (proof proof' : SelectiveProof) (c c' : S.Fr) : Prop :=
  c ≠ c' ∧ GeneratorRelation (paramsOf S proof.messageCount.toNat)
    (revealedIndices proof.revealed) c c' (messagesOf S proof.revealed)
    (messagesOf S proof'.revealed)

variable {H : Bytes → S.Fr} {proof proof' : SelectiveProof} {pk pk' : S.G2}
  {p : PoKOfSignatureG1Proof S} {nonce nonce' : Bytes}

theorem eq_of_transcript_eq (hsame : proof.SameBody proof') (hacc : proof.Accepted H pk p nonce)
    (hacc' : proof'.Accepted H pk' p nonce')
    (h : proof.transcript p nonce = proof'.transcript p nonce') :
    nonce = nonce' ∧ proof.SameImages S proof' := by
  have hlen : ∀ m : OrderedMap S.Fr,
      (p.contribution m (paramsOf S proof.messageCount.toNat)).length < 2 ^ 32 := by
    intro m
    have hle := challengeContribution_length_le p.aPrime p.aBar p.d p.scResp1.t p.t2 m
      (paramsOf S proof.messageCount.toNat) (by rw [paramsOf_h_length]; exact hacc.count_le)
    exact lt_of_le_of_lt hle (by decide)
  rw [transcript, transcript, ← hsame.count] at h
  obtain ⟨hcontr, hnonce⟩ := proofTranscript_injective (hlen _) (hlen _) h
  refine ⟨hnonce, ?_⟩
  intro idx claim claim' hmem hmem'
  have hkeys : ∀ k, k ∈ (messagesOf S proof.revealed).keys ↔
      k ∈ (messagesOf S proof'.revealed).keys := by
    intro k
    rw [mem_keys_messagesOf, mem_keys_messagesOf]
    exact hsame.indices k
  have hidx : idx.toNat < (paramsOf S proof.messageCount.toNat).h.length := by
    rw [paramsOf_h_length]
    exact hacc.in_range _ (List.mem_map.mpr ⟨(idx, claim), hmem, rfl⟩)
  have hget := challengeContribution_injective hkeys hcontr idx.toNat hidx
  rw [get?_messagesOf hacc.distinct hmem, get?_messagesOf hacc'.distinct hmem'] at hget
  exact Option.some.inj hget

theorem relation_of_accepted (hsame : proof.SameBody proof')
    (hacc : proof.Accepted H pk p nonce) (hacc' : proof'.Accepted H pk' p nonce')
    (hc : H (proof.transcript p nonce) ≠ H (proof'.transcript p nonce')) :
    proof.Relation S proof' (H (proof.transcript p nonce)) (H (proof'.transcript p nonce')) := by
  refine ⟨hc, ?_⟩
  have hsecond := hacc'.accepts
  rw [← hsame.count] at hsecond
  refine generatorRelation_of_accepts (fun k => mem_keys_messagesOf)
    (fun k => mem_keys_messagesOf.trans (hsame.indices k).symm) ?_ hacc.accepts hsecond
  intro k hk
  rw [paramsOf_h_length]
  exact hacc.in_range k hk

/-- A body accepted twice: either nothing was changed, or the generators are
    related. -/
theorem same_or_relation (hsame : proof.SameBody proof') (hacc : proof.Accepted H pk p nonce)
    (hacc' : proof'.Accepted H pk' p nonce')
    (hH : NoCollision H (proof.transcript p nonce) (proof'.transcript p nonce')) :
    (nonce = nonce' ∧ proof.SameImages S proof') ∨
      proof.Relation S proof' (H (proof.transcript p nonce))
        (H (proof'.transcript p nonce')) := by
  by_cases hc : H (proof.transcript p nonce) = H (proof'.transcript p nonce')
  · exact .inl (eq_of_transcript_eq hsame hacc hacc' (hH hc))
  · exact .inr (relation_of_accepted hsame hacc hacc' hc)

theorem accepted_of_returns {issuerPk : Bytes}
    (hp : deser PoKOfSignatureG1Proof.decoder proof.proof = .ok p)
    (h : (verifyProof H proof issuerPk nonce).Returns true) :
    ∃ pk, proof.Accepted H pk p nonce := by
  obtain ⟨pk, p', -, hp', hacc⟩ := (verifyProof_returns_true_iff _ _ _ _).mp h
  cases hp.symm.trans hp'
  exact ⟨pk, hacc⟩

end SelectiveProof

/-- What a Semaphore-style vote is bound to: the nullifier has its fixed length. -/
structure VoteBinding where
  electionId : Bytes
  nullifier : Bytes
  signal : Bytes
  nullifier_length : nullifier.length = nullifierLen
  electionId_lt : electionId.length < 2 ^ 64
  signal_lt : signal.length < 2 ^ 64

def VoteBinding.nonce (S : Suite) (v : VoteBinding) : Bytes :=
  bindNonce S v.electionId v.nullifier v.signal

def VoteBinding.preimage (v : VoteBinding) : Bytes :=
  bindNoncePreimage v.electionId v.nullifier v.signal

/-- **Anti-replay and tamper resistance.** A selective-proof body that verifies
    for two nonces and two lists of claims over the same indices was not changed
    (the nonces agree and so do the field images of the claims), or it exhibits a
    non-trivial relation among the public generators. The same holds of
    `verify_bound_proof` and what it binds. -/
theorem selective_anti_replay (H : Bytes → S.Fr) (issuerPk : Bytes) (proof proof' : SelectiveProof)
    (p : PoKOfSignatureG1Proof S) (hsame : proof.SameBody proof')
    (hp : deser PoKOfSignatureG1Proof.decoder proof.proof = .ok p) :
    (∀ nonce nonce' : Bytes,
      (verifyProof H proof issuerPk nonce).Returns true →
      (verifyProof H proof' issuerPk nonce').Returns true →
      NoCollision H (proof.transcript p nonce) (proof'.transcript p nonce') →
      (nonce = nonce' ∧ proof.SameImages S proof') ∨
        proof.Relation S proof' (H (proof.transcript p nonce))
          (H (proof'.transcript p nonce'))) ∧
    (∀ (v v' : VoteBinding) (b b' : Bytes),
      (SelectiveProof.fromBytes b).run.Returns (.ok proof) →
      (SelectiveProof.fromBytes b').run.Returns (.ok proof') →
      (verifyBoundProof H b issuerPk v.electionId v.nullifier v.signal).Returns true →
      (verifyBoundProof H b' issuerPk v'.electionId v'.nullifier v'.signal).Returns true →
      NoCollision H (proof.transcript p (v.nonce S)) (proof'.transcript p (v'.nonce S)) →
      NoCollision S.sha256 v.preimage v'.preimage →
      ((v.electionId = v'.electionId ∧ v.nullifier = v'.nullifier ∧ v.signal = v'.signal) ∧
          proof.SameImages S proof') ∨
        proof.Relation S proof' (H (proof.transcript p (v.nonce S)))
          (H (proof'.transcript p (v'.nonce S)))) := by
  have hp' : deser PoKOfSignatureG1Proof.decoder proof'.proof = .ok p := hsame.body ▸ hp
  constructor
  · intro nonce nonce' h h' hH
    obtain ⟨pk, hacc⟩ := SelectiveProof.accepted_of_returns hp h
    obtain ⟨pk', hacc'⟩ := SelectiveProof.accepted_of_returns hp' h'
    exact SelectiveProof.same_or_relation hsame hacc hacc' hH
  · intro v v' b b' hb hb' h h' hH hsha
    obtain ⟨q, hq, h⟩ := (verifyProofBytes_returns_true_iff _ _ _ _).mp h
    obtain ⟨q', hq', h'⟩ := (verifyProofBytes_returns_true_iff _ _ _ _).mp h'
    cases hb.unique hq
    cases hb'.unique hq'
    obtain ⟨pk, hacc⟩ := SelectiveProof.accepted_of_returns hp h
    obtain ⟨pk', hacc'⟩ := SelectiveProof.accepted_of_returns hp' h'
    rcases SelectiveProof.same_or_relation hsame hacc hacc' hH with ⟨hnonce, himages⟩ | hrel
    · obtain ⟨helection, hnull, hsignal⟩ := bindNoncePreimage_injective v.electionId_lt
        v'.electionId_lt v.signal_lt v'.signal_lt (hsha hnonce)
      exact .inl ⟨⟨helection, hnull, hsignal⟩, himages⟩
    · exact .inr hrel

def crossProof : SelectiveProof where
  messageCount := 2
  revealed := [(1, [4])]
  proof := crossBbs.ser

theorem crossProof_relates_generators :
    (verifyProof smallOracle crossProof smallKey [0]).Returns true ∧
      (verifyProof smallOracle crossProof smallKey [1]).Returns true ∧
      crossProof.Relation smallSuite crossProof
        (smallOracle (crossProof.transcript crossBbs [0]))
        (smallOracle (crossProof.transcript crossBbs [1])) := by
  have haccepted : (verifyProof smallOracle crossProof smallKey [0]).Returns true := by
    decide +kernel
  have haccepted' : (verifyProof smallOracle crossProof smallKey [1]).Returns true := by
    decide +kernel
  have hH : smallOracle (crossProof.transcript crossBbs [0])
      ≠ smallOracle (crossProof.transcript crossBbs [1]) := by
    decide +kernel
  refine ⟨haccepted, haccepted', ?_⟩
  have hsame : crossProof.SameBody crossProof := ⟨rfl, rfl, fun _ => Iff.rfl⟩
  have hbody := PoKOfSignatureG1Proof.deser_ser (p := crossBbs) rfl rfl
    (show 3 < 2 ^ 64 by decide)
  rcases (selective_anti_replay smallOracle smallKey crossProof crossProof crossBbs hsame hbody).1
    [0] [1] haccepted haccepted' (fun h => absurd h hH) with ⟨hnonce, -⟩ | hrelation
  · cases hnonce
  · exact hrelation

end PhiCrypto

import PhiCrypto.Voting
import PhiCrypto.BbsPlusAlgebra
import PhiCrypto.SmallSuite

/-!
# Special soundness of vote proofs

Two accepted vote proofs with the same commitments and different challenges
(a `VoteFork`) determine a witness: the randomised signature, the whole message
vector, and the discrete logarithm of the nullifier. The point of the composed
proof is that the logarithm and message 0 are one scalar, whatever the set of
revealed indices is.
-/

namespace PhiCrypto

open Exec

variable {S : Suite}

/-- Two openings with the same commitments. Only the responses may differ. -/
structure OpenedVote.SameCommitments (o o' : OpenedVote S) : Prop where
  aPrime : o.bbs.aPrime = o'.bbs.aPrime
  aBar : o.bbs.aBar = o'.bbs.aBar
  d : o.bbs.d = o'.bbs.d
  t1 : o.bbs.scResp1.t = o'.bbs.scResp1.t
  t2 : o.bbs.t2 = o'.bbs.t2
  dl : o.dl.t = o'.dl.t

/-- Two vote proofs in one context that share everything but their responses,
    accepted under two oracles that answer with different challenges. -/
structure VoteFork (S : Suite) (electionId : Bytes) where
  issuerPk : Bytes
  chainId : Bytes
  signal : Bytes
  proof : VoteProof S
  proof' : VoteProof S
  o : OpenedVote S
  o' : OpenedVote S
  H : Bytes → S.Fr
  H' : Bytes → S.Fr
  same_count : proof.messageCount = proof'.messageCount
  same_revealed : proof.revealed = proof'.revealed
  same_nullifier : proof.nullifier = proof'.nullifier
  opens : proof.Opens issuerPk electionId o
  opens' : proof'.Opens issuerPk electionId o'
  same_commitments : o.SameCommitments o'
  accepted : (verifyInner H proof issuerPk chainId electionId signal).run.Returns (.ok ())
  accepted' : (verifyInner H' proof' issuerPk chainId electionId signal).run.Returns (.ok ())
  challenges_ne : H (proof.transcript o chainId electionId signal)
    ≠ H' (proof'.transcript o' chainId electionId signal)

/-- The secrets that a vote proof speaks of: the witnesses of the two BBS+
    relations, with the whole message vector, and the logarithm of the
    nullifier. -/
structure VoteWitness (S : Suite) where
  e : S.Fr
  r2 : S.Fr
  r3 : S.Fr
  sPrime : S.Fr
  messages : List S.Fr
  m : S.Fr

structure VoteWitness.Satisfies (w : VoteWitness S) (proof : VoteProof S) (o : OpenedVote S) :
    Prop where
  nullifier_eq : proof.nullifier = w.m • o.hE
  first_relation : o.bbs.aBar - o.bbs.d
    = (-w.e) • o.bbs.aPrime + w.r2 • (paramsOf S proof.messageCount.toNat).h0
  second_relation : (paramsOf S proof.messageCount.toNat).g1
      + msm (paramsOf S proof.messageCount.toNat).h w.messages
    = w.r3 • o.bbs.d - w.sPrime • (paramsOf S proof.messageCount.toNat).h0
  messages_length : w.messages.length = proof.messageCount.toNat
  revealed_messages : ∀ entry ∈ proof.revealed,
    w.messages[entry.1.toNat]? = some (claimToFr S entry.2)
  secret_message : w.messages[0]? = some w.m
  pairing_relation : S.pairing o.bbs.aPrime o.pk
    + S.pairing (-o.bbs.aBar) (paramsOf S proof.messageCount.toNat).g2 = 0

/-- The witness extracted from the responses of two openings to the challenges
    `c` and `c'`. -/
def extractVote (proof : VoteProof S) (c c' : S.Fr) (o o' : OpenedVote S) : VoteWitness S :=
  let ws := extract c c' (o.bbs.scResp2.getD []) (o'.bbs.scResp2.getD [])
  let hidden := ws.length - 2
  { e := -((o.bbs.scResp1.response1 - o'.bbs.scResp1.response1) / (c - c'))
    r2 := (o.bbs.scResp1.response2 - o'.bbs.scResp1.response2) / (c - c')
    r3 := -(ws.getD hidden 0)
    sPrime := ws.getD (hidden + 1) 0
    messages := fillMessages (messagesOf S proof.revealed) 0 proof.messageCount.toNat
      (ws.take hidden)
    m := (o.dl.response - o'.dl.response) / (c - c') }

theorem exists_append_pair {α : Type} {l : List α} {n : Nat} (h : l.length = n + 2) :
    ∃ front a b, l = front ++ [a, b] ∧ front.length = n := by
  obtain ⟨a, b, hab⟩ := List.length_eq_two.mp (show (l.drop n).length = 2 by simp [h])
  exact ⟨l.take n, a, b, by rw [← hab, List.take_append_drop], by simp [h]⟩

namespace VoteFork

variable {electionId : Bytes} (f : VoteFork S electionId)

def c : S.Fr := f.H (f.proof.transcript f.o f.chainId electionId f.signal)

def c' : S.Fr := f.H' (f.proof'.transcript f.o' f.chainId electionId f.signal)

theorem c_ne : f.c ≠ f.c' := f.challenges_ne

def witness : VoteWitness S := extractVote f.proof f.c f.c' f.o f.o'

theorem acceptedFirst : f.proof.Accepted f.o f.c := by
  obtain ⟨o, ho, hacc⟩ := (verifyInner_returns_ok_iff _ _ _ _ _ _).mp f.accepted
  cases f.opens.unique ho
  exact hacc

theorem acceptedSecond : f.proof'.Accepted f.o' f.c' := by
  obtain ⟨o, ho, hacc⟩ := (verifyInner_returns_ok_iff _ _ _ _ _ _).mp f.accepted'
  cases f.opens'.unique ho
  exact hacc

theorem same_generator : f.o.hE = f.o'.hE := by
  have h := f.opens.hE_eq.symm.trans f.opens'.hE_eq
  exact Except.ok.inj h

theorem nullifier_eq : f.proof.nullifier = f.witness.m • f.o.hE := by
  have h := f.acceptedFirst.dl_msm
  have h' := f.acceptedSecond.dl_msm
  rw [← f.same_generator, ← f.same_nullifier, ← f.same_commitments.dl] at h'
  rw [← msm_extract f.c_ne (by simp) h h']
  simp [extract, witness, extractVote]

theorem first_relation : f.o.bbs.aBar - f.o.bbs.d
    = (-f.witness.e) • f.o.bbs.aPrime
      + f.witness.r2 • (paramsOf S f.proof.messageCount.toNat).h0 := by
  have h := f.acceptedFirst.bbs_accepts.first_msm
  have h' := f.acceptedSecond.bbs_accepts.first_msm
  rw [← f.same_count, ← f.same_commitments.aPrime, ← f.same_commitments.aBar,
    ← f.same_commitments.d, ← f.same_commitments.t1] at h'
  rw [← msm_extract f.c_ne (by simp) h h']
  simp [extract, witness, extractVote]

/-- The full responses of both proofs, and the scalars extracted from them: they
    represent the public part over `bases_2`. -/
theorem extracted_second :
    ∃ resp resp', f.o.bbs.scResp2 = some resp ∧ f.o'.bbs.scResp2 = some resp' ∧
      resp[0]? = some f.o.dl.response ∧ resp'[0]? = some f.o'.dl.response ∧
      resp.length = resp'.length ∧
      resp.length = (f.o.bbs.bases2 (messagesOf S f.proof.revealed)
        (paramsOf S f.proof.messageCount.toNat)).length ∧
      msm (f.o.bbs.bases2 (messagesOf S f.proof.revealed)
          (paramsOf S f.proof.messageCount.toNat)) (extract f.c f.c' resp resp')
        = publicPart (messagesOf S f.proof.revealed)
            (paramsOf S f.proof.messageCount.toNat) := by
  obtain ⟨resp, hresp, hlen, heq⟩ := f.acceptedFirst.bbs_accepts.second
  obtain ⟨resp', hresp', hlen', heq'⟩ := f.acceptedSecond.bbs_accepts.second
  obtain ⟨r, hr, hhead⟩ := f.acceptedFirst.same_response
  obtain ⟨r', hr', hhead'⟩ := f.acceptedSecond.same_response
  cases hresp.symm.trans hr
  cases hresp'.symm.trans hr'
  have hbases : f.o'.bbs.bases2 (messagesOf S f.proof'.revealed)
      (paramsOf S f.proof'.messageCount.toNat)
      = f.o.bbs.bases2 (messagesOf S f.proof.revealed) (paramsOf S f.proof.messageCount.toNat) := by
    rw [PoKOfSignatureG1Proof.bases2, PoKOfSignatureG1Proof.bases2, f.same_count,
      f.same_revealed, f.same_commitments.d]
  rw [hbases] at hlen' heq'
  rw [← f.same_count, ← f.same_revealed, ← f.same_commitments.t2] at heq'
  exact ⟨resp, resp', hresp, hresp', hhead, hhead', hlen.trans hlen'.symm, hlen,
    msm_extract f.c_ne (hlen.trans hlen'.symm) heq heq'⟩

theorem secret_hidden : (messagesOf S f.proof.revealed).get? 0 = none := by
  rw [← Option.not_isSome_iff_eq_none, ← OrderedMap.mem_keys_iff, mem_keys_messagesOf]
  intro h
  have := (f.acceptedFirst.in_range 0 h).1
  omega

theorem hiddenPart_length_pos :
    0 < (hiddenPart (messagesOf S f.proof.revealed) 0
      (paramsOf S f.proof.messageCount.toNat).h).length := by
  have hlen := paramsOf_h_length S f.proof.messageCount.toNat
  have hpos := f.acceptedFirst.count_pos
  cases hh : (paramsOf S f.proof.messageCount.toNat).h with
  | nil =>
    rw [hh] at hlen
    simp only [List.length_nil] at hlen
    omega
  | cons base h =>
    rw [hiddenPart_zero f.secret_hidden]
    simp

/-- The scalars extracted for the hidden messages, and the two behind them. -/
theorem extracted_split :
    ∃ hidden : List S.Fr, ∃ wd ws : S.Fr,
      hidden.length = (hiddenPart (messagesOf S f.proof.revealed) 0
        (paramsOf S f.proof.messageCount.toNat).h).length ∧
      hidden[0]? = some f.witness.m ∧
      f.witness.messages = fillMessages (messagesOf S f.proof.revealed) 0
        f.proof.messageCount.toNat hidden ∧
      f.witness.r3 = -wd ∧ f.witness.sPrime = ws ∧
      msm (hiddenPart (messagesOf S f.proof.revealed) 0
          (paramsOf S f.proof.messageCount.toNat).h) hidden
        + (wd • f.o.bbs.d + ws • (paramsOf S f.proof.messageCount.toNat).h0)
        = publicPart (messagesOf S f.proof.revealed)
            (paramsOf S f.proof.messageCount.toNat) := by
  obtain ⟨resp, resp', hresp, hresp', hhead, hhead', hsame, hlen, heq⟩ := f.extracted_second
  have hws : (extract f.c f.c' resp resp').length
      = (hiddenPart (messagesOf S f.proof.revealed) 0
          (paramsOf S f.proof.messageCount.toNat).h).length + 2 := by
    rw [extract_length hsame, hlen]
    simp [PoKOfSignatureG1Proof.bases2]
  obtain ⟨hidden, wd, ws, hsplit, hhidden⟩ := exists_append_pair hws
  have hwitness : extract f.c f.c' (f.o.bbs.scResp2.getD []) (f.o'.bbs.scResp2.getD [])
      = hidden ++ [wd, ws] := by
    rw [hresp, hresp']
    exact hsplit
  refine ⟨hidden, wd, ws, hhidden, ?_, ?_, ?_, ?_, ?_⟩
  · -- message 0 is hidden, so the first response of both proofs belongs to it
    have hfirst := getElem?_extract f.c f.c' hhead hhead'
    rw [hsplit, List.getElem?_append_left] at hfirst
    · exact hfirst
    · rw [hhidden]
      exact f.hiddenPart_length_pos
  · simp [witness, extractVote, hwitness]
  · simp [witness, extractVote, hwitness]
  · simp [witness, extractVote, hwitness]
  · rw [hsplit, PoKOfSignatureG1Proof.bases2, msm_append hhidden.symm] at heq
    simpa using heq

theorem second_relation : (paramsOf S f.proof.messageCount.toNat).g1
      + msm (paramsOf S f.proof.messageCount.toNat).h f.witness.messages
    = f.witness.r3 • f.o.bbs.d
      - f.witness.sPrime • (paramsOf S f.proof.messageCount.toNat).h0 := by
  obtain ⟨hidden, wd, ws, hlen, -, hmessages, hr3, hs, heq⟩ := f.extracted_split
  have hfill := msm_fillMessages (messagesOf S f.proof.revealed)
    (paramsOf S f.proof.messageCount.toNat).h 0 hlen
  rw [paramsOf_h_length] at hfill
  rw [hmessages, hr3, hs, hfill, eq_sub_of_add_eq heq, publicPart, revealedSum]
  module

/-- The extracted scalars satisfy every relation of the composed proof, with one
    scalar as message 0 and as the logarithm of the nullifier. -/
theorem witness_satisfies : f.witness.Satisfies f.proof f.o where
  nullifier_eq := f.nullifier_eq
  first_relation := f.first_relation
  second_relation := f.second_relation
  messages_length := by
    obtain ⟨hidden, wd, ws, -, -, hmessages, -⟩ := f.extracted_split
    rw [hmessages, fillMessages_length]
  revealed_messages := by
    obtain ⟨hidden, wd, ws, -, -, hmessages, -⟩ := f.extracted_split
    rintro ⟨idx, claim⟩ hmem
    have hrange := f.acceptedFirst.in_range idx.toNat
      (List.mem_map.mpr ⟨(idx, claim), hmem, rfl⟩)
    rw [hmessages]
    refine getElem?_fillMessages hidden hrange.2 ?_
    rw [Nat.zero_add]
    exact get?_messagesOf f.acceptedFirst.distinct hmem
  secret_message := by
    obtain ⟨hidden, wd, ws, -, hhead, hmessages, -⟩ := f.extracted_split
    rw [hmessages]
    exact fillMessages_head f.secret_hidden hhead f.acceptedFirst.count_pos
  pairing_relation := f.acceptedFirst.bbs_accepts.pairing

end VoteFork

/-- **Witness binding.** From two accepted vote proofs with the same commitments
    and different challenges, the extracted scalars satisfy the nullifier
    equation, both BBS+ relations and the pairing equation, and message 0 is the
    logarithm of the nullifier. So two extractions in one election with the same
    message 0 belong to one nullifier. -/
theorem vote_witness_binding {electionId : Bytes} (f : VoteFork S electionId) :
    f.witness.Satisfies f.proof f.o ∧
      ∀ g : VoteFork S electionId, f.witness.messages[0]? = g.witness.messages[0]? →
        f.proof.nullifier = g.proof.nullifier := by
  refine ⟨f.witness_satisfies, ?_⟩
  intro g hmessage
  have hm : f.witness.m = g.witness.m := by
    rw [f.witness_satisfies.secret_message, g.witness_satisfies.secret_message] at hmessage
    exact Option.some.inj hmessage
  have hgenerator : f.o.hE = g.o.hE :=
    Except.ok.inj (f.opens.hE_eq.symm.trans g.opens.hE_eq)
  rw [f.nullifier_eq, g.nullifier_eq, hm, hgenerator]

/-! ### A fork in the small suite -/

/-- A vote proof over the claims `[0]`, `[4]` and `[1]` with the second one revealed. Only
    the responses depend on the challenge `c`; their constant parts are the blindings. -/
def smallOpened (c : ZMod 7) : OpenedVote smallSuite where
  pk := SmallSuite.elem 4
  bbs :=
    { aPrime := SmallSuite.elem 3
      aBar := SmallSuite.elem 2
      d := SmallSuite.elem 6
      scResp1 := ⟨SmallSuite.elem 6, SmallSuite.elem 6, SmallSuite.elem 1 + SmallSuite.elem 5 * c⟩
      t2 := SmallSuite.elem 6
      -- the two hidden messages come first
      scResp2 := some [SmallSuite.elem 1 + c, SmallSuite.elem 3 + SmallSuite.elem 2 * c,
        SmallSuite.elem 2 + SmallSuite.elem 5 * c, SmallSuite.elem 3 + SmallSuite.elem 4 * c]
      scPartialResp2 := none }
  dl := ⟨SmallSuite.elem 5, SmallSuite.elem 1 + c⟩
  hE := SmallSuite.point (externalNullifier smallSuite [])

def smallVote (c : ZMod 7) : VoteProof smallSuite where
  nullifier := (smallOpened c).hE
  messageCount := 3
  revealed := [(1, [4])]
  bbsProof := (smallOpened c).bbs.ser
  dlProof := (smallOpened c).dl.ser

def smallKey : Bytes := smallSuite.g2Codec.ser (SmallSuite.elem 4)

theorem smallVote_opens (c : ZMod 7) : (smallVote c).Opens smallKey [] (smallOpened c) where
  pk_eq := deser_point smallSuite.g2Codec _
  bbs_eq := PoKOfSignatureG1Proof.deser_ser rfl rfl (show 4 < 2 ^ 64 by decide)
  dl_eq := PokDiscreteLog.deser_ser _
  hE_eq := rfl

/-- The two vote proofs that answer the challenges 1 and 2. -/
def smallFork : VoteFork smallSuite [] where
  issuerPk := smallKey
  chainId := []
  signal := []
  proof := smallVote 1
  proof' := smallVote (SmallSuite.elem 2)
  o := smallOpened 1
  o' := smallOpened (SmallSuite.elem 2)
  H := fun _ => 1
  H' := fun _ => SmallSuite.elem 2
  same_count := rfl
  same_revealed := rfl
  same_nullifier := rfl
  opens := smallVote_opens 1
  opens' := smallVote_opens (SmallSuite.elem 2)
  same_commitments := ⟨rfl, rfl, rfl, rfl, rfl, rfl⟩
  accepted := by decide +kernel
  accepted' := by decide +kernel
  challenges_ne := show (1 : ZMod 7) ≠ SmallSuite.elem 2 by decide

/-- The claims are extracted, and the scalar of the nullifier is that of the hidden first
    one. -/
theorem smallFork_witness_binding :
    smallFork.witness.messages = [[0], [4], [1]].map (claimToFr smallSuite) ∧
      smallFork.witness.Satisfies (smallVote 1) (smallOpened 1) :=
  ⟨by decide +kernel, (vote_witness_binding smallFork).1⟩

end PhiCrypto

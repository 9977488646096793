import PhiCrypto.Suite

/-!
# Fiat-Shamir transcripts

The two transcripts of the crate, `proof_transcript` and `vote_transcript`, as
encodings of what they bind. Each field but the last is read back because its
length prefix does not wrap; the last field of a transcript needs no bound, since
the end of the string delimits it. The domain labels have different lengths, so
the two kinds of transcript differ in their first four bytes.
-/

namespace PhiCrypto

variable {S : Suite}

/-- The fields of a vote transcript, within the range of their length prefixes. -/
structure VoteFields where
  messageCount : UInt32
  issuerPk : Bytes
  bbsContribution : Bytes
  dlContribution : Bytes
  chainId : Bytes
  electionId : Bytes
  nullifier : Bytes
  signal : Bytes
  issuerPk_lt : issuerPk.length < 2 ^ 32
  bbsContribution_lt : bbsContribution.length < 2 ^ 32
  dlContribution_lt : dlContribution.length < 2 ^ 32
  chainId_lt : chainId.length < 2 ^ 64
  electionId_lt : electionId.length < 2 ^ 64
  nullifier_lt : nullifier.length < 2 ^ 64
  signal_lt : signal.length < 2 ^ 64

namespace VoteFields

def transcript (S : Suite) (t : VoteFields) : Bytes :=
  voteTranscript S t.bbsContribution t.dlContribution t.messageCount t.issuerPk t.chainId
    t.electionId t.nullifier t.signal

/-- The SHA-256 preimage of the ballot context. -/
def preimage (t : VoteFields) : Bytes :=
  bindContextPreimage t.chainId t.electionId t.nullifier t.signal

variable {t t' : VoteFields}

theorem context_eq_of_preimage_eq (h : t.preimage = t'.preimage) :
    t.chainId = t'.chainId ∧ t.electionId = t'.electionId ∧ t.nullifier = t'.nullifier ∧
      t.signal = t'.signal :=
  bindContextPreimage_injective t.chainId_lt t'.chainId_lt t.electionId_lt t'.electionId_lt
    t.signal_lt t'.signal_lt h

theorem eq_of_transcript_eq (h : t.transcript S = t'.transcript S) :
    t.messageCount = t'.messageCount ∧ t.issuerPk = t'.issuerPk ∧
      t.bbsContribution = t'.bbsContribution ∧ t.dlContribution = t'.dlContribution ∧
      S.sha256 t.preimage = S.sha256 t'.preimage :=
  voteTranscript_injective S t.issuerPk_lt t'.issuerPk_lt t.bbsContribution_lt
    t'.bbsContribution_lt t.dlContribution_lt t'.dlContribution_lt h

end VoteFields

/-- A transcript starts with the length of its domain label. -/
theorem take_four_frame_append (label s : Bytes) :
    (frame 4 label ++ s).take 4 = beBytes 4 label.length := by
  rw [frame, List.append_assoc]
  exact List.take_left' (beBytes_length 4 label.length)

theorem proofTranscript_ne_voteTranscript (contribution nonce : Bytes) (t : VoteFields) :
    proofTranscript contribution nonce ≠ t.transcript S := by
  intro h
  have hprefix := congrArg (List.take 4) h
  simp only [proofTranscript, VoteFields.transcript, voteTranscript, List.append_assoc,
    take_four_frame_append] at hprefix
  exact absurd hprefix (by decide)

/-- **Transcripts bind their fields.** Equal selective-proof transcripts have equal
    contributions and nonces. Equal vote transcripts have equal counts, issuer keys
    and contributions, and equal ballot contexts unless two distinct preimages
    collide under SHA-256. No transcript of one kind is one of the other. -/
theorem transcripts_injective_separated (S : Suite) :
    (∀ contribution contribution' nonce nonce' : Bytes,
      contribution.length < 2 ^ 32 → contribution'.length < 2 ^ 32 →
      proofTranscript contribution nonce = proofTranscript contribution' nonce' →
      contribution = contribution' ∧ nonce = nonce') ∧
    (∀ t t' : VoteFields, t.transcript S = t'.transcript S →
      (t.messageCount = t'.messageCount ∧ t.issuerPk = t'.issuerPk ∧
        t.bbsContribution = t'.bbsContribution ∧ t.dlContribution = t'.dlContribution) ∧
      ((t.chainId = t'.chainId ∧ t.electionId = t'.electionId ∧ t.nullifier = t'.nullifier ∧
          t.signal = t'.signal) ∨
        (t.preimage ≠ t'.preimage ∧ S.sha256 t.preimage = S.sha256 t'.preimage))) ∧
    (∀ (contribution nonce : Bytes) (t : VoteFields),
      proofTranscript contribution nonce ≠ t.transcript S) := by
  refine ⟨?_, ?_, proofTranscript_ne_voteTranscript⟩
  · intro contribution contribution' nonce nonce' hc hc' h
    exact proofTranscript_injective hc hc' h
  · intro t t' h
    obtain ⟨hcount, hpk, hbbs, hdl, hsha⟩ := VoteFields.eq_of_transcript_eq h
    refine ⟨⟨hcount, hpk, hbbs, hdl⟩, ?_⟩
    by_cases hpre : t.preimage = t'.preimage
    · exact .inl (VoteFields.context_eq_of_preimage_eq hpre)
    · exact .inr ⟨hpre, hsha⟩

end PhiCrypto

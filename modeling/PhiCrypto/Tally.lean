import PhiCrypto.Preimages
import PhiCrypto.SmallSuite
import Mathlib.Data.Finset.Card

/-!
# The threshold tally

`voting.rs` records a vote by its nullifier and counts the distinct ones. The loop
over the votes collects a set (`distinctNullifiers_eq_card`), so the verdict depends
on which votes were cast and on nothing else. A nullifier stands for one secret and
one topic, as long as no two of the hashed preimages collide.
-/

namespace PhiCrypto

namespace Tally

/-- `voting::VoteProof`: a recorded vote. -/
structure VoteProof where
  nullifier : Bytes
  length_eq : nullifier.length = nullifierLen

/-- `distinct_nullifiers`, with the hash set as a finite set. -/
def distinctNullifiers (votes : List VoteProof) : Nat :=
  (votes.foldl (fun seen v => insert v.nullifier seen) (∅ : Finset Bytes)).card

/-- `verify_threshold_tally`. The cast of the count to `u64` loses nothing. -/
def verifyThresholdTally (votes : List VoteProof) (threshold : UInt64) : Bool :=
  decide (distinctNullifiers votes ≥ threshold.toNat)

/-- The vote of a secret on a topic. -/
def voteOf (S : Suite) (ballot : Bytes × Bytes) : VoteProof where
  nullifier := computeNullifier S ballot.1 ballot.2
  length_eq := S.sha256_length _

/-! ### The count -/

theorem mem_foldl_insert {b : Bytes} (votes : List VoteProof) (seen : Finset Bytes) :
    b ∈ votes.foldl (fun seen v => insert v.nullifier seen) seen ↔
      b ∈ seen ∨ b ∈ votes.map VoteProof.nullifier := by
  induction votes generalizing seen with
  | nil => simp
  | cons v votes ih =>
    rw [List.foldl_cons, ih, Finset.mem_insert, List.map_cons, List.mem_cons]
    tauto

/-- The loop counts the nullifiers as a set. -/
theorem distinctNullifiers_eq_card (votes : List VoteProof) :
    distinctNullifiers votes = (votes.map VoteProof.nullifier).toFinset.card := by
  rw [distinctNullifiers]
  congr 1
  ext b
  rw [mem_foldl_insert, List.mem_toFinset]
  simp

theorem distinctNullifiers_mono {votes votes' : List VoteProof} (h : votes ⊆ votes') :
    distinctNullifiers votes ≤ distinctNullifiers votes' := by
  rw [distinctNullifiers_eq_card, distinctNullifiers_eq_card]
  apply Finset.card_le_card
  intro b hb
  rw [List.mem_toFinset] at hb ⊢
  exact List.map_subset _ h hb

theorem verifyThresholdTally_iff {votes : List VoteProof} {threshold : UInt64} :
    verifyThresholdTally votes threshold = true ↔
      threshold.toNat ≤ distinctNullifiers votes := by
  simp [verifyThresholdTally]

theorem verifyThresholdTally_mono {votes votes' : List VoteProof} {threshold : UInt64}
    (hsub : votes ⊆ votes') (h : verifyThresholdTally votes threshold = true) :
    verifyThresholdTally votes' threshold = true := by
  rw [verifyThresholdTally_iff] at h ⊢
  exact h.trans (distinctNullifiers_mono hsub)

theorem verifyThresholdTally_antitone {votes : List VoteProof} {threshold threshold' : UInt64}
    (hle : threshold ≤ threshold') (h : verifyThresholdTally votes threshold' = true) :
    verifyThresholdTally votes threshold = true := by
  rw [verifyThresholdTally_iff] at h ⊢
  exact (UInt64.le_iff_toNat_le.mp hle).trans h

/-- Only the set of votes matters. -/
theorem verifyThresholdTally_congr {votes votes' : List VoteProof}
    (h : ∀ v, v ∈ votes ↔ v ∈ votes') (threshold : UInt64) :
    verifyThresholdTally votes threshold = verifyThresholdTally votes' threshold := by
  rw [Bool.eq_iff_iff]
  constructor
  · exact verifyThresholdTally_mono fun v hv => (h v).mp hv
  · exact verifyThresholdTally_mono fun v hv => (h v).mpr hv

/-! ### Voters -/

/-- Both fields of every ballot are within the range of a length prefix. -/
def InRange (ballots : List (Bytes × Bytes)) : Prop :=
  ∀ b ∈ ballots, b.1.length < 2 ^ 64 ∧ b.2.length < 2 ^ 64

/-- No two preimages of the ballots' nullifiers collide. -/
def CollisionFree (S : Suite) (ballots : List (Bytes × Bytes)) : Prop :=
  ∀ b ∈ ballots, ∀ b' ∈ ballots,
    ¬ S.Collision (nullifierPreimage b.1 b.2) (nullifierPreimage b'.1 b'.2)

theorem voteOf_injOn {S : Suite} {ballots : List (Bytes × Bytes)} (hrange : InRange ballots)
    (hfree : CollisionFree S ballots) :
    Set.InjOn (fun b => (voteOf S b).nullifier) {b | b ∈ ballots} := by
  intro b hb b' hb' heq
  rcases HashInput.eq_or_collision (S := S) (x := .nullifier b.1 b.2)
    (y := .nullifier b'.1 b'.2) (hrange b hb) (hrange b' hb') heq with h | hcollision
  · obtain ⟨hsecret, htopic⟩ := HashInput.nullifier.inj h
    exact Prod.ext hsecret htopic
  · exact absurd hcollision (hfree b hb b' hb')

/-- The votes of a list of ballots are as many as its distinct pairs. -/
theorem distinctNullifiers_voteOf {S : Suite} {ballots : List (Bytes × Bytes)}
    (hrange : InRange ballots) (hfree : CollisionFree S ballots) :
    distinctNullifiers (ballots.map (voteOf S)) = ballots.toFinset.card := by
  rw [distinctNullifiers_eq_card, List.map_map]
  have himage : (ballots.map (VoteProof.nullifier ∘ voteOf S)).toFinset
      = ballots.toFinset.image (fun b => (voteOf S b).nullifier) := by
    ext b
    simp
  rw [himage]
  apply Finset.card_image_of_injOn
  intro b hb b' hb'
  exact voteOf_injOn hrange hfree (List.mem_toFinset.mp hb) (List.mem_toFinset.mp hb')

/-- On one topic the distinct pairs are the distinct secrets. -/
theorem card_toFinset_of_topic {ballots : List (Bytes × Bytes)} {topic : Bytes}
    (htopic : ∀ b ∈ ballots, b.2 = topic) :
    ballots.toFinset.card = (ballots.map Prod.fst).toFinset.card := by
  have himage : (ballots.map Prod.fst).toFinset = ballots.toFinset.image Prod.fst := by
    ext b
    simp
  rw [himage]
  symm
  apply Finset.card_image_of_injOn
  intro b hb b' hb' heq
  have hb2 := htopic b (List.mem_toFinset.mp hb)
  have hb2' := htopic b' (List.mem_toFinset.mp hb')
  exact Prod.ext heq (hb2.trans hb2'.symm)

/-- **The tally counts voters.** The distinct nullifiers of a list of ballots are as
    many as its distinct pairs of a secret and a topic, on one topic as many as its
    distinct secrets, and the verdict compares that number with the threshold. It
    depends on the votes as a set, grows with the votes and falls with the
    threshold. -/
theorem tally_counts_voters (S : Suite) (ballots : List (Bytes × Bytes))
    (hrange : InRange ballots) (hfree : CollisionFree S ballots) :
    distinctNullifiers (ballots.map (voteOf S)) = ballots.toFinset.card ∧
    (∀ threshold, verifyThresholdTally (ballots.map (voteOf S)) threshold = true ↔
      threshold.toNat ≤ ballots.toFinset.card) ∧
    (∀ topic, (∀ b ∈ ballots, b.2 = topic) →
      distinctNullifiers (ballots.map (voteOf S)) = (ballots.map Prod.fst).toFinset.card ∧
      ∀ threshold, verifyThresholdTally (ballots.map (voteOf S)) threshold = true ↔
        threshold.toNat ≤ (ballots.map Prod.fst).toFinset.card) ∧
    (∀ votes votes' threshold, (∀ v, v ∈ votes ↔ v ∈ votes') →
      verifyThresholdTally votes threshold = verifyThresholdTally votes' threshold) ∧
    (∀ votes votes' threshold, votes ⊆ votes' → verifyThresholdTally votes threshold = true →
      verifyThresholdTally votes' threshold = true) ∧
    (∀ votes threshold threshold', threshold ≤ threshold' →
      verifyThresholdTally votes threshold' = true →
        verifyThresholdTally votes threshold = true) := by
  have hcount := distinctNullifiers_voteOf hrange hfree
  refine ⟨hcount, ?_, ?_, fun _ _ threshold h => verifyThresholdTally_congr h threshold,
    fun _ _ _ => verifyThresholdTally_mono, fun _ _ _ => verifyThresholdTally_antitone⟩
  · intro threshold
    rw [verifyThresholdTally_iff, hcount]
  · intro topic htopic
    have hsecrets := hcount.trans (card_toFinset_of_topic htopic)
    refine ⟨hsecrets, ?_⟩
    intro threshold
    rw [verifyThresholdTally_iff, hsecrets]

/-- Alice votes twice and Bob once. -/
def smallBallots : List (Bytes × Bytes) :=
  [(ascii "alice", ascii "t"), (ascii "bob", ascii "t"), (ascii "alice", ascii "t")]

theorem smallBallots_inRange : InRange smallBallots := by
  unfold InRange smallBallots
  decide +kernel

theorem smallBallots_collisionFree : CollisionFree smallSuite smallBallots := by
  unfold CollisionFree Suite.Collision smallBallots
  decide +kernel

theorem smallBallots_two_voters :
    InRange smallBallots ∧ CollisionFree smallSuite smallBallots ∧
    verifyThresholdTally (smallBallots.map (voteOf smallSuite)) 2 = true ∧
    ¬ verifyThresholdTally (smallBallots.map (voteOf smallSuite)) 3 = true := by
  have h := (tally_counts_voters smallSuite smallBallots smallBallots_inRange
    smallBallots_collisionFree).2.1
  refine ⟨smallBallots_inRange, smallBallots_collisionFree, ?_, ?_⟩
  · rw [h]
    decide +kernel
  · rw [h]
    decide +kernel

end Tally

end PhiCrypto

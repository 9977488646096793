import PhiCrypto.BbsPlusAlgebra
import PhiCrypto.BbsPlusCodec
import PhiCrypto.RandomTape

/-!
# The BBS+ prover

`PoKOfSignatureG1Protocol::init` and `gen_proof`, with the randomness read from
an explicit tape in the order of the source: a blinding for every randomly
blinded message, `r1` (drawn again while zero), `r2`, the two blindings of the
first relation, and the blindings for `d` and `h_0`.

`init_eq` separates the draws (`drawInitCoins`) from the computation on them
(`protocolOf`).
-/

namespace PhiCrypto

variable {S : Suite}

inductive MessageOrBlinding (F : Type) where
  | blindMessageRandomly (message : F)
  | revealMessage (message : F)
  | blindMessageWithConcreteBlinding (message blinding : F)

namespace MessageOrBlinding

variable {F : Type}

def message : MessageOrBlinding F → F
  | blindMessageRandomly m => m
  | revealMessage m => m
  | blindMessageWithConcreteBlinding m _ => m

def isRandom : MessageOrBlinding F → Bool
  | blindMessageRandomly _ => true
  | _ => false

end MessageOrBlinding

open MessageOrBlinding

/-- `split_messages_and_blindings`, from index `idx` on: the messages, and an
    indexed blinding for each message that is not revealed. -/
def splitMessagesAndBlindings {F : Type} :
    Nat → List (MessageOrBlinding F) → Rng F (List F × List (Nat × F))
  | _, [] => pure ([], [])
  | idx, blindMessageRandomly m :: rest => do
    let blinding ← Rng.draw
    let (messages, blindings) ← splitMessagesAndBlindings (idx + 1) rest
    pure (m :: messages, (idx, blinding) :: blindings)
  | idx, blindMessageWithConcreteBlinding m blinding :: rest => do
    let (messages, blindings) ← splitMessagesAndBlindings (idx + 1) rest
    pure (m :: messages, (idx, blinding) :: blindings)
  | idx, revealMessage m :: rest => do
    let (messages, blindings) ← splitMessagesAndBlindings (idx + 1) rest
    pure (m :: messages, blindings)

structure PokPedersenCommitmentProtocol (S : Suite) where
  t : S.G1
  blinding1 : S.Fr
  witness1 : S.Fr
  blinding2 : S.Fr
  witness2 : S.Fr

namespace PokPedersenCommitmentProtocol

def init (witness1 blinding1 : S.Fr) (base1 : S.G1) (witness2 blinding2 : S.Fr) (base2 : S.G1) :
    PokPedersenCommitmentProtocol S where
  t := blinding1 • base1 + blinding2 • base2
  blinding1 := blinding1
  witness1 := witness1
  blinding2 := blinding2
  witness2 := witness2

def genProof (p : PokPedersenCommitmentProtocol S) (challenge : S.Fr) :
    PokPedersenCommitment S where
  t := p.t
  response1 := p.blinding1 + p.witness1 * challenge
  response2 := p.blinding2 + p.witness2 * challenge

end PokPedersenCommitmentProtocol

structure PoKOfSignatureG1Protocol (S : Suite) where
  aPrime : S.G1
  aBar : S.G1
  d : S.G1
  scComm1 : PokPedersenCommitmentProtocol S
  blindings2 : List S.Fr
  t2 : S.G1
  scWits2 : List S.Fr

namespace PoKOfSignatureG1Protocol

def init (sig : SignatureG1 S) (params : SignatureParamsG1 S)
    (messagesAndBlindings : List (MessageOrBlinding S.Fr)) :
    ExceptT BBSPlusError (Rng S.Fr) (PoKOfSignatureG1Protocol S) := do
  let (messages, indexedBlindings) ← liftM (splitMessagesAndBlindings 0 messagesAndBlindings)
  rejectIf (messages.length ≠ params.h.length) BBSPlusError.messageCountIncompatibleWithSigParams
  let r1 ← liftM (Rng.drawNonZero : Rng S.Fr S.Fr)
  let r2 ← liftM (Rng.draw : Rng S.Fr S.Fr)
  let r3 := r1⁻¹
  let b := params.b messages sig.s
  let aPrime := r1 • sig.a
  let bR1 := r1 • b
  let aBar := bR1 - sig.e • aPrime
  let d := bR1 - r2 • params.h0
  let sPrime := sig.s - r2 * r3
  let blinding1 ← liftM (Rng.draw : Rng S.Fr S.Fr)
  let blinding2 ← liftM (Rng.draw : Rng S.Fr S.Fr)
  let scComm1 := PokPedersenCommitmentProtocol.init (-sig.e) blinding1 aPrime r2 blinding2 params.h0
  let blindingD ← liftM (Rng.draw : Rng S.Fr S.Fr)
  let blindingH0 ← liftM (Rng.draw : Rng S.Fr S.Fr)
  let bases2 := indexedBlindings.map (fun e => params.h.getD e.1 0) ++ [d, params.h0]
  let randomness2 := indexedBlindings.map Prod.snd ++ [blindingD, blindingH0]
  let wits2 := indexedBlindings.map (fun e => messages.getD e.1 0) ++ [-r3, sPrime]
  pure
    { aPrime, aBar, d, scComm1, blindings2 := randomness2, t2 := msm bases2 randomness2,
      scWits2 := wits2 }

/-- `PoKOfSignatureG1Protocol::challenge_contribution`. -/
def contribution (pok : PoKOfSignatureG1Protocol S) (revealed : OrderedMap S.Fr)
    (params : SignatureParamsG1 S) : Bytes :=
  challengeContribution pok.aPrime pok.aBar pok.d pok.scComm1.t pok.t2 revealed params

def genProof (pok : PoKOfSignatureG1Protocol S) (challenge : S.Fr) :
    Except BBSPlusError (PoKOfSignatureG1Proof S) := do
  rejectIf (pok.blindings2.length ≠ pok.scWits2.length) BBSPlusError.expectedSameSizeSequences
  pure
    { aPrime := pok.aPrime, aBar := pok.aBar, d := pok.d,
      scResp1 := pok.scComm1.genProof challenge, t2 := pok.t2,
      scResp2 := some (respond challenge pok.blindings2 pok.scWits2), scPartialResp2 := none }

end PoKOfSignatureG1Protocol

/-! ### What `init` draws -/

/-- The values that `init` draws, with the number of rejected draws of `r1`. -/
structure InitCoins (F : Type) where
  blindings : List F
  rejected : Nat
  r1 : F
  r2 : F
  blinding1 : F
  blinding2 : F
  blindingD : F
  blindingH0 : F

/-- The draws of `init` when `n` messages are blinded randomly. -/
def drawInitCoins {F : Type} [Zero F] [DecidableEq F] (n : Nat) : Rng F (InitCoins F) := do
  let blindings ← Rng.drawMany n
  let (rejected, r1) ← (Rng.drawNonZeroCounted : Rng F (Nat × F))
  let r2 ← Rng.draw
  let blinding1 ← Rng.draw
  let blinding2 ← Rng.draw
  let blindingD ← Rng.draw
  let blindingH0 ← Rng.draw
  pure { blindings, rejected, r1, r2, blinding1, blinding2, blindingD, blindingH0 }

namespace InitCoins

variable {F : Type} [Zero F]

/-- The stretch of tape that the coins were read from. -/
def tape (k : InitCoins F) : List F :=
  k.blindings ++ (List.replicate k.rejected 0 ++ [k.r1]) ++
    [k.r2, k.blinding1, k.blinding2, k.blindingD, k.blindingH0]

/-- Coins that `init` can have drawn for `n` random blindings. -/
structure Drawn (n : Nat) (k : InitCoins F) : Prop where
  blindings_length : k.blindings.length = n
  r1_ne_zero : k.r1 ≠ 0

end InitCoins

theorem lossless_drawInitCoins {F : Type} [Zero F] [DecidableEq F] (n : Nat) :
    Rng.Lossless (drawInitCoins (F := F) n) InitCoins.tape (InitCoins.Drawn n) where
  complete := by
    intro k rest hk
    have hmany := (Rng.lossless_drawMany n).complete (c := k.blindings)
      ((List.replicate k.rejected 0 ++ [k.r1])
        ++ ([k.r2, k.blinding1, k.blinding2, k.blindingD, k.blindingH0] ++ rest))
      hk.blindings_length
    have hnonzero := Rng.lossless_drawNonZeroCounted.complete (c := (k.rejected, k.r1))
      ([k.r2, k.blinding1, k.blinding2, k.blindingD, k.blindingH0] ++ rest) hk.r1_ne_zero
    simp only [InitCoins.tape, List.append_assoc] at hmany hnonzero ⊢
    rw [drawInitCoins, Rng.bind_eq_some_iff]
    refine ⟨_, _, hmany, Rng.bind_eq_some_iff.mpr ⟨_, _, hnonzero, ?_⟩⟩
    rfl
  sound := by
    intro tape rest k h
    rw [drawInitCoins, Rng.bind_eq_some_iff] at h
    rcases h with ⟨blindings, t₁, hblindings, h⟩
    rw [Rng.bind_eq_some_iff] at h
    rcases h with ⟨⟨rejected, r1⟩, t₂, hr1, h⟩
    dsimp only at h
    rw [Rng.bind_eq_some_iff] at h
    rcases h with ⟨r2, t₃, hr2, h⟩
    rw [Rng.bind_eq_some_iff] at h
    rcases h with ⟨blinding1, t₄, hblinding1, h⟩
    rw [Rng.bind_eq_some_iff] at h
    rcases h with ⟨blinding2, t₅, hblinding2, h⟩
    rw [Rng.bind_eq_some_iff] at h
    rcases h with ⟨blindingD, t₆, hblindingD, h⟩
    rw [Rng.bind_eq_some_iff] at h
    rcases h with ⟨blindingH0, t₇, hblindingH0, h⟩
    cases h
    obtain ⟨hlen, rfl⟩ := (Rng.lossless_drawMany n).sound hblindings
    obtain ⟨hne, rfl⟩ := Rng.lossless_drawNonZeroCounted.sound hr1
    obtain ⟨-, rfl⟩ := Rng.lossless_draw.sound hr2
    obtain ⟨-, rfl⟩ := Rng.lossless_draw.sound hblinding1
    obtain ⟨-, rfl⟩ := Rng.lossless_draw.sound hblinding2
    obtain ⟨-, rfl⟩ := Rng.lossless_draw.sound hblindingD
    obtain ⟨-, rfl⟩ := Rng.lossless_draw.sound hblindingH0
    exact ⟨⟨hlen, hne⟩, by simp [InitCoins.tape]⟩

/-! ### The computation on the draws -/

/-- The indexed blindings, for the random ones given in order. -/
def assignBlindings {F : Type} : Nat → List (MessageOrBlinding F) → List F → List (Nat × F)
  | _, [], _ => []
  | idx, blindMessageRandomly _ :: rest, b :: bs => (idx, b) :: assignBlindings (idx + 1) rest bs
  | _, blindMessageRandomly _ :: _, [] => []
  | idx, blindMessageWithConcreteBlinding _ b :: rest, bs =>
    (idx, b) :: assignBlindings (idx + 1) rest bs
  | idx, revealMessage _ :: rest, bs => assignBlindings (idx + 1) rest bs

section Count

variable {F : Type} (m b : F) (mbs : List (MessageOrBlinding F))

theorem countP_random :
    (blindMessageRandomly m :: mbs).countP isRandom = mbs.countP isRandom + 1 := by
  simp [List.countP_cons, isRandom]

theorem countP_revealed : (revealMessage m :: mbs).countP isRandom = mbs.countP isRandom := by
  simp [isRandom]

theorem countP_concrete :
    (blindMessageWithConcreteBlinding m b :: mbs).countP isRandom = mbs.countP isRandom := by
  simp [isRandom]

end Count

theorem splitMessagesAndBlindings_eq {F : Type} (mbs : List (MessageOrBlinding F)) :
    ∀ idx, splitMessagesAndBlindings idx mbs = (do
      let bs ← Rng.drawMany (mbs.countP isRandom)
      pure (mbs.map message, assignBlindings idx mbs bs)) := by
  induction mbs with
  | nil => intro idx; rfl
  | cons mb mbs ih =>
    intro idx
    cases mb with
    | blindMessageRandomly m =>
      simp only [splitMessagesAndBlindings, ih, countP_random, Rng.drawMany, bind_assoc, pure_bind,
        assignBlindings, List.map_cons, message]
    | revealMessage m =>
      simp only [splitMessagesAndBlindings, ih, countP_revealed, bind_assoc, pure_bind,
        assignBlindings, List.map_cons, message]
    | blindMessageWithConcreteBlinding m b =>
      simp only [splitMessagesAndBlindings, ih, countP_concrete, bind_assoc, pure_bind,
        assignBlindings, List.map_cons, message]

theorem drawNonZero_eq {F : Type} [Zero F] [DecidableEq F] :
    (Rng.drawNonZero : Rng F F) = Prod.snd <$> (Rng.drawNonZeroCounted : Rng F (Nat × F)) := by
  funext tape
  exact (Rng.map_apply Prod.snd _ tape).symm

/-- The state after `init`, as a function of what was drawn. -/
def protocolOf (sig : SignatureG1 S) (params : SignatureParamsG1 S)
    (mbs : List (MessageOrBlinding S.Fr)) (k : InitCoins S.Fr) : PoKOfSignatureG1Protocol S :=
  let messages := mbs.map message
  let indexedBlindings := assignBlindings 0 mbs k.blindings
  let bR1 := k.r1 • params.b messages sig.s
  let aPrime := k.r1 • sig.a
  let d := bR1 - k.r2 • params.h0
  let bases2 := indexedBlindings.map (fun e => params.h.getD e.1 0) ++ [d, params.h0]
  let randomness2 := indexedBlindings.map Prod.snd ++ [k.blindingD, k.blindingH0]
  { aPrime
    aBar := bR1 - sig.e • aPrime
    d
    scComm1 := .init (-sig.e) k.blinding1 aPrime k.r2 k.blinding2 params.h0
    blindings2 := randomness2
    t2 := msm bases2 randomness2
    scWits2 := indexedBlindings.map (fun e => messages.getD e.1 0)
      ++ [-k.r1⁻¹, sig.s - k.r2 * k.r1⁻¹] }

/-- `init` draws its coins and computes on them. -/
theorem init_eq {sig : SignatureG1 S} {params : SignatureParamsG1 S}
    {mbs : List (MessageOrBlinding S.Fr)} (hlen : mbs.length = params.h.length) :
    PoKOfSignatureG1Protocol.init sig params mbs
      = liftM (protocolOf sig params mbs <$> drawInitCoins (mbs.countP isRandom)) := by
  have hcount : ¬ (mbs.map message).length ≠ params.h.length := by simp [hlen]
  unfold PoKOfSignatureG1Protocol.init drawInitCoins
  simp only [splitMessagesAndBlindings_eq, drawNonZero_eq, map_eq_pure_bind, liftM_bind, liftM_pure,
    bind_assoc, pure_bind, rejectIf, if_neg hcount]
  rfl

/-! ### The hidden messages of a prover -/

def MessageOrBlinding.isRevealed {F : Type} : MessageOrBlinding F → Bool
  | revealMessage _ => true
  | _ => false

/-- The list, starting at index `i`, reveals the indices in the map and no others. -/
def Marks {F V : Type} (revealed : OrderedMap V) : Nat → List (MessageOrBlinding F) → Prop
  | _, [] => True
  | i, mb :: mbs => mb.isRevealed = revealed.contains i ∧ Marks revealed (i + 1) mbs

def hiddenBlindings {F : Type} (mbs : List (MessageOrBlinding F)) (bs : List F) : List F :=
  (assignBlindings 0 mbs bs).map Prod.snd

/-- Selecting by the indices of the blindings selects the hidden part. -/
theorem map_assignBlindings {F V α : Type} {revealed : OrderedMap V} (default : α) (ys : List α)
    {mbs : List (MessageOrBlinding F)} :
    ∀ {i : Nat} {bs : List F}, Marks revealed i mbs → bs.length = mbs.countP isRandom →
      ys.length = i + mbs.length →
      (assignBlindings i mbs bs).map (fun e => ys.getD e.1 default)
        = hiddenPart revealed i (ys.drop i) := by
  induction mbs with
  | nil =>
    intro i bs _ _ hlen
    have hdrop : ys.drop i = [] := List.drop_eq_nil_of_le (by simpa using hlen.le)
    simp [assignBlindings, hdrop, hiddenPart]
  | cons mb mbs ih =>
    intro i bs hmarks hbs hlen
    rcases hmarks with ⟨hmark, hrest⟩
    have hi : i < ys.length := by simp only [List.length_cons] at hlen; omega
    have hget : ys.getD i default = ys[i] := by simp [List.getD, hi]
    have hnext : ys.length = i + 1 + mbs.length := by simp only [List.length_cons] at hlen; omega
    rw [List.drop_eq_getElem_cons hi, hiddenPart]
    cases mb with
    | blindMessageRandomly m =>
      have hcontains : revealed.contains i = false := hmark.symm
      rw [countP_random] at hbs
      obtain ⟨b, bs, rfl⟩ := List.exists_cons_of_length_eq_add_one hbs
      have hbs' : bs.length = mbs.countP isRandom := by simpa using hbs
      have htail := ih hrest hbs' hnext
      simp only [assignBlindings, List.map_cons, hcontains, hget, htail, Bool.false_eq_true,
        if_false]
    | revealMessage m =>
      have hcontains : revealed.contains i = true := hmark.symm
      rw [countP_revealed] at hbs
      have htail := ih hrest hbs hnext
      simp only [assignBlindings, hcontains, htail, if_true]
    | blindMessageWithConcreteBlinding m b =>
      have hcontains : revealed.contains i = false := hmark.symm
      rw [countP_concrete] at hbs
      have htail := ih hrest hbs hnext
      simp only [assignBlindings, List.map_cons, hcontains, hget, htail, Bool.false_eq_true,
        if_false]

section Marked

variable {sig : SignatureG1 S} {params : SignatureParamsG1 S} {V : Type} {revealed : OrderedMap V}
  {mbs : List (MessageOrBlinding S.Fr)} {k : InitCoins S.Fr}

/-- The bases of the second relation are those of the verifier. -/
theorem protocolOf_t2 (hmarks : Marks revealed 0 mbs) (hlen : mbs.length = params.h.length)
    (hk : k.Drawn (mbs.countP isRandom)) :
    (protocolOf sig params mbs k).t2
      = msm (hiddenPart revealed 0 params.h ++ [(protocolOf sig params mbs k).d, params.h0])
          (protocolOf sig params mbs k).blindings2 := by
  have hbases := map_assignBlindings (0 : S.G1) params.h hmarks
    hk.blindings_length (by simp [hlen])
  rw [List.drop_zero] at hbases
  simp only [protocolOf, hbases]

/-- Its witnesses are the hidden messages, `-r3` and `s'`. -/
theorem protocolOf_scWits2 (hmarks : Marks revealed 0 mbs)
    (hk : k.Drawn (mbs.countP isRandom)) :
    (protocolOf sig params mbs k).scWits2
      = hiddenPart revealed 0 (mbs.map message) ++ [-k.r1⁻¹, sig.s - k.r2 * k.r1⁻¹] := by
  have hwits := map_assignBlindings (0 : S.Fr) (mbs.map message) hmarks
    hk.blindings_length (by simp)
  rw [List.drop_zero] at hwits
  simp only [protocolOf, hwits]

theorem hiddenBlindings_length (hmarks : Marks revealed 0 mbs)
    (hk : k.Drawn (mbs.countP isRandom)) :
    (hiddenBlindings mbs k.blindings).length
      = (hiddenPart revealed 0 (mbs.map message)).length := by
  have hwits := map_assignBlindings (0 : S.Fr) (mbs.map message) hmarks
    hk.blindings_length (by simp)
  rw [List.drop_zero] at hwits
  rw [← hwits]
  simp [hiddenBlindings]

theorem protocolOf_lengths (hmarks : Marks revealed 0 mbs) (hk : k.Drawn (mbs.countP isRandom)) :
    (protocolOf sig params mbs k).blindings2.length
      = (protocolOf sig params mbs k).scWits2.length := by
  rw [protocolOf_scWits2 hmarks hk, List.length_append, ← hiddenBlindings_length hmarks hk]
  simp [protocolOf, hiddenBlindings]

/-- The proof that the prover makes of the challenge `c`. -/
def proofOf (sig : SignatureG1 S) (params : SignatureParamsG1 S)
    (mbs : List (MessageOrBlinding S.Fr)) (k : InitCoins S.Fr) (c : S.Fr) :
    PoKOfSignatureG1Proof S :=
  let pok := protocolOf sig params mbs k
  { aPrime := pok.aPrime, aBar := pok.aBar, d := pok.d,
    scResp1 := pok.scComm1.genProof c, t2 := pok.t2,
    scResp2 := some (respond c pok.blindings2 pok.scWits2), scPartialResp2 := none }

theorem genProof_eq (hmarks : Marks revealed 0 mbs) (hk : k.Drawn (mbs.countP isRandom))
    (c : S.Fr) : (protocolOf sig params mbs k).genProof c = .ok (proofOf sig params mbs k c) := by
  have hlen : ¬ (protocolOf sig params mbs k).blindings2.length
      ≠ (protocolOf sig params mbs k).scWits2.length :=
    not_not.mpr (protocolOf_lengths hmarks hk)
  rw [PoKOfSignatureG1Protocol.genProof, rejectIf, if_neg hlen]
  rfl

/-- One response for each hidden message, and two more. -/
theorem length_respond_protocolOf (sig : SignatureG1 S) (params : SignatureParamsG1 S)
    (hmarks : Marks revealed 0 mbs) (hk : k.Drawn (mbs.countP isRandom)) (c : S.Fr) :
    (respond c (protocolOf sig params mbs k).blindings2
      (protocolOf sig params mbs k).scWits2).length ≤ mbs.length + 2 := by
  have hhidden := length_hiddenPart_le revealed (mbs.map message) 0
  rw [List.length_map] at hhidden
  rw [respond, List.length_zipWith, protocolOf_lengths hmarks hk, Nat.min_self,
    protocolOf_scWits2 hmarks hk, List.length_append]
  exact Nat.add_le_add_right hhidden 2

/-- The body is read back by the verifier. -/
theorem deser_proofOf (hmarks : Marks revealed 0 mbs) (hk : k.Drawn (mbs.countP isRandom))
    (hcount : mbs.length ≤ 64) (c : S.Fr) :
    deser PoKOfSignatureG1Proof.decoder (proofOf sig params mbs k c).ser
      = .ok (proofOf sig params mbs k c) := by
  refine PoKOfSignatureG1Proof.deser_ser rfl rfl ?_
  have hlen := length_respond_protocolOf sig params hmarks hk c
  omega

theorem proofOf_ser_short (hmarks : Marks revealed 0 mbs) (hk : k.Drawn (mbs.countP isRandom))
    (hcount : mbs.length ≤ 64) (c : S.Fr) :
    (proofOf sig params mbs k c).ser.length < 2 ^ 32 := by
  have hlen := length_respond_protocolOf sig params hmarks hk c
  rw [PoKOfSignatureG1Proof.ser_length rfl rfl]
  omega

end Marked

/-! ### The prover knows witnesses of both relations -/

section Witnesses

variable {sig : SignatureG1 S} {params : SignatureParamsG1 S} {revealed : OrderedMap S.Fr}
  {mbs : List (MessageOrBlinding S.Fr)} {k : InitCoins S.Fr}

theorem protocolOf_first_relation (sig : SignatureG1 S) (params : SignatureParamsG1 S)
    (mbs : List (MessageOrBlinding S.Fr)) (k : InitCoins S.Fr) :
    msm [(protocolOf sig params mbs k).aPrime, params.h0] [-sig.e, k.r2]
      = (protocolOf sig params mbs k).aBar - (protocolOf sig params mbs k).d := by
  simp only [protocolOf, msm_cons, msm_nil_left]
  module

/-- The commitment that is signed, split into hidden and revealed messages. -/
theorem b_eq_hidden_add_revealed (hlen : mbs.length = params.h.length)
    (hmap : ∀ j m, revealed.get? j = some m → j < mbs.length →
      (mbs.map message)[j]? = some m) (s : S.Fr) :
    params.b (mbs.map message) s
      = msm (hiddenPart revealed 0 params.h) (hiddenPart revealed 0 (mbs.map message))
        + revealedSum revealed params.h + s • params.h0 + params.g1 := by
  have hms : (mbs.map message).length = params.h.length := by simpa using hlen
  have hsum := msm_eq_hidden_add_revealed hms fun j m hget hj =>
    hmap j m hget (by simpa using hj)
  rw [SignatureParamsG1.b, msm_append hms.symm, hsum, revealedSum]
  simp

theorem protocolOf_second_relation (sig : SignatureG1 S) (hmarks : Marks revealed 0 mbs)
    (hlen : mbs.length = params.h.length) (hk : k.Drawn (mbs.countP isRandom))
    (hmap : ∀ j m, revealed.get? j = some m → j < mbs.length →
      (mbs.map message)[j]? = some m) :
    msm (hiddenPart revealed 0 params.h ++ [(protocolOf sig params mbs k).d, params.h0])
        (protocolOf sig params mbs k).scWits2 = publicPart revealed params := by
  have hms : (mbs.map message).length = params.h.length := by simpa using hlen
  have hb := b_eq_hidden_add_revealed hlen hmap sig.s
  have hinv : k.r1⁻¹ * k.r1 = 1 := inv_mul_cancel₀ hk.r1_ne_zero
  rw [protocolOf_scWits2 hmarks hk,
    msm_append (length_hiddenPart_eq revealed hms.symm), msm_cons, msm_cons, msm_nil_left]
  have hd : (-k.r1⁻¹) • (protocolOf sig params mbs k).d
      = -(params.b (mbs.map message) sig.s) + (k.r2 * k.r1⁻¹) • params.h0 := by
    calc (-k.r1⁻¹) • (protocolOf sig params mbs k).d
        = -((k.r1⁻¹ * k.r1) • params.b (mbs.map message) sig.s)
          + (k.r2 * k.r1⁻¹) • params.h0 := by
            simp only [protocolOf]
            module
      _ = _ := by rw [hinv, one_smul]
  rw [hd, hb, publicPart]
  module

end Witnesses

end PhiCrypto

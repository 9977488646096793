import PhiCrypto.Provers
import PhiCrypto.SmallSuite
import Mathlib.GroupTheory.SpecificGroups.Cyclic

/-!
# Unlinkability of presentations

Two credentials under one issuer key, with the same claims revealed, give the
same presentations: for every tape of the first there is a tape of the second
that produces the identical proof, and this is a bijection of tapes.

The bijection is `moveCoins`. The signature points of the two credentials differ
by a factor `κ`, and the values they sign by `β` along `h_0` (`Link`); `r1` and
`r2` absorb both, so that `A'`, `A_bar` and `d` stay. The blindings of the two
Schnorr relations then move along the difference of the witnesses. The
commitments do not see that move, so the challenge is the same in both runs and
the move can be undone (`moveCoins_symm`).
-/

namespace PhiCrypto

open MessageOrBlinding

variable {S : Suite}

/-! ### Two provers that treat their messages alike -/

namespace MessageOrBlinding

variable {F : Type}

/-- The two messages are handled in the same way, and agree unless they are
    blinded randomly. -/
inductive Alike : MessageOrBlinding F → MessageOrBlinding F → Prop
  | random (m m' : F) : Alike (blindMessageRandomly m) (blindMessageRandomly m')
  | revealed (m : F) : Alike (revealMessage m) (revealMessage m)
  | concrete (m b : F) :
    Alike (blindMessageWithConcreteBlinding m b) (blindMessageWithConcreteBlinding m b)

theorem Alike.symm {x y : MessageOrBlinding F} (h : Alike x y) : Alike y x := by
  cases h with
  | random m m' => exact .random m' m
  | revealed m => exact .revealed m
  | concrete m b => exact .concrete m b

def randomMessages : List (MessageOrBlinding F) → List F
  | [] => []
  | blindMessageRandomly m :: rest => m :: randomMessages rest
  | revealMessage _ :: rest => randomMessages rest
  | blindMessageWithConcreteBlinding _ _ :: rest => randomMessages rest

theorem randomMessages_length (mbs : List (MessageOrBlinding F)) :
    (randomMessages mbs).length = mbs.countP isRandom := by
  induction mbs with
  | nil => rfl
  | cons mb mbs ih =>
    cases mb with
    | blindMessageRandomly m => rw [countP_random, randomMessages, List.length_cons, ih]
    | revealMessage m => rw [countP_revealed, randomMessages, ih]
    | blindMessageWithConcreteBlinding m b => rw [countP_concrete, randomMessages, ih]

theorem countP_isRandom_of_alike {mbs mbs' : List (MessageOrBlinding F)}
    (h : List.Forall₂ Alike mbs mbs') : mbs'.countP isRandom = mbs.countP isRandom := by
  induction h with
  | nil => rfl
  | cons hhead _ ih =>
    cases hhead with
    | random m m' => rw [countP_random, countP_random, ih]
    | revealed m => rw [countP_revealed, countP_revealed, ih]
    | concrete m b => rw [countP_concrete, countP_concrete, ih]

theorem marks_of_alike {V : Type} {revealed : OrderedMap V} {mbs mbs' : List (MessageOrBlinding F)}
    (h : List.Forall₂ Alike mbs mbs') : ∀ {i}, Marks revealed i mbs → Marks revealed i mbs' := by
  induction h with
  | nil => exact id
  | cons hhead _ ih =>
    rintro i ⟨hmark, hrest⟩
    refine ⟨?_, ih hrest⟩
    cases hhead with
    | random m m' => exact hmark
    | revealed m => exact hmark
    | concrete m b => exact hmark

theorem alike_symm {mbs mbs' : List (MessageOrBlinding F)} (h : List.Forall₂ Alike mbs mbs') :
    List.Forall₂ Alike mbs' mbs := by
  induction h with
  | nil => exact .nil
  | cons hhead _ ih => exact .cons hhead.symm ih

end MessageOrBlinding

/-- Moving the drawn blindings moves the blindings of all hidden messages: those
    that are not drawn belong to equal messages and stay. -/
theorem snd_assignBlindings_shift {F V : Type} [Field F] {revealed : OrderedMap V}
    {mbs mbs' : List (MessageOrBlinding F)} (h : List.Forall₂ Alike mbs mbs') (c : F) :
    ∀ {i : Nat} {bs : List F}, Marks revealed i mbs → bs.length = mbs.countP isRandom →
      (assignBlindings i mbs'
          (shiftBlindings c (randomMessages mbs) (randomMessages mbs') bs)).map Prod.snd
        = shiftBlindings c (hiddenPart revealed i (mbs.map message))
            (hiddenPart revealed i (mbs'.map message))
            ((assignBlindings i mbs bs).map Prod.snd) := by
  induction h with
  | nil => intros; rfl
  | cons hhead htail ih =>
    rintro i bs ⟨hmark, hrest⟩ hbs
    cases hhead with
    | random m m' =>
      have hcontains : revealed.contains i = false := hmark.symm
      rw [countP_random] at hbs
      obtain ⟨b, bs, rfl⟩ := List.exists_cons_of_length_eq_add_one hbs
      have hnext := ih hrest (show bs.length = _ by simpa using hbs)
      simp only [shiftBlindings] at hnext
      simp only [randomMessages, shiftBlindings, List.zipWith_cons_cons, assignBlindings,
        List.map_cons, message, hiddenPart, hcontains, Bool.false_eq_true, if_false, hnext]
    | revealed m =>
      have hcontains : revealed.contains i = true := hmark.symm
      rw [countP_revealed] at hbs
      have hnext := ih hrest hbs
      simpa only [randomMessages, assignBlindings, List.map_cons, hiddenPart, hcontains, if_true]
        using hnext
    | concrete m b =>
      have hcontains : revealed.contains i = false := hmark.symm
      rw [countP_concrete] at hbs
      have hnext := ih hrest hbs
      simp only [shiftBlindings] at hnext
      simp only [randomMessages, shiftBlindings, List.zipWith_cons_cons, assignBlindings,
        List.map_cons, message, hiddenPart, hcontains, Bool.false_eq_true, if_false, hnext,
        sub_self, zero_mul, add_zero]

/-! ### Two signatures under one key -/

/-- How the signature `sig` on `b` and the signature `sig'` on `b'` are related. -/
structure Link (params : SignatureParamsG1 S) (sig sig' : SignatureG1 S) (b b' : S.G1) where
  κ : S.Fr
  β : S.Fr
  κ_ne_zero : κ ≠ 0
  a_eq : sig.a = κ • sig'.a
  aBar_eq : b - sig.e • sig.a = κ • (b' - sig'.e • sig'.a)
  b_eq : b = κ • b' + β • params.h0

namespace Link

variable {params : SignatureParamsG1 S} {sig sig' : SignatureG1 S} {b b' : S.G1}

def symm (link : Link params sig sig' b b') : Link params sig' sig b' b where
  κ := link.κ⁻¹
  β := -(link.κ⁻¹ * link.β)
  κ_ne_zero := inv_ne_zero link.κ_ne_zero
  a_eq := by rw [link.a_eq, inv_smul_smul₀ link.κ_ne_zero]
  aBar_eq := by rw [link.aBar_eq, inv_smul_smul₀ link.κ_ne_zero]
  b_eq := by
    have hb : link.κ⁻¹ • b = b' + (link.κ⁻¹ * link.β) • params.h0 := by
      rw [inv_smul_eq_iff₀ link.κ_ne_zero, smul_add, smul_smul, mul_inv_cancel_left₀ link.κ_ne_zero]
      exact link.b_eq
    rw [hb, neg_smul, add_neg_cancel_right]

theorem symm_symm (link : Link params sig sig' b b') : link.symm.symm = link := by
  obtain ⟨κ, β, hκ, _, _, _⟩ := link
  simp only [symm, inv_inv, mk.injEq, true_and]
  rw [mul_neg, neg_neg, mul_inv_cancel_left₀ hκ]

end Link

/-- In a cyclic group every point is a multiple of a point that is not the identity. -/
theorem exists_eq_smul [IsAddCyclic S.G1] {P : S.G1} (hP : P ≠ 0) (Q : S.G1) :
    ∃ x : S.Fr, Q = x • P := by
  obtain ⟨g, hg⟩ := IsAddCyclic.exists_generator (α := S.G1)
  obtain ⟨p, rfl⟩ := AddSubgroup.mem_zmultiples_iff.mp (hg P)
  obtain ⟨q, rfl⟩ := AddSubgroup.mem_zmultiples_iff.mp (hg Q)
  have hp : (p : S.Fr) ≠ 0 := by
    intro hzero
    apply hP
    rw [← Int.cast_smul_eq_zsmul S.Fr, hzero, zero_smul]
  refine ⟨(q : S.Fr) * (p : S.Fr)⁻¹, ?_⟩
  rw [← Int.cast_smul_eq_zsmul S.Fr, ← Int.cast_smul_eq_zsmul S.Fr, smul_smul,
    inv_mul_cancel_right₀ hp]

/-- In a cyclic group two valid signatures under one key are linked: the pairing
    check fixes `b - e A` up to the factor of the signature points. -/
theorem exists_link [IsAddCyclic S.G1] {params : SignatureParamsG1 S} {pk : S.G2}
    {sig sig' : SignatureG1 S} {messages messages' : List S.Fr} (hh0 : params.h0 ≠ 0)
    (hg2 : params.g2 ≠ 0) (hsig : sig.verify messages pk params = .ok ())
    (hsig' : sig'.verify messages' pk params = .ok ()) :
    Nonempty (Link params sig sig' (params.b messages sig.s) (params.b messages' sig'.s)) := by
  obtain ⟨-, -, ha, hpair⟩ := SignatureG1.verify_eq_ok_iff.mp hsig
  obtain ⟨-, -, ha', hpair'⟩ := SignatureG1.verify_eq_ok_iff.mp hsig'
  obtain ⟨κ, hκ⟩ := exists_eq_smul ha' sig.a
  obtain ⟨β, hβ⟩ := exists_eq_smul hh0 (params.b messages sig.s - κ • params.b messages' sig'.s)
  have hκ_ne : κ ≠ 0 := by
    rintro rfl
    exact ha (by rw [hκ, zero_smul])
  have hdiff : S.pairing (params.b messages sig.s - sig.e • sig.a
      - κ • (params.b messages' sig'.s - sig'.e • sig'.a)) params.g2 = 0 := by
    have hsum : S.pairing sig.a pk - κ • S.pairing sig'.a pk = 0 := by
      rw [hκ, map_smul, LinearMap.smul_apply, sub_self]
    simp only [map_sub, map_smul, LinearMap.sub_apply, LinearMap.smul_apply] at hpair hpair' ⊢
    calc _ = (S.pairing sig.a pk - κ • S.pairing sig'.a pk)
          - (S.pairing sig.a pk + (sig.e • S.pairing sig.a params.g2
              - S.pairing (params.b messages sig.s) params.g2))
          + κ • (S.pairing sig'.a pk + (sig'.e • S.pairing sig'.a params.g2
              - S.pairing (params.b messages' sig'.s) params.g2)) := by module
      _ = 0 := by rw [hsum, hpair, hpair', smul_zero, sub_zero, add_zero]
  refine ⟨{ κ, β, κ_ne_zero := hκ_ne, a_eq := hκ, aBar_eq := ?_, b_eq := ?_ }⟩
  · exact sub_eq_zero.mp ((S.pairing_nondegenerate _ _ hdiff).resolve_right hg2)
  · rw [← hβ, add_sub_cancel]

/-! ### Moving the coins -/

/-- The coins with which the second prover answers the challenge `c` as the first
    does with `k`. -/
def moveCoins {params : SignatureParamsG1 S} {sig sig' : SignatureG1 S} {b b' : S.G1}
    (link : Link params sig sig' b b') (mbs mbs' : List (MessageOrBlinding S.Fr)) (c : S.Fr)
    (k : InitCoins S.Fr) : InitCoins S.Fr :=
  let r1 := k.r1 * link.κ
  let r2 := k.r2 - k.r1 * link.β
  { blindings := shiftBlindings c (randomMessages mbs) (randomMessages mbs') k.blindings
    rejected := k.rejected
    r1
    r2
    blinding1 := k.blinding1 + (-sig.e - -sig'.e) * c
    blinding2 := k.blinding2 + (k.r2 - r2) * c
    blindingD := k.blindingD + (-k.r1⁻¹ - -r1⁻¹) * c
    blindingH0 := k.blindingH0 + ((sig.s - k.r2 * k.r1⁻¹) - (sig'.s - r2 * r1⁻¹)) * c }

section Move

variable {V : Type} {revealed : OrderedMap V} {params : SignatureParamsG1 S}
  {sig sig' : SignatureG1 S} {b b' : S.G1} {mbs mbs' : List (MessageOrBlinding S.Fr)}
  {k : InitCoins S.Fr}

theorem drawn_moveCoins (link : Link params sig sig' b b') (halike : List.Forall₂ Alike mbs mbs')
    (c : S.Fr) (hk : k.Drawn (mbs.countP isRandom)) :
    (moveCoins link mbs mbs' c k).Drawn (mbs.countP isRandom) where
  blindings_length := by
    have hlen := hk.blindings_length
    have hms := randomMessages_length mbs
    have hms' := (randomMessages_length mbs').trans (countP_isRandom_of_alike halike)
    exact (shiftBlindings_length (hms.trans hlen.symm) (hms'.trans hlen.symm)).trans hlen
  r1_ne_zero := mul_ne_zero hk.r1_ne_zero link.κ_ne_zero

theorem moveCoins_symm (link : Link params sig sig' b b') (halike : List.Forall₂ Alike mbs mbs')
    (c : S.Fr) (hk : k.Drawn (mbs.countP isRandom)) :
    moveCoins link.symm mbs' mbs c (moveCoins link mbs mbs' c k) = k := by
  have hlen := hk.blindings_length
  have hms := randomMessages_length mbs
  have hms' := (randomMessages_length mbs').trans (countP_isRandom_of_alike halike)
  have hκ := link.κ_ne_zero
  have hr1 : k.r1 * link.κ * link.κ⁻¹ = k.r1 := mul_inv_cancel_right₀ hκ _
  have hr2 : k.r2 - k.r1 * link.β - k.r1 * link.κ * -(link.κ⁻¹ * link.β) = k.r2 := by
    rw [mul_neg, ← mul_assoc, hr1]
    ring
  have hblindings : shiftBlindings c (randomMessages mbs') (randomMessages mbs)
      (shiftBlindings c (randomMessages mbs) (randomMessages mbs') k.blindings) = k.blindings :=
    shiftBlindings_shiftBlindings c (hms.trans hlen.symm) (hms'.trans hlen.symm)
  obtain ⟨blindings, rejected, r1, r2, blinding1, blinding2, blindingD, blindingH0⟩ := k
  simp only [moveCoins, Link.symm, hr1, hr2, hblindings, InitCoins.mk.injEq, true_and]
  refine ⟨?_, ?_, ?_, ?_⟩ <;> ring

theorem length_tape_moveCoins (link : Link params sig sig' b b')
    (halike : List.Forall₂ Alike mbs mbs') (c : S.Fr) (hk : k.Drawn (mbs.countP isRandom)) :
    (moveCoins link mbs mbs' c k).tape.length = k.tape.length := by
  have hlen := (drawn_moveCoins link halike c hk).blindings_length
  simp only [InitCoins.tape, List.length_append, hlen, hk.blindings_length]
  rfl

/-- `A'`, `A_bar` and `d` are the same for the moved coins. -/
theorem protocolOf_points_moveCoins
    (link : Link params sig sig' (params.b (mbs.map message) sig.s)
      (params.b (mbs'.map message) sig'.s)) (c : S.Fr) :
    (protocolOf sig' params mbs' (moveCoins link mbs mbs' c k)).aPrime
        = (protocolOf sig params mbs k).aPrime ∧
      (protocolOf sig' params mbs' (moveCoins link mbs mbs' c k)).aBar
        = (protocolOf sig params mbs k).aBar ∧
      (protocolOf sig' params mbs' (moveCoins link mbs mbs' c k)).d
        = (protocolOf sig params mbs k).d := by
  have haPrime : (k.r1 * link.κ) • sig'.a = k.r1 • sig.a := by rw [mul_smul, ← link.a_eq]
  refine ⟨haPrime, ?_, ?_⟩
  · have hbar := congrArg (k.r1 • ·) link.aBar_eq
    simp only [smul_sub, smul_smul] at hbar
    simp only [protocolOf, moveCoins, smul_smul]
    rw [mul_comm sig.e, hbar]
    module
  · have hb := congrArg (k.r1 • ·) link.b_eq
    simp only [smul_add, smul_smul] at hb
    simp only [protocolOf, moveCoins, hb]
    module

end Move

/-- Two provers that can stand in for each other: linked signatures, messages
    treated alike, and one map of revealed messages. -/
structure Exchange (params : SignatureParamsG1 S) (revealed : OrderedMap S.Fr)
    (sig sig' : SignatureG1 S) (mbs mbs' : List (MessageOrBlinding S.Fr)) where
  link : Link params sig sig' (params.b (mbs.map message) sig.s)
    (params.b (mbs'.map message) sig'.s)
  alike : List.Forall₂ Alike mbs mbs'
  marks : Marks revealed 0 mbs
  length_eq : mbs.length = params.h.length
  message_eq : ∀ j m, revealed.get? j = some m → j < mbs.length →
    (mbs.map message)[j]? = some m
  message_eq' : ∀ j m, revealed.get? j = some m → j < mbs'.length →
    (mbs'.map message)[j]? = some m

namespace Exchange

variable {params : SignatureParamsG1 S} {revealed : OrderedMap S.Fr} {sig sig' : SignatureG1 S}
  {mbs mbs' : List (MessageOrBlinding S.Fr)} {k : InitCoins S.Fr}

def symm (x : Exchange params revealed sig sig' mbs mbs') :
    Exchange params revealed sig' sig mbs' mbs where
  link := x.link.symm
  alike := alike_symm x.alike
  marks := marks_of_alike x.alike x.marks
  length_eq := x.alike.length_eq.symm.trans x.length_eq
  message_eq := x.message_eq'
  message_eq' := x.message_eq

theorem symm_symm (x : Exchange params revealed sig sig' mbs mbs') : x.symm.symm = x := by
  obtain ⟨link, _, _, _, _, _⟩ := x
  simp only [symm, link.symm_symm]

def move (x : Exchange params revealed sig sig' mbs mbs') (c : S.Fr) (k : InitCoins S.Fr) :
    InitCoins S.Fr :=
  moveCoins x.link mbs mbs' c k

variable (x : Exchange params revealed sig sig' mbs mbs') (c : S.Fr)

theorem drawn_move (hk : k.Drawn (mbs.countP isRandom)) :
    (x.move c k).Drawn (mbs'.countP isRandom) := by
  rw [countP_isRandom_of_alike x.alike]
  exact drawn_moveCoins x.link x.alike c hk

theorem points_move :
    (protocolOf sig' params mbs' (x.move c k)).aPrime = (protocolOf sig params mbs k).aPrime ∧
      (protocolOf sig' params mbs' (x.move c k)).aBar = (protocolOf sig params mbs k).aBar ∧
      (protocolOf sig' params mbs' (x.move c k)).d = (protocolOf sig params mbs k).d :=
  protocolOf_points_moveCoins x.link c

theorem t1_move :
    (protocolOf sig' params mbs' (x.move c k)).scComm1.t
      = (protocolOf sig params mbs k).scComm1.t := by
  obtain ⟨haPrime, haBar, hd⟩ := x.points_move (k := k) c
  have hrel := protocolOf_first_relation sig params mbs k
  have hrel' := protocolOf_first_relation sig' params mbs' (x.move c k)
  rw [haPrime, haBar, hd] at hrel'
  have hshift : msm [(protocolOf sig params mbs k).aPrime, params.h0]
      (shiftBlindings c [-sig.e, k.r2] [-sig'.e, (x.move c k).r2] [k.blinding1, k.blinding2])
        = msm [(protocolOf sig params mbs k).aPrime, params.h0] [k.blinding1, k.blinding2] :=
    msm_shiftBlindings rfl rfl (hrel.trans hrel'.symm)
  have ht : ∀ (sg : SignatureG1 S) ms (kk : InitCoins S.Fr), (protocolOf sg params ms kk).scComm1.t
      = msm [(protocolOf sg params ms kk).aPrime, params.h0] [kk.blinding1, kk.blinding2] := by
    intro sg ms kk
    simp [protocolOf, PokPedersenCommitmentProtocol.init]
  rw [ht, ht, haPrime]
  exact hshift

/-- The blindings of the second relation move along the difference of its
    witnesses. -/
theorem blindings2_move (hk : k.Drawn (mbs.countP isRandom)) :
    (protocolOf sig' params mbs' (x.move c k)).blindings2
      = shiftBlindings c (protocolOf sig params mbs k).scWits2
          (protocolOf sig' params mbs' (x.move c k)).scWits2
          (protocolOf sig params mbs k).blindings2 := by
  have hhidden := snd_assignBlindings_shift x.alike c x.marks hk.blindings_length
  have hlen := hiddenBlindings_length x.marks hk
  have hlen' : (hiddenPart revealed 0 (mbs'.map message)).length
      = (hiddenPart revealed 0 (mbs.map message)).length :=
    length_hiddenPart_eq revealed (by simp [x.alike.length_eq])
  rw [protocolOf_scWits2 x.marks hk, protocolOf_scWits2 x.symm.marks (x.drawn_move c hk)]
  change (assignBlindings 0 mbs' _).map Prod.snd ++ _
    = shiftBlindings c _ _ (hiddenBlindings mbs k.blindings ++ [k.blindingD, k.blindingH0])
  rw [shiftBlindings_append c hlen.symm (hlen'.trans hlen.symm)]
  exact congrArg₂ _ hhidden rfl

theorem length_scWits2_move (hk : k.Drawn (mbs.countP isRandom)) :
    (protocolOf sig' params mbs' (x.move c k)).scWits2.length
      = (protocolOf sig params mbs k).blindings2.length := by
  have hhidden : (hiddenPart revealed 0 (mbs'.map message)).length
      = (hiddenPart revealed 0 (mbs.map message)).length :=
    length_hiddenPart_eq revealed (by simp [x.alike.length_eq])
  rw [protocolOf_lengths x.marks hk, protocolOf_scWits2 x.marks hk,
    protocolOf_scWits2 x.symm.marks (x.drawn_move c hk), List.length_append, hhidden,
    List.length_append]
  rfl

theorem t2_move (hk : k.Drawn (mbs.countP isRandom)) :
    (protocolOf sig' params mbs' (x.move c k)).t2 = (protocolOf sig params mbs k).t2 := by
  have hk' := x.drawn_move c hk
  have hrel := protocolOf_second_relation sig x.marks x.length_eq hk x.message_eq
  have hrel' := protocolOf_second_relation sig' x.symm.marks x.symm.length_eq hk'
    x.message_eq'
  obtain ⟨-, -, hd⟩ := x.points_move (k := k) c
  rw [hd] at hrel'
  rw [protocolOf_t2 x.symm.marks x.symm.length_eq hk', protocolOf_t2 x.marks x.length_eq hk, hd,
    x.blindings2_move c hk]
  exact msm_shiftBlindings (protocolOf_lengths x.marks hk).symm (x.length_scWits2_move c hk)
    (hrel.trans hrel'.symm)

theorem contribution_move (hk : k.Drawn (mbs.countP isRandom)) :
    (protocolOf sig' params mbs' (x.move c k)).contribution revealed params
      = (protocolOf sig params mbs k).contribution revealed params := by
  obtain ⟨haPrime, haBar, hd⟩ := x.points_move (k := k) c
  rw [PoKOfSignatureG1Protocol.contribution, PoKOfSignatureG1Protocol.contribution, haPrime, haBar,
    hd, x.t1_move, x.t2_move c hk]

theorem proofOf_move (hk : k.Drawn (mbs.countP isRandom)) :
    proofOf sig' params mbs' (x.move c k) c = proofOf sig params mbs k c := by
  obtain ⟨haPrime, haBar, hd⟩ := x.points_move (k := k) c
  have hresp1 : (protocolOf sig' params mbs' (x.move c k)).scComm1.genProof c
      = (protocolOf sig params mbs k).scComm1.genProof c := by
    rw [PokPedersenCommitmentProtocol.genProof, PokPedersenCommitmentProtocol.genProof, x.t1_move]
    simp only [protocolOf, PokPedersenCommitmentProtocol.init, move, moveCoins,
      PokPedersenCommitment.mk.injEq, true_and]
    constructor <;> ring
  have hresp2 : respond c (protocolOf sig' params mbs' (x.move c k)).blindings2
        (protocolOf sig' params mbs' (x.move c k)).scWits2
      = respond c (protocolOf sig params mbs k).blindings2
        (protocolOf sig params mbs k).scWits2 := by
    rw [x.blindings2_move c hk]
    exact respond_shiftBlindings c (protocolOf_lengths x.marks hk).symm
      (x.length_scWits2_move c hk)
  simp only [proofOf, haPrime, haBar, hd, x.t2_move c hk, hresp1, hresp2]

/-- The coins of the second prover, when the challenge is `ch` of the bytes that
    the first puts into the transcript. -/
def coins (x : Exchange params revealed sig sig' mbs mbs') (ch : Bytes → S.Fr)
    (k : InitCoins S.Fr) : InitCoins S.Fr :=
  x.move (ch ((protocolOf sig params mbs k).contribution revealed params)) k

/-- Exchanging the provers twice changes nothing: the second prover sees the
    challenge of the first. -/
theorem coins_symm (ch : Bytes → S.Fr) (hk : k.Drawn (mbs.countP isRandom)) :
    x.symm.coins ch (x.coins ch k) = k := by
  rw [coins, coins, x.contribution_move _ hk]
  exact moveCoins_symm x.link x.alike _ hk

theorem length_tape_coins (ch : Bytes → S.Fr) (hk : k.Drawn (mbs.countP isRandom)) :
    (x.coins ch k).tape.length = k.tape.length :=
  length_tape_moveCoins x.link x.alike _ hk

end Exchange

/-! ### Credentials -/

/-- Claims with a signature that is valid for the issuer key `pk`. -/
structure Credential (S : Suite) (pk : S.G2) where
  claims : List Bytes
  signature : Bytes
  sig : SignatureG1 S
  claims_ne : claims ≠ []
  count_le : claims.length ≤ 64
  decodes : deser SignatureG1.decoder signature = .ok sig
  verifies : sig.verify (claims.map (claimToFr S)) pk (paramsOf S claims.length) = .ok ()

namespace Credential

variable {pk : S.G2}

abbrev messages (cred : Credential S pk) : List S.Fr := cred.claims.map (claimToFr S)

/-- The voter secret as a scalar: `claim_to_fr(claims[0])`. -/
def voterSecret (cred : Credential S pk) : S.Fr := claimToFr S (cred.claims.head cred.claims_ne)

theorem getElem?_messages_zero (cred : Credential S pk) :
    cred.messages[voterSecretMsgIndex]? = some cred.voterSecret := by
  obtain ⟨claims, signature, sig, hne, hle, hdec, hver⟩ := cred
  cases claims with
  | nil => exact absurd rfl hne
  | cons claim claims => rfl

theorem getD_messages_zero (cred : Credential S pk) :
    cred.messages.getD voterSecretMsgIndex 0 = cred.voterSecret := by
  rw [List.getD_eq_getElem?_getD, cred.getElem?_messages_zero]
  rfl

/-- The credentials have the same number of claims and agree on the revealed ones. -/
structure Agree (cred cred' : Credential S pk) (reveal : List Nat) : Prop where
  count_eq : cred.claims.length = cred'.claims.length
  revealed_eq : ∀ i ∈ reveal, cred.claims[i]? = cred'.claims[i]?

namespace Agree

variable {cred cred' : Credential S pk} {reveal : List Nat}

theorem symm (h : Agree cred cred' reveal) : Agree cred' cred reveal where
  count_eq := h.count_eq.symm
  revealed_eq := fun i hi => (h.revealed_eq i hi).symm

theorem claims_eq (h : Agree cred cred' reveal) :
    ∀ i ∈ (OrderedMap.ofKeys reveal).keys, cred.claims[i]? = cred'.claims[i]? :=
  fun i hi => h.revealed_eq i (OrderedMap.mem_keys_ofKeys.mp hi)

theorem messages_eq (h : Agree cred cred' reveal) :
    ∀ i ∈ (OrderedMap.ofKeys reveal).keys, cred.messages[i]? = cred'.messages[i]? := by
  intro i hi
  simp only [messages, List.getElem?_map, h.claims_eq i hi]

end Agree

end Credential

/-- Marking two message lists alike, index by index. -/
theorem forall₂_map_zipIdx {F : Type} {f : F × Nat → MessageOrBlinding F} {xs ys : List F}
    (hlen : xs.length = ys.length)
    (halike : ∀ i x y, xs[i]? = some x → ys[i]? = some y → Alike (f (x, i)) (f (y, i))) :
    List.Forall₂ Alike (xs.zipIdx.map f) (ys.zipIdx.map f) := by
  rw [List.forall₂_iff_get]
  refine ⟨by simp [hlen], ?_⟩
  intro i hi hi'
  have hx : i < xs.length := by simpa using hi
  have hy : i < ys.length := by simpa using hi'
  simpa using halike i xs[i] ys[i] (List.getElem?_eq_getElem hx) (List.getElem?_eq_getElem hy)

theorem alike_deriveMarks {revealSet : OrderedMap Unit} {messages messages' : List S.Fr}
    (hlen : messages.length = messages'.length)
    (h : ∀ i ∈ revealSet.keys, messages[i]? = messages'[i]?) :
    List.Forall₂ Alike (deriveMarks revealSet messages) (deriveMarks revealSet messages') := by
  apply forall₂_map_zipIdx hlen
  intro i x y hx hy
  by_cases hi : revealSet.contains i = true
  · have heq := h i (OrderedMap.contains_iff.mp hi)
    rw [hx, hy] at heq
    cases heq
    simpa [hi] using Alike.revealed x
  · simpa [hi] using Alike.random x y

theorem alike_voteMarks (revealSet : OrderedMap Unit) {messages messages' : List S.Fr} (r0 : S.Fr)
    (hlen : messages.length = messages'.length)
    (hsecret : messages[voterSecretMsgIndex]? = messages'[voterSecretMsgIndex]?)
    (h : ∀ i ∈ revealSet.keys, messages[i]? = messages'[i]?) :
    List.Forall₂ Alike (voteMarks revealSet r0 messages) (voteMarks revealSet r0 messages') := by
  apply forall₂_map_zipIdx hlen
  intro i x y hx hy
  by_cases hzero : i = voterSecretMsgIndex
  · subst hzero
    rw [hx, hy] at hsecret
    cases hsecret
    simpa using Alike.concrete x r0
  by_cases hi : revealSet.contains i = true
  · have heq := h i (OrderedMap.contains_iff.mp hi)
    rw [hx, hy] at heq
    cases heq
    simpa [hzero, hi] using Alike.revealed x
  · simpa [hzero, hi] using Alike.random x y

/-! ### The two programs -/

section Coupling

variable {pk : S.G2} {cred cred' : Credential S pk} {reveal : List Nat}

/-- Credentials that agree can be exchanged, however their messages are marked. -/
theorem Credential.Agree.exists_exchange [IsAddCyclic S.G1]
    (hh0 : (paramsOf S cred.claims.length).h0 ≠ 0) (h : cred.Agree cred' reveal)
    {mbs mbs' : List (MessageOrBlinding S.Fr)} (hmbs : mbs.map message = cred.messages)
    (hmbs' : mbs'.map message = cred'.messages) (halike : List.Forall₂ Alike mbs mbs')
    (hmarks : Marks (OrderedMap.ofKeys reveal) 0 mbs) :
    Nonempty (Exchange (paramsOf S cred.claims.length)
      (provenMessages (OrderedMap.ofKeys reveal) cred.messages) cred.sig cred'.sig mbs mbs') := by
  have hverifies' := cred'.verifies
  rw [← h.count_eq] at hverifies'
  obtain ⟨link⟩ := exists_link hh0 (paramsOf_g2_ne_zero S _) cred.verifies hverifies'
  have hlen : mbs.length = cred.claims.length := by
    simpa [Credential.messages] using congrArg List.length hmbs
  have hlen' : mbs'.length = cred'.messages.length := by
    simpa using congrArg List.length hmbs'
  have hlen_messages : mbs.length = cred.messages.length := by
    simpa using congrArg List.length hmbs
  refine ⟨{ link := hmbs ▸ hmbs' ▸ link, alike := halike, marks := marks_provenMessages hmarks,
            length_eq := by simpa using hlen, message_eq := ?_, message_eq' := ?_ }⟩
  · intro j m hget hj
    rw [hmbs]
    exact getElem?_of_get?_provenMessages hget (hlen_messages ▸ hj)
  · intro j m hget hj
    rw [provenMessages_congr h.messages_eq] at hget
    rw [hmbs']
    exact getElem?_of_get?_provenMessages hget (hlen' ▸ hj)

theorem derivedProof_exchange (h : cred.Agree cred' reveal) {H : Bytes → S.Fr} {nonce : Bytes}
    (x : Exchange (paramsOf S cred.claims.length)
      (provenMessages (OrderedMap.ofKeys reveal) cred.messages) cred.sig cred'.sig
      (deriveMarks (OrderedMap.ofKeys reveal) cred.messages)
      (deriveMarks (OrderedMap.ofKeys reveal) cred'.messages)) {k : InitCoins S.Fr}
    (hk : k.Drawn ((deriveMarks (OrderedMap.ofKeys reveal) cred.messages).countP isRandom)) :
    derivedProof H cred'.claims cred'.sig (OrderedMap.ofKeys reveal) nonce
        (x.coins (fun contribution => H (proofTranscript contribution nonce)) k)
      = derivedProof H cred.claims cred.sig (OrderedMap.ofKeys reveal) nonce k := by
  have hmessages := provenMessages_congr h.messages_eq
  have hclaims := provenClaims_congr h.claims_eq
  have hcontribution := x.contribution_move
    (H (proofTranscript ((protocolOf cred.sig (paramsOf S cred.claims.length)
      (deriveMarks (OrderedMap.ofKeys reveal) cred.messages) k).contribution
        (provenMessages (OrderedMap.ofKeys reveal) cred.messages)
        (paramsOf S cred.claims.length)) nonce)) hk
  simp only [derivedProof, ← h.count_eq, ← hmessages, ← hclaims, Exchange.coins, hcontribution,
    x.proofOf_move _ hk]

theorem deriveProof_out_of_range (cred : Credential S pk) {H : Bytes → S.Fr} {nonce : Bytes}
    (hrange : ∃ i ∈ (OrderedMap.ofKeys reveal).keys, i ≥ cred.claims.length) :
    deriveProof H cred.claims cred.signature reveal nonce = throw revealOutOfRange := by
  have hmax : ¬ cred.claims.length > maxBbsMessages := by
    have := cred.count_le
    unfold maxBbsMessages
    omega
  rw [deriveProof, rejectIf_false_bind cred.claims_ne, rejectIf_false_bind hmax, cred.decodes,
    liftExcept_ok_bind]
  dsimp only
  rw [rejectIf_true_bind hrange]

theorem coupled_deriveProof [IsAddCyclic S.G1]
    (hh0 : (paramsOf S cred.claims.length).h0 ≠ 0) (h : cred.Agree cred' reveal)
    (H : Bytes → S.Fr) (nonce : Bytes) :
    Rng.Coupled (deriveProof H cred.claims cred.signature reveal nonce).run
      (deriveProof H cred'.claims cred'.signature reveal nonce).run := by
  have hlen : cred.messages.length = cred'.messages.length := by
    simp [Credential.messages, h.count_eq]
  have halike := alike_deriveMarks hlen h.messages_eq
  obtain ⟨x⟩ := h.exists_exchange hh0 (deriveMarks_message _ _) (deriveMarks_message _ _) halike
    (marks_deriveMarks _ _)
  by_cases hrange : ∀ i ∈ (OrderedMap.ofKeys reveal).keys, i < cred.claims.length
  · have hrun := deriveProof_run H nonce cred.claims_ne cred.count_le cred.decodes hrange
    have hrun' := deriveProof_run H nonce cred'.claims_ne cred'.count_le cred'.decodes
      (h.count_eq ▸ hrange)
    have hcount := countP_isRandom_of_alike halike
    simp only [Credential.messages] at hcount
    rw [hcount] at hrun'
    let ch : Bytes → S.Fr := fun contribution => H (proofTranscript contribution nonce)
    refine (lossless_drawInitCoins _).coupled
      (f := fun k => .ok (derivedProof H cred.claims cred.sig (OrderedMap.ofKeys reveal) nonce k))
      (g := fun k => .ok (derivedProof H cred'.claims cred'.sig (OrderedMap.ofKeys reveal) nonce k))
      hrun hrun' (σ := x.coins ch) (τ := x.symm.coins ch) ?_ ?_ ?_ ?_ ?_ ?_
    · intro k hk
      exact hcount ▸ x.drawn_move _ hk
    · intro k hk
      exact x.symm.drawn_move _ (hcount.symm ▸ hk)
    · intro k hk
      exact x.coins_symm ch hk
    · intro k hk
      simpa only [x.symm_symm] using x.symm.coins_symm ch (hcount.symm ▸ hk)
    · intro k hk
      exact x.length_tape_coins ch hk
    · intro k hk
      rw [derivedProof_exchange h x hk]
  · have hrange' : ∃ i ∈ (OrderedMap.ofKeys reveal).keys, i ≥ cred.claims.length := by
      simpa using hrange
    rw [deriveProof_out_of_range cred hrange', deriveProof_out_of_range cred' (h.count_eq ▸ hrange')]
    exact Rng.Coupled.refl _

/-- For a valid credential only the public inputs can be refused before anything
    is drawn. -/
theorem Credential.proveVote_eq (cred : Credential S pk) (H : Bytes → S.Fr)
    (issuerPublicKey : Bytes) (reveal : List Nat) (chainId electionId signal : Bytes) :
    proveVote H cred.claims cred.signature issuerPublicKey reveal chainId electionId signal = (do
      rejectIf (∃ i ∈ (OrderedMap.ofKeys reveal).keys, i ≥ cred.claims.length) revealOutOfRange
      rejectIf ((OrderedMap.ofKeys reveal).contains voterSecretMsgIndex = true) voterSecretRevealed
      let issuerPk ← liftExcept (deser (publicKeyDecoder S) issuerPublicKey)
      proveOpened H cred.claims cred.sig issuerPk (OrderedMap.ofKeys reveal) chainId electionId
        signal) := by
  have hmax : ¬ cred.claims.length > maxBbsMessages := by
    have := cred.count_le
    unfold maxBbsMessages
    omega
  have hsecret : ¬ cred.claims[voterSecretMsgIndex]? = none := by
    have hpos := List.length_pos_iff.mpr cred.claims_ne
    simp [voterSecretMsgIndex, hpos]
  rw [proveVote, rejectIf_false_bind cred.claims_ne, rejectIf_false_bind hmax,
    rejectIf_false_bind hsecret, cred.decodes]
  rfl

/-- The challenge of a vote, as a function of what the BBS+ proof contributes. -/
def Credential.voteHash (cred : Credential S pk) (H : Bytes → S.Fr) (issuerPk : S.G2) (hE : S.G1)
    (chainId electionId signal : Bytes) (r0 : S.Fr) (contribution : Bytes) : S.Fr :=
  H (voteTranscript S contribution
    (PokDiscreteLog.challengeContribution hE (cred.voterSecret • hE) (r0 • hE))
    (UInt32.ofNat cred.claims.length) (S.g2Codec.ser issuerPk) chainId electionId
    (S.g1Codec.ser (cred.voterSecret • hE)) signal)

theorem provenVote_exchange (h : cred.Agree cred' reveal)
    (hsecret : cred.voterSecret = cred'.voterSecret) {H : Bytes → S.Fr} {issuerPk : S.G2}
    {hE : S.G1} {chainId electionId signal : Bytes} {k : VoteCoins S.Fr}
    (x : Exchange (paramsOf S cred.claims.length)
      (provenMessages (OrderedMap.ofKeys reveal) cred.messages) cred.sig cred'.sig
      (voteMarks (OrderedMap.ofKeys reveal) k.r0 cred.messages)
      (voteMarks (OrderedMap.ofKeys reveal) k.r0 cred'.messages))
    (hk : k.init.Drawn
      ((voteMarks (OrderedMap.ofKeys reveal) k.r0 cred.messages).countP isRandom)) :
    provenVote H cred'.claims cred'.sig issuerPk (OrderedMap.ofKeys reveal) hE chainId electionId
        signal
        ⟨k.r0, k.blind, x.coins (cred.voteHash H issuerPk hE chainId electionId signal k.r0) k.init⟩
      = provenVote H cred.claims cred.sig issuerPk (OrderedMap.ofKeys reveal) hE chainId electionId
        signal k := by
  have hmessages := provenMessages_congr h.messages_eq
  have hclaims := provenClaims_congr h.claims_eq
  have hcontribution := fun c => x.contribution_move c hk
  have hproof := fun c => x.proofOf_move c hk
  have hchallenge : provenChallenge H cred'.claims cred'.sig issuerPk (OrderedMap.ofKeys reveal) hE
      chainId electionId signal
      ⟨k.r0, k.blind, x.coins (cred.voteHash H issuerPk hE chainId electionId signal k.r0) k.init⟩
      = provenChallenge H cred.claims cred.sig issuerPk (OrderedMap.ofKeys reveal) hE chainId
        electionId signal k := by
    simp only [provenChallenge, ← h.count_eq, ← hmessages, cred.getD_messages_zero,
      cred'.getD_messages_zero, ← hsecret, Exchange.coins, hcontribution]
  rw [provenVote, provenVote, hchallenge]
  cases hc : provenChallenge H cred.claims cred.sig issuerPk (OrderedMap.ofKeys reveal) hE chainId
      electionId signal k with
  | error e => rfl
  | ok c =>
    obtain ⟨rfl, -⟩ := computeChallenge_eq_ok_iff.mp hc
    simp only [Except.map, voteOf, ← h.count_eq, ← hclaims, cred.getD_messages_zero,
      cred'.getD_messages_zero, ← hsecret, Exchange.coins, Credential.voteHash, hproof]

theorem coupled_proveOpened [IsAddCyclic S.G1]
    (hh0 : (paramsOf S cred.claims.length).h0 ≠ 0) (h : cred.Agree cred' reveal)
    (hsecret : cred.voterSecret = cred'.voterSecret)
    (hhidden : (OrderedMap.ofKeys reveal).contains voterSecretMsgIndex = false)
    (H : Bytes → S.Fr) (issuerPk : S.G2) (chainId electionId signal : Bytes) :
    Rng.Coupled
      (proveOpened H cred.claims cred.sig issuerPk (OrderedMap.ofKeys reveal) chainId electionId
        signal).run
      (proveOpened H cred'.claims cred'.sig issuerPk (OrderedMap.ofKeys reveal) chainId electionId
        signal).run := by
  cases hhE : hashToG1 S electionId with
  | error e =>
    simp only [proveOpened, hhE, liftExcept_error_bind]
    exact Rng.Coupled.refl _
  | ok hE =>
  by_cases hnull : cred.voterSecret • hE = 0
  · have hnull' := hnull
    rw [hsecret] at hnull'
    simp only [proveOpened, hhE, liftExcept_ok_bind, blindedMul_eq, cred.getD_messages_zero,
      cred'.getD_messages_zero, rejectIf_true_bind hnull, rejectIf_true_bind hnull']
    exact Rng.Coupled.refl _
  have hlen : cred.messages.length = cred'.messages.length := by
    simp [Credential.messages, h.count_eq]
  have hzero : cred.messages[voterSecretMsgIndex]? = cred'.messages[voterSecretMsgIndex]? := by
    rw [cred.getElem?_messages_zero, cred'.getElem?_messages_zero, hsecret]
  have halike := fun r0 => alike_voteMarks (OrderedMap.ofKeys reveal) r0 hlen hzero
    h.messages_eq
  have hexchange := fun r0 => h.exists_exchange hh0 (voteMarks_message _ r0)
    (voteMarks_message _ r0) (halike r0) (marks_voteMarks _ hhidden r0)
  -- The exchange may depend on `r0`, which both provers draw and keep.
  obtain ⟨x⟩ := Classical.nonempty_pi.mpr hexchange
  have hcount : ∀ r0, (voteMarks (OrderedMap.ofKeys reveal) r0 cred.messages).countP isRandom
      = (voteMarks (OrderedMap.ofKeys reveal) 0 cred.messages).countP isRandom :=
    fun r0 => countP_voteMarks _ r0 0 _
  have hcount' : ∀ r0, (voteMarks (OrderedMap.ofKeys reveal) r0 cred'.messages).countP isRandom
      = (voteMarks (OrderedMap.ofKeys reveal) 0 cred.messages).countP isRandom :=
    fun r0 => (countP_isRandom_of_alike (halike r0)).trans (hcount r0)
  have hrun := proveOpened_run H cred.sig issuerPk chainId signal hhidden hhE
    (cred.getD_messages_zero ▸ hnull)
  have hrun' := proveOpened_run H cred'.sig issuerPk chainId signal hhidden hhE
    (cred'.getD_messages_zero ▸ hsecret ▸ hnull)
  rw [hcount' 0] at hrun'
  let ch := cred.voteHash H issuerPk hE chainId electionId signal
  refine (lossless_drawVoteCoins _).coupled
    (f := provenVote H cred.claims cred.sig issuerPk (OrderedMap.ofKeys reveal) hE chainId
      electionId signal)
    (g := provenVote H cred'.claims cred'.sig issuerPk (OrderedMap.ofKeys reveal) hE chainId
      electionId signal)
    hrun hrun' (σ := fun k => { k with init := (x k.r0).coins (ch k.r0) k.init })
    (τ := fun k => { k with init := (x k.r0).symm.coins (ch k.r0) k.init }) ?_ ?_ ?_ ?_ ?_ ?_
  · intro k hk
    exact hcount' k.r0 ▸ (x k.r0).drawn_move _ ((hcount k.r0).symm ▸ hk)
  · intro k hk
    exact hcount k.r0 ▸ (x k.r0).symm.drawn_move _ ((hcount' k.r0).symm ▸ hk)
  · intro k hk
    simp only [(x k.r0).coins_symm (ch k.r0) ((hcount k.r0).symm ▸ hk)]
  · intro k hk
    have hback := (x k.r0).symm.coins_symm (ch k.r0) ((hcount' k.r0).symm ▸ hk)
    rw [(x k.r0).symm_symm] at hback
    simp only [hback]
  · intro k hk
    have htape := (x k.r0).length_tape_coins (ch k.r0) ((hcount k.r0).symm ▸ hk)
    simpa only [VoteCoins.tape, List.length_cons, Nat.add_right_cancel_iff] using htape
  · intro k hk
    exact provenVote_exchange h hsecret (x k.r0) ((hcount k.r0).symm ▸ hk)

theorem coupled_proveVote [IsAddCyclic S.G1]
    (hh0 : (paramsOf S cred.claims.length).h0 ≠ 0) (h : cred.Agree cred' reveal)
    (hsecret : cred.voterSecret = cred'.voterSecret) (H : Bytes → S.Fr)
    (issuerPublicKey chainId electionId signal : Bytes) :
    Rng.Coupled
      (proveVote H cred.claims cred.signature issuerPublicKey reveal chainId electionId signal).run
      (proveVote H cred'.claims cred'.signature issuerPublicKey reveal chainId electionId
        signal).run := by
  rw [cred.proveVote_eq, cred'.proveVote_eq, ← h.count_eq]
  by_cases hrange : ∃ i ∈ (OrderedMap.ofKeys reveal).keys, i ≥ cred.claims.length
  · rw [rejectIf_true_bind hrange, rejectIf_true_bind hrange]
    exact Rng.Coupled.refl _
  by_cases hhidden : (OrderedMap.ofKeys reveal).contains voterSecretMsgIndex = true
  · rw [rejectIf_false_bind hrange, rejectIf_false_bind hrange, rejectIf_true_bind hhidden,
      rejectIf_true_bind hhidden]
    exact Rng.Coupled.refl _
  rw [rejectIf_false_bind hrange, rejectIf_false_bind hrange, rejectIf_false_bind hhidden,
    rejectIf_false_bind hhidden]
  cases hpk : deser (publicKeyDecoder S) issuerPublicKey with
  | error e =>
    rw [liftExcept_error_bind, liftExcept_error_bind]
    exact Rng.Coupled.refl _
  | ok issuerPk =>
    rw [liftExcept_ok_bind, liftExcept_ok_bind]
    exact coupled_proveOpened hh0 h hsecret (by simpa using hhidden) H issuerPk chainId electionId
      signal

end Coupling

/-- **Perfect unlinkability.** Credentials under one issuer key that agree on the
    revealed claims give the same presentations, up to a bijection of tapes; if
    they also agree on the voter secret, so do their votes. -/
theorem presentations_unlinkable [IsAddCyclic S.G1] {pk : S.G2} (cred cred' : Credential S pk)
    (hh0 : (paramsOf S cred.claims.length).h0 ≠ 0) (reveal : List Nat)
    (h : cred.Agree cred' reveal) (H : Bytes → S.Fr) :
    (∀ nonce, Rng.Coupled (deriveProof H cred.claims cred.signature reveal nonce).run
      (deriveProof H cred'.claims cred'.signature reveal nonce).run) ∧
    (cred.voterSecret = cred'.voterSecret →
      ∀ issuerPublicKey chainId electionId signal, Rng.Coupled
        (proveVote H cred.claims cred.signature issuerPublicKey reveal chainId electionId
          signal).run
        (proveVote H cred'.claims cred'.signature issuerPublicKey reveal chainId electionId
          signal).run) :=
  ⟨coupled_deriveProof hh0 h H,
    fun hsecret issuerPublicKey chainId electionId signal =>
      coupled_proveVote hh0 h hsecret H issuerPublicKey chainId electionId signal⟩

/-- A credential for three claims in the small suite, with the third one and the
    signature point that goes with it left open. -/
def smallCredential (claim : UInt8) (a : ZMod 7)
    (h : (SignatureG1.mk (S := smallSuite) a (0 : ZMod 7) (0 : ZMod 7)).verify
      ([[0], [4], [claim]].map (claimToFr smallSuite)) (4 : ZMod 7) (paramsOf smallSuite 3)
        = .ok ()) : Credential smallSuite (4 : ZMod 7) where
  claims := [[0], [4], [claim]]
  signature := (SignatureG1.mk (S := smallSuite) a (0 : ZMod 7) (0 : ZMod 7)).ser
  sig := ⟨a, (0 : ZMod 7), (0 : ZMod 7)⟩
  claims_ne := by simp
  count_le := by simp
  decodes := by
    clear h
    revert a
    decide +kernel
  verifies := h

theorem smallCredential_unlinkable :
    Rng.Coupled
      (deriveProof smallOracle [[0], [4], [1]] (smallCredential 1 6 (by decide +kernel)).signature
        [1] []).run
      (deriveProof smallOracle [[0], [4], [2]] (smallCredential 2 3 (by decide +kernel)).signature
        [1] []).run := by
  have : IsAddCyclic smallSuite.G1 := inferInstanceAs (IsAddCyclic (ZMod 7))
  refine (presentations_unlinkable (smallCredential 1 6 (by decide +kernel))
    (smallCredential 2 3 (by decide +kernel)) (by decide +kernel) [1] ⟨rfl, ?_⟩ smallOracle).1 []
  decide

end PhiCrypto

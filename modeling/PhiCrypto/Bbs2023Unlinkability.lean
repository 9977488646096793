import PhiCrypto.Bbs2023Runs
import PhiCrypto.Unlinkability

/-!
# Unlinkability of `bbs-2023` presentations

Two credentials under one issuer key that agree on the revealed claims give the same
presentations: a bijection of tapes carries every run of one holder to a run of the
other with the same outcome, the failures included.

Writing `d = b - e • A` for the point `b` of the messages, the holder shows `r1 • A` and
`r1 • d`. The key relates `A` and `d`, so both points of two holders differ by one
factor `κ`, which `r1` absorbs. The masks then move along the difference of the
answers' secrets (`moveCoins`). The commitment does not see that move, so the challenge
is the same in both runs and the move can be undone.
-/

namespace PhiCrypto

open PairingCrypto

variable {S : Suite}

namespace PairingCrypto

/-! ### Holders -/

/-- What a prover computes with: its signature, the point of its messages and the hidden
    ones among them. -/
structure Holder (S : Suite) where
  signature : Signature S
  b : S.G1
  hidden : List S.Fr

namespace Holder

variable (h : Holder S) (points : List S.G1) (c : Coins S.Fr)

/-- The point that the key relates to `A`. -/
def d : S.G1 := h.b - h.signature.e • h.signature.a

def aBar : S.G1 := c.r1 • h.signature.a

def bBar : S.G1 := c.r1 • h.d

def commitment : S.G1 :=
  msm (h.aBar c :: h.bBar c :: points) (c.r2Tilde :: c.zTilde :: c.mTilde)

/-- The answers to the challenge `x`. -/
def proof (x : S.Fr) : Proof S where
  aBar := h.aBar c
  bBar := h.bBar c
  r2Hat := c.r2Tilde + x * h.signature.e * -c.r1⁻¹
  zHat := c.zTilde + x * -c.r1⁻¹
  mHatList := respond x c.mTilde h.hidden
  c := x

end Holder

/-- Two holders of the same statement: the points differ by one factor, and the public
    parts agree. -/
structure Linked (points : List S.G1) (κ : S.Fr) (h h' : Holder S) : Prop where
  factor_ne : κ ≠ 0
  a_eq : h'.signature.a = κ • h.signature.a
  d_eq : h'.d = κ • h.d
  public_eq : h'.b - msm points h'.hidden = h.b - msm points h.hidden
  length_eq : h'.hidden.length = h.hidden.length

theorem Linked.symm {points : List S.G1} {κ : S.Fr} {h h' : Holder S}
    (l : Linked points κ h h') : Linked points κ⁻¹ h' h where
  factor_ne := inv_ne_zero l.factor_ne
  a_eq := by rw [l.a_eq, inv_smul_smul₀ l.factor_ne]
  d_eq := by rw [l.d_eq, inv_smul_smul₀ l.factor_ne]
  public_eq := l.public_eq.symm
  length_eq := l.length_eq.symm

/-! ### Moving the coins -/

/-- The coins with which `h'` gives the answers of `h` to the challenge `x`. -/
def moveCoins (κ x : S.Fr) (h h' : Holder S) (c : Coins S.Fr) : Coins S.Fr where
  r1 := κ⁻¹ * c.r1
  r2Tilde := c.r2Tilde + x * h.signature.e * -c.r1⁻¹ - x * h'.signature.e * -(κ⁻¹ * c.r1)⁻¹
  zTilde := c.zTilde + x * -c.r1⁻¹ - x * -(κ⁻¹ * c.r1)⁻¹
  mTilde := shiftBlindings x h.hidden h'.hidden c.mTilde

section Move

variable {points : List S.G1} {κ : S.Fr} {h h' : Holder S} (l : Linked points κ h h')
  {c : Coins S.Fr}

include l in
theorem aBar_moveCoins (x : S.Fr) : h'.aBar (moveCoins κ x h h' c) = h.aBar c := by
  rw [Holder.aBar, Holder.aBar, moveCoins, l.a_eq, smul_smul, mul_right_comm,
    inv_mul_cancel₀ l.factor_ne, one_mul]

include l in
theorem bBar_moveCoins (x : S.Fr) : h'.bBar (moveCoins κ x h h' c) = h.bBar c := by
  rw [Holder.bBar, Holder.bBar, moveCoins, l.d_eq, smul_smul, mul_right_comm,
    inv_mul_cancel₀ l.factor_ne, one_mul]

/-- The secrets of the two answers that are not about a message. -/
theorem Holder.base_relation (h : Holder S) {c : Coins S.Fr} (hr1 : c.r1 ≠ 0) :
    (h.signature.e * -c.r1⁻¹) • h.aBar c + (-c.r1⁻¹) • h.bBar c = -h.b := by
  have hcancel : ∀ P : S.G1, c.r1⁻¹ • c.r1 • P = P := fun P => inv_smul_smul₀ hr1 P
  rw [Holder.aBar, Holder.bBar, mul_smul, neg_smul, neg_smul, hcancel, hcancel, Holder.d]
  module

include l in
/-- The commitment does not see the move. -/
theorem commitment_moveCoins (x : S.Fr) (hr1 : c.r1 ≠ 0)
    (hmasks : c.mTilde.length = h.hidden.length) :
    h'.commitment points (moveCoins κ x h h' c) = h.commitment points c := by
  have hr1' : (moveCoins κ x h h' c).r1 ≠ 0 := mul_ne_zero (inv_ne_zero l.factor_ne) hr1
  have hmsm := msm_shiftBlindings_eq x points hmasks.symm
    (l.length_eq.trans hmasks.symm)
  have hbase := h.base_relation hr1
  have hbase' := h'.base_relation hr1'
  rw [aBar_moveCoins l, bBar_moveCoins l] at hbase'
  have hpublic : msm points h.hidden = h.b - (h'.b - msm points h'.hidden) := by
    rw [l.public_eq, sub_sub_cancel]
  simp only [Holder.commitment, msm_cons, aBar_moveCoins l, bBar_moveCoins l]
  simp only [moveCoins] at hbase' ⊢
  rw [hmsm, hpublic]
  calc _ = c.r2Tilde • h.aBar c + (c.zTilde • h.bBar c + msm points c.mTilde)
        + x • ((h.signature.e * -c.r1⁻¹) • h.aBar c + (-c.r1⁻¹) • h.bBar c)
        - x • ((h'.signature.e * -(κ⁻¹ * c.r1)⁻¹) • h.aBar c + (-(κ⁻¹ * c.r1)⁻¹) • h.bBar c)
        + x • (h.b - h'.b) := by
        module
    _ = c.r2Tilde • h.aBar c + (c.zTilde • h.bBar c + msm points c.mTilde) := by
        rw [hbase, hbase']
        module

include l in
/-- The answers stay as they are. -/
theorem proof_moveCoins (x : S.Fr) (hmasks : c.mTilde.length = h.hidden.length) :
    h'.proof (moveCoins κ x h h' c) x = h.proof c x := by
  have hrespond := respond_shiftBlindings x hmasks.symm (l.length_eq.trans hmasks.symm)
  simp only [Holder.proof, aBar_moveCoins l, bBar_moveCoins l]
  simp only [moveCoins, hrespond, sub_add_cancel]

include l in
/-- The move back undoes the move. -/
theorem moveCoins_moveCoins (x : S.Fr) (hmasks : c.mTilde.length = h.hidden.length) :
    moveCoins κ⁻¹ x h' h (moveCoins κ x h h' c) = c := by
  have hr1 : κ * (κ⁻¹ * c.r1) = c.r1 := mul_inv_cancel_left₀ l.factor_ne c.r1
  have hback := shiftBlindings_shiftBlindings x hmasks.symm (l.length_eq.trans hmasks.symm)
  simp only [moveCoins, inv_inv, hr1, hback, sub_add_cancel, add_sub_cancel_right]

end Move

/-! ### Runs of a holder -/

section HolderRuns

variable (points : List S.G1) (oracle : S.G1 → S.G1 → S.G1 → Except Error S.Fr)

/-- The challenge for these coins. -/
def Holder.challenge (h : Holder S) (c : Coins S.Fr) : Except Error S.Fr :=
  oracle (h.aBar c) (h.bBar c) (h.commitment points c)

/-- What a holder makes of its coins. -/
def Holder.run (h : Holder S) (c : Coins S.Fr) : Except Error (Proof S) :=
  if c.r1 = 0 then .error (Error.cryptoOps "Failed to invert `r1`")
  else (h.challenge points oracle c).map (h.proof c)

/-- The coins of the other holder for the same outcome; a run that fails keeps its coins. -/
def exchangeCoins (κ : S.Fr) (h h' : Holder S) (c : Coins S.Fr) : Coins S.Fr :=
  if c.r1 = 0 then c
  else
    match h.challenge points oracle c with
    | .error _ => moveCoins κ 0 h h' c
    | .ok x => moveCoins κ x h h' c

variable {points oracle} {κ : S.Fr} {h h' : Holder S} (l : Linked points κ h h')
  {c : Coins S.Fr}

include l in
/-- Every move leaves the challenge as it is. -/
theorem challenge_moveCoins (x : S.Fr) (hr1 : c.r1 ≠ 0)
    (hmasks : c.mTilde.length = h.hidden.length) :
    h'.challenge points oracle (moveCoins κ x h h' c) = h.challenge points oracle c := by
  rw [Holder.challenge, Holder.challenge, aBar_moveCoins l, bBar_moveCoins l,
    commitment_moveCoins l x hr1 hmasks]

theorem mTilde_length (hc : c.WellFormed h.hidden.length) (hr1 : c.r1 ≠ 0) :
    c.mTilde.length = h.hidden.length := by
  rw [Coins.WellFormed, if_neg hr1] at hc
  exact hc

/-- An exchange is a move by some challenge, and the one that was drawn if there is one. -/
theorem exists_moveCoins (points : List S.G1)
    (oracle : S.G1 → S.G1 → S.G1 → Except Error S.Fr) (κ : S.Fr) (h' : Holder S)
    (hr1 : c.r1 ≠ 0) :
    ∃ x, exchangeCoins points oracle κ h h' c = moveCoins κ x h h' c ∧
      (h.challenge points oracle c = .ok x ∨
        x = 0 ∧ ∃ k, h.challenge points oracle c = .error k) := by
  rw [exchangeCoins, if_neg hr1]
  cases hchallenge : h.challenge points oracle c with
  | error k => exact ⟨0, rfl, .inr ⟨rfl, k, rfl⟩⟩
  | ok x => exact ⟨x, rfl, .inl rfl⟩

include l in
theorem wellFormed_exchangeCoins (hc : c.WellFormed h.hidden.length) :
    (exchangeCoins points oracle κ h h' c).WellFormed h.hidden.length := by
  by_cases hr1 : c.r1 = 0
  · rwa [exchangeCoins, if_pos hr1]
  · obtain ⟨x, heq, -⟩ := exists_moveCoins points oracle κ h' hr1
    have hmasks := mTilde_length hc hr1
    have hr1' : (moveCoins κ x h h' c).r1 ≠ 0 := mul_ne_zero (inv_ne_zero l.factor_ne) hr1
    rw [heq, Coins.WellFormed, if_neg hr1', moveCoins,
      shiftBlindings_length hmasks.symm (l.length_eq.trans hmasks.symm), hmasks]

include l in
theorem length_write_exchangeCoins (hc : c.WellFormed h.hidden.length) :
    (exchangeCoins points oracle κ h h' c).write.length = c.write.length := by
  by_cases hr1 : c.r1 = 0
  · rw [exchangeCoins, if_pos hr1]
  · obtain ⟨x, heq, -⟩ := exists_moveCoins points oracle κ h' hr1
    have hmasks := mTilde_length hc hr1
    have hshift := shiftBlindings_length (c := x) hmasks.symm (l.length_eq.trans hmasks.symm)
    rw [heq]
    simpa [Coins.write, moveCoins] using hshift

include l in
/-- The exchange is undone by the exchange the other way. -/
theorem exchangeCoins_exchangeCoins (hc : c.WellFormed h.hidden.length) :
    exchangeCoins points oracle κ⁻¹ h' h (exchangeCoins points oracle κ h h' c) = c := by
  by_cases hr1 : c.r1 = 0
  · have hkeep : exchangeCoins points oracle κ h h' c = c := by
      rw [exchangeCoins, if_pos hr1]
    rw [hkeep, exchangeCoins, if_pos hr1]
  · obtain ⟨x, heq, hx⟩ := exists_moveCoins points oracle κ h' hr1
    have hmasks := mTilde_length hc hr1
    have hr1' : (moveCoins κ x h h' c).r1 ≠ 0 := mul_ne_zero (inv_ne_zero l.factor_ne) hr1
    have hback := moveCoins_moveCoins l x hmasks
    rw [heq, exchangeCoins, if_neg hr1', challenge_moveCoins l x hr1 hmasks]
    rcases hx with hx | ⟨rfl, k, hx⟩
    · rw [hx]
      exact hback
    · rw [hx]
      exact hback

include l in
/-- The other holder makes the same of the exchanged coins. -/
theorem run_exchangeCoins (hc : c.WellFormed h.hidden.length) :
    h'.run points oracle (exchangeCoins points oracle κ h h' c)
      = h.run points oracle c := by
  by_cases hr1 : c.r1 = 0
  · have hkeep : exchangeCoins points oracle κ h h' c = c := by
      rw [exchangeCoins, if_pos hr1]
    rw [hkeep, Holder.run, Holder.run, if_pos hr1, if_pos hr1]
  · obtain ⟨x, heq, hx⟩ := exists_moveCoins points oracle κ h' hr1
    have hmasks := mTilde_length hc hr1
    have hr1' : (moveCoins κ x h h' c).r1 ≠ 0 := mul_ne_zero (inv_ne_zero l.factor_ne) hr1
    rw [heq, Holder.run, Holder.run, if_neg hr1, if_neg hr1',
      challenge_moveCoins l x hr1 hmasks]
    rcases hx with hx | ⟨rfl, k, hx⟩
    · rw [hx]
      exact congrArg Except.ok (proof_moveCoins l x hmasks)
    · rw [hx]
      rfl

end HolderRuns

/-! ### The prover as a holder -/

section Prover

variable {B : Blstrs S} {revealSet : OrderedMap Unit} {ms : List S.Fr} {ph : Option Bytes}
  {domain : S.Fr} {sig : Signature S} {coins : Coins S.Fr}

/-- The holder behind a run of `new_with_rng`. -/
def holderOf (B : Blstrs S) (sig : Signature S) (domain : S.Fr) (revealSet : OrderedMap Unit)
    (ms : List S.Fr) : Holder S where
  signature := sig
  b := messagesPoint B domain ms
  hidden := hiddenPart revealSet 0 ms

/-- The generators of the hidden messages. -/
def hiddenPoints (B : Blstrs S) (revealSet : OrderedMap Unit) (count : Nat) : List S.G1 :=
  hiddenPart revealSet 0 (Generators.derive B count).hList

/-- The challenge of `new_with_rng` for the points that it hashes. -/
def challengeOracle (B : Blstrs S) (disclosed : OrderedMap S.Fr) (domain : S.Fr)
    (ph : Option Bytes) : S.G1 → S.G1 → S.G1 → Except Error S.Fr :=
  fun aBar bBar commitment => computeChallenge B aBar bBar commitment disclosed domain ph

theorem map_point_hiddenOf {points : List S.G1} :
    ∀ {messages masks : List S.Fr}, points.length = messages.length →
      masks.length = messages.length →
      (hiddenOf points messages masks).map HiddenMessage.point = points := by
  induction points with
  | nil => intros; rfl
  | cons point points ih =>
    intro messages masks hmessages hmasks
    obtain ⟨m, messages, rfl⟩ := List.exists_cons_of_length_eq_add_one hmessages.symm
    obtain ⟨b, masks, rfl⟩ := List.exists_cons_of_length_eq_add_one hmasks
    have hrest := @ih messages masks (by simpa using hmessages) (by simpa using hmasks)
    rw [hiddenOf] at hrest
    simp [hiddenOf, hrest]

theorem map_mask_hiddenOf {β : Type} (f : S.Fr → S.Fr → β) {points : List S.G1} :
    ∀ {messages masks : List S.Fr}, points.length = messages.length →
      (hiddenOf points messages masks).map (fun h => f h.mTilde h.message)
        = List.zipWith f masks messages := by
  induction points with
  | nil =>
    intro messages masks hmessages
    obtain rfl := List.length_eq_zero_iff.mp hmessages.symm
    simp [hiddenOf]
  | cons point points ih =>
    intro messages masks hmessages
    obtain ⟨m, messages, rfl⟩ := List.exists_cons_of_length_eq_add_one hmessages.symm
    cases masks with
    | nil => simp [hiddenOf]
    | cons b masks =>
      have hrest := @ih messages masks (by simpa using hmessages)
      rw [hiddenOf] at hrest
      simp [hiddenOf, hrest]

/-- `new_with_rng` makes of its coins what its holder makes of them. -/
theorem makeProof_eq_run (hkeys : ∀ i ∈ revealSet.keys, i < ms.length)
    (hwf : coins.WellFormed (hiddenPart revealSet 0 ms).length) :
    makeProof B sig domain revealSet ms ph coins
      = (holderOf B sig domain revealSet ms).run (hiddenPoints B revealSet ms.length)
          (challengeOracle B (provenMessages revealSet ms) domain ph) coins := by
  unfold makeProof Holder.run
  rw [ofList_disclosedEntries hkeys]
  by_cases hr1 : coins.r1 = 0
  · rw [rejectIf, if_pos hr1, if_pos hr1]
    rfl
  · have hmasks : coins.mTilde.length = (hiddenPart revealSet 0 ms).length := by
      rwa [Coins.WellFormed, if_neg hr1] at hwf
    have hpoints : (hiddenPart revealSet 0 (Generators.derive B ms.length).hList).length
        = (hiddenPart revealSet 0 ms).length :=
      length_hiddenPart_eq revealSet (by rw [derive_hList_length])
    have hbBar : msm [messagesPoint B domain ms, coins.r1 • sig.a] [coins.r1, -sig.e]
        = (holderOf B sig domain revealSet ms).bBar coins := by
      simp only [msm_cons, msm_nil_left, Holder.bBar, Holder.d, holderOf]
      module
    have hmask : (hiddenOf (hiddenPart revealSet 0 (Generators.derive B ms.length).hList)
        (hiddenPart revealSet 0 ms) coins.mTilde).map HiddenMessage.mTilde = coins.mTilde := by
      rw [map_mask_hiddenOf (fun b _ => b) hpoints]
      rw [← List.map_uncurry_zip_eq_zipWith]
      exact List.map_fst_zip hmasks.le
    rw [rejectIf, if_neg hr1, if_neg hr1, pure_bind]
    dsimp only
    rw [hbBar, map_point_hiddenOf hpoints hmasks, hmask]
    have hrespond : ∀ x, (hiddenOf (hiddenPart revealSet 0 (Generators.derive B ms.length).hList)
        (hiddenPart revealSet 0 ms) coins.mTilde).map (fun h => h.mTilde + x * h.message)
          = respond x coins.mTilde (hiddenPart revealSet 0 ms) := by
      intro x
      rw [map_mask_hiddenOf (fun b m => b + x * m) hpoints, respond]
      simp only [mul_comm]
    simp only [hrespond]
    change _ = Except.map _ (computeChallenge B (coins.r1 • sig.a)
      ((holderOf B sig domain revealSet ms).bBar coins)
      (msm (coins.r1 • sig.a :: (holderOf B sig domain revealSet ms).bBar coins
          :: hiddenPart revealSet 0 (Generators.derive B ms.length).hList)
        (coins.r2Tilde :: coins.zTilde :: coins.mTilde)) _ domain ph)
    generalize computeChallenge B _ _ _ _ domain ph = challenge
    cases challenge with
    | error k => rfl
    | ok x => rfl

end Prover

/-! ### Two signatures under one key -/

section Signatures

variable {B : Blstrs S} {revealSet : OrderedMap Unit} {ms ms' : List S.Fr} {domain : S.Fr}
  {sig sig' : Signature S} {pk : S.G2}

/-- What a holder shows besides its hidden messages depends on the revealed ones only. -/
theorem holderOf_public (B : Blstrs S) (sig : Signature S) (domain : S.Fr)
    (revealSet : OrderedMap Unit) (ms : List S.Fr) :
    (holderOf B sig domain revealSet ms).b
        - msm (hiddenPoints B revealSet ms.length) (holderOf B sig domain revealSet ms).hidden
      = basePoint B + domain • (Generators.derive B ms.length).q
        + msm ((revealedTerms (provenMessages revealSet ms) 0
              (Generators.derive B ms.length).hList).map Prod.fst)
            ((revealedTerms (provenMessages revealSet ms) 0
              (Generators.derive B ms.length).hList).map Prod.snd) := by
  have hhidden {α : Type} (xs : List α) : hiddenPart revealSet 0 xs
      = hiddenPart (provenMessages revealSet ms) 0 xs :=
    hiddenPart_congr (fun _ => mem_keys_provenMessages.symm) xs 0
  have hlen : ms.length = (Generators.derive B ms.length).hList.length := by
    rw [derive_hList_length]
  have hmap : ∀ j m, (provenMessages revealSet ms).get? j = some m → j < ms.length →
      ms[j]? = some m := fun _ _ => getElem?_of_get?_provenMessages
  have hsplit := msm_eq_hidden_add_revealed hlen hmap
  rw [← hhidden, ← hhidden] at hsplit
  rw [holderOf, hiddenPoints, messagesPoint]
  dsimp only
  rw [msm_cons, msm_cons, hsplit, one_smul]
  abel

/-- The key relates the two points of a holder. -/
theorem holderOf_pairing (revealSet : OrderedMap Unit) (h : S.pairing sig.a (pk + sig.e • B.g2Generator)
      + S.pairing (messagesPoint B domain ms) (-B.g2Generator) = 0) :
    S.pairing sig.a pk = S.pairing (holderOf B sig domain revealSet ms).d B.g2Generator := by
  simp only [map_add, map_smul, map_neg, add_assoc] at h
  rw [Holder.d, map_sub, map_smul, LinearMap.sub_apply, LinearMap.smul_apply]
  rw [add_eq_zero_iff_eq_neg] at h
  rw [h]
  simp only [holderOf]
  abel

/-- In a cyclic group two signatures under one key are of linked holders. -/
theorem exists_linked [IsAddCyclic S.G1] (hg2 : B.g2Generator ≠ 0) (ha : sig.a ≠ 0)
    (ha' : sig'.a ≠ 0) (hlen : ms.length = ms'.length)
    (hrevealed : ∀ i ∈ revealSet.keys, ms[i]? = ms'[i]?)
    (h : S.pairing sig.a (pk + sig.e • B.g2Generator)
      + S.pairing (messagesPoint B domain ms) (-B.g2Generator) = 0)
    (h' : S.pairing sig'.a (pk + sig'.e • B.g2Generator)
      + S.pairing (messagesPoint B domain ms') (-B.g2Generator) = 0) :
    ∃ κ, Linked (hiddenPoints B revealSet ms.length) κ (holderOf B sig domain revealSet ms)
      (holderOf B sig' domain revealSet ms') := by
  obtain ⟨κ, hκ⟩ := exists_eq_smul ha sig'.a
  have hpairing := holderOf_pairing revealSet h
  have hpairing' := holderOf_pairing revealSet h'
  have hd : S.pairing ((holderOf B sig' domain revealSet ms').d
      - κ • (holderOf B sig domain revealSet ms).d) B.g2Generator = 0 := by
    rw [map_sub, map_smul, LinearMap.sub_apply, LinearMap.smul_apply, ← hpairing, ← hpairing', hκ,
      map_smul, LinearMap.smul_apply, sub_self]
  refine ⟨κ, ?_, hκ, ?_, ?_, ?_⟩
  · intro hzero
    exact ha' (by rw [hκ, hzero, zero_smul])
  · exact sub_eq_zero.mp ((S.pairing_nondegenerate _ _ hd).resolve_right hg2)
  · have hpublic' := holderOf_public B sig' domain revealSet ms'
    rw [← hlen, ← provenMessages_congr hrevealed] at hpublic'
    rw [hpublic', holderOf_public]
  · exact length_hiddenPart_eq revealSet hlen.symm

end Signatures

end PairingCrypto

/-! ### Presentations -/

section Presentations

variable {B : Blstrs S} {publicKey nonce signature signature' : Bytes}
  {claims claims' : List Bytes} {reveal : List Nat} {pk : S.G2} {sig sig' : Signature S}
  {domain : S.Fr}

theorem getElem?_claimScalars (hclaims : ∀ i ∈ (OrderedMap.ofKeys reveal).keys,
      claims[i]? = claims'[i]?) :
    ∀ i ∈ (OrderedMap.ofKeys reveal).keys,
      (claimScalars B claims)[i]? = (claimScalars B claims')[i]? := by
  intro i hi
  rw [claimScalars, claimScalars, List.getElem?_map, List.getElem?_map, hclaims i hi]

theorem coupled_bbs2023DeriveProof [IsAddCyclic S.G1] (hg2 : B.g2Generator ≠ 0)
    (h : Bbs2023Signed B publicKey [] claims signature pk sig)
    (h' : Bbs2023Signed B publicKey [] claims' signature' pk sig')
    (hcount : claims.length = claims'.length)
    (hclaims : ∀ i ∈ (OrderedMap.ofKeys reveal).keys, claims[i]? = claims'[i]?)
    (hrange : ∀ i ∈ (OrderedMap.ofKeys reveal).keys, i < claims.length) (nonce : Bytes) :
    Rng.Coupled
      (Bbs2023Sha256.deriveProof B claims (publicKey ++ signature) reveal nonce).run
      (Bbs2023Sha256.deriveProof B claims' (publicKey ++ signature') reveal nonce).run := by
  have hms : (claimScalars B claims).length = claims.length := List.length_map _
  have hms' : (claimScalars B claims').length = claims.length := by
    rw [hcount]
    exact List.length_map _
  have hscalars := getElem?_claimScalars (B := B) hclaims
  have hverifies' := h'.verifies
  rw [← hcount] at hverifies'
  obtain ⟨-, -, domain, hdomain, hpairing⟩ := (Signature.verify_eq_ok_true_iff hms).mp h.verifies
  obtain ⟨-, -, domain', hdomain', hpairing'⟩ :=
    (Signature.verify_eq_ok_true_iff hms').mp hverifies'
  obtain rfl : domain = domain' := Except.ok.inj (hdomain.symm.trans hdomain')
  let points := hiddenPoints B (OrderedMap.ofKeys reveal) (claimScalars B claims).length
  let holder := holderOf B sig domain (OrderedMap.ofKeys reveal) (claimScalars B claims)
  let holder' := holderOf B sig' domain (OrderedMap.ofKeys reveal) (claimScalars B claims')
  obtain ⟨κ, l⟩ : ∃ κ, Linked points κ holder holder' := exists_linked hg2
    (Signature.fromOctets_ne_zero h.signature_eq) (Signature.fromOctets_ne_zero h'.signature_eq)
    (hms.trans hms'.symm) hscalars (by rw [messagesPoint, hms]; exact hpairing)
    (by rw [messagesPoint, hms']; exact hpairing')
  -- The two holders ask the same oracle.
  let oracle := challengeOracle B (provenMessages (OrderedMap.ofKeys reveal) (claimScalars B claims))
    domain (opt nonce)
  let n := (hiddenPart (OrderedMap.ofKeys reveal) 0 (claimScalars B claims)).length
  have hn : (hiddenPart (OrderedMap.ofKeys reveal) 0 (claimScalars B claims')).length = n :=
    l.length_eq
  have hmake : ∀ c, c.WellFormed n →
      makeProof B sig domain (OrderedMap.ofKeys reveal) (claimScalars B claims) (opt nonce) c
        = holder.run points oracle c :=
    fun c hc => makeProof_eq_run (by rwa [hms]) hc
  have hmake' : ∀ c, c.WellFormed n →
      makeProof B sig' domain (OrderedMap.ofKeys reveal) (claimScalars B claims') (opt nonce) c
        = holder'.run points oracle c := by
    intro c hc
    rw [makeProof_eq_run (by rwa [hms']) (hn ▸ hc), ← provenMessages_congr hscalars, hms', ← hms]
  have hrun := bbs2023DeriveProof_run nonce h hdomain hrange
  have hrun' := bbs2023DeriveProof_run nonce h' (hcount ▸ hdomain) (hcount ▸ hrange)
  rw [hn] at hrun'
  have hback := l.symm
  let outcome := presentationOf B claims (OrderedMap.ofKeys reveal)
  let outcome' := presentationOf B claims' (OrderedMap.ofKeys reveal)
  have houtcome : outcome' = outcome := by
    funext result
    cases result with
    | error k => rfl
    | ok proof => simp only [outcome, outcome', presentationOf, hcount, provenClaims_congr hclaims]
  refine (Coins.lossless_read n).coupled
    (f := fun c => outcome (makeProof B sig domain _ (claimScalars B claims) (opt nonce) c))
    (g := fun c => outcome' (makeProof B sig' domain _ (claimScalars B claims') (opt nonce) c))
    hrun hrun' (σ := exchangeCoins points oracle κ holder holder')
    (τ := exchangeCoins points oracle κ⁻¹ holder' holder) ?_ ?_ ?_ ?_ ?_ ?_
  · exact fun c hc => wellFormed_exchangeCoins l hc
  · intro c hc
    exact hn ▸ wellFormed_exchangeCoins hback (hn.symm ▸ hc)
  · exact fun c hc => exchangeCoins_exchangeCoins l hc
  · intro c hc
    have hundo : exchangeCoins points oracle κ⁻¹⁻¹ holder holder'
        (exchangeCoins points oracle κ⁻¹ holder' holder c) = c :=
      exchangeCoins_exchangeCoins hback (hn.symm ▸ hc)
    rwa [inv_inv] at hundo
  · exact fun c hc => length_write_exchangeCoins l hc
  · intro c hc
    rw [hmake' _ (wellFormed_exchangeCoins l hc), run_exchangeCoins l hc, ← hmake c hc, houtcome]

end Presentations

end PhiCrypto

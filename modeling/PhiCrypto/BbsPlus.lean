import PhiCrypto.Suite
import PhiCrypto.LinearSigma

/-!
# The BBS+ verifier

The vendored `bbs_plus` and `schnorr_pok` crates, as far as a verifier uses
them: signature parameters, the proof of knowledge of a signature and its
encoding, its contribution to the challenge, and its verification.

`PoKOfSignatureG1Proof.verify` runs in `Exec`, since it allocates by a
difference of two lengths that would underflow for a bad map of revealed
messages. `PoKOfSignatureG1Proof.Accepts` is what it checks, as equations; the
two are tied together by `meets_verify`.
-/

namespace PhiCrypto

open Exec

variable {S : Suite}

/-- The `BBSPlusError`s that the modelled functions return. -/
inductive BBSPlusError where
  | messageCountIncompatibleWithSigParams
  | zeroSignature
  | noMessageToSign
  | invalidSignature
  | firstSchnorrVerificationFailed
  | secondSchnorrVerificationFailed
  | expectedSameSizeSequences
  | indexOutOfBounds
  | missingResponseAtIndex
  | invalidMsgIdxForResponse
  | missingResponsesNeeded
  | needEitherPartialOrCompleteSchnorrResponse
  | pairingCheckFailed
deriving DecidableEq, Repr

/-! ### Signature parameters -/

structure SignatureParamsG1 (S : Suite) where
  g1 : S.G1
  g2 : S.G2
  h0 : S.G1
  h : List S.G1

namespace SignatureParamsG1

def generator (S : Suite) (label : Bytes) (i : Nat) : S.G1 :=
  S.tryAndIncrG1 (label ++ ascii " : h_" ++ leBytes 4 i)

/-- The parameters that a label and a message count determine. -/
def derive (S : Suite) (label : Bytes) (messageCount : Nat) : SignatureParamsG1 S where
  g1 := S.tryAndIncrG1 (label ++ ascii " : g1")
  g2 := S.tryAndIncrG2 (label ++ ascii " : g2")
  h0 := generator S label 0
  h := (List.range messageCount).map fun i => generator S label (i + 1)

def new (S : Suite) (label : Bytes) (messageCount : Nat) : Exec Event (SignatureParamsG1 S) := do
  rustAssert (messageCount != 0)
  pure (derive S label messageCount)

/-- `b`: the message commitment that a signature signs. -/
def b (params : SignatureParamsG1 S) (messages : List S.Fr) (s : S.Fr) : S.G1 :=
  msm (params.h ++ [params.h0]) (messages ++ [s]) + params.g1

end SignatureParamsG1

def paramsOf (S : Suite) (count : Nat) : SignatureParamsG1 S :=
  SignatureParamsG1.derive S paramsLabel count

/-- `params_for`. The cache in front of the derivation returns what was derived. -/
def paramsFor (S : Suite) (count : Nat) : Exec Event (SignatureParamsG1 S) := do
  emit (.paramsFor count)
  SignatureParamsG1.new S paramsLabel count

@[simp] theorem paramsOf_h_length (S : Suite) (count : Nat) :
    (paramsOf S count).h.length = count := by
  simp [paramsOf, SignatureParamsG1.derive]

theorem paramsOf_g2_ne_zero (S : Suite) (count : Nat) : (paramsOf S count).g2 ≠ 0 :=
  S.generatorG2_ne_zero

theorem meets_paramsFor {P : Event → Prop} {count : Nat} (hP : P (.paramsFor count))
    (hcount : count ≠ 0) : (paramsFor S count).Meets P (· = paramsOf S count) := by
  refine (meets_emit (Q := fun _ => True) hP trivial).bind ?_
  rintro ⟨⟩ -
  have hassert : (rustAssert (count != 0) : Exec Event Unit) = pure () := by
    simp [rustAssert, hcount]
  rw [SignatureParamsG1.new, hassert]
  exact meets_pure rfl

/-! ### Proofs of knowledge -/

/-- `PokPedersenCommitment`: knowledge of two discrete logarithms. -/
structure PokPedersenCommitment (S : Suite) where
  t : S.G1
  response1 : S.Fr
  response2 : S.Fr
deriving DecidableEq

def PokPedersenCommitment.verify (p : PokPedersenCommitment S) (y base1 base2 : S.G1)
    (challenge : S.Fr) : Bool :=
  p.response1 • base1 + p.response2 • base2 - challenge • y = p.t

structure PartialSchnorrResponse (S : Suite) where
  responses : OrderedMap S.Fr
  totalResponses : Nat
deriving DecidableEq

structure PoKOfSignatureG1Proof (S : Suite) where
  aPrime : S.G1
  aBar : S.G1
  d : S.G1
  scResp1 : PokPedersenCommitment S
  t2 : S.G1
  scResp2 : Option (List S.Fr)
  scPartialResp2 : Option (PartialSchnorrResponse S)
deriving DecidableEq

structure PokDiscreteLog (S : Suite) where
  t : S.G1
  response : S.Fr
deriving DecidableEq

namespace PokDiscreteLog

def verify (p : PokDiscreteLog S) (y base : S.G1) (challenge : S.Fr) : Bool :=
  p.response • base - challenge • y = p.t

/-- `compute_challenge_contribution` of the discrete-log protocol. -/
def challengeContribution (base y t : S.G1) : Bytes :=
  S.g1Codec.ser base ++ S.g1Codec.ser y ++ S.g1Codec.ser t

theorem challengeContribution_length (base y t : S.G1) :
    (challengeContribution base y t).length = 144 := by
  simp [challengeContribution, S.g1Codec.ser_length]

end PokDiscreteLog

/-! ### The second Schnorr relation -/

/-- The entries of a list whose index is not revealed, in order, when the first
    entry has index `i`. -/
def hiddenPart {V α : Type} (revealed : OrderedMap V) : Nat → List α → List α
  | _, [] => []
  | i, x :: xs =>
    if revealed.contains i then hiddenPart revealed (i + 1) xs
    else x :: hiddenPart revealed (i + 1) xs

/-- The generators of the revealed messages with these messages, starting at
    index `i`. -/
def revealedTerms (revealed : OrderedMap S.Fr) : Nat → List S.G1 → List (S.G1 × S.Fr)
  | _, [] => []
  | i, base :: h =>
    match revealed.get? i with
    | some m => (base, m) :: revealedTerms revealed (i + 1) h
    | none => revealedTerms revealed (i + 1) h

def revealedSum (revealed : OrderedMap S.Fr) (h : List S.G1) : S.G1 :=
  let terms := revealedTerms revealed 0 h
  msm (terms.map Prod.fst) (terms.map Prod.snd)

/-- The public side `pr` of the second relation. -/
def publicPart (revealed : OrderedMap S.Fr) (params : SignatureParamsG1 S) : S.G1 :=
  -(revealedSum revealed params.h) - params.g1

namespace PoKOfSignatureG1Proof

def bases2 (p : PoKOfSignatureG1Proof S) (revealed : OrderedMap S.Fr)
    (params : SignatureParamsG1 S) : List S.G1 :=
  hiddenPart revealed 0 params.h ++ [p.d, params.h0]

/-- `SchnorrResponse::is_valid`, with its errors as the caller reports them. -/
def isValidResponse (resp : List S.Fr) (bases : List S.G1) (y t : S.G1) (challenge : S.Fr) :
    Except BBSPlusError Unit := do
  rejectIf (resp.length ≠ bases.length) BBSPlusError.expectedSameSizeSequences
  rejectIf (msm bases resp + (-challenge) • y ≠ t) BBSPlusError.secondSchnorrVerificationFailed

/-- `verify_schnorr_proofs`, without missing responses (as `verify` calls it). -/
def verifySchnorrProofs (p : PoKOfSignatureG1Proof S) (revealed : OrderedMap S.Fr)
    (challenge : S.Fr) (params : SignatureParamsG1 S) : ExceptT BBSPlusError (Exec Event) Unit := do
  let aBarMinusD := p.aBar - p.d
  rejectIf (p.scResp1.verify aBarMinusD p.aPrime params.h0 challenge = false)
    BBSPlusError.firstSchnorrVerificationFailed
  let n ← (usizeSub (2 + params.h.length) revealed.length : Exec Event Nat)
  withCapacity .schnorrBases n
  withCapacity .revealedTerms revealed.length
  withCapacity .revealedTerms revealed.length
  match p.scResp2 with
  | some resp =>
    ExceptT.mk (pure (isValidResponse resp (p.bases2 revealed params)
      (publicPart revealed params) p.t2 challenge))
  | none =>
    match p.scPartialResp2 with
    | some _ => throw BBSPlusError.missingResponsesNeeded
    | none => throw BBSPlusError.needEitherPartialOrCompleteSchnorrResponse

def verify (p : PoKOfSignatureG1Proof S) (revealed : OrderedMap S.Fr) (challenge : S.Fr)
    (pk : S.G2) (params : SignatureParamsG1 S) : ExceptT BBSPlusError (Exec Event) Unit := do
  Exec.emit (Event.bbsPlusVerify revealed.keys params.h.length)
  rejectIf (p.aPrime = 0) BBSPlusError.zeroSignature
  verifySchnorrProofs p revealed challenge params
  rejectIf (S.pair p.aPrime pk + S.pair (-p.aBar) params.g2 ≠ 0)
    BBSPlusError.pairingCheckFailed

structure Accepts (p : PoKOfSignatureG1Proof S) (revealed : OrderedMap S.Fr) (challenge : S.Fr)
    (pk : S.G2) (params : SignatureParamsG1 S) : Prop where
  aPrime_ne_zero : p.aPrime ≠ 0
  first : p.scResp1.response1 • p.aPrime + p.scResp1.response2 • params.h0
    - challenge • (p.aBar - p.d) = p.scResp1.t
  second : ∃ resp, p.scResp2 = some resp ∧ resp.length = (p.bases2 revealed params).length ∧
    msm (p.bases2 revealed params) resp + (-challenge) • publicPart revealed params = p.t2
  pairing : S.pairing p.aPrime pk + S.pairing (-p.aBar) params.g2 = 0

end PoKOfSignatureG1Proof

namespace PoKOfSignatureG1Proof

variable {p : PoKOfSignatureG1Proof S} {revealed : OrderedMap S.Fr} {challenge : S.Fr}
  {pk : S.G2} {params : SignatureParamsG1 S} {P : Event → Prop}

theorem isValidResponse_eq_ok_iff {resp : List S.Fr} {bases : List S.G1} {y t : S.G1} :
    isValidResponse resp bases y t challenge = .ok () ↔
      resp.length = bases.length ∧ msm bases resp + (-challenge) • y = t := by
  unfold isValidResponse
  by_cases hlen : resp.length = bases.length
  · simp only [rejectIf, hlen, ne_eq, not_true_eq_false, if_false, true_and]
    exact rejectIf_eq_ok_iff.trans not_not
  · refine iff_of_false ?_ (fun h => hlen h.1)
    simp [rejectIf, hlen, throw, throwThe, MonadExceptOf.throw, bind, Except.bind]

/-- The second relation, as `verify_schnorr_proofs` decides it. -/
def SecondRelation (p : PoKOfSignatureG1Proof S) (revealed : OrderedMap S.Fr) (challenge : S.Fr)
    (params : SignatureParamsG1 S) : Prop :=
  ∃ resp, p.scResp2 = some resp ∧ resp.length = (p.bases2 revealed params).length ∧
    msm (p.bases2 revealed params) resp + (-challenge) • publicPart revealed params = p.t2

theorem meets_verifySchnorrProofs (hkeys : ∀ k ∈ revealed.keys, k < params.h.length)
    (hbases : P (.capacity .schnorrBases (2 + params.h.length - revealed.length)))
    (hterms : P (.capacity .revealedTerms revealed.length)) :
    MeetsResult P
      (fun res => res = .ok () ↔
        p.scResp1.verify (p.aBar - p.d) p.aPrime params.h0 challenge = true ∧
          p.SecondRelation revealed challenge params)
      (p.verifySchnorrProofs revealed challenge params) := by
  have hle : revealed.length ≤ params.h.length := OrderedMap.length_le_of_keys_lt hkeys
  refine MeetsResult.rejectIf_bind ?_ ?_
  · intro hbad
    simp [hbad]
  · intro hfirst
    have hfirst : p.scResp1.verify (p.aBar - p.d) p.aPrime params.h0 challenge = true := by
      simpa using hfirst
    apply MeetsResult.lift_bind (meets_usizeSub (by omega))
    rintro n rfl
    apply MeetsResult.emit_bind hbases
    apply MeetsResult.emit_bind hterms
    apply MeetsResult.emit_bind hterms
    cases hresp : p.scResp2 with
    | some resp =>
      apply meetsResult_ofExcept
      simp only [hfirst, true_and, SecondRelation, hresp, Option.some.injEq, exists_eq_left']
      exact isValidResponse_eq_ok_iff
    | none =>
      cases p.scPartialResp2 with
      | some part => exact meetsResult_throw (by simp [SecondRelation, hresp])
      | none => exact meetsResult_throw (by simp [SecondRelation, hresp])

/-- `verify` does not panic on a map whose keys are message indices, and accepts
    exactly when the equations hold. -/
theorem meets_verify (challenge : S.Fr) (pk : S.G2)
    (hkeys : ∀ k ∈ revealed.keys, k < params.h.length)
    (hcall : P (.bbsPlusVerify revealed.keys params.h.length))
    (hbases : P (.capacity .schnorrBases (2 + params.h.length - revealed.length)))
    (hterms : P (.capacity .revealedTerms revealed.length)) :
    MeetsResult P (fun res => res = .ok () ↔ p.Accepts revealed challenge pk params)
      (p.verify revealed challenge pk params) := by
  apply MeetsResult.emit_bind hcall
  refine MeetsResult.rejectIf_bind ?_ ?_
  · intro hzero
    exact iff_of_false (by simp) (fun h => h.aPrime_ne_zero hzero)
  intro hne
  refine MeetsResult.bind (meets_verifySchnorrProofs hkeys hbases hterms) ?_ ?_
  · rintro ⟨⟩ hschnorr
    obtain ⟨hfirst, hsecond⟩ := hschnorr.mp rfl
    refine meetsResult_rejectIf ?_ ?_
    · intro hpairing
      exact iff_of_false (by simp) (fun h => hpairing h.pairing)
    · intro hpairing
      exact iff_of_true rfl ⟨hne, by simpa [PokPedersenCommitment.verify] using hfirst, hsecond,
        not_not.mp hpairing⟩
  · intro k hk
    refine iff_of_false (by simp) (fun h => ?_)
    cases hk.mpr ⟨by simpa [PokPedersenCommitment.verify] using h.first, h.second⟩

end PoKOfSignatureG1Proof

/-! ### The events of a call within the claim ceiling -/

section SafeCall

variable {revealed : OrderedMap S.Fr} {params : SignatureParamsG1 S} {held : Nat}

theorem Event.safe_bbsPlusVerify (hkeys : ∀ k ∈ revealed.keys, k < params.h.length) :
    Event.Safe held (.bbsPlusVerify revealed.keys params.h.length) :=
  ⟨OrderedMap.keys_nodup _, hkeys⟩

theorem Event.safe_schnorrBases (held : Nat) (hcount : params.h.length ≤ 64) :
    Event.Safe held (.capacity .schnorrBases (2 + params.h.length - revealed.length)) := by
  simp only [Event.Safe, maxBbsMessages]
  omega

theorem Event.safe_revealedTerms (held : Nat) (hkeys : ∀ k ∈ revealed.keys, k < params.h.length)
    (hcount : params.h.length ≤ 64) :
    Event.Safe held (.capacity .revealedTerms revealed.length) :=
  (OrderedMap.length_le_of_keys_lt hkeys).trans hcount

end SafeCall

/-! ### The contribution to the challenge -/

/-- The generators with the revealed messages behind them, starting at index `i`. -/
def generatorBytes (revealed : OrderedMap S.Fr) : Nat → List S.G1 → Bytes
  | _, [] => []
  | i, base :: h =>
    S.g1Codec.ser base ++ ((revealed.get? i).map S.serFr).getD []
      ++ generatorBytes revealed (i + 1) h

/-- `compute_challenge_contribution`. The writer is a `Vec`, so it does not fail. -/
def challengeContribution (aPrime aBar d t1 t2 : S.G1) (revealed : OrderedMap S.Fr)
    (params : SignatureParamsG1 S) : Bytes :=
  S.g1Codec.ser aPrime ++ S.g1Codec.ser aBar ++ S.g1Codec.ser d ++ S.g1Codec.ser params.h0
    ++ S.g1Codec.ser params.g1 ++ S.g1Codec.ser t1 ++ S.g1Codec.ser t2
    ++ generatorBytes revealed 0 params.h

theorem generatorBytes_length_le (revealed : OrderedMap S.Fr) (i : Nat) (h : List S.G1) :
    (generatorBytes revealed i h).length ≤ h.length * 80 := by
  induction h generalizing i with
  | nil => simp [generatorBytes]
  | cons base h ih =>
    have htail := ih (i + 1)
    have hmsg : (((revealed.get? i).map S.serFr).getD []).length ≤ 32 := by
      cases revealed.get? i <;> simp
    simp only [generatorBytes, List.length_append, S.g1Codec.ser_length, List.length_cons]
    omega

theorem challengeContribution_length_le (aPrime aBar d t1 t2 : S.G1)
    (revealed : OrderedMap S.Fr) (params : SignatureParamsG1 S) (hcount : params.h.length ≤ 64) :
    (challengeContribution aPrime aBar d t1 t2 revealed params).length ≤ 5456 := by
  have hgen := generatorBytes_length_le revealed 0 params.h
  simp only [challengeContribution, List.length_append, S.g1Codec.ser_length]
  omega

/-- Over one set of revealed indices, the contribution determines the messages. -/
theorem generatorBytes_injective {revealed revealed' : OrderedMap S.Fr}
    (hkeys : ∀ k, k ∈ revealed.keys ↔ k ∈ revealed'.keys) {h : List S.G1} :
    ∀ {i : Nat}, generatorBytes revealed i h = generatorBytes revealed' i h →
      ∀ k, i ≤ k → k < i + h.length → revealed.get? k = revealed'.get? k := by
  induction h with
  | nil =>
    intro i _ k hik hlt
    simp at hlt
    omega
  | cons base h ih =>
    intro i heq k hik hlt
    have hboth : (revealed.get? i).isSome = (revealed'.get? i).isSome := by
      rw [Bool.eq_iff_iff, ← OrderedMap.mem_keys_iff, ← OrderedMap.mem_keys_iff]
      exact hkeys i
    simp only [generatorBytes, List.append_assoc] at heq
    have htail := List.append_cancel_left heq
    -- the message field has the same width on both sides, absent or present
    have hwidth : (((revealed.get? i).map S.serFr).getD []).length
        = (((revealed'.get? i).map S.serFr).getD []).length := by
      cases hm : revealed.get? i <;> cases hm' : revealed'.get? i <;> simp [hm, hm'] at hboth ⊢
    obtain ⟨hmsg, hrest⟩ := append_split hwidth htail
    rcases Nat.eq_or_lt_of_le hik with rfl | hik
    · cases hm : revealed.get? i <;> cases hm' : revealed'.get? i <;>
        simp only [hm, hm', Option.isSome_some, Option.isSome_none, Bool.false_eq_true,
          Bool.true_eq_false, Option.map_some, Option.getD_some] at hboth hmsg ⊢
      rw [S.serFr_injective hmsg]
    · exact ih hrest k hik (by simp only [List.length_cons] at hlt; omega)

theorem challengeContribution_injective {aPrime aBar d t1 t2 : S.G1}
    {revealed revealed' : OrderedMap S.Fr} {params : SignatureParamsG1 S}
    (hkeys : ∀ k, k ∈ revealed.keys ↔ k ∈ revealed'.keys)
    (h : challengeContribution aPrime aBar d t1 t2 revealed params
      = challengeContribution aPrime aBar d t1 t2 revealed' params)
    (k : Nat) (hk : k < params.h.length) : revealed.get? k = revealed'.get? k :=
  generatorBytes_injective hkeys (List.append_cancel_left h) k (Nat.zero_le k) (by omega)

/-! ### The response for one message -/

/-- `msg_index_to_schnorr_response_index`: revealed messages have no response, so
    the position moves down by one for each revealed index before it. -/
def msgIndexToSchnorrResponseIndex (msgIdx : Nat) (revealedIds : OrderedMap Unit) :
    Exec Event (Option Nat) :=
  if revealedIds.contains msgIdx then pure none
  else do
    let adjusted ← revealedIds.keys.foldlM
      (fun adjusted i => if i < msgIdx then usizeSub adjusted 1 else pure adjusted) msgIdx
    pure (some adjusted)

/-- `SchnorrResponse::get_response` on a full response, `PartialSchnorrResponse`'s
    otherwise. -/
def PoKOfSignatureG1Proof.getResponse (p : PoKOfSignatureG1Proof S) (idx : Nat) :
    Except BBSPlusError S.Fr :=
  match p.scResp2 with
  | some resp =>
    match resp[idx]? with
    | some z => .ok z
    | none => .error .indexOutOfBounds
  | none =>
    match p.scPartialResp2 with
    | some part =>
      match part.responses.get? idx with
      | some z => .ok z
      | none => .error .missingResponseAtIndex
    | none => .error .needEitherPartialOrCompleteSchnorrResponse

def PoKOfSignatureG1Proof.getRespForMessage (p : PoKOfSignatureG1Proof S) (msgIdx : Nat)
    (revealedIds : OrderedMap Unit) : ExceptT BBSPlusError (Exec Event) S.Fr := do
  match ← msgIndexToSchnorrResponseIndex msgIdx revealedIds with
  | none => throw BBSPlusError.invalidMsgIdxForResponse
  | some adjusted => ExceptT.mk (pure (p.getResponse adjusted))

/-- No index lies before index 0: the voter secret keeps its position. -/
theorem msgIndexToSchnorrResponseIndex_zero {revealedIds : OrderedMap Unit}
    (hzero : 0 ∉ revealedIds.keys) :
    msgIndexToSchnorrResponseIndex 0 revealedIds = pure (some 0) := by
  have hcontains : revealedIds.contains 0 = false := by
    rw [Bool.eq_false_iff, ne_eq, OrderedMap.contains_iff]
    exact hzero
  have hfold : ∀ l : List Nat, l.foldlM (m := Exec Event)
      (fun adjusted i => if i < 0 then usizeSub adjusted 1 else pure adjusted) 0 = pure 0 := by
    intro l
    simp
  rw [msgIndexToSchnorrResponseIndex, hcontains, if_neg (by simp), hfold, pure_bind]

end PhiCrypto

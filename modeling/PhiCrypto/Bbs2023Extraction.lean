import PhiCrypto.Bbs2023Binding

/-!
# Two answers of a `bbs-2023` prover give its signature

A prover that answers two challenges for one commitment knows a signature: the
difference of the answers, divided by the difference of the challenges, is a list of
messages and a pair `(A, e)` that `Signature::verify` accepts. The second answer may be
for another presentation header, or for a hash that was reprogrammed at one input
(`Blstrs.reprogram`), which is how a prover is rewound.
-/

namespace PhiCrypto

open Exec

variable {S : Suite}

/-! ### Another digest at one hash input -/

/-- The backend with the digest of `octets` replaced, under the tag of `hash_to_scalar`. -/
def Blstrs.reprogram (B : Blstrs S) (octets digest : Bytes) : Blstrs S :=
  { B with
    expandMessage := fun msg dst n =>
      if msg = octets ∧ dst = PairingCrypto.defaultHashToScalarDst then digest
      else B.expandMessage msg dst n }

namespace PairingCrypto

variable {B : Blstrs S} {octets digest : Bytes}

section Reprogram

theorem expandMessage_reprogram {dst : Bytes} (hdst : dst ≠ defaultHashToScalarDst) (msg : Bytes)
    (n : Nat) :
    (B.reprogram octets digest).expandMessage msg dst n = B.expandMessage msg dst n := by
  exact if_neg fun h => hdst h.2

theorem generatorsFrom_reprogram (count n : Nat) (v : Bytes) :
    generatorsFrom (B.reprogram octets digest) count n v = generatorsFrom B count n v := by
  have hdst : generatorSeedDst ≠ defaultHashToScalarDst := by decide +kernel
  induction count generalizing n v with
  | zero => rfl
  | succ count ih =>
    simp only [generatorsFrom, expandMessage_reprogram hdst, ih]
    rfl

theorem seededGenerators_reprogram (seed : Bytes) (count : Nat) :
    seededGenerators (B.reprogram octets digest) seed count = seededGenerators B seed count := by
  have hdst : generatorSeedDst ≠ defaultHashToScalarDst := by decide +kernel
  rw [seededGenerators, seededGenerators, expandMessage_reprogram hdst, generatorsFrom_reprogram]

theorem basePoint_reprogram : basePoint (B.reprogram octets digest) = basePoint B := by
  rw [basePoint, basePoint, seededGenerators_reprogram]

theorem derive_reprogram (total : Nat) :
    Generators.derive (B.reprogram octets digest) total = Generators.derive B total := by
  simp only [Generators.derive, seededGenerators_reprogram]

theorem disclosedOf_reprogram (messages : List (Nat × Bytes)) :
    disclosedOf (B.reprogram octets digest) messages = disclosedOf B messages := by
  have hdst : defaultMapMessageToScalarAsHashDst ≠ defaultHashToScalarDst := by decide +kernel
  simp only [disclosedOf, messageScalar, expandMessage_reprogram hdst]

theorem domainOctets_reprogram (pk : S.G2) (header : Bytes) (total : Nat) :
    domainOctets (B.reprogram octets digest) pk header total = domainOctets B pk header total := by
  simp only [domainOctets, derive_reprogram]
  rfl

theorem octetsScalar_reprogram {b : Bytes} (hb : b ≠ octets) :
    octetsScalar (B.reprogram octets digest) b = octetsScalar B b := by
  have hne : ¬ (b = octets ∧ defaultHashToScalarDst = defaultHashToScalarDst) := fun h => hb h.1
  rw [octetsScalar, octetsScalar, Blstrs.reprogram]
  exact congrArg (fun bytes => (beNat bytes : ZMod S.r)) (if_neg hne)

end Reprogram

/-! ### The statement behind a proof -/

/-- The point of the public part: the base point, the domain and the disclosed messages. -/
def disclosedPoint (B : Blstrs S) (disclosed : OrderedMap S.Fr) (total : Nat) (domain : S.Fr) :
    S.G1 :=
  let generators := Generators.derive B total
  let terms := revealedTerms disclosed 0 generators.hList
  msm (basePoint B :: generators.q :: terms.map Prod.fst) (1 :: domain :: terms.map Prod.snd)

/-- The bases of the prover's answers. -/
def Proof.bases (B : Blstrs S) (p : Proof S) (disclosed : OrderedMap S.Fr) (total : Nat) :
    List S.G1 :=
  p.aBar :: p.bBar :: hiddenPart disclosed 0 (Generators.derive B total).hList

def Proof.answers (p : Proof S) : List S.Fr := p.r2Hat :: p.zHat :: p.mHatList

theorem Proof.commitment_eq_msm (p : Proof S) (disclosed : OrderedMap S.Fr) (total : Nat)
    (domain : S.Fr) :
    p.commitment B disclosed total domain = msm (p.bases B disclosed total) p.answers
      + (-p.c) • -disclosedPoint B disclosed total domain := by
  rw [Proof.commitment, Proof.bases, Proof.answers, disclosedPoint, msm_cons, neg_smul_neg,
    add_comm]

/-! ### What two answers determine -/

/-- The messages of the credential: the disclosed ones, and an extracted scalar for each
    hidden one. -/
def extractMessages (disclosed : OrderedMap S.Fr) (total : Nat) (p p' : Proof S) : List S.Fr :=
  fillMessages disclosed 0 total (extract p.c p'.c p.mHatList p'.mHatList)

def extractSignature (p p' : Proof S) : Signature S where
  a := -((p.zHat - p'.zHat) / (p.c - p'.c)) • p.aBar
  e := (p.r2Hat - p'.r2Hat) / (p.zHat - p'.zHat)

/-- A multiple of the messages' point by the secret key, when the answers for `B_bar` agree. -/
def extractMultiple (p p' : Proof S) : S.G1 :=
  -((p.r2Hat - p'.r2Hat) / (p.c - p'.c)) • p.bBar

/-- Two proofs that answer different challenges for one commitment. -/
structure Fork (B : Blstrs S) (disclosed : OrderedMap S.Fr) (total : Nat) (domain : S.Fr)
    (p p' : Proof S) : Prop where
  aBar_eq : p.aBar = p'.aBar
  bBar_eq : p.bBar = p'.bBar
  responses : p.mHatList.length = (hiddenPart disclosed 0 (Generators.derive B total).hList).length
  responses' :
    p'.mHatList.length = (hiddenPart disclosed 0 (Generators.derive B total).hList).length
  commitment_eq : p.commitment B disclosed total domain = p'.commitment B disclosed total domain
  c_ne : p.c ≠ p'.c

namespace Fork

variable {disclosed : OrderedMap S.Fr} {total : Nat} {domain : S.Fr} {p p' : Proof S}
  (f : Fork B disclosed total domain p p')

include f in
theorem extracted_answers : msm (p.bases B disclosed total)
    (extract p.c p'.c p.answers p'.answers) = -disclosedPoint B disclosed total domain := by
  have hbases : p'.bases B disclosed total = p.bases B disclosed total := by
    rw [Proof.bases, Proof.bases, f.aBar_eq, f.bBar_eq]
  have hlen : p.answers.length = p'.answers.length := by
    simp [Proof.answers, f.responses, f.responses']
  have hsecond := Proof.commitment_eq_msm (B := B) p' disclosed total domain
  rw [← f.commitment_eq, hbases] at hsecond
  exact msm_extract f.c_ne hlen (Proof.commitment_eq_msm p disclosed total domain).symm hsecond.symm

include f in
/-- The point of the extracted messages lies in the span of `A_bar` and `B_bar`. -/
theorem messages_point : msm
    (basePoint B :: (Generators.derive B total).q :: (Generators.derive B total).hList)
    (1 :: domain :: extractMessages disclosed total p p')
      = -((p.r2Hat - p'.r2Hat) / (p.c - p'.c)) • p.aBar
        + -((p.zHat - p'.zHat) / (p.c - p'.c)) • p.bBar := by
  have hanswers := f.extracted_answers
  have hcons : extract p.c p'.c p.answers p'.answers
      = (p.r2Hat - p'.r2Hat) / (p.c - p'.c) :: (p.zHat - p'.zHat) / (p.c - p'.c)
        :: extract p.c p'.c p.mHatList p'.mHatList := rfl
  have hhidden : (extract p.c p'.c p.mHatList p'.mHatList).length
      = (hiddenPart disclosed 0 (Generators.derive B total).hList).length := by
    rw [extract_length (f.responses.trans f.responses'.symm), f.responses]
  have hfill := msm_fillMessages disclosed (Generators.derive B total).hList 0 hhidden
  rw [derive_hList_length] at hfill
  rw [hcons, Proof.bases, msm_cons, msm_cons, disclosedPoint, msm_cons, msm_cons] at hanswers
  rw [msm_cons, msm_cons, extractMessages, hfill]
  -- The hidden terms are what `extracted_answers` leaves beside the two points.
  have hsolve := eq_sub_of_add_eq' hanswers
  rw [← eq_sub_iff_add_eq'] at hsolve
  rw [hsolve]
  module

variable {pk : S.G2}

include f in
/-- With different answers for `B_bar` the extracted pair meets the equation of a signature. -/
theorem signature_pairing (hz : p.zHat ≠ p'.zHat)
    (hpairing : S.pairing p.aBar pk + S.pairing p.bBar (-B.g2Generator) = 0) :
    S.pairing (extractSignature p p').a (pk + (extractSignature p p').e • B.g2Generator)
      + S.pairing (msm
          (basePoint B :: (Generators.derive B total).q :: (Generators.derive B total).hList)
          (1 :: domain :: extractMessages disclosed total p p')) (-B.g2Generator) = 0 := by
  have hc : p.c - p'.c ≠ 0 := sub_ne_zero.mpr f.c_ne
  have hz : p.zHat - p'.zHat ≠ 0 := sub_ne_zero.mpr hz
  have hkey : S.pairing p.aBar pk = S.pairing p.bBar B.g2Generator := by
    rw [map_neg] at hpairing
    exact add_neg_eq_zero.mp hpairing
  have hscalar : (p.zHat - p'.zHat) / (p.c - p'.c) * ((p.r2Hat - p'.r2Hat) / (p.zHat - p'.zHat))
      = (p.r2Hat - p'.r2Hat) / (p.c - p'.c) := by
    field_simp
  rw [f.messages_point, extractSignature]
  simp only [map_add, map_smul, map_neg, LinearMap.add_apply, LinearMap.smul_apply, neg_smul,
    LinearMap.neg_apply, hkey, ← hscalar]
  module

include f in
theorem point_pairing (hz : p.zHat = p'.zHat)
    (hpairing : S.pairing p.aBar pk + S.pairing p.bBar (-B.g2Generator) = 0) :
    S.pairing (msm
        (basePoint B :: (Generators.derive B total).q :: (Generators.derive B total).hList)
        (1 :: domain :: extractMessages disclosed total p p')) pk
      = S.pairing (extractMultiple p p') B.g2Generator := by
  have hkey : S.pairing p.aBar pk = S.pairing p.bBar B.g2Generator := by
    rw [map_neg] at hpairing
    exact add_neg_eq_zero.mp hpairing
  rw [f.messages_point, extractMultiple, hz, sub_self, zero_div, neg_zero, zero_smul, add_zero]
  simp only [map_smul, LinearMap.smul_apply, hkey]

end Fork

theorem computeB_eq_ok_iff {domain : S.Fr} {ms : List S.Fr} {total : Nat} {b : S.G1} :
    computeB B domain ms (Generators.derive B total) = .ok b ↔ ms.length = total ∧ b = msm
      (basePoint B :: (Generators.derive B total).q :: (Generators.derive B total).hList)
      (1 :: domain :: ms) := by
  rw [computeB, rejectIf_bind_eq_ok_iff, derive_hList_length, not_not]
  apply and_congr_right
  intro _
  constructor
  · intro h
    cases h
    rfl
  · rintro rfl
    rfl

/-- A signature that meets its equation is accepted. -/
theorem Signature.verify_eq_ok_true_iff {signature : Signature S} {pk : S.G2}
    {header : Option Bytes} {ms : List S.Fr} {total : Nat} (hlen : ms.length = total) :
    signature.verify B pk header (Generators.derive B total) ms = .ok true ↔
      ¬ (header = none ∧ ms = []) ∧ pk ≠ 0 ∧ ∃ domain,
        computeDomain B pk header total (Generators.derive B total) = .ok domain ∧
        S.pairing signature.a (pk + signature.e • B.g2Generator)
          + S.pairing (msm
              (basePoint B :: (Generators.derive B total).q :: (Generators.derive B total).hList)
              (1 :: domain :: ms)) (-B.g2Generator) = 0 := by
  subst hlen
  rw [Signature.verify, rejectIf_bind_eq_ok_iff, rejectIf_bind_eq_ok_iff, rejectIf_bind_eq_ok_iff,
    derive_hList_length, not_not, eq_self_iff_true, true_and]
  simp only [except_bind_eq_ok_iff, computeB_eq_ok_iff]
  constructor
  · rintro ⟨hne, hpk, domain, hdomain, b, ⟨-, rfl⟩, hpairing⟩
    exact ⟨hne, hpk, domain, hdomain, of_decide_eq_true (Except.ok.inj hpairing)⟩
  · rintro ⟨hne, hpk, domain, hdomain, hpairing⟩
    refine ⟨hne, hpk, domain, hdomain, _, ⟨trivial, rfl⟩, ?_⟩
    exact congrArg Except.ok (decide_eq_true hpairing)

end PairingCrypto

/-! ### Accepted presentations -/

section Presentations

open PairingCrypto

variable {B : Blstrs S}

/-- The number of responses of an accepted proof. -/
theorem Bbs2023Context.Accepted.responses {ctx : Bbs2023Context} {p : Proof S}
    (h : ctx.Accepted B p) : p.mHatList.length
      = (hiddenPart (ctx.disclosed B) 0 (Generators.derive B (ctx.total p)).hList).length := by
  have hkeys : ∀ k ∈ (ctx.disclosed B).keys,
      k < (Generators.derive B (ctx.total p)).hList.length := by
    intro k hk
    rw [derive_hList_length]
    exact h.in_range k hk
  have hsplit := length_hiddenPart_add hkeys
  have htotal : ctx.total p = p.mHatList.length + ctx.revealed.length := rfl
  rw [derive_hList_length, h.length_disclosed] at hsplit
  omega

variable {ctx ctx' : Bbs2023Context} {p p' : Proof S} {octets digest : Bytes}

/-- A second run on the reprogrammed hash is about the same statement when it hashes the same
    octets up to the presentation header. -/
theorem fork_of_accepted (hB : B.Canonical) (hacc : ctx.Accepted B p)
    (hacc' : ctx'.Accepted (B.reprogram octets digest) p')
    (hfresh : ctx'.domainOctets B p' ≠ octets)
    (hdomain : NoCollision (octetsScalar B) (ctx.domainOctets B p) (ctx'.domainOctets B p'))
    (hhead : ctx.challengeHead B p = ctx'.challengeHead (B.reprogram octets digest) p')
    (hc : p.c ≠ p'.c) : Fork B (ctx.disclosed B) (ctx.total p) (ctx.domain B p) p p' := by
  have hdisclosed' : ctx'.disclosed (B.reprogram octets digest) = ctx'.disclosed B :=
    disclosedOf_reprogram ctx'.revealed
  have hdomain' : ctx'.domain (B.reprogram octets digest) p' = ctx'.domain B p' := by
    rw [Bbs2023Context.domain, Bbs2023Context.domainOctets, domainOctets_reprogram]
    exact octetsScalar_reprogram hfresh
  have hcommitment' : ctx'.commitment (B.reprogram octets digest) p' = ctx'.commitment B p' := by
    rw [Bbs2023Context.commitment, hdisclosed', hdomain']
    simp only [Bbs2023Context.commitment, Proof.commitment, derive_reprogram, basePoint_reprogram]
  obtain ⟨⟨haBar, hbBar, hcommitment, hdisclosed, hscalar⟩, -⟩ := challengeHead_append_split hB hacc.length_disclosed_lt hacc'.length_disclosed_lt hacc.keys_lt
    hacc'.keys_lt (congrArg (· ++ []) hhead)
  rw [hdomain'] at hscalar
  rw [hcommitment'] at hcommitment
  rw [hdisclosed'] at hdisclosed
  obtain ⟨-, htotal, -⟩ :=
    domainOctets_injective hB hacc.total_lt hacc'.total_lt (hdomain hscalar)
  have hresponses' := hacc'.responses
  rw [hdisclosed', derive_reprogram, ← hdisclosed, ← htotal] at hresponses'
  refine ⟨haBar, hbBar, hacc.responses, hresponses', ?_, hc⟩
  rw [Bbs2023Context.commitment, Bbs2023Context.commitment, ← hdisclosed, ← hscalar,
    ← htotal] at hcommitment
  exact hcommitment

theorem getElem?_extractMessages (hacc : ctx.Accepted B p) {e : Nat × Bytes}
    (he : e ∈ ctx.revealed) :
    (extractMessages (ctx.disclosed B) (ctx.total p) p p')[e.1]?
      = some (messageScalar B e.2) := by
  have hnodup : ((ctx.revealed.map fun e => (e.1, messageScalar B e.2)).map Prod.fst).Nodup := by
    rw [List.map_map]
    exact hacc.distinct
  have hget : (ctx.disclosed B).get? e.1 = some (messageScalar B e.2) :=
    OrderedMap.get?_ofList_of_mem hnodup (List.mem_map.mpr ⟨e, he, rfl⟩)
  have hkey : e.1 ∈ (ctx.disclosed B).keys :=
    OrderedMap.mem_keys_iff.mpr (by rw [hget]; rfl)
  apply getElem?_fillMessages _ (hacc.in_range _ hkey)
  rwa [Nat.zero_add]

/-- Two proofs of one credential on the claims `[4]` and `[3]`, made with the same draws for
    two presentation headers. -/
def reusedFirst : Proof smallSuite where
  aBar := SmallSuite.elem 5
  bBar := SmallSuite.elem 6
  r2Hat := SmallSuite.elem 5
  zHat := SmallSuite.elem 4
  mHatList := [SmallSuite.elem 3]
  c := SmallSuite.elem 4

@[inherit_doc reusedFirst]
def reusedSecond : Proof smallSuite where
  aBar := SmallSuite.elem 5
  bBar := SmallSuite.elem 6
  r2Hat := SmallSuite.elem 1
  zHat := SmallSuite.elem 3
  mHatList := [SmallSuite.elem 5]
  c := SmallSuite.elem 5

def reusedContext (presentationHeader : Bytes) : Bbs2023Context where
  publicKey := smallBbs2023Key
  header := []
  presentationHeader := presentationHeader
  revealed := [(0, [4])]

end Presentations

end PhiCrypto

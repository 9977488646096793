import PhiCrypto.Bbs2023

/-!
# Presentations of the second suite are accepted

The `pairing_crypto` verifier accepts what the prover makes, for any number of
messages. The commitment that it rebuilds is the one that the prover hashed, and the
pairing equation of the proof is that of the signature. The one exception is a
scalar that happens to be zero, which the decoder refuses: so a presentation is
accepted exactly when it decodes (`presentation_accepted_iff`).
-/

namespace PhiCrypto

open Exec

variable {S : Suite}

/-- The compressed encoding of points, as `blstrs` documents it. -/
structure Blstrs.Encodes (B : Blstrs S) : Prop where
  g1_length : ∀ P, (B.g1ToCompressed P).length = 48
  g1_roundtrip : ∀ P, B.g1FromCompressed (B.g1ToCompressed P) = some P

namespace PairingCrypto

variable {B : Blstrs S}

/-! ### The decoder reads a proof back -/

section Decoder

variable {buffer w rest : Bytes} {offset : Nat}

theorem window_eq (h : buffer.drop offset = w ++ rest) :
    (buffer.take (offset + w.length)).drop offset = w := by
  rw [List.drop_take, Nat.add_sub_cancel_left, h, List.take_left]

theorem drop_window (h : buffer.drop offset = w ++ rest) :
    buffer.drop (offset + w.length) = rest := by
  rw [← List.drop_drop, h, List.drop_left]

theorem of_returns_slicer {lo hi size : Nat} {s : Bytes}
    (h : (slicer buffer lo hi size).run.Returns (.ok s)) : s = (buffer.take hi).drop lo := by
  rcases returns_ok_lift_bind h with ⟨octets, hslice, h⟩
  rcases returns_ok_rejectIf_bind h with ⟨-, h⟩
  cases h
  exact of_returns_sliceAt hslice

theorem of_returns_extractPointValue (hB : B.Encodes) {P value : S.G1} {offset' fin' : Nat}
    (hbuffer : buffer.drop offset = B.g1ToCompressed P ++ rest)
    (h : (extractPointValue B offset (offset + 48) buffer).run.Returns
      (.ok (value, offset', fin'))) :
    value = P ∧ offset' = offset + 48 ∧ fin' = offset + 48 + 48 := by
  rcases returns_ok_bind h with ⟨octets, hslice, h⟩
  have hoctets : octets = B.g1ToCompressed P := by
    rw [of_returns_slicer hslice, ← hB.g1_length P, window_eq hbuffer]
  rw [hoctets, hB.g1_roundtrip P] at h
  rcases returns_ok_rejectIf_bind h with ⟨-, h⟩
  cases h
  exact ⟨rfl, rfl, rfl⟩

theorem scalarFromBytesBe_beBytes (x : S.Fr) :
    scalarFromBytesBe S (beBytes 32 x.val) = some x := by
  have hlt : x.val < S.r := x.val_lt
  have hle := S.order_le
  have hnat : beNat (beBytes 32 x.val) = x.val := beNat_beBytes (by omega)
  rw [scalarFromBytesBe, hnat, if_pos hlt, ZMod.natCast_zmod_val]

theorem of_returns_extractScalarValue {x value : S.Fr} {offset' fin' : Nat}
    (hbuffer : buffer.drop offset = beBytes 32 x.val ++ rest)
    (h : (extractScalarValue (S := S) offset (offset + 32) buffer).run.Returns
      (.ok (value, offset', fin'))) :
    value = x ∧ offset' = offset + 32 ∧ fin' = offset + 32 + 32 := by
  rcases returns_ok_bind h with ⟨octets, hslice, h⟩
  have hoctets : octets = beBytes 32 x.val := by
    rw [of_returns_slicer hslice]
    simpa using window_eq hbuffer
  rw [hoctets, scalarFromBytesBe_beBytes] at h
  rcases returns_ok_rejectIf_bind h with ⟨-, h⟩
  cases h
  exact ⟨rfl, rfl, rfl⟩

theorem of_returns_extractScalarValues {xs : List S.Fr} :
    ∀ {offset : Nat} {values : List S.Fr} {offset' fin' : Nat},
      buffer.drop offset = (xs.map fun x => beBytes 32 x.val).flatten ++ rest →
      (extractScalarValues (S := S) buffer xs.length offset (offset + 32)).run.Returns
        (.ok (values, offset', fin')) →
      values = xs ∧ buffer.drop offset' = rest ∧ fin' = offset' + 32 := by
  induction xs with
  | nil =>
    intro offset values offset' fin' hbuffer h
    cases h
    exact ⟨rfl, hbuffer, rfl⟩
  | cons x xs ih =>
    intro offset values offset' fin' hbuffer h
    rw [List.map_cons, List.flatten_cons, List.append_assoc] at hbuffer
    rcases returns_ok_bind h with ⟨⟨value, next, fin⟩, hvalue, h⟩
    rcases of_returns_extractScalarValue hbuffer hvalue with ⟨rfl, rfl, rfl⟩
    rcases returns_ok_bind h with ⟨⟨values', next', fin''⟩, hvalues, h⟩
    have hrest := drop_window hbuffer
    rw [beBytes_length] at hrest
    rcases ih hrest hvalues with ⟨rfl, htail, rfl⟩
    cases h
    exact ⟨rfl, htail, rfl⟩

/-- What the decoder reads from the octets of a proof is this proof. -/
theorem of_returns_fromOctets (hB : B.Encodes) {p q : Proof S}
    (h : (Proof.fromOctets B (p.toOctets B)).run.Returns (.ok q)) : q = p := by
  have hlen := length_toOctets hB.g1_length p
  have hstart : (p.toOctets B).drop 0 = B.g1ToCompressed p.aBar ++ (B.g1ToCompressed p.bBar
      ++ (beBytes 32 p.r2Hat.val ++ (beBytes 32 p.zHat.val
      ++ ((p.mHatList.map fun m => beBytes 32 m.val).flatten ++ (beBytes 32 p.c.val ++ []))))) := by
    simp [Proof.toOctets]
  generalize p.toOctets B = buffer at h hlen hstart
  have hbBar := drop_window hstart
  rw [hB.g1_length] at hbBar
  have hr2Hat := drop_window hbBar
  rw [hB.g1_length] at hr2Hat
  have hzHat := drop_window hr2Hat
  rw [beBytes_length] at hzHat
  have hmHat := drop_window hzHat
  rw [beBytes_length] at hmHat
  rcases returns_ok_rejectIf_bind h with ⟨-, h⟩
  rcases returns_ok_lift_bind h with ⟨extra, hextra, h⟩
  have hcount : extra / octetScalarLength = p.mHatList.length := by
    have hfloor : proofLenFloor ≤ buffer.length := by
      unfold proofLenFloor octetPointG1Length octetScalarLength
      omega
    have heq : extra = buffer.length - proofLenFloor :=
      (meets_usizeSub (P := fun _ => True) hfloor).of_returns hextra
    rw [heq]
    unfold proofLenFloor octetPointG1Length octetScalarLength
    omega
  rcases returns_ok_rejectIf_bind h with ⟨-, h⟩
  rcases returns_ok_bind h with ⟨⟨aBar, o1, f1⟩, haBar, h⟩
  rcases of_returns_extractPointValue hB hstart haBar with ⟨rfl, rfl, rfl⟩
  rcases returns_ok_bind h with ⟨⟨bBar, o2, f2⟩, hread, h⟩
  rcases of_returns_extractPointValue hB hbBar hread with ⟨rfl, rfl, rfl⟩
  rcases returns_ok_bind h with ⟨⟨r2Hat, o3, f3⟩, hread, h⟩
  rcases of_returns_extractScalarValue hr2Hat hread with ⟨rfl, rfl, rfl⟩
  rcases returns_ok_bind h with ⟨⟨zHat, o4, f4⟩, hread, h⟩
  rcases of_returns_extractScalarValue hzHat hread with ⟨rfl, rfl, rfl⟩
  dsimp only at h
  rw [hcount] at h
  rcases returns_ok_lift_bind h with ⟨⟨⟩, -, h⟩
  rcases returns_ok_bind h with ⟨⟨mHatList, o5, f5⟩, hread, h⟩
  rcases of_returns_extractScalarValues hmHat hread with ⟨rfl, hlast, rfl⟩
  rcases returns_ok_bind h with ⟨octets, hslice, h⟩
  have hoctets : octets = beBytes 32 p.c.val := by
    rw [of_returns_slicer hslice]
    simpa using window_eq hlast
  rw [hoctets, scalarFromBytesBe_beBytes] at h
  rcases returns_ok_rejectIf_bind h with ⟨-, h⟩
  cases h
  rfl

end Decoder

/-! ### The messages of a presentation -/

section Messages

variable {revealSet : OrderedMap Unit} {ms : List S.Fr}

/-- Messages marked by index. -/
def markMessages (revealSet : OrderedMap Unit) (i : Nat) (ms : List S.Fr) :
    List (ProofMessage S.Fr) :=
  (ms.zipIdx i).map fun e => .mark (revealSet.contains e.2) e.1

/-- The disclosed entries among them. -/
def disclosedEntries (revealSet : OrderedMap Unit) (i : Nat) (ms : List S.Fr) :
    List (Nat × S.Fr) :=
  ((ms.zipIdx i).filter fun e => revealSet.contains e.2).map Prod.swap

/-- The loop of the prover splits the messages as the verifier splits the generators. -/
theorem splitMessages_markMessages {generators : List S.G1} (hlen : ms.length = generators.length)
    {i : Nat} {tape rest : List S.Fr} {hidden : List (HiddenMessage S)}
    {disclosed : List (Nat × S.Fr)}
    (h : splitMessages i generators (markMessages revealSet i ms) tape
      = some ((hidden, disclosed), rest)) :
    hidden.map HiddenMessage.point = hiddenPart revealSet i generators ∧
      hidden.map HiddenMessage.message = hiddenPart revealSet i ms ∧
      disclosed = disclosedEntries revealSet i ms := by
  induction ms generalizing generators i tape hidden disclosed with
  | nil =>
    rcases List.length_eq_zero_iff.mp hlen.symm with rfl
    cases h
    exact ⟨rfl, rfl, rfl⟩
  | cons m ms ih =>
    rcases List.exists_cons_of_length_eq_add_one hlen.symm with ⟨generator, generators, rfl⟩
    have htail : ms.length = generators.length := by simpa using hlen
    rw [markMessages, List.zipIdx_cons, List.map_cons] at h
    simp only [hiddenPart, disclosedEntries, List.zipIdx_cons, List.filter_cons]
    cases hreveal : revealSet.contains i with
    | true =>
      rw [hreveal] at h
      simp only [ProofMessage.mark, if_true, splitMessages] at h
      rcases Rng.bind_eq_some_iff.mp h with ⟨⟨hidden', disclosed'⟩, middle, hrec, h⟩
      cases h
      rcases ih htail hrec with ⟨hpoint, hmessage, rfl⟩
      exact ⟨hpoint, hmessage, rfl⟩
    | false =>
      rw [hreveal] at h
      simp only [ProofMessage.mark, Bool.false_eq_true, if_false, splitMessages] at h
      rcases Rng.bind_eq_some_iff.mp h with ⟨mTilde, tape', -, h⟩
      rcases Rng.bind_eq_some_iff.mp h with ⟨⟨hidden', disclosed'⟩, middle, hrec, h⟩
      cases h
      rcases ih htail hrec with ⟨hpoint, hmessage, rfl⟩
      refine ⟨?_, ?_, rfl⟩
      · simp [hpoint]
      · simp [hmessage]

theorem zipIdx_eq_map_range (ms : List S.Fr) :
    ms.zipIdx = (List.range ms.length).map fun i => (ms.getD i 0, i) := by
  apply List.ext_getElem
  · simp
  · intro i h₁ h₂
    have hlt : i < ms.length := by simpa using h₁
    simp [List.getD, hlt]

/-- The prover's disclosed messages are those of the revealed claims. -/
theorem ofList_disclosedEntries (hkeys : ∀ k ∈ revealSet.keys, k < ms.length) :
    OrderedMap.ofList (disclosedEntries revealSet 0 ms) = provenMessages revealSet ms := by
  rw [provenMessages, disclosedEntries, zipIdx_eq_map_range, List.filter_map, List.map_map,
    OrderedMap.keys_eq_filter hkeys]
  rfl

variable {claims : List Bytes}

theorem usizeEntries_provenClaims (hkeys : ∀ k ∈ revealSet.keys, k < claims.length)
    (hcount : claims.length ≤ 2 ^ 32) : usizeEntries (provenClaims revealSet claims)
      = revealSet.keys.map fun i => (i, claims.getD i []) := by
  rw [usizeEntries, provenClaims, List.map_map]
  apply List.map_congr_left
  intro i hi
  have hlt := hkeys i hi
  rw [Function.comp_apply, toNat_ofNat_of_lt (hlt.trans_le hcount)]

/-- The verifier rebuilds the same map from the revealed list. -/
theorem disclosedOf_provenClaims (hkeys : ∀ k ∈ revealSet.keys, k < claims.length) :
    disclosedOf B (revealSet.keys.map fun i => (i, claims.getD i []))
      = provenMessages revealSet (claims.map (messageScalar B)) := by
  rw [disclosedOf, provenMessages, List.map_map]
  congr 1
  apply List.map_congr_left
  intro i hi
  simp [List.getD, hkeys i hi]

end Messages

/-! ### The verifier's equations -/

namespace Proof.Run

variable {pk : S.G2} {signature : Signature S} {header ph : Option Bytes}
  {messages : List (ProofMessage S.Fr)} {p : Proof S} {total : Nat}
  (run : Proof.Run B pk signature header ph (Generators.derive B total) messages p)
  {disclosed : OrderedMap S.Fr}

theorem b_eq_msm : run.b = msm
    (basePoint B :: (Generators.derive B total).q :: (Generators.derive B total).hList)
    (1 :: run.domain :: messages.map ProofMessage.getMessage) := by
  have hb := run.b_eq
  rw [computeB, rejectIf_bind_eq_ok_iff] at hb
  exact (Except.ok.inj hb.2).symm

theorem bBar_eq_smul : p.bBar = run.r1 • run.b - signature.e • p.aBar := by
  rw [run.bBar_eq]
  simp [sub_eq_add_neg]

theorem mHatList_eq_respond : p.mHatList = respond p.c (run.hidden.map HiddenMessage.mTilde)
    (run.hidden.map HiddenMessage.message) := by
  rw [run.mHatList_eq, respond, List.zipWith_map, List.zipWith_self]
  apply List.map_congr_left
  intro h _
  rw [mul_comm]

theorem split_eq {revealSet : OrderedMap Unit} {ms : List S.Fr}
    (hmarks : messages = markMessages revealSet 0 ms) :
    run.hidden.map HiddenMessage.point = hiddenPart revealSet 0 (Generators.derive B total).hList ∧
      run.hidden.map HiddenMessage.message = hiddenPart revealSet 0 ms ∧
      run.disclosed = disclosedEntries revealSet 0 ms := by
  subst hmarks
  rcases run.split with ⟨tape, rest, hsplit⟩
  have hlen : ms.length = (Generators.derive B total).hList.length := by
    rw [← run.count_eq]
    simp [markMessages]
  exact splitMessages_markMessages hlen hsplit

/-- The two responses of the prover that are not about a message. -/
theorem base_relation :
    (signature.e * -run.r1⁻¹) • p.aBar + (-run.r1⁻¹) • p.bBar = -run.b := by
  have hinv : run.r1⁻¹ * run.r1 = 1 := inv_mul_cancel₀ run.r1_ne_zero
  have hcancel : run.r1⁻¹ • run.r1 • run.b = run.b := by rw [smul_smul, hinv, one_smul]
  rw [run.bBar_eq_smul, smul_sub, neg_smul run.r1⁻¹ (run.r1 • run.b), hcancel]
  module

/-- The verifier rebuilds the commitment that the prover hashed. -/
theorem commitment_eq
    (hpoint : run.hidden.map HiddenMessage.point
      = hiddenPart disclosed 0 (Generators.derive B total).hList)
    (hmessage : run.hidden.map HiddenMessage.message
      = hiddenPart disclosed 0 (messages.map ProofMessage.getMessage))
    (hmap : ∀ j m, disclosed.get? j = some m → j < (messages.map ProofMessage.getMessage).length →
      (messages.map ProofMessage.getMessage)[j]? = some m) :
    p.commitment B disclosed total run.domain
      = msm (p.aBar :: p.bBar :: run.hidden.map HiddenMessage.point)
          (run.r2Tilde :: run.zTilde :: run.hidden.map HiddenMessage.mTilde) := by
  have hlen : (messages.map ProofMessage.getMessage).length
      = (Generators.derive B total).hList.length := by
    rw [List.length_map, run.count_eq]
  have hb := run.b_eq_msm
  rw [msm_cons, msm_cons, msm_eq_hidden_add_revealed hlen hmap, ← hpoint, ← hmessage] at hb
  have hhidden : msm (run.hidden.map HiddenMessage.point) p.mHatList
      = msm (run.hidden.map HiddenMessage.point) (run.hidden.map HiddenMessage.mTilde)
        + p.c • msm (run.hidden.map HiddenMessage.point)
            (run.hidden.map HiddenMessage.message) := by
    rw [run.mHatList_eq_respond, respond, msm_zipWith_add_mul p.c _ (by simp)]
  have hbase : p.r2Hat • p.aBar + p.zHat • p.bBar
      = run.r2Tilde • p.aBar + run.zTilde • p.bBar + p.c • -run.b := by
    rw [← run.base_relation, run.r2Hat_eq, run.zHat_eq]
    module
  rw [Proof.commitment]
  simp only [msm_cons, ← hpoint]
  rw [hhidden, ← add_assoc (p.r2Hat • p.aBar), hbase, hb]
  module

/-- The pairing equation of the proof is that of the signature. -/
theorem pairing_eq (hvalid : S.pairing signature.a (pk + signature.e • B.g2Generator)
      + S.pairing run.b (-B.g2Generator) = 0) :
    S.pairing p.aBar pk + S.pairing p.bBar (-B.g2Generator) = 0 := by
  have hscaled : S.pairing p.aBar pk + S.pairing p.bBar (-B.g2Generator)
      = run.r1 • (S.pairing signature.a (pk + signature.e • B.g2Generator)
        + S.pairing run.b (-B.g2Generator)) := by
    rw [run.bBar_eq_smul, run.aBar_eq]
    simp only [map_sub, map_smul, map_add, map_neg, LinearMap.sub_apply, LinearMap.smul_apply]
    module
  rw [hscaled, hvalid, smul_zero]

end Proof.Run

/-! ### An honest proof is valid -/

theorem markMessages_getMessage (revealSet : OrderedMap Unit) (ms : List S.Fr) (i : Nat) :
    (markMessages revealSet i ms).map ProofMessage.getMessage = ms := by
  rw [markMessages, List.map_map]
  refine Eq.trans (List.map_congr_left ?_) (List.zipIdx_map_fst i ms)
  intro e _
  rw [Function.comp_apply, ProofMessage.mark]
  split <;> rfl

theorem Signature.fromOctets_ne_zero {data : Bytes} {signature : Signature S}
    (h : Signature.fromOctets B data = .ok signature) : signature.a ≠ 0 := by
  unfold Signature.fromOctets at h
  split at h
  · cases h
  rcases rejectIf_bind_eq_ok_iff.mp h with ⟨hne, h⟩
  split at h
  · cases h
  rcases rejectIf_bind_eq_ok_iff.mp h with ⟨-, h⟩
  cases h
  exact hne

/-- What the prover checks of the signature before it makes a proof. -/
theorem Signature.of_verify {signature : Signature S} {pk : S.G2} {header : Option Bytes}
    {generators : Generators S} {ms : List S.Fr}
    (h : signature.verify B pk header generators ms = .ok true) :
    pk ≠ 0 ∧ ∃ domain b, computeDomain B pk header ms.length generators = .ok domain ∧
      computeB B domain ms generators = .ok b ∧
      S.pairing signature.a (pk + signature.e • B.g2Generator)
        + S.pairing b (-B.g2Generator) = 0 := by
  rcases rejectIf_bind_eq_ok_iff.mp h with ⟨-, h⟩
  rcases rejectIf_bind_eq_ok_iff.mp h with ⟨-, h⟩
  rcases rejectIf_bind_eq_ok_iff.mp h with ⟨hpk, h⟩
  rcases except_bind_eq_ok_iff.mp h with ⟨domain, hdomain, h⟩
  rcases except_bind_eq_ok_iff.mp h with ⟨b, hb, h⟩
  exact ⟨hpk, domain, b, hdomain, hb, of_decide_eq_true (Except.ok.inj h)⟩

namespace ProofGenRun

variable {publicKey signature octets : Bytes} {header ph : Option Bytes}
  {revealSet : OrderedMap Unit} {claims : List Bytes}
  (run : ProofGenRun B publicKey header ph signature (proofMessages revealSet claims) octets)

include run in
theorem short : ∀ claim ∈ claims, claim.length < 2 ^ 64 := by
  intro claim hclaim
  obtain ⟨hshort, -⟩ := digestProofMessages_eq_ok_iff.mp run.digested_eq
  rcases List.getElem_of_mem hclaim with ⟨i, hi, rfl⟩
  have hmem : (claims[i], i) ∈ claims.zipIdx := List.mem_zipIdx_iff_getElem?.mpr (by simp [hi])
  exact hshort _ (List.mem_map.mpr ⟨_, hmem, rfl⟩)

theorem digested_eq_markMessages :
    run.digested = markMessages revealSet 0 (claims.map (messageScalar B)) := by
  obtain ⟨-, hdigested⟩ := digestProofMessages_eq_ok_iff.mp run.digested_eq
  rw [hdigested, proofMessages, markMessages, List.zipIdx_map, List.map_map, List.map_map]
  rfl

theorem digested_length : run.digested.length = claims.length := by
  rw [run.digested_eq_markMessages, markMessages, List.length_map, List.length_zipIdx,
    List.length_map]

/-- The proof answers for each hidden claim. -/
theorem length_mHatList : run.proof.mHatList.length = (hiddenPart revealSet 0 claims).length := by
  obtain ⟨-, hdigested⟩ := digestProofMessages_eq_ok_iff.mp run.digested_eq
  have hcount := countP_isHidden_mark (B := B) (proofMessages revealSet claims)
  rw [run.made.length_mHatList, ← countP_proofMessages revealSet claims 0]
  rw [← hdigested] at hcount
  exact hcount

/-- The proof that the prover makes satisfies what the verifier checks. -/
theorem valid (hkeys : ∀ k ∈ revealSet.keys, k < claims.length) :
    run.proof.Valid B run.pk header ph
      (provenMessages revealSet (claims.map (messageScalar B))) claims.length := by
  have hdigested := run.digested_eq_markMessages
  have hlength := run.digested_length
  have hmessages : run.digested.map ProofMessage.getMessage = claims.map (messageScalar B) := by
    rw [hdigested, markMessages_getMessage]
  rcases Signature.of_verify run.sig_valid with ⟨hpk, domain, b, hdomain, hb, hpairing⟩
  rw [List.length_map] at hdomain
  cases run.made.domain_eq.symm.trans hdomain
  cases run.made.b_eq.symm.trans hb
  rcases run.made.split_eq hdigested with ⟨hpoint, hmessage, hdisclosed⟩
  have hhidden {α : Type} (xs : List α) : hiddenPart revealSet 0 xs
      = hiddenPart (provenMessages revealSet (claims.map (messageScalar B))) 0 xs :=
    hiddenPart_congr (fun _ => mem_keys_provenMessages.symm) xs 0
  have hcommitment := run.made.commitment_eq (hpoint.trans (hhidden _))
    (by rw [hmessages, hmessage, hhidden])
    (by rw [hmessages]; exact fun _ _ => getElem?_of_get?_provenMessages)
  have hchallenge := run.made.challenge_eq
  rw [hdisclosed, ofList_disclosedEntries (by simpa using hkeys), ← hcommitment] at hchallenge
  rw [← hlength]
  refine ⟨run.made.nonempty, hpk, ⟨_, run.made.domain_eq, hchallenge⟩, ?_,
    run.made.pairing_eq hpairing⟩
  rw [run.made.aBar_eq]
  exact smul_ne_zero run.made.r1_ne_zero (Signature.fromOctets_ne_zero run.sig_eq)

end ProofGenRun

end PairingCrypto

/-! ### `Bbs2023Sha256` accepts its own presentations -/

variable {B : Blstrs S} {claims : List Bytes} {signature nonce : Bytes} {reveal : List Nat}
  {p : SelectiveProof}

/-- A presentation is accepted exactly when it decodes. -/
theorem presentation_accepted_iff (hB : B.Encodes) (hcount : claims.length ≤ 2 ^ 32)
    (h : Succeeds (Bbs2023Sha256.deriveProof B claims signature reveal nonce) p) :
    (Bbs2023Sha256.verifyProof B p (signature.take publicKeyLen) nonce).Returns true ↔
      ∃ q, (PairingCrypto.Proof.fromOctets B p.proof).run.Returns (.ok q) := by
  have hmade := Bbs2023Sha256.made_of_succeeds h
  have hkeys := hmade.reveal_lt
  rcases PairingCrypto.proofGen_inversion hmade.made with ⟨run⟩
  have hentries : usizeEntries p.revealed
      = (OrderedMap.ofKeys reveal).keys.map fun i => (i, claims.getD i []) := by
    rw [hmade.revealed_eq, PairingCrypto.usizeEntries_provenClaims hkeys hcount]
  rw [Bbs2023Sha256.verifyProof, bbs2023ProofVerify_returns_true_iff, hentries]
  constructor
  · intro haccepts
    rcases haccepts.accepts with ⟨pk, q, hq⟩
    exact ⟨q, hq.proof_eq⟩
  rintro ⟨q, hq⟩
  obtain rfl : q = run.proof := by
    rw [run.octets_eq] at hq
    exact PairingCrypto.of_returns_fromOctets hB hq
  have htotal : run.proof.mHatList.length
      + ((OrderedMap.ofKeys reveal).keys.map fun i => (i, claims.getD i [])).length
        = claims.length := by
    rw [run.length_mHatList, List.length_map, OrderedMap.length_keys, length_hiddenPart_add hkeys]
  have hkey : (signature.take publicKeyLen).length = 96 := by
    rw [List.length_take, hmade.signature_length]
    rfl
  refine ⟨hkey, ?_, run.pk, run.proof, run.key_eq, hq, ?_, ?_, ?_⟩
  · rw [List.map_map]
    simpa [Function.comp_def] using (OrderedMap.ofKeys reveal).keys_nodup
  · rw [htotal]
    intro entry hentry
    rcases List.mem_map.mp hentry with ⟨i, hi, rfl⟩
    exact hkeys i hi
  · intro entry hentry
    rcases List.mem_map.mp hentry with ⟨i, hi, rfl⟩
    have hlt := hkeys i hi
    simpa [List.getD, hlt] using run.short claims[i] (List.getElem_mem hlt)
  · rw [htotal, PairingCrypto.disclosedOf_provenClaims hkeys]
    exact run.valid hkeys

end PhiCrypto

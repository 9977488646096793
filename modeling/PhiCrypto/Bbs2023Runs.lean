import PhiCrypto.Bbs2023Issuance

/-!
# Runs of the `bbs-2023` prover

For inputs that pass its checks, `proof_gen` draws its coins and computes on them: three
scalars, and one for each hidden message unless the first of the three is zero
(`readCoins`). `makeProof` is what it makes of the coins, and `proofGen_run` says that
this is all it does.
-/

namespace PhiCrypto

variable {S : Suite}

namespace PairingCrypto

/-! ### Coins -/

/-- The draws of `new_with_rng`. -/
structure Coins (F : Type) where
  r1 : F
  r2Tilde : F
  zTilde : F
  mTilde : List F

namespace Coins

variable {F : Type}

def write (c : Coins F) : List F := c.r1 :: c.r2Tilde :: c.zTilde :: c.mTilde

variable [Zero F] [DecidableEq F]

/-- The masks of `n` hidden messages are drawn once `r1` is known to be invertible. -/
def WellFormed (n : Nat) (c : Coins F) : Prop := c.mTilde.length = if c.r1 = 0 then 0 else n

def read (n : Nat) : Rng F (Coins F) := do
  let r1 ← Rng.draw
  let r2Tilde ← Rng.draw
  let zTilde ← Rng.draw
  let mTilde ← Rng.drawMany (if r1 = 0 then 0 else n)
  pure { r1, r2Tilde, zTilde, mTilde }

theorem lossless_read (n : Nat) :
    Rng.Lossless (read (F := F) n) write (WellFormed n) where
  complete := by
    intro c rest hc
    have hmasks := (Rng.lossless_drawMany (if c.r1 = 0 then 0 else n)).complete rest hc
    simp only [read, write, Rng.bind_eq_some_iff]
    exact ⟨_, _, rfl, _, _, rfl, _, _, rfl, _, _, hmasks, rfl⟩
  sound := by
    intro tape rest c h
    simp only [read, Rng.bind_eq_some_iff] at h
    obtain ⟨r1, t1, h1, r2Tilde, t2, h2, zTilde, t3, h3, mTilde, t4, h4, h⟩ := h
    cases h
    obtain ⟨-, rfl⟩ := Rng.lossless_draw.sound h1
    obtain ⟨-, rfl⟩ := Rng.lossless_draw.sound h2
    obtain ⟨-, rfl⟩ := Rng.lossless_draw.sound h3
    obtain ⟨hlen, rfl⟩ := (Rng.lossless_drawMany _).sound h4
    exact ⟨hlen, rfl⟩

end Coins

/-! ### The loop over the messages -/

section Split

variable {revealSet : OrderedMap Unit} {ms : List S.Fr}

/-- The hidden messages with their generators and masks. -/
def hiddenOf (points : List S.G1) (messages masks : List S.Fr) : List (HiddenMessage S) :=
  List.zipWith (fun e mTilde => { point := e.1, mTilde, message := e.2 }) (points.zip messages)
    masks

theorem splitMessages_run {generators : List S.G1} (hlen : ms.length = generators.length)
    (i : Nat) (tape : List S.Fr) :
    splitMessages i generators (markMessages revealSet i ms) tape
      = (Rng.drawMany (hiddenPart revealSet i ms).length tape).map fun p =>
        ((hiddenOf (hiddenPart revealSet i generators) (hiddenPart revealSet i ms) p.1,
          disclosedEntries revealSet i ms), p.2) := by
  induction ms generalizing generators i tape with
  | nil =>
    obtain rfl := List.length_eq_zero_iff.mp hlen.symm
    rfl
  | cons m ms ih =>
    obtain ⟨generator, generators, rfl⟩ := List.exists_cons_of_length_eq_add_one hlen.symm
    have hrest := fun tape => ih (show ms.length = generators.length by simpa using hlen) (i + 1) tape
    have hmark : markMessages revealSet i (m :: ms)
        = .mark (revealSet.contains i) m :: markMessages revealSet (i + 1) ms := rfl
    rw [hmark]
    simp only [hiddenPart, disclosedEntries, List.zipIdx_cons, List.filter_cons]
    cases hreveal : revealSet.contains i with
    | true =>
      have hrevealed : ProofMessage.mark true m = .revealed m := rfl
      simp only [if_true]
      rw [hrevealed, splitMessages, Rng.bind_apply, hrest]
      cases Rng.drawMany (hiddenPart revealSet (i + 1) ms).length tape with
      | none => rfl
      | some p => rfl
    | false =>
      have hhidden : ProofMessage.mark false m = .hidden m := rfl
      simp only [Bool.false_eq_true, if_false, List.length_cons]
      rw [hhidden, splitMessages, Rng.drawMany, Rng.bind_apply, Rng.bind_apply]
      cases tape with
      | nil => rfl
      | cons x tape =>
        simp only [Rng.draw, Option.bind_some, Rng.bind_apply, hrest]
        cases Rng.drawMany (hiddenPart revealSet (i + 1) ms).length tape with
        | none => rfl
        | some p => rfl

end Split

/-! ### What is made of the coins -/

/-- The proof that `new_with_rng` makes of its coins, once the inputs are checked. -/
def makeProof (B : Blstrs S) (signature : Signature S) (domain : S.Fr)
    (revealSet : OrderedMap Unit) (ms : List S.Fr) (ph : Option Bytes) (coins : Coins S.Fr) :
    Except Error (Proof S) := do
  let aBar := coins.r1 • signature.a
  let bBar := msm [messagesPoint B domain ms, aBar] [coins.r1, -signature.e]
  rejectIf (coins.r1 = 0) (Error.cryptoOps "Failed to invert `r1`")
  let r2 := -coins.r1⁻¹
  let hidden := hiddenOf (hiddenPart revealSet 0 (Generators.derive B ms.length).hList)
    (hiddenPart revealSet 0 ms) coins.mTilde
  let commitment := msm (aBar :: bBar :: hidden.map HiddenMessage.point)
    (coins.r2Tilde :: coins.zTilde :: hidden.map HiddenMessage.mTilde)
  let c ← computeChallenge B aBar bBar commitment
    (OrderedMap.ofList (disclosedEntries revealSet 0 ms)) domain ph
  pure
    { aBar, bBar, r2Hat := coins.r2Tilde + c * signature.e * r2, zHat := coins.zTilde + c * r2,
      mHatList := hidden.map fun h => h.mTilde + c * h.message, c }

section Runs

variable {B : Blstrs S} {revealSet : OrderedMap Unit} {ms : List S.Fr} {header ph : Option Bytes}
  {signature : Signature S} {pk : S.G2} {domain : S.Fr}

theorem markMessages_length (revealSet : OrderedMap Unit) (ms : List S.Fr) :
    (markMessages revealSet 0 ms).length = ms.length := by
  simp [markMessages]

/-- `new_with_rng` after its three draws. -/
theorem new_run_checked (r1 r2Tilde zTilde : S.Fr) (tape : List S.Fr)
    (hne : ¬ (header = none ∧ ms.length = 0))
    (hdomain : computeDomain B pk header ms.length (Generators.derive B ms.length) = .ok domain) :
    (Proof.new B pk signature header ph (Generators.derive B ms.length)
        (markMessages revealSet 0 ms)).run (r1 :: r2Tilde :: zTilde :: tape)
      = (Rng.drawMany (if r1 = 0 then 0 else (hiddenPart revealSet 0 ms).length) tape).map fun p =>
        (makeProof B signature domain revealSet ms ph ⟨r1, r2Tilde, zTilde, p.1⟩, p.2) := by
  have hlen := markMessages_length revealSet ms
  have hb : computeB B domain ((markMessages revealSet 0 ms).map ProofMessage.getMessage)
      (Generators.derive B ms.length) = .ok (messagesPoint B domain ms) := by
    rw [markMessages_getMessage]
    exact computeB_eq_ok_iff.mpr ⟨rfl, rfl⟩
  rw [Proof.new, hlen, rejectIf_false_bind hne, derive_hList_length,
    rejectIf_false_bind (fun h => h rfl), hdomain, liftExcept_ok_bind, run_liftM_bind]
  simp only [Rng.draw, Option.bind_some, run_liftM_bind, hb, liftExcept_ok_bind]
  by_cases hr1 : r1 = 0
  · rw [rejectIf_true_bind hr1, if_pos hr1]
    have hmake : makeProof B signature domain revealSet ms ph ⟨r1, r2Tilde, zTilde, []⟩
        = .error (Error.cryptoOps "Failed to invert `r1`") := by
      rw [makeProof, rejectIf, if_pos hr1]
      rfl
    change some (Except.error (Error.cryptoOps "Failed to invert `r1`"), tape)
      = some (makeProof B signature domain revealSet ms ph ⟨r1, r2Tilde, zTilde, []⟩, tape)
    rw [hmake]
  · rw [rejectIf_false_bind hr1, if_neg hr1, run_liftM_bind,
      splitMessages_run (by rw [derive_hList_length])]
    cases Rng.drawMany (hiddenPart revealSet 0 ms).length tape with
    | none => rfl
    | some p =>
      simp only [Option.map_some, Option.bind_some]
      rw [makeProof, rejectIf, if_neg hr1, pure_bind]
      dsimp only
      generalize computeChallenge B _ _ _ _ domain ph = challenge
      cases challenge with
      | error k => rfl
      | ok c => rfl

theorem new_run (hne : ¬ (header = none ∧ ms.length = 0))
    (hdomain : computeDomain B pk header ms.length (Generators.derive B ms.length) = .ok domain)
    (tape : List S.Fr) :
    (Proof.new B pk signature header ph (Generators.derive B ms.length)
        (markMessages revealSet 0 ms)).run tape
      = (Coins.read (hiddenPart revealSet 0 ms).length tape).map fun p =>
        (makeProof B signature domain revealSet ms ph p.1, p.2) := by
  have hlen := markMessages_length revealSet ms
  -- A tape with fewer than three draws gives nothing on either side.
  rcases tape with _ | ⟨r1, _ | ⟨r2Tilde, _ | ⟨zTilde, tape⟩⟩⟩
  case cons.cons.cons =>
    rw [new_run_checked r1 r2Tilde zTilde tape hne hdomain]
    change _ = ((Rng.drawMany _ tape).bind _).map _
    cases Rng.drawMany (if r1 = 0 then 0 else (hiddenPart revealSet 0 ms).length) tape with
    | none => rfl
    | some p => rfl
  all_goals
    rw [Proof.new, hlen, rejectIf_false_bind hne, derive_hList_length,
      rejectIf_false_bind (fun h => h rfl), hdomain, liftExcept_ok_bind, run_liftM_bind]
    rfl

end Runs

end PairingCrypto

/-! ### `proof_gen` and `derive_proof` -/

section Derive

open PairingCrypto

variable {B : Blstrs S} {publicKey header nonce signature : Bytes} {claims : List Bytes}
  {revealSet : OrderedMap Unit} {reveal : List Nat} {pk : S.G2} {sig : Signature S} {domain : S.Fr}

/-- The messages of a credential as scalars. -/
def claimScalars (B : Blstrs S) (claims : List Bytes) : List S.Fr := claims.map (messageScalar B)

theorem digestProofMessages_proofMessages (hshort : ∀ m ∈ claims, m.length < 2 ^ 64) :
    digestProofMessages B (proofMessages revealSet claims)
      = .ok (markMessages revealSet 0 (claimScalars B claims)) := by
  rw [digestProofMessages_eq_ok_iff]
  constructor
  · intro entry hentry
    obtain ⟨e, he, rfl⟩ := List.mem_map.mp hentry
    exact hshort _ (List.fst_mem_of_mem_zipIdx he)
  · rw [markMessages, claimScalars, proofMessages, List.zipIdx_map, List.map_map, List.map_map]
    rfl

/-- What `proof_gen` does with a signature that verifies. -/
theorem proofGen_run (revealSet : OrderedMap Unit) (h : Bbs2023Signed B publicKey header claims signature pk sig)
    (ph : Option Bytes)
    (hdomain : computeDomain B pk (opt header) claims.length (Generators.derive B claims.length)
      = .ok domain) (tape : List S.Fr) :
    (proofGen B publicKey (opt header) ph signature (proofMessages revealSet claims)).run tape
      = (Coins.read (hiddenPart revealSet 0 (claimScalars B claims)).length tape).map fun p =>
        ((makeProof B sig domain revealSet (claimScalars B claims) ph p.1).map (Proof.toOctets B),
          p.2) := by
  have hms : (claimScalars B claims).length = claims.length := List.length_map _
  have hmessages : (markMessages revealSet 0 (claimScalars B claims)).map ProofMessage.getMessage
      = claimScalars B claims := markMessages_getMessage _ _ _
  obtain ⟨hne, -, -⟩ := (Signature.verify_eq_ok_true_iff hms).mp h.verifies
  have hne : ¬ (opt header = none ∧ (claimScalars B claims).length = 0) :=
    fun hempty => hne ⟨hempty.1, List.length_eq_zero_iff.mp hempty.2⟩
  have hverdict : sig.verify B pk (opt header) (Generators.derive B (claimScalars B claims).length)
      (claimScalars B claims) = .ok true := by
    rw [hms]
    exact h.verifies
  rw [← hms] at hdomain
  rw [proofGen, h.key_eq]
  dsimp only
  rw [digestProofMessages_proofMessages h.short, liftExcept_ok_bind]
  rw [hmessages, h.signature_eq, liftExcept_ok_bind, hverdict, liftExcept_ok_bind,
    rejectIf_false_bind (by simp), ExceptT.run_bind, Rng.bind_apply, new_run hne hdomain]
  cases Coins.read (hiddenPart revealSet 0 (claimScalars B claims)).length tape with
  | none => rfl
  | some p =>
    simp only [Option.map_some, Option.bind_some]
    cases makeProof B sig domain revealSet (claimScalars B claims) ph p.1 with
    | error k => rfl
    | ok proof => rfl

/-- `derive_proof` on the outcome of the backend. -/
def presentationOf (B : Blstrs S) (claims : List Bytes) (revealSet : OrderedMap Unit) :
    Except Error (Proof S) → Except CryptoError SelectiveProof
  | .error _ => .error (.backend "bbs2023 proof_gen")
  | .ok proof => .ok
      { messageCount := UInt32.ofNat claims.length, proof := proof.toOctets B,
        revealed := provenClaims revealSet claims }

/-- What is left of `derive_proof` for a credential of the right lengths. -/
theorem bbs2023DeriveProof_eq (hkey : publicKey.length = 96) (hsignature : signature.length = 80)
    (claims : List Bytes) (reveal : List Nat) (nonce : Bytes) :
    Bbs2023Sha256.deriveProof B claims (publicKey ++ signature) reveal nonce = (do
      let proof ← (do
        rejectIf (∃ i ∈ (OrderedMap.ofKeys reveal).keys, i ≥ claims.length) revealOutOfRange
        ExceptT.adapt (fun _ => CryptoError.backend "bbs2023 proof_gen")
          (proofGen B publicKey (opt []) (opt nonce) signature
            (proofMessages (OrderedMap.ofKeys reveal) claims)))
      pure
        { messageCount := UInt32.ofNat claims.length, proof,
          revealed := provenClaims (OrderedMap.ofKeys reveal) claims }) := by
  have htake : (publicKey ++ signature).take publicKeyLen = publicKey := by
    rw [publicKeyLen, ← hkey, List.take_left]
  have hdrop : (publicKey ++ signature).drop publicKeyLen = signature := by
    rw [publicKeyLen, ← hkey, List.drop_left]
  have hlength : ¬ (publicKey ++ signature).length ≠ publicKeyLen + signatureLen := by
    rw [List.length_append, hkey, hsignature]
    exact fun h => h rfl
  have hkey : ¬ publicKey.length ≠ publicKeyLen := not_not.mpr hkey
  have hsignature : ¬ signature.length ≠ signatureLen := not_not.mpr hsignature
  rw [Bbs2023Sha256.deriveProof, rejectIf_false_bind hlength, htake, hdrop, bbs2023ProofGen,
    rejectIf_false_bind hkey, rejectIf_false_bind hsignature]

/-- A valid credential: `derive_proof` draws its coins and makes the presentation of them. -/
theorem bbs2023DeriveProof_run (nonce : Bytes)
    (h : Bbs2023Signed B publicKey [] claims signature pk sig)
    (hdomain : computeDomain B pk none claims.length (Generators.derive B claims.length)
      = .ok domain)
    (hrange : ∀ i ∈ (OrderedMap.ofKeys reveal).keys, i < claims.length) (tape : List S.Fr) :
    (Bbs2023Sha256.deriveProof B claims (publicKey ++ signature) reveal nonce).run tape
      = (Coins.read (hiddenPart (OrderedMap.ofKeys reveal) 0 (claimScalars B claims)).length
          tape).map fun p =>
        (presentationOf B claims (OrderedMap.ofKeys reveal)
          (makeProof B sig domain (OrderedMap.ofKeys reveal) (claimScalars B claims) (opt nonce)
            p.1), p.2) := by
  have hbound : ¬ ∃ i ∈ (OrderedMap.ofKeys reveal).keys, i ≥ claims.length := by
    rintro ⟨i, hi, hge⟩
    exact absurd (hrange i hi) (not_lt.mpr hge)
  have hrun := proofGen_run (OrderedMap.ofKeys reveal) h (opt nonce) hdomain tape
  rw [bbs2023DeriveProof_eq h.key_length h.signature_length, rejectIf_false_bind hbound,
    ExceptT.run_bind, Rng.bind_apply]
  change Option.bind (Option.bind ((proofGen B publicKey (opt []) (opt nonce) signature
    (proofMessages (OrderedMap.ofKeys reveal) claims)).run tape) _) _ = _
  rw [hrun]
  cases Coins.read (hiddenPart (OrderedMap.ofKeys reveal) 0 (claimScalars B claims)).length tape with
  | none => rfl
  | some p =>
    simp only [Option.map_some, Option.bind_some]
    cases makeProof B sig domain (OrderedMap.ofKeys reveal) (claimScalars B claims) (opt nonce)
        p.1 with
    | error k => rfl
    | ok proof => rfl

/-! ### From issuance to verification -/

/-- The prover fails on its coins exactly when the first one is zero. -/
theorem makeProof_isOk_iff {ms : List S.Fr} {ph : Option Bytes} {coins : Coins S.Fr}
    (hkeys : ∀ i ∈ revealSet.keys, i < ms.length) (hcount : ms.length ≤ 2 ^ 32)
    (hph : (ph.getD []).length < 2 ^ 64) :
    (∃ q, makeProof B sig domain revealSet ms ph coins = .ok q) ↔ coins.r1 ≠ 0 := by
  have hbound : ms.length < 2 ^ 64 := lt_of_le_of_lt hcount (by norm_num)
  have hproven : ∀ i ∈ (provenMessages revealSet ms).keys, i < ms.length := by
    intro i hi
    exact hkeys i (mem_keys_provenMessages.mp hi)
  have hlength : (provenMessages revealSet ms).length ≤ ms.length := by
    have hadd := length_hiddenPart_add hproven
    omega
  unfold makeProof
  rw [ofList_disclosedEntries hkeys]
  constructor
  · intro ⟨q, hq⟩
    exact (rejectIf_bind_eq_ok_iff.mp hq).1
  · intro hr1
    refine ⟨_, rejectIf_bind_eq_ok_iff.mpr ⟨hr1, except_bind_eq_ok_iff.mpr
      ⟨_, PairingCrypto.computeChallenge_eq_ok_iff.mpr ⟨?_, ?_, hph, rfl⟩, rfl⟩⟩⟩
    · exact hlength.trans_lt hbound
    · exact fun i hi => (hproven i hi).trans hbound

/-- What `sign_credential` returns is a public key and a signature under it. -/
theorem signCredential_inversion {secret credential : Bytes}
    (h : Bbs2023Sha256.signCredential B claims secret = .ok credential) :
    ∃ publicKey signature, credential = publicKey ++ signature ∧
      publicFromSecret B secret = .ok publicKey ∧
      Nonempty (Bbs2023SignRun B secret publicKey [] claims signature) := by
  obtain ⟨-, h⟩ := rejectIf_bind_eq_ok_iff.mp h
  obtain ⟨publicKey, hkey, h⟩ := except_bind_eq_ok_iff.mp h
  obtain ⟨signature, hsign, h⟩ := except_bind_eq_ok_iff.mp h
  cases h
  exact ⟨publicKey, signature, rfl, hkey, bbs2023Sign_inversion hsign⟩

/-- A presentation of a credential is accepted exactly when no part of its proof is zero. -/
theorem presentation_nonZero_iff (hB : B.Canonical) (hcount : claims.length ≤ 2 ^ 32)
    {credential : Bytes} {p : SelectiveProof}
    (h : Succeeds (Bbs2023Sha256.deriveProof B claims credential reveal nonce) p) :
    (∃ sig, Signature.fromOctets B (credential.drop publicKeyLen) = .ok sig) ∧
      ∃ q : Proof S, p.proof = q.toOctets B ∧
        ((Bbs2023Sha256.verifyProof B p (credential.take publicKeyLen) nonce).Returns true ↔
          q.NonZero) := by
  obtain ⟨run⟩ := proofGen_inversion (Bbs2023Sha256.made_of_succeeds h).made
  have hoctets := run.octets_eq
  refine ⟨⟨_, run.sig_eq⟩, run.proof, hoctets, ?_⟩
  rw [presentation_accepted_iff hB.toEncodes hcount h]
  generalize run.proof = made at hoctets
  rw [hoctets]
  constructor
  · intro ⟨q, hq⟩
    obtain rfl := of_returns_fromOctets hB.toEncodes hq
    exact ((returns_fromOctets_iff hB).mp hq).1
  · intro hne
    exact ⟨made, (returns_fromOctets_iff hB).mpr ⟨hne, rfl⟩⟩

/-- With a valid credential, `derive_proof` returns on all coins but those that start with
    zero. -/
theorem signed_presents_iff (h : Bbs2023Signed B publicKey [] claims signature pk sig)
    (hcount : claims.length ≤ 2 ^ 32) (hreveal : ∀ i ∈ reveal, i < claims.length)
    (hnonce : nonce.length < 2 ^ 64) {coins : Coins S.Fr}
    (hcoins : coins.WellFormed (hiddenPart (OrderedMap.ofKeys reveal) 0 claims).length)
    (rest : List S.Fr) :
    (∃ p, (Bbs2023Sha256.deriveProof B claims (publicKey ++ signature) reveal nonce).run
      (coins.write ++ rest) = some (.ok p, rest)) ↔ coins.r1 ≠ 0 := by
  have hms : (claimScalars B claims).length = claims.length := List.length_map _
  have hkeys : ∀ i ∈ (OrderedMap.ofKeys reveal).keys, i < claims.length := by
    intro i hi
    exact hreveal i (OrderedMap.mem_keys_ofKeys.mp hi)
  have hread := (Coins.lossless_read _).complete rest hcoins
  rw [← length_hiddenPart_eq (OrderedMap.ofKeys reveal) hms] at hread
  obtain ⟨-, -, domain, hdomain, -⟩ := (Signature.verify_eq_ok_true_iff hms).mp h.verifies
  have hok : (∃ q, makeProof B sig domain (OrderedMap.ofKeys reveal) (claimScalars B claims)
      (opt nonce) coins = .ok q) ↔ coins.r1 ≠ 0 :=
    makeProof_isOk_iff (by rwa [hms]) (by rwa [hms]) (by rwa [Bbs2023Context.opt_getD])
  rw [← hok, bbs2023DeriveProof_run nonce h hdomain hkeys, hread, Option.map_some]
  dsimp only
  cases makeProof B sig domain (OrderedMap.ofKeys reveal) (claimScalars B claims) (opt nonce)
      coins with
  | error k =>
    refine iff_of_false ?_ ?_
    · intro ⟨p, hp⟩
      cases hp
    · intro ⟨q, hq⟩
      cases hq
  | ok q => exact iff_of_true ⟨_, rfl⟩ ⟨q, rfl⟩

end Derive

end PhiCrypto

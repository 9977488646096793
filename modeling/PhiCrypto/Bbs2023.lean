import PhiCrypto.PairingCryptoProver

/-!
# The `bbs-2023` suite

The crate's entries to `pairing_crypto`, and `Bbs2023Sha256`, which puts them behind
the interface of the other suite. `Bbs2023Accepts` states what the verifier
accepts; `bbs2023ProofVerify_returns_true_iff` ties it to the code.
-/

namespace PhiCrypto

open Exec

variable {S : Suite}

/-- `opt`: an empty octet string counts as absent. -/
def opt (bytes : Bytes) : Option Bytes :=
  if bytes.isEmpty then none else some bytes

def secretKeyLen : Nat := 32

def publicKeyLen : Nat := 96

def signatureLen : Nat := 80

/-! ### The entries to the backend -/

def publicFromSecret (B : Blstrs S) (secretKey : Bytes) : Except CryptoError Bytes := do
  let sk ← (PairingCrypto.secretKeyFromVec S secretKey).mapError fun _ => CryptoError.invalidKey
  pure (B.g2ToCompressed (sk • B.g2Generator))

def bbs2023Sign (B : Blstrs S) (secretKey publicKey header : Bytes) (messages : List Bytes) :
    Except CryptoError Bytes := do
  rejectIf (secretKey.length ≠ secretKeyLen) CryptoError.invalidKey
  rejectIf (publicKey.length ≠ publicKeyLen) CryptoError.invalidKey
  (PairingCrypto.sign B secretKey publicKey (opt header) messages).mapError fun _ =>
    CryptoError.backend "bbs2023 sign"

/-- Each message with whether it is revealed. -/
def proofMessages (revealSet : OrderedMap Unit) (messages : List Bytes) : List (Bool × Bytes) :=
  messages.zipIdx.map fun e => (revealSet.contains e.2, e.1)

def bbs2023ProofGen (B : Blstrs S) (publicKey signature header presentationHeader : Bytes)
    (messages : List Bytes) (reveal : List Nat) : ExceptT CryptoError (Rng S.Fr) Bytes := do
  rejectIf (publicKey.length ≠ publicKeyLen) CryptoError.invalidKey
  rejectIf (signature.length ≠ signatureLen) CryptoError.invalidSignature
  let revealSet := OrderedMap.ofKeys reveal
  rejectIf (∃ i ∈ revealSet.keys, i ≥ messages.length) revealOutOfRange
  ExceptT.adapt (fun _ => CryptoError.backend "bbs2023 proof_gen")
    (PairingCrypto.proofGen B publicKey (opt header) (opt presentationHeader) signature
      (proofMessages revealSet messages))

def bbs2023ProofVerify (B : Blstrs S) (publicKey header presentationHeader proof : Bytes)
    (revealed : List (Nat × Bytes)) : Exec Event Bool := do
  if publicKey.length ≠ publicKeyLen then return false
  match ← (PairingCrypto.proofVerify B publicKey (opt header) (opt presentationHeader) proof
      (if revealed.isEmpty then none else some revealed)).run with
  | .ok verdict => return verdict
  | .error _ => return false

/-! ### `Bbs2023Sha256` -/

/-- A revealed list with its indices as `usize`. -/
def usizeEntries (entries : List (UInt32 × Bytes)) : List (Nat × Bytes) :=
  entries.map fun entry => (entry.1.toNat, entry.2)

@[simp] theorem length_usizeEntries (entries : List (UInt32 × Bytes)) :
    (usizeEntries entries).length = entries.length :=
  List.length_map _

namespace Bbs2023Sha256

def signCredential (B : Blstrs S) (claims : List Bytes) (secret : Bytes) :
    Except CryptoError Bytes := do
  rejectIf (claims = []) (CryptoError.invalidInput "no claims")
  let publicKey ← publicFromSecret B secret
  let signature ← bbs2023Sign B secret publicKey [] claims
  pure (publicKey ++ signature)

def deriveProof (B : Blstrs S) (claims : List Bytes) (signature : Bytes) (reveal : List Nat)
    (nonce : Bytes) : ExceptT CryptoError (Rng S.Fr) SelectiveProof := do
  rejectIf (signature.length ≠ publicKeyLen + signatureLen) CryptoError.invalidSignature
  let proof ← bbs2023ProofGen B (signature.take publicKeyLen) (signature.drop publicKeyLen) [] nonce
    claims reveal
  pure
    { messageCount := UInt32.ofNat claims.length, proof,
      revealed := provenClaims (OrderedMap.ofKeys reveal) claims }

/-- The verifier does not read `message_count`. -/
def verifyProof (B : Blstrs S) (proof : SelectiveProof) (publicKey nonce : Bytes) :
    Exec Event Bool :=
  bbs2023ProofVerify B publicKey [] nonce proof.proof (usizeEntries proof.revealed)

end Bbs2023Sha256

/-! ### What the prover returns -/

theorem countP_proofMessages (revealSet : OrderedMap Unit) (messages : List Bytes) :
    ∀ i, ((messages.zipIdx i).map fun e => (revealSet.contains e.2, e.1)).countP
      (fun entry => !entry.1) = (hiddenPart revealSet i messages).length := by
  induction messages with
  | nil => intro i; rfl
  | cons message messages ih =>
    intro i
    rw [List.zipIdx_cons, List.map_cons, List.countP_cons, ih (i + 1), hiddenPart]
    cases revealSet.contains i <;> rfl

/-- A run of `derive_proof` that returns `p`, for the credential of this signature. -/
structure Bbs2023Made (B : Blstrs S) (claims : List Bytes) (signature : Bytes) (reveal : List Nat)
    (nonce : Bytes) (p : SelectiveProof) : Prop where
  signature_length : signature.length = 176
  reveal_lt : ∀ i ∈ (OrderedMap.ofKeys reveal).keys, i < claims.length
  count_eq : p.messageCount = UInt32.ofNat claims.length
  revealed_eq : p.revealed = provenClaims (OrderedMap.ofKeys reveal) claims
  made : Succeeds (PairingCrypto.proofGen B (signature.take publicKeyLen) (opt []) (opt nonce)
    (signature.drop publicKeyLen) (proofMessages (OrderedMap.ofKeys reveal) claims)) p.proof

theorem Bbs2023Sha256.made_of_succeeds {B : Blstrs S} {claims : List Bytes} {signature : Bytes}
    {reveal : List Nat} {nonce : Bytes} {p : SelectiveProof}
    (h : Succeeds (Bbs2023Sha256.deriveProof B claims signature reveal nonce) p) :
    Bbs2023Made B claims signature reveal nonce p := by
  obtain ⟨hsignature, h⟩ := succeeds_rejectIf_bind h
  obtain ⟨proof, hproof, tape, rest, hrun⟩ := succeeds_bind h
  cases hrun
  obtain ⟨-, h⟩ := succeeds_rejectIf_bind hproof
  obtain ⟨-, h⟩ := succeeds_rejectIf_bind h
  obtain ⟨hrange, h⟩ := succeeds_rejectIf_bind h
  refine ⟨not_not.mp hsignature, ?_, rfl, rfl, succeeds_adapt h⟩
  intro i hi
  by_contra hge
  exact hrange ⟨i, hi, not_lt.mp hge⟩

/-- A proof that `derive_proof` returned: it is made for at least one claim, and its
    length gives the number of hidden ones. -/
structure Bbs2023Derived (claims : List Bytes) (reveal : List Nat) (p : SelectiveProof) : Prop where
  claims_ne : claims ≠ []
  reveal_lt : ∀ i ∈ (OrderedMap.ofKeys reveal).keys, i < claims.length
  count_eq : p.messageCount = UInt32.ofNat claims.length
  revealed_eq : p.revealed = provenClaims (OrderedMap.ofKeys reveal) claims
  proof_length : p.proof.length + 32 * p.revealed.length = 192 + 32 * claims.length

theorem Bbs2023Sha256.derived_of_succeeds {B : Blstrs S}
    (hB : ∀ P, (B.g1ToCompressed P).length = 48) {claims : List Bytes} {signature : Bytes}
    {reveal : List Nat} {nonce : Bytes} {p : SelectiveProof}
    (h : Succeeds (Bbs2023Sha256.deriveProof B claims signature reveal nonce) p) :
    Bbs2023Derived claims reveal p := by
  have hmade := made_of_succeeds h
  obtain ⟨hne, hlen⟩ := PairingCrypto.proofGen_length hB hmade.made
  have hhidden := countP_proofMessages (OrderedMap.ofKeys reveal) claims 0
  have hsplit := length_hiddenPart_add hmade.reveal_lt
  have hrevealed : p.revealed.length = (OrderedMap.ofKeys reveal).length := by
    rw [hmade.revealed_eq]
    simp [provenClaims]
  refine ⟨?_, hmade.reveal_lt, hmade.count_eq, hmade.revealed_eq, ?_⟩
  · rintro rfl
    exact hne ⟨rfl, rfl⟩
  · rw [hlen, proofMessages, hhidden, hrevealed]
    omega

/-! ### What the verifier accepts -/

theorem getD_if_isEmpty {α : Type} (l : List α) :
    (if l.isEmpty then none else some l).getD [] = l := by
  cases l <;> rfl

/-- What `proof_verify` accepts. -/
structure Bbs2023Accepts (B : Blstrs S) (publicKey header presentationHeader proof : Bytes)
    (revealed : List (Nat × Bytes)) : Prop where
  key_length : publicKey.length = 96
  distinct : (revealed.map Prod.fst).Nodup
  accepts : ∃ pk p, PairingCrypto.Accepts B publicKey (opt header) (opt presentationHeader) proof
    revealed pk p

/-- The request gets through every check that `proof_verify` and the backend make
    before the loop over the generators. -/
structure Bbs2023Reaches (B : Blstrs S) (publicKey header proof : Bytes)
    (revealed : List (Nat × Bytes)) : Prop where
  key_length : publicKey.length = 96
  reaches : ∃ pk p, PairingCrypto.ReachesScan B publicKey (opt header) proof revealed pk p

section Verify

variable {P : Event → Prop} {B : Blstrs S} {publicKey header presentationHeader proof : Bytes}
  {revealed : List (Nat × Bytes)}

/-- `proof_verify` does not panic on distinct revealed indices. -/
theorem meets_bbs2023ProofVerify (B : Blstrs S) (publicKey header presentationHeader : Bytes)
    (hdistinct : (revealed.map Prod.fst).Nodup)
    (hcall : P (.pairingCryptoVerify (revealed.map Prod.fst)))
    (hP : PairingCrypto.ProofVerifyEvents P proof.length revealed.length) :
    (bbs2023ProofVerify B publicKey header presentationHeader proof revealed).Meets P
      (fun verdict => verdict = true ↔
        Bbs2023Accepts B publicKey header presentationHeader proof revealed) := by
  unfold bbs2023ProofVerify
  split
  next hlen =>
    exact meets_pure (iff_of_false (by simp) fun h => hlen h.key_length)
  next hlen =>
  have hlen : publicKey.length = 96 := not_not.mp hlen
  have hverify := PairingCrypto.meets_proofVerify (P := P) (B := B) publicKey (opt header)
    (opt presentationHeader) proof (if revealed.isEmpty then none else some revealed)
    (by rwa [getD_if_isEmpty]) (by rwa [getD_if_isEmpty]) (by rwa [getD_if_isEmpty])
  rw [getD_if_isEmpty] at hverify
  apply (show Exec.Meets P _ (ExceptT.run _) from hverify).bind
  rintro (k | verdict) hres
  · refine meets_pure (iff_of_false (by simp) fun h => ?_)
    cases hres.mpr h.accepts
  · apply meets_pure
    constructor
    · rintro rfl
      exact ⟨hlen, hdistinct, hres.mp rfl⟩
    · intro h
      exact Except.ok.inj (hres.mpr h.accepts)

theorem bbs2023ProofVerify_panics (hrepeat : ¬ (revealed.map Prod.fst).Nodup)
    (h : Bbs2023Reaches B publicKey header proof revealed) :
    (bbs2023ProofVerify B publicKey header presentationHeader proof revealed).Panics := by
  obtain ⟨pk, p, hreaches⟩ := h.reaches
  have hlen : ¬ publicKey.length ≠ publicKeyLen := not_not.mpr h.key_length
  rw [bbs2023ProofVerify, if_neg hlen]
  apply Panics.bind
  apply PairingCrypto.proofVerify_panics
  · rwa [getD_if_isEmpty]
  · rwa [getD_if_isEmpty]

theorem meets_bbs2023ProofVerify_of_not_reaches
    (h : ¬ Bbs2023Reaches B publicKey header proof revealed) :
    (bbs2023ProofVerify B publicKey header presentationHeader proof revealed).Meets
      (fun _ => True) (· = false) := by
  unfold bbs2023ProofVerify
  split
  · exact meets_pure rfl
  next hlen =>
  have hlen : publicKey.length = 96 := not_not.mp hlen
  have hnot : ¬ ∃ pk p, PairingCrypto.ReachesScan B publicKey (opt header) proof
      ((if revealed.isEmpty then none else some revealed).getD []) pk p := by
    rw [getD_if_isEmpty]
    exact fun hreaches => h ⟨hlen, hreaches⟩
  apply (show Exec.Meets _ _ (ExceptT.run _) from
    PairingCrypto.meets_proofVerify_of_not_reaches hnot).bind
  rintro (k | verdict) hres
  · exact meets_pure rfl
  · exact meets_pure (by simpa using hres)

/-- A repeated index is never accepted: the verifier rejects it or panics. -/
theorem bbs2023ProofVerify_returns_true_iff :
    (bbs2023ProofVerify B publicKey header presentationHeader proof revealed).Returns true ↔
      Bbs2023Accepts B publicKey header presentationHeader proof revealed := by
  by_cases hdistinct : (revealed.map Prod.fst).Nodup
  · exact (meets_bbs2023ProofVerify B publicKey header presentationHeader hdistinct trivial
      PairingCrypto.proofVerifyEvents_trivial).returns_true_iff
  refine iff_of_false ?_ (fun h => hdistinct h.distinct)
  by_cases hreaches : Bbs2023Reaches B publicKey header proof revealed
  · exact (bbs2023ProofVerify_panics hdistinct hreaches).not_returns true
  · intro htrue
    cases (meets_bbs2023ProofVerify_of_not_reaches hreaches).of_returns htrue

end Verify

end PhiCrypto

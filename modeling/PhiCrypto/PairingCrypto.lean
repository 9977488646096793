import PhiCrypto.BbsPlusAlgebra

/-!
# The `pairing_crypto` verifier

The vendored verifier behind the `bbs-2023` suite: `Proof::from_octets`,
`MemoryCachedGenerators::new`, `Proof::verify` and the API function
`proof_verify` that joins them.

`proof_verify` counts the messages from the length of the revealed list, but then
collects the list into a map, in which a repeated index is one entry. `verify`
walks over as many generators as were counted and takes the next entry of
`m_hat_list` for each one that is not in the map.
-/

namespace PhiCrypto

open Exec

/-- What `pairing_crypto` takes from `blstrs`. -/
structure Blstrs (S : Suite) where
  g1FromCompressed : Bytes → Option S.G1
  g1ToCompressed : S.G1 → Bytes
  g2FromCompressed : Bytes → Option S.G2
  g2ToCompressed : S.G2 → Bytes
  g2Generator : S.G2
  /-- `ExpandMsgXmd<Sha256>`, for a message, a domain tag and a number of bytes. -/
  expandMessage : Bytes → Bytes → Nat → Bytes
  /-- `G1Projective::hash_to::<ExpandMsgXmd<Sha256>>`. -/
  hashToG1 : Bytes → Bytes → S.G1

namespace PairingCrypto

/-- `Error`, as far as the modelled functions return it. -/
inductive Error where
  | badParams (cause : String)
  | conversion (cause : String)
  | badEncoding
  | messageIsTooLarge
  | dstIsTooLarge
  | invalidPublicKey
  | invalidSecretKey
  | signatureVerification
  | cryptoOps (cause : String)
  | malformedSignature (cause : String)
  | malformedProof (cause : String)
  | messageGeneratorsLengthMismatch (generators messages : Nat)
  | pointIsIdentity
  | unexpectedZeroValue
  | serde
deriving DecidableEq, Repr

variable {S : Suite}

/-- A function of the crate that returns a `Result`. -/
abbrev Result (α : Type) := ExceptT Error (Exec Event) α

/-! ### Hashing -/

def xofNoOfBytes : Nat := 48

def octetPointG1Length : Nat := 48

def octetScalarLength : Nat := 32

/-- `CipherSuiteId::BbsBls12381G1XmdSha256`. -/
def ciphersuiteId : Bytes := ascii "BBS_BLS12381G1_XMD:SHA-256_SSWU_RO_H2G_HM2S_"

def generatorSeed : Bytes := ciphersuiteId ++ ascii "MESSAGE_GENERATOR_SEED"

def bpGeneratorSeed : Bytes := ciphersuiteId ++ ascii "BP_MESSAGE_GENERATOR_SEED"

def generatorSeedDst : Bytes := ciphersuiteId ++ ascii "SIG_GENERATOR_SEED_"

def generatorDst : Bytes := ciphersuiteId ++ ascii "SIG_GENERATOR_DST_"

def defaultHashToScalarDst : Bytes := ciphersuiteId ++ ascii "H2S_"

def defaultMapMessageToScalarAsHashDst : Bytes :=
  ciphersuiteId ++ ascii "MAP_MSG_TO_SCALAR_AS_HASH_"

def hashToScalar (B : Blstrs S) (msgOctets dst : Bytes) : Except Error S.Fr := do
  rejectIf (∃ x ∈ dst, x ≥ 128) (Error.badParams "non-ascii dst")
  pure (beNat (B.expandMessage msgOctets dst xofNoOfBytes) : ZMod S.r)

def mapMessageToScalarAsHash (B : Blstrs S) (message : Bytes) : Except Error S.Fr := do
  let dst := defaultMapMessageToScalarAsHashDst
  rejectIf (∃ x ∈ dst, x ≥ 128) (Error.badParams "non-ascii dst")
  rejectIf (message.length > 2 ^ 64 - 1) Error.messageIsTooLarge
  rejectIf (dst.length > 255) Error.dstIsTooLarge
  hashToScalar B message dst

def i2osp (integer octetLength : Nat) : Except Error Bytes := do
  rejectIf (octetLength = 0 ∨ octetLength > 8) Error.serde
  rejectIf (integer ≥ 2 ^ (8 * octetLength)) Error.serde
  pure (beBytes octetLength integer)

def i2ospWithData (input : Bytes) (octetLength : Nat) : Except Error Bytes := do
  let prefixed ← i2osp input.length octetLength
  pure (prefixed ++ input)

/-! ### Generators -/

/-- The loop of `create_generators`, at counter `n` with the state `v`. -/
def generatorsFrom (B : Blstrs S) : Nat → Nat → Bytes → List S.G1
  | 0, _, _ => []
  | count + 1, n, v =>
    let v := B.expandMessage (v ++ beBytes 8 n) generatorSeedDst xofNoOfBytes
    B.hashToG1 v generatorDst :: generatorsFrom B count (n + 1) v

/-- `create_generators`, from a fresh state. -/
def createGenerators (B : Blstrs S) (seed : Bytes) (count : Nat) : Exec Event (List S.G1) := do
  withCapacity .generators count
  pure (generatorsFrom B count 1 (B.expandMessage seed generatorSeedDst xofNoOfBytes))

def p1 (B : Blstrs S) : Exec Event S.G1 := do
  let generators ← createGenerators B bpGeneratorSeed 1
  indexAt generators 0

/-- `MemoryCachedGenerators`. -/
structure Generators (S : Suite) where
  q : S.G1
  hList : List S.G1

/-- `MemoryCachedGenerators::new(count, None)`. -/
def Generators.new (B : Blstrs S) (count : Nat) : Exec Event (Generators S) := do
  let generators ← createGenerators B generatorSeed (count + 1)
  let hList ← sliceAt generators 1 (1 + count)
  let q ← indexAt generators 0
  pure { q, hList }

/-! ### The proof format -/

structure Proof (S : Suite) where
  aBar : S.G1
  bBar : S.G1
  r2Hat : S.Fr
  zHat : S.Fr
  mHatList : List S.Fr
  c : S.Fr

/-- `slicer!`: a sub-slice as an array of `size` bytes. -/
def slicer (buffer : Bytes) (lo hi size : Nat) : Result Bytes := do
  let s ← (sliceAt buffer lo hi : Exec Event Bytes)
  rejectIf (s.length ≠ size) (Error.conversion "slice to sized-array conversion")
  pure s

def scalarFromBytesBe (S : Suite) (b : Bytes) : Option S.Fr :=
  if beNat b < S.r then some (beNat b : ZMod S.r) else none

/-- `extract_point_value`: the point at `offset..end`, and the next window. -/
def extractPointValue (B : Blstrs S) (offset fin : Nat) (buffer : Bytes) :
    Result (S.G1 × Nat × Nat) := do
  let octets ← slicer buffer offset fin octetPointG1Length
  match B.g1FromCompressed octets with
  | none => throw Error.badEncoding
  | some value =>
    rejectIf (value = 0) Error.pointIsIdentity
    pure (value, fin, fin + octetPointG1Length)

def extractScalarValue (offset fin : Nat) (buffer : Bytes) : Result (S.Fr × Nat × Nat) := do
  let octets ← slicer buffer offset fin octetScalarLength
  match scalarFromBytesBe S octets with
  | none => throw (Error.malformedProof "failure while deserializing a `Scalar` value")
  | some value =>
    rejectIf (value = 0) Error.unexpectedZeroValue
    pure (value, fin, fin + octetScalarLength)

/-- The loop of `from_octets` over the hidden responses. -/
def extractScalarValues (buffer : Bytes) : Nat → Nat → Nat → Result (List S.Fr × Nat × Nat)
  | 0, offset, fin => pure ([], offset, fin)
  | n + 1, offset, fin => do
    let (value, offset, fin) ← extractScalarValue offset fin buffer
    let (values, offset, fin) ← extractScalarValues buffer n offset fin
    pure (value :: values, offset, fin)

def proofLenFloor : Nat := octetPointG1Length * 2 + octetScalarLength * 3

def Proof.fromOctets (B : Blstrs S) (buffer : Bytes) : Result (Proof S) := do
  rejectIf (buffer.length < proofLenFloor) (Error.malformedProof
    s!"not enough data, input buffer size: {buffer.length} bytes")
  let extra ← (usizeSub buffer.length proofLenFloor : Exec Event Nat)
  rejectIf (extra % octetScalarLength ≠ 0) (Error.malformedProof
    s!"variable length proof data size {extra} is not multiple of `Scalar` size {octetScalarLength} bytes")
  let unrevealedMessageCount := extra / octetScalarLength
  let (aBar, offset, fin) ← extractPointValue B 0 octetPointG1Length buffer
  let (bBar, offset, _) ← extractPointValue B offset fin buffer
  let (r2Hat, offset, fin) ← extractScalarValue offset (offset + octetScalarLength) buffer
  let (zHat, offset, fin) ← extractScalarValue offset fin buffer
  withCapacity .hiddenResponses unrevealedMessageCount
  let (mHatList, offset, fin) ← extractScalarValues buffer unrevealedMessageCount offset fin
  let octets ← slicer buffer offset fin octetScalarLength
  match scalarFromBytesBe S octets with
  | none => throw (Error.malformedProof "failure while deserializing `c`")
  | some c =>
    rejectIf (c = 0) Error.unexpectedZeroValue
    pure { aBar, bBar, r2Hat, zHat, mHatList, c }

/-! ### Verification -/

def multiExp (points : List S.G1) (scalars : List S.Fr) : Exec Event S.G1 := do
  let _ ← indexAt points 0
  withCapacity .scalarBytes (min points.length scalars.length * 32)
  if scalars.length < points.length then Exec.abort .lengthMismatch
  else pure (msm points scalars)

/-- `compute_domain`, for `l` messages. -/
def computeDomain (B : Blstrs S) (pk : S.G2) (header : Option Bytes) (l : Nat)
    (generators : Generators S) : Except Error S.Fr := do
  rejectIf (l ≠ generators.hList.length)
    (Error.messageGeneratorsLengthMismatch generators.hList.length l)
  let count ← i2osp l 8
  let headerField ← i2ospWithData (header.getD []) 8
  hashToScalar B (B.g2ToCompressed pk ++ count ++ B.g1ToCompressed generators.q
    ++ (generators.hList.map B.g1ToCompressed).flatten ++ ciphersuiteId ++ headerField)
    defaultHashToScalarDst

def computeChallenge (B : Blstrs S) (aBar bBar c : S.G1) (disclosedMessages : OrderedMap S.Fr)
    (domain : S.Fr) (ph : Option Bytes) : Except Error S.Fr := do
  let count ← i2osp disclosedMessages.length 8
  let indices ← disclosedMessages.keys.mapM fun i => i2osp i 8
  let phField ← i2ospWithData (ph.getD []) 8
  hashToScalar B (B.g1ToCompressed aBar ++ B.g1ToCompressed bBar ++ B.g1ToCompressed c ++ count
    ++ indices.flatten ++ (disclosedMessages.entries.map fun e => beBytes 32 e.2.val).flatten
    ++ beBytes 32 domain.val ++ phField) defaultHashToScalarDst

/-- The loop of `verify` over the generators, from index `i` and hidden response
    `j` on: the disclosed terms and the hidden terms. -/
def scanGenerators (mHatList : List S.Fr) (disclosedMessages : OrderedMap S.Fr) :
    Nat → Nat → List S.G1 → Exec Event (List (S.G1 × S.Fr) × List (S.G1 × S.Fr))
  | _, _, [] => pure ([], [])
  | i, j, generator :: rest =>
    if disclosedMessages.contains i then do
      let m ← unwrap (disclosedMessages.get? i)
      let (t, c) ← scanGenerators mHatList disclosedMessages (i + 1) j rest
      pure ((generator, m) :: t, c)
    else do
      let m ← indexAt mHatList j
      let (t, c) ← scanGenerators mHatList disclosedMessages (i + 1) (j + 1) rest
      pure (t, (generator, m) :: c)

/-- The input checks of `Proof::verify`. -/
def Proof.checkParams (p : Proof S) (pk : S.G2) (header : Option Bytes) (generators : Generators S)
    (disclosedMessages : OrderedMap S.Fr) (total : Nat) : Result Unit := do
  rejectIf (header = none ∧ total = 0) (Error.badParams "nothing to verify")
  rejectIf (total ≠ generators.hList.length) (Error.badParams
    s!"Incorrect number of messages and generators: [#generators: {generators.hList.length}, #hidden_messages: {p.mHatList.length}, #revealed_messages: {disclosedMessages.length}]")
  if ∃ r ∈ disclosedMessages.keys, r ≥ total then do
    let maximum ← (usizeSub total 1 : Exec Event Nat)
    throw (Error.badParams
      s!"revealed message index value is invalid, maximum allowed value is {maximum}")
  rejectIf (pk = 0) Error.invalidPublicKey

/-- `Proof::verify`, for a given total number of messages. -/
def Proof.verify (B : Blstrs S) (p : Proof S) (pk : S.G2) (header ph : Option Bytes)
    (generators : Generators S) (disclosedMessages : OrderedMap S.Fr) (total : Nat) :
    Result Bool := do
  p.checkParams pk header generators disclosedMessages total
  let domain ← ExceptT.mk (pure (computeDomain B pk header generators.hList.length generators))
  withCapacity .verifierTerms (1 + 1 + disclosedMessages.length)
  withCapacity .verifierTerms (1 + 1 + disclosedMessages.length)
  let p1 ← (p1 B : Exec Event S.G1)
  withCapacity .verifierTerms p.mHatList.length
  withCapacity .verifierTerms p.mHatList.length
  let (disclosed, hidden) ←
    (scanGenerators p.mHatList disclosedMessages 0 0 generators.hList : Exec Event _)
  let t ← (multiExp (p1 :: generators.q :: disclosed.map Prod.fst)
    (1 :: domain :: disclosed.map Prod.snd) : Exec Event S.G1)
  withCapacity .verifierTerms (1 + 1 + 1 + p.mHatList.length)
  withCapacity .verifierTerms (1 + 1 + 1 + p.mHatList.length)
  let c ← (multiExp (t :: p.aBar :: p.bBar :: hidden.map Prod.fst)
    (p.c :: p.r2Hat :: p.zHat :: hidden.map Prod.snd) : Exec Event S.G1)
  let cv ← ExceptT.mk (pure (computeChallenge B p.aBar p.bBar c disclosedMessages domain ph))
  if p.c ≠ cv then pure false
  else do
    rejectIf (p.aBar = 0) Error.pointIsIdentity
    pure (S.pair p.aBar pk + S.pair p.bBar (-B.g2Generator) = 0)

def digestRevealedProofMessages (B : Blstrs S) (messages : List (Nat × Bytes)) (total : Nat) :
    Except Error (OrderedMap S.Fr) := do
  rejectIf (∃ entry ∈ messages, entry.1 ≥ total) (Error.badParams
    s!"revealed message index is out of bounds, total_message_count is {total}")
  let digested ← messages.mapM fun entry => do
    let m ← mapMessageToScalarAsHash B entry.2
    pure (entry.1, m)
  pure (OrderedMap.ofList digested)

def proofVerify (B : Blstrs S) (publicKey : Bytes) (header ph : Option Bytes) (proof : Bytes)
    (messages : Option (List (Nat × Bytes))) : Result Bool := do
  Exec.emit (Event.pairingCryptoVerify ((messages.getD []).map Prod.fst))
  match B.g2FromCompressed publicKey with
  | none => throw Error.badEncoding
  | some pk =>
    let proof ← Proof.fromOctets B proof
    let messages := messages.getD []
    let total := proof.mHatList.length + messages.length
    let messages ← ExceptT.mk (pure (digestRevealedProofMessages B messages total))
    let generators ← (Generators.new B total : Exec Event (Generators S))
    proof.verify B pk header ph generators messages total

/-! ### The decoder stays within its buffer -/

section Decoder

variable {P : Event → Prop} {buffer : Bytes}

theorem meets_slicer {lo hi size : Nat} (h : lo ≤ hi ∧ hi ≤ buffer.length) :
    MeetsResult P (fun _ => True) (slicer buffer lo hi size) := by
  apply MeetsResult.lift_bind (meets_sliceAt h)
  rintro s rfl
  exact MeetsResult.rejectIf_bind (fun _ => trivial) (fun _ => meetsResult_pure trivial)

/-- A value that was read, with the window that follows it. -/
def Window {α : Type} (offset fin : Nat) : Except Error (α × Nat × Nat) → Prop
  | .error _ => True
  | .ok (_, offset', fin') => offset' = offset ∧ fin' = fin

theorem meets_extractPointValue (B : Blstrs S) {offset fin : Nat}
    (h : offset ≤ fin ∧ fin ≤ buffer.length) :
    MeetsResult P (Window fin (fin + 48)) (extractPointValue B offset fin buffer) := by
  refine MeetsResult.bind (meets_slicer h) ?_ (fun _ _ => trivial)
  intro octets _
  cases B.g1FromCompressed octets with
  | none => exact meetsResult_throw trivial
  | some value =>
    exact MeetsResult.rejectIf_bind (fun _ => trivial) (fun _ => meetsResult_pure ⟨rfl, rfl⟩)

theorem meets_extractScalarValue {offset fin : Nat} (h : offset ≤ fin ∧ fin ≤ buffer.length) :
    MeetsResult P (Window fin (fin + 32)) (extractScalarValue (S := S) offset fin buffer) := by
  refine MeetsResult.bind (meets_slicer h) ?_ (fun _ _ => trivial)
  intro octets _
  cases scalarFromBytesBe S octets with
  | none => exact meetsResult_throw trivial
  | some value =>
    exact MeetsResult.rejectIf_bind (fun _ => trivial) (fun _ => meetsResult_pure ⟨rfl, rfl⟩)

theorem meets_extractScalarValues {n : Nat} :
    ∀ {offset : Nat}, offset + 32 * n ≤ buffer.length →
      MeetsResult P
        (fun res => Window (offset + 32 * n) (offset + 32 * n + 32) res ∧
          ∀ values w, res = .ok (values, w) → values.length = n)
        (extractScalarValues (S := S) buffer n offset (offset + 32)) := by
  induction n with
  | zero =>
    intro offset _
    refine meetsResult_pure ⟨⟨rfl, rfl⟩, ?_⟩
    rintro values w ⟨⟩
    rfl
  | succ n ih =>
    intro offset hlen
    refine MeetsResult.bind (meets_extractScalarValue ⟨by omega, by omega⟩) ?_
      (fun _ _ => ⟨trivial, fun _ _ h => by cases h⟩)
    rintro ⟨value, offset', fin'⟩ ⟨rfl, rfl⟩
    refine MeetsResult.bind (ih (by omega)) ?_ (fun _ _ => ⟨trivial, fun _ _ h => by cases h⟩)
    rintro ⟨values, offset'', fin''⟩ ⟨⟨rfl, rfl⟩, hvalues⟩
    refine meetsResult_pure ⟨⟨by omega, by omega⟩, ?_⟩
    rintro _ w ⟨⟩
    rw [List.length_cons, hvalues values _ rfl]

/-- `from_octets` does not panic; the number of hidden responses that it accepts
    is fixed by the length of the buffer. -/
theorem meets_fromOctets (B : Blstrs S)
    (hP : ∀ n, 192 + 32 * n = buffer.length → P (.capacity .hiddenResponses n)) :
    MeetsResult P (fun res => ∀ p, res = .ok p → 192 + 32 * p.mHatList.length = buffer.length)
      (Proof.fromOctets B buffer) := by
  apply MeetsResult.rejectIf_bind (fun _ _ h => by cases h)
  intro hfloor
  apply MeetsResult.lift_bind (meets_usizeSub (not_lt.mp hfloor))
  intro extra hextra
  apply MeetsResult.rejectIf_bind (fun _ _ h => by cases h)
  intro hmultiple
  obtain ⟨n, hn, hcount⟩ : ∃ n, buffer.length = 192 + 32 * n ∧ extra / octetScalarLength = n := by
    simp only [proofLenFloor, octetPointG1Length, octetScalarLength] at hfloor hextra hmultiple ⊢
    exact ⟨_, by omega, rfl⟩
  refine MeetsResult.bind (meets_extractPointValue B ⟨by simp, ?_⟩) ?_ (fun _ _ _ h => by cases h)
  · simp only [octetPointG1Length]
    omega
  rintro ⟨aBar, _, _⟩ ⟨rfl, rfl⟩
  refine MeetsResult.bind (meets_extractPointValue B ⟨by omega, ?_⟩) ?_ (fun _ _ _ h => by cases h)
  · simp only [octetPointG1Length]
    omega
  rintro ⟨bBar, _, _⟩ ⟨rfl, rfl⟩
  refine MeetsResult.bind (meets_extractScalarValue ⟨by omega, ?_⟩) ?_ (fun _ _ _ h => by cases h)
  · simp only [octetPointG1Length, octetScalarLength]
    omega
  rintro ⟨r2Hat, _, _⟩ ⟨rfl, rfl⟩
  refine MeetsResult.bind (meets_extractScalarValue ⟨by omega, ?_⟩) ?_ (fun _ _ _ h => by cases h)
  · simp only [octetPointG1Length, octetScalarLength]
    omega
  rintro ⟨zHat, _, _⟩ ⟨rfl, rfl⟩
  dsimp only
  rw [hcount]
  apply MeetsResult.emit_bind (hP n hn.symm)
  refine MeetsResult.bind (meets_extractScalarValues ?_) ?_ (fun _ _ _ h => by cases h)
  · simp only [octetPointG1Length, octetScalarLength]
    omega
  rintro ⟨mHatList, _, _⟩ ⟨⟨rfl, rfl⟩, hvalues⟩
  dsimp only
  refine MeetsResult.bind (meets_slicer ⟨by omega, ?_⟩) ?_ (fun _ _ _ h => by cases h)
  · simp only [octetPointG1Length, octetScalarLength]
    omega
  intro octets _
  cases scalarFromBytesBe S octets with
  | none => exact meetsResult_throw (fun _ h => by cases h)
  | some c =>
    refine MeetsResult.rejectIf_bind (fun _ _ h => by cases h) (fun _ => meetsResult_pure ?_)
    rintro _ ⟨⟩
    rw [hvalues mHatList _ rfl, hn]

end Decoder

end PairingCrypto

end PhiCrypto

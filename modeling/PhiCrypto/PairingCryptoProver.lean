import PhiCrypto.PairingCryptoVerifier
import PhiCrypto.Provers

/-!
# Signing and proving in `pairing_crypto`

`sign` makes a signature of a secret key; it is deterministic. `proof_gen` decodes
a signature, verifies it over all messages and makes a proof of fresh scalars.
Neither bounds the number of messages. The length of a proof gives the number of
hidden ones (`proofGen_length`).
-/

namespace PhiCrypto

namespace PairingCrypto

variable {S : Suite}

/-! ### Signatures -/

structure Signature (S : Suite) where
  a : S.G1
  e : S.Fr

/-- `Signature::from_octets`, on an array of 80 bytes. -/
def Signature.fromOctets (B : Blstrs S) (data : Bytes) : Except Error (Signature S) :=
  match B.g1FromCompressed (data.take octetPointG1Length) with
  | none => throw Error.badEncoding
  | some a => do
    rejectIf (a = 0) Error.pointIsIdentity
    match scalarFromBytesBe S ((data.drop octetPointG1Length).take octetScalarLength) with
    | none =>
      throw (Error.malformedSignature "failed to deserialize `e` component of signature")
    | some e =>
      rejectIf (e = 0) Error.unexpectedZeroValue
      pure { a, e }

/-- `compute_B`. -/
def computeB (B : Blstrs S) (domain : S.Fr) (messages : List S.Fr) (generators : Generators S) :
    Except Error S.G1 := do
  rejectIf (messages.length ≠ generators.hList.length)
    (Error.messageGeneratorsLengthMismatch generators.hList.length messages.length)
  pure (msm (basePoint B :: generators.q :: generators.hList) (1 :: domain :: messages))

def Signature.verify (B : Blstrs S) (signature : Signature S) (pk : S.G2) (header : Option Bytes)
    (generators : Generators S) (messages : List S.Fr) : Except Error Bool := do
  rejectIf (header = none ∧ messages = []) (Error.badParams "nothing to verify")
  rejectIf (messages.length ≠ generators.hList.length)
    (Error.messageGeneratorsLengthMismatch generators.hList.length messages.length)
  rejectIf (pk = 0) Error.invalidPublicKey
  let domain ← computeDomain B pk header messages.length generators
  let b ← computeB B domain messages generators
  pure (S.pair signature.a (pk + signature.e • B.g2Generator) + S.pair b (-B.g2Generator) = 0)

def Signature.toOctets (B : Blstrs S) (signature : Signature S) : Bytes :=
  B.g1ToCompressed signature.a ++ beBytes 32 signature.e.val

/-! ### Signing -/

/-- `SecretKey::from_bytes`, on an array of 32 bytes. -/
def secretKeyFromBytes (S : Suite) (bytes : Bytes) : Except Error S.Fr :=
  match scalarFromBytesBe S bytes with
  | none => throw (Error.badParams "can't built a valid `SecretKey` from input data")
  | some s => do
    rejectIf (s = 0) Error.invalidSecretKey
    pure s

/-- `SecretKey::from_vec`. -/
def secretKeyFromVec (S : Suite) (bytes : Bytes) : Except Error S.Fr := do
  rejectIf (bytes.length ≠ octetScalarLength) (Error.conversion
    s!"source vector size {bytes.length}, expected destination byte array size {octetScalarLength}")
  secretKeyFromBytes S bytes

def Signature.new (B : Blstrs S) (sk : S.Fr) (pk : S.G2) (header : Option Bytes)
    (generators : Generators S) (messages : List S.Fr) : Except Error (Signature S) := do
  rejectIf (header = none ∧ messages = []) (Error.badParams "nothing to sign")
  rejectIf (messages.length ≠ generators.hList.length)
    (Error.messageGeneratorsLengthMismatch generators.hList.length messages.length)
  rejectIf (sk = 0) Error.invalidSecretKey
  let domain ← computeDomain B pk header messages.length generators
  let e ← hashToScalar B (beBytes 32 sk.val ++ beBytes 32 domain.val
    ++ (messages.map fun m => beBytes 32 m.val).flatten) defaultHashToScalarDst
  let b ← computeB B domain messages generators
  rejectIf (e + sk = 0)
    (Error.cryptoOps "failed to generate `exp` for `A` component of signature")
  pure { a := (e + sk)⁻¹ • b, e }

/-- `sign`, for a list of messages. -/
def sign (B : Blstrs S) (secretKey publicKey : Bytes) (header : Option Bytes)
    (messages : List Bytes) : Except Error Bytes := do
  let sk ← secretKeyFromBytes S secretKey
  match B.g2FromCompressed publicKey with
  | none => throw Error.badEncoding
  | some pk =>
    let messages ← messages.mapM (mapMessageToScalarAsHash B)
    let generators := Generators.derive B messages.length
    let signature ← Signature.new B sk pk header generators messages
    pure (signature.toOctets B)

/-! ### Proof generation -/

inductive ProofMessage (F : Type) where
  | revealed (m : F)
  | hidden (m : F)

namespace ProofMessage

variable {F : Type}

def getMessage : ProofMessage F → F
  | revealed m => m
  | hidden m => m

def isHidden : ProofMessage F → Bool
  | revealed _ => false
  | hidden _ => true

def mark (reveal : Bool) (m : F) : ProofMessage F :=
  if reveal then revealed m else hidden m

end ProofMessage

/-- A hidden message with its generator and the scalar that masks it. -/
structure HiddenMessage (S : Suite) where
  point : S.G1
  mTilde : S.Fr
  message : S.Fr

/-- The loop of `new_with_rng` over the generators, from index `i` on: the hidden and the
    disclosed messages. There are as many messages as generators. -/
def splitMessages :
    Nat → List S.G1 → List (ProofMessage S.Fr) →
      Rng S.Fr (List (HiddenMessage S) × List (Nat × S.Fr))
  | i, generator :: generators, message :: messages =>
    match message with
    | .revealed m => do
      let (hidden, disclosed) ← splitMessages (i + 1) generators messages
      pure (hidden, (i, m) :: disclosed)
    | .hidden m => do
      let mTilde ← Rng.draw
      let (hidden, disclosed) ← splitMessages (i + 1) generators messages
      pure ({ point := generator, mTilde, message := m } :: hidden, disclosed)
  | _, _, _ => pure ([], [])

/-- `Proof::new_with_rng`. -/
def Proof.new (B : Blstrs S) (pk : S.G2) (signature : Signature S) (header ph : Option Bytes)
    (generators : Generators S) (messages : List (ProofMessage S.Fr)) :
    ExceptT Error (Rng S.Fr) (Proof S) := do
  rejectIf (header = none ∧ messages.length = 0) (Error.badParams "nothing to prove")
  rejectIf (messages.length ≠ generators.hList.length)
    (Error.messageGeneratorsLengthMismatch generators.hList.length messages.length)
  let domain ← liftExcept (computeDomain B pk header messages.length generators)
  let r1 ← liftM (Rng.draw : Rng S.Fr S.Fr)
  let r2Tilde ← liftM (Rng.draw : Rng S.Fr S.Fr)
  let zTilde ← liftM (Rng.draw : Rng S.Fr S.Fr)
  let aBar := r1 • signature.a
  let b ← liftExcept (computeB B domain (messages.map ProofMessage.getMessage) generators)
  let bBar := msm [b, aBar] [r1, -signature.e]
  rejectIf (r1 = 0) (Error.cryptoOps "Failed to invert `r1`")
  let r2 := -r1⁻¹
  let (hidden, disclosed) ← liftM (splitMessages 0 generators.hList messages)
  let commitment := msm (aBar :: bBar :: hidden.map HiddenMessage.point)
    (r2Tilde :: zTilde :: hidden.map HiddenMessage.mTilde)
  let c ← liftExcept (computeChallenge B aBar bBar commitment (OrderedMap.ofList disclosed) domain
    ph)
  pure
    { aBar, bBar, r2Hat := r2Tilde + c * signature.e * r2, zHat := zTilde + c * r2,
      mHatList := hidden.map fun h => h.mTilde + c * h.message, c }

def Proof.toOctets (B : Blstrs S) (p : Proof S) : Bytes :=
  B.g1ToCompressed p.aBar ++ B.g1ToCompressed p.bBar ++ beBytes 32 p.r2Hat.val
    ++ beBytes 32 p.zHat.val ++ (p.mHatList.map fun m => beBytes 32 m.val).flatten
    ++ beBytes 32 p.c.val

/-- `digest_proof_messages`, for messages that are marked as revealed or not. -/
def digestProofMessages (B : Blstrs S) (messages : List (Bool × Bytes)) :
    Except Error (List (ProofMessage S.Fr)) :=
  messages.mapM fun entry => do
    let m ← mapMessageToScalarAsHash B entry.2
    pure (ProofMessage.mark entry.1 m)

/-- `proof_gen`, with the signature verified first. -/
def proofGen (B : Blstrs S) (publicKey : Bytes) (header ph : Option Bytes) (signature : Bytes)
    (messages : List (Bool × Bytes)) : ExceptT Error (Rng S.Fr) Bytes :=
  match B.g2FromCompressed publicKey with
  | none => throw Error.badEncoding
  | some pk => do
    let proofMessages ← liftExcept (digestProofMessages B messages)
    let digestedMessages := proofMessages.map ProofMessage.getMessage
    let generators := Generators.derive B digestedMessages.length
    let signature ← liftExcept (Signature.fromOctets B signature)
    let verdict ← liftExcept (signature.verify B pk header generators digestedMessages)
    rejectIf (verdict = false) Error.signatureVerification
    let proof ← Proof.new B pk signature header ph generators proofMessages
    pure (proof.toOctets B)

/-! ### The length of a proof -/

/-- The loop keeps one response for every hidden message. -/
theorem length_splitMessages {generators : List S.G1} {messages : List (ProofMessage S.Fr)}
    (hlen : messages.length = generators.length) {i : Nat} {tape rest : List S.Fr}
    {hidden : List (HiddenMessage S)} {disclosed : List (Nat × S.Fr)}
    (h : splitMessages i generators messages tape = some ((hidden, disclosed), rest)) :
    hidden.length = messages.countP ProofMessage.isHidden := by
  induction messages generalizing generators i tape hidden disclosed with
  | nil =>
    rw [splitMessages] at h
    · cases h
      rfl
    · simp
  | cons message messages ih =>
    obtain ⟨generator, generators, rfl⟩ := List.exists_cons_of_length_eq_add_one hlen.symm
    have htail : messages.length = generators.length := by simpa using hlen
    cases message with
    | revealed m =>
      rw [splitMessages, Rng.bind_eq_some_iff] at h
      rcases h with ⟨⟨hidden', disclosed'⟩, middle, hrec, h⟩
      cases h
      rw [ih htail hrec]
      rfl
    | hidden m =>
      rw [splitMessages, Rng.bind_eq_some_iff] at h
      rcases h with ⟨mTilde, tape', -, h⟩
      rw [Rng.bind_eq_some_iff] at h
      rcases h with ⟨⟨hidden', disclosed'⟩, middle, hrec, h⟩
      cases h
      rw [List.length_cons, ih htail hrec, List.countP_cons_of_pos rfl]

variable {B : Blstrs S} {publicKey : Bytes} {header ph : Option Bytes}

/-- A run of `new_with_rng` that returns `p`. -/
structure Proof.Run (B : Blstrs S) (pk : S.G2) (signature : Signature S) (header ph : Option Bytes)
    (generators : Generators S) (messages : List (ProofMessage S.Fr)) (p : Proof S) where
  domain : S.Fr
  r1 : S.Fr
  r2Tilde : S.Fr
  zTilde : S.Fr
  b : S.G1
  hidden : List (HiddenMessage S)
  disclosed : List (Nat × S.Fr)
  nonempty : ¬ (header = none ∧ messages.length = 0)
  count_eq : messages.length = generators.hList.length
  domain_eq : computeDomain B pk header messages.length generators = .ok domain
  b_eq : computeB B domain (messages.map ProofMessage.getMessage) generators = .ok b
  r1_ne_zero : r1 ≠ 0
  split : ∃ tape rest, splitMessages 0 generators.hList messages tape
    = some ((hidden, disclosed), rest)
  aBar_eq : p.aBar = r1 • signature.a
  bBar_eq : p.bBar = msm [b, p.aBar] [r1, -signature.e]
  r2Hat_eq : p.r2Hat = r2Tilde + p.c * signature.e * -r1⁻¹
  zHat_eq : p.zHat = zTilde + p.c * -r1⁻¹
  mHatList_eq : p.mHatList = hidden.map fun h => h.mTilde + p.c * h.message
  challenge_eq : computeChallenge B p.aBar p.bBar
    (msm (p.aBar :: p.bBar :: hidden.map HiddenMessage.point)
      (r2Tilde :: zTilde :: hidden.map HiddenMessage.mTilde))
    (OrderedMap.ofList disclosed) domain ph = .ok p.c

theorem new_inversion {pk : S.G2} {signature : Signature S} {generators : Generators S}
    {messages : List (ProofMessage S.Fr)} {p : Proof S}
    (h : Succeeds (Proof.new B pk signature header ph generators messages) p) :
    Nonempty (Proof.Run B pk signature header ph generators messages p) := by
  rcases succeeds_rejectIf_bind h with ⟨hne, h⟩
  rcases succeeds_rejectIf_bind h with ⟨hlen, h⟩
  rcases succeeds_liftExcept_bind h with ⟨domain, hdomain, h⟩
  rcases succeeds_liftM_bind h with ⟨r1, -, h⟩
  rcases succeeds_liftM_bind h with ⟨r2Tilde, -, h⟩
  rcases succeeds_liftM_bind h with ⟨zTilde, -, h⟩
  rcases succeeds_liftExcept_bind h with ⟨b, hb, h⟩
  rcases succeeds_rejectIf_bind h with ⟨hr1, h⟩
  rcases succeeds_liftM_bind h with ⟨⟨hidden, disclosed⟩, hsplit, h⟩
  rcases succeeds_liftExcept_bind h with ⟨c, hc, h⟩
  rcases h with ⟨tape, rest, hrun⟩
  cases hrun
  exact ⟨⟨domain, r1, r2Tilde, zTilde, b, hidden, disclosed, hne, not_not.mp hlen, hdomain, hb, hr1,
    hsplit, rfl, rfl, rfl, rfl, rfl, hc⟩⟩

/-- A proof answers for each hidden message. -/
theorem Proof.Run.length_mHatList {pk : S.G2} {signature : Signature S} {generators : Generators S}
    {messages : List (ProofMessage S.Fr)} {p : Proof S}
    (run : Proof.Run B pk signature header ph generators messages p) :
    p.mHatList.length = messages.countP ProofMessage.isHidden := by
  rcases run.split with ⟨tape, rest, hsplit⟩
  rw [run.mHatList_eq, List.length_map, length_splitMessages run.count_eq hsplit]

theorem digestProofMessages_eq_ok_iff {messages : List (Bool × Bytes)}
    {digested : List (ProofMessage S.Fr)} :
    digestProofMessages B messages = .ok digested ↔
      (∀ entry ∈ messages, entry.2.length < 2 ^ 64) ∧
        digested = messages.map fun entry => .mark entry.1 (messageScalar B entry.2) :=
  mapM_digest_eq_ok_iff (f := ProofMessage.mark)

theorem length_toOctets (hB : ∀ P, (B.g1ToCompressed P).length = 48) (p : Proof S) :
    (p.toOctets B).length = 192 + 32 * p.mHatList.length := by
  have hscalars : ((p.mHatList.map fun m => beBytes 32 m.val).flatten).length
      = 32 * p.mHatList.length := by
    rw [List.length_flatten, List.map_map]
    simp [Function.comp_def, Nat.mul_comm]
  simp only [Proof.toOctets, List.length_append, hB, beBytes_length, hscalars]
  omega

/-- A run of `proof_gen` that returns these octets. -/
structure ProofGenRun (B : Blstrs S) (publicKey : Bytes) (header ph : Option Bytes)
    (signature : Bytes) (messages : List (Bool × Bytes)) (octets : Bytes) where
  pk : S.G2
  sig : Signature S
  proof : Proof S
  digested : List (ProofMessage S.Fr)
  key_eq : B.g2FromCompressed publicKey = some pk
  digested_eq : digestProofMessages B messages = .ok digested
  sig_eq : Signature.fromOctets B signature = .ok sig
  sig_valid : sig.verify B pk header (Generators.derive B digested.length)
    (digested.map ProofMessage.getMessage) = .ok true
  made : Proof.Run B pk sig header ph (Generators.derive B digested.length) digested proof
  octets_eq : octets = proof.toOctets B

theorem proofGen_inversion {signature octets : Bytes} {messages : List (Bool × Bytes)}
    (h : Succeeds (proofGen B publicKey header ph signature messages) octets) :
    Nonempty (ProofGenRun B publicKey header ph signature messages octets) := by
  unfold proofGen at h
  split at h
  · rcases h with ⟨tape, rest, hrun⟩
    cases hrun
  next pk hpk =>
  rcases succeeds_liftExcept_bind h with ⟨digested, hdigest, h⟩
  rcases succeeds_liftExcept_bind h with ⟨sig, hsig, h⟩
  rcases succeeds_liftExcept_bind h with ⟨verdict, hverdict, h⟩
  rcases succeeds_rejectIf_bind h with ⟨htrue, h⟩
  rcases succeeds_bind h with ⟨proof, hproof, tape, rest, hrun⟩
  cases hrun
  rw [Bool.not_eq_false] at htrue
  subst htrue
  rw [List.length_map] at hverdict hproof
  rcases new_inversion hproof with ⟨made⟩
  exact ⟨⟨pk, sig, proof, digested, hpk, hdigest, hsig, hverdict, made, rfl⟩⟩

theorem countP_isHidden_mark (messages : List (Bool × Bytes)) :
    (messages.map fun entry => ProofMessage.mark entry.1 (messageScalar B entry.2)).countP
      ProofMessage.isHidden = messages.countP fun entry => !entry.1 := by
  rw [List.countP_map]
  congr 1
  funext entry
  cases hreveal : entry.1 <;> simp [ProofMessage.mark, hreveal, ProofMessage.isHidden]

/-- The length of a proof gives the number of hidden messages. -/
theorem proofGen_length (hB : ∀ P, (B.g1ToCompressed P).length = 48) {signature octets : Bytes}
    {messages : List (Bool × Bytes)}
    (h : Succeeds (proofGen B publicKey header ph signature messages) octets) :
    ¬ (header = none ∧ messages.length = 0) ∧
      octets.length = 192 + 32 * messages.countP fun entry => !entry.1 := by
  rcases proofGen_inversion h with ⟨run⟩
  obtain ⟨-, hdigested⟩ := digestProofMessages_eq_ok_iff.mp run.digested_eq
  have hne := run.made.nonempty
  have hlen := run.made.length_mHatList
  rw [hdigested, List.length_map] at hne
  rw [hdigested, countP_isHidden_mark] at hlen
  refine ⟨hne, ?_⟩
  rw [run.octets_eq, length_toOctets hB, hlen]

end PairingCrypto

end PhiCrypto

import PhiCrypto.ArkSerialize
import PhiCrypto.TracedExec
import Mathlib.Algebra.Module.LinearMap.Defs
import Mathlib.LinearAlgebra.BilinearMap
import Mathlib.Algebra.Field.ZMod

/-!
# The cryptographic suite and its hash preimages

`Suite` collects what the crate takes from its dependencies: a prime-order
bilinear group (BLS12-381), its point formats, SHA-256, and the hash-to-curve
functions. The Fiat-Shamir hash is not part of it. Every prover and verifier
takes it as a separate oracle `H`, so that statements about two oracles can be
made.

The module also has the error type, the events that the verification boundary
records, and the byte strings that the crate hashes.
-/

namespace PhiCrypto

inductive CryptoError where
  | invalidInput (what : String)
  | invalidKey
  | invalidSignature
  | verificationFailed
  | unsupportedCurve
  | backend (what : String)
deriving DecidableEq, Repr

/-- The buffers whose requested capacity is recorded: those of the crate and of the two
    vendored BBS verifiers, with the scalar bytes that `blstrs` copies for the second. -/
inductive Buffer where
  /-- The revealed list of `SelectiveProof::from_bytes`, `VoteProof::from_bytes`
      or `decode_revealed`, sized by a count read from the input. -/
  | decodedClaims
  | transcript
  /-- The signed message of `webauthn::verify_inner`. -/
  | signedData
  /-- `bases_2` of the BBS+ verifier. -/
  | schnorrBases
  /-- `bases_revealed` and `exponents` of the BBS+ verifier. -/
  | revealedTerms
  /-- `m_hat_list` of the `pairing_crypto` decoder. -/
  | hiddenResponses
  /-- The generator list of `pairing_crypto`. -/
  | generators
  /-- The point and scalar lists of the `pairing_crypto` verifier. -/
  | verifierTerms
  /-- The scalar bytes of `multi_exp`. -/
  | scalarBytes
deriving DecidableEq, Repr

/-- What a run at the verification boundary records. -/
inductive Event where
  | capacity (buffer : Buffer) (entries : Nat)
  | paramsFor (count : Nat)
  /-- The vendored BBS+ verifier, for `count` messages, with these revealed keys. -/
  | bbsPlusVerify (revealed : List Nat) (count : Nat)
  /-- The vendored `pairing_crypto` verifier, with these revealed indices. -/
  | pairingCryptoVerify (revealed : List Nat)
deriving DecidableEq, Repr

/-- A Rust function of the crate that returns a `Result`. -/
abbrev RustResult (α : Type) := ExceptT CryptoError (Exec Event) α

/-- `Vec::with_capacity`, for its trace. -/
def withCapacity (buffer : Buffer) (entries : Nat) : Exec Event Unit :=
  Exec.emit (.capacity buffer entries)

/-! ### The suite -/

def ascii (s : String) : Bytes := s.toUTF8.data.toList

def paramsLabel : Bytes := ascii "phi-bbs-v1"

/-- A prime-order bilinear group with its encodings, and the hash functions. -/
structure Suite where
  r : Nat
  prime : Fact r.Prime
  /-- Scalars fit their 32-byte encoding. -/
  order_le : r ≤ 2 ^ 256
  G1 : Type
  G2 : Type
  GT : Type
  addG1 : AddCommGroup G1
  addG2 : AddCommGroup G2
  addGT : AddCommGroup GT
  moduleG1 : Module (ZMod r) G1
  moduleG2 : Module (ZMod r) G2
  moduleGT : Module (ZMod r) GT
  decEqG1 : DecidableEq G1
  decEqG2 : DecidableEq G2
  decEqGT : DecidableEq GT
  /-- The pairing, written additively in the target group. -/
  pairing : G1 →ₗ[ZMod r] G2 →ₗ[ZMod r] GT
  pairing_nondegenerate : ∀ P Q, pairing P Q = 0 → P = 0 ∨ Q = 0
  g1Codec : PointCodec G1 48
  g2Codec : PointCodec G2 96
  sha256 : Bytes → Bytes
  sha256_length : ∀ b, (sha256 b).length = 32
  /-- `MapToCurveBasedHasher::new(dst)` and, if that succeeds, its `hash`. -/
  mapToCurve : Bytes → Option (Bytes → Option G1)
  /-- `projective_group_elem_from_try_and_incr::<G1Affine, Blake2b512>`. -/
  tryAndIncrG1 : Bytes → G1
  /-- `affine_group_elem_from_try_and_incr::<G2Affine, Blake2b512>`. -/
  tryAndIncrG2 : Bytes → G2
  /-- The generator of `G2` in the signature parameters is not the identity. -/
  generatorG2_ne_zero : tryAndIncrG2 (paramsLabel ++ ascii " : g2") ≠ 0

attribute [instance] Suite.prime Suite.addG1 Suite.addG2 Suite.addGT Suite.moduleG1
  Suite.moduleG2 Suite.moduleGT Suite.decEqG1 Suite.decEqG2 Suite.decEqGT

namespace Suite

abbrev Fr (S : Suite) := ZMod S.r

variable (S : Suite)

def serFr (x : S.Fr) : Bytes := Ark.serFr S.r x

/-- The pairing of two points, as the verifiers compute it. -/
def pair (P : S.G1) (Q : S.G2) : S.GT := S.pairing P Q

@[simp] theorem serFr_length (x : S.Fr) : (S.serFr x).length = 32 := Ark.serFr_length x

theorem canonical_fr : Decoder.Canonical (Ark.fr S.r) S.serFr (fun _ => True) :=
  Ark.canonical_fr S.order_le

theorem serFr_injective {x y : S.Fr} (h : S.serFr x = S.serFr y) : x = y :=
  Ark.serFr_injective S.order_le h

end Suite

/-- `deser`: decode a whole buffer. -/
def deser {α : Type} (d : Ark α) (b : Bytes) : Except CryptoError α :=
  match d b with
  | .error () => .error (.invalidInput "bbs deserialize")
  | .ok (v, cursor) =>
    if cursor.isEmpty then .ok v
    else .error (.invalidInput "bbs deserialize: trailing bytes")

theorem deser_eq_ok_iff {α : Type} {d : Ark α} {b : Bytes} {v : α} :
    deser d b = .ok v ↔ d b = .ok (v, []) := by
  unfold deser
  cases hd : d b with
  | error k => simp
  | ok p =>
    obtain ⟨a, rest⟩ := p
    cases rest with
    | nil => simp
    | cons x xs => simp

theorem deser_point {G : Type} [Zero G] {size : Nat} (codec : PointCodec G size) (P : G) :
    deser codec.decoder (codec.ser P) = .ok P := by
  rw [deser_eq_ok_iff]
  simpa using codec.decoder_ser P []

/-! ### Constants -/

def maxBbsMessages : Nat := 64

def voterSecretMsgIndex : Nat := 0

def nullifierLen : Nat := 32

def nullifierPointLen : Nat := 48

def proofChallengeDomain : Bytes := ascii "phi-bbs-proof-v1"

def h2cDst : Bytes := ascii "PHI-VOTE-NULLIFIER-BLS12381G1-XMD:SHA-256_SSWU_RO_v1"

def challengeDomain : Bytes := ascii "phi-vote-snark-v3"

def bindDomain : Bytes := ascii "phi-vote-snark-bind-v1"

/-- What the verification boundary promises of its events, when the caller's
    arguments hold `held` bytes: the recorded allocations stay within the claim
    ceiling or within the data at hand, and the vendored verifiers are called within
    their preconditions. -/
def Event.Safe (held : Nat) : Event → Prop
  | .capacity .decodedClaims n => n ≤ maxBbsMessages
  | .capacity .revealedTerms n => n ≤ maxBbsMessages
  | .capacity .schnorrBases n => n ≤ maxBbsMessages + 2
  | .capacity .transcript n => n ≤ held + 5516
  | .capacity .signedData n => n ≤ held + 32
  | .capacity .hiddenResponses n => n ≤ held / 32
  | .capacity .generators n => n ≤ held / 32 + maxBbsMessages + 1
  | .capacity .verifierTerms n => n ≤ held / 32 + maxBbsMessages + 3
  | .capacity .scalarBytes n => n ≤ (held / 32 + maxBbsMessages + 3) * 32
  | .paramsFor count => 1 ≤ count ∧ count ≤ maxBbsMessages
  | .bbsPlusVerify revealed count => revealed.Nodup ∧ ∀ k ∈ revealed, k < count
  | .pairingCryptoVerify revealed => revealed.Nodup

/-! ### SHA-256 preimages -/

def nullifierPreimage (secret topic : Bytes) : Bytes :=
  ascii "phi-nullifier-v1" ++ frame 8 secret ++ frame 8 topic

def externalNullifierPreimage (electionId : Bytes) : Bytes :=
  ascii "phi-extnull-v1" ++ frame 8 electionId

def bindNoncePreimage (electionId nullifier signal : Bytes) : Bytes :=
  ascii "phi-vote-bind-v2" ++ frame 8 electionId ++ frame 8 signal ++ nullifier

def bindContextPreimage (chainId electionId nullifier signal : Bytes) : Bytes :=
  bindDomain ++ frame 8 chainId ++ frame 8 electionId ++ frame 8 signal ++ frame 8 nullifier

variable (S : Suite)

def computeNullifier (secret topic : Bytes) : Bytes :=
  S.sha256 (nullifierPreimage secret topic)

def externalNullifier (electionId : Bytes) : Bytes :=
  S.sha256 (externalNullifierPreimage electionId)

def bindNonce (electionId nullifier signal : Bytes) : Bytes :=
  S.sha256 (bindNoncePreimage electionId nullifier signal)

def bindContext (chainId electionId nullifier signal : Bytes) : Bytes :=
  S.sha256 (bindContextPreimage chainId electionId nullifier signal)

/-- `claim_to_fr`: SHA-256 of the claim, read little-endian and reduced modulo `r`. -/
def claimToFr (claim : Bytes) : S.Fr := (leNat (S.sha256 claim) : ZMod S.r)

/-- `hash_to_g1`: the per-election generator. -/
def hashToG1 (electionId : Bytes) : Except CryptoError S.G1 :=
  let tag := externalNullifier S electionId
  match S.mapToCurve h2cDst with
  | none => .error (.backend "h2c setup")
  | some hasher =>
    match hasher tag with
    | none => .error (.backend "h2c hash")
    | some P => .ok P

@[simp] theorem bindNonce_length (electionId nullifier signal : Bytes) :
    (bindNonce S electionId nullifier signal).length = 32 :=
  S.sha256_length _

/-- The secret and the topic are read back from the preimage of a nullifier. -/
theorem nullifierPreimage_injective {secret secret' topic topic' : Bytes}
    (hsecret : secret.length < 2 ^ 64) (hsecret' : secret'.length < 2 ^ 64)
    (h : nullifierPreimage secret topic = nullifierPreimage secret' topic') :
    secret = secret' ∧ topic = topic' := by
  simp only [nullifierPreimage, List.append_assoc] at h
  have h0 := List.append_cancel_left h
  obtain ⟨hs, ht⟩ := frame_append_split (by omega) (by omega) h0
  exact ⟨hs, frame_injective ht⟩

theorem externalNullifierPreimage_injective {electionId electionId' : Bytes}
    (h : externalNullifierPreimage electionId = externalNullifierPreimage electionId') :
    electionId = electionId' :=
  frame_injective (List.append_cancel_left h)

/-- The ballot context is read back from its preimage. -/
theorem bindContextPreimage_injective {chainId electionId nullifier signal : Bytes}
    {chainId' electionId' nullifier' signal' : Bytes}
    (hchain : chainId.length < 2 ^ 64) (hchain' : chainId'.length < 2 ^ 64)
    (helection : electionId.length < 2 ^ 64) (helection' : electionId'.length < 2 ^ 64)
    (hsignal : signal.length < 2 ^ 64) (hsignal' : signal'.length < 2 ^ 64)
    (h : bindContextPreimage chainId electionId nullifier signal
      = bindContextPreimage chainId' electionId' nullifier' signal') :
    chainId = chainId' ∧ electionId = electionId' ∧ nullifier = nullifier' ∧
      signal = signal' := by
  simp only [bindContextPreimage, List.append_assoc] at h
  have h0 := List.append_cancel_left h
  obtain ⟨hc, h1⟩ := frame_append_split (by omega) (by omega) h0
  obtain ⟨he, h2⟩ := frame_append_split (by omega) (by omega) h1
  obtain ⟨hs, h3⟩ := frame_append_split (by omega) (by omega) h2
  exact ⟨hc, he, frame_injective h3, hs⟩

/-- So is the binding of a selective proof to an election, nullifier and signal. -/
theorem bindNoncePreimage_injective {electionId nullifier signal : Bytes}
    {electionId' nullifier' signal' : Bytes}
    (helection : electionId.length < 2 ^ 64) (helection' : electionId'.length < 2 ^ 64)
    (hsignal : signal.length < 2 ^ 64) (hsignal' : signal'.length < 2 ^ 64)
    (h : bindNoncePreimage electionId nullifier signal
      = bindNoncePreimage electionId' nullifier' signal') :
    electionId = electionId' ∧ nullifier = nullifier' ∧ signal = signal' := by
  simp only [bindNoncePreimage, List.append_assoc] at h
  have h0 := List.append_cancel_left h
  obtain ⟨he, h1⟩ := frame_append_split (by omega) (by omega) h0
  obtain ⟨hs, hn⟩ := frame_append_split (by omega) (by omega) h1
  exact ⟨he, hn, hs⟩

/-! ### Fiat-Shamir transcripts -/

def proofTranscript (contribution nonce : Bytes) : Bytes :=
  frame 4 proofChallengeDomain ++ frame 4 contribution ++ frame 4 nonce

/-- `vote_transcript`, for the two contributions already written out. -/
def voteTranscript (bbsContribution dlContribution : Bytes) (messageCount : UInt32)
    (issuerPk chainId electionId nullifierBytes signal : Bytes) : Bytes :=
  frame 4 challengeDomain ++ beBytes 4 messageCount.toNat ++ frame 4 issuerPk
    ++ frame 4 bbsContribution ++ frame 4 dlContribution
    ++ frame 4 (bindContext S chainId electionId nullifierBytes signal)

theorem proofTranscript_injective {contribution contribution' nonce nonce' : Bytes}
    (hc : contribution.length < 2 ^ 32) (hc' : contribution'.length < 2 ^ 32)
    (h : proofTranscript contribution nonce = proofTranscript contribution' nonce') :
    contribution = contribution' ∧ nonce = nonce' := by
  simp only [proofTranscript, List.append_assoc] at h
  have h0 := List.append_cancel_left h
  obtain ⟨hcontr, h1⟩ := frame_append_split (by omega) (by omega) h0
  exact ⟨hcontr, frame_injective h1⟩

/-- Equal vote transcripts have equal contributions, issuer keys and contexts
    up to SHA-256. -/
theorem voteTranscript_injective {bbs bbs' dl dl' : Bytes} {messageCount messageCount' : UInt32}
    {issuerPk chainId electionId nullifier signal : Bytes}
    {issuerPk' chainId' electionId' nullifier' signal' : Bytes}
    (hpk : issuerPk.length < 2 ^ 32) (hpk' : issuerPk'.length < 2 ^ 32)
    (hbbs : bbs.length < 2 ^ 32) (hbbs' : bbs'.length < 2 ^ 32)
    (hdl : dl.length < 2 ^ 32) (hdl' : dl'.length < 2 ^ 32)
    (h : voteTranscript S bbs dl messageCount issuerPk chainId electionId nullifier signal
      = voteTranscript S bbs' dl' messageCount' issuerPk' chainId' electionId' nullifier'
        signal') :
    messageCount = messageCount' ∧ issuerPk = issuerPk' ∧ bbs = bbs' ∧ dl = dl' ∧
      bindContext S chainId electionId nullifier signal
        = bindContext S chainId' electionId' nullifier' signal' := by
  simp only [voteTranscript, List.append_assoc] at h
  have h0 := List.append_cancel_left h
  obtain ⟨hcount, h1⟩ := append_split (by simp) h0
  obtain ⟨hpkeq, h2⟩ := frame_append_split (by omega) (by omega) h1
  obtain ⟨hbbseq, h3⟩ := frame_append_split (by omega) (by omega) h2
  obtain ⟨hdleq, h4⟩ := frame_append_split (by omega) (by omega) h3
  have hm : messageCount.toNat = messageCount'.toNat :=
    beBytes_injective (by have := messageCount.toNat_lt; omega)
      (by have := messageCount'.toNat_lt; omega) hcount
  exact ⟨UInt32.toNat_inj.mp hm, hpkeq, hbbseq, hdleq, frame_injective h4⟩

end PhiCrypto

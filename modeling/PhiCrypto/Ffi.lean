import PhiCrypto.Bbs2023
import PhiCrypto.Voting
import PhiCrypto.WebAuthn

/-!
# The C ABI

The seven exports. A pointer argument is null or points to memory of the caller;
`Region` pairs it with the stated length, and carries the caller's contract that
so many bytes can be read.

Every export runs its body under `guard`, which turns a caught panic into the
fail-closed value. The library is built with `panic = "abort"`, where a panic is
never caught, so `guard` is the body itself.
-/

namespace PhiCrypto

open Exec

variable {S : Suite}

/-- A pointer argument, with the memory behind it. -/
inductive Pointer where
  | null
  | valid (memory : Bytes)
deriving DecidableEq, Repr

/-- A pointer with a length, as the caller must pass them. -/
structure Region where
  ptr : Pointer
  len : Nat
  accessible : ∀ memory, ptr = .valid memory → len ≤ memory.length

/-- A readable region that holds these bytes. -/
def Region.of (b : Bytes) : Region where
  ptr := .valid b
  len := b.length
  accessible := by
    rintro _ ⟨⟩
    exact le_refl _

/-- What the exports take from dependencies other than the suite. -/
structure Backends (S : Suite) where
  /-- `compute_random_oracle_challenge::<Fr, Blake2b512>`. -/
  challengeHash : Bytes → S.Fr
  blstrs : Blstrs S
  curves : EcdsaCurves
  /-- `serde_json::from_slice::<ClientData>`. -/
  parseClientData : Bytes → Option ClientData

/-- `guard`, in a build that aborts on panic. -/
def guard {α : Type} (_failClosed : α) (body : Exec Event α) : Exec Event α := body

def asSlice (region : Region) : Option Bytes :=
  if region.len = 0 then some []
  else
    match region.ptr with
    | .null => none
    | .valid memory => some (memory.take region.len)

def asStr (region : Region) : Option Bytes := do
  let b ← asSlice region
  if ByteArray.validateUTF8 ⟨b.toArray⟩ then some b else none

def curveFromCode (code : UInt8) : Option Curve :=
  if code = 0 then some .secp256k1
  else if code = 1 then some .secp256r1
  else none

/-- `verdict as i32`. -/
def asI32 (verdict : Bool) : Int := if verdict then 1 else 0

/-! ### `decode_revealed` -/

/-- `b.get(lo..hi)`. -/
def getRange (b : Bytes) (lo hi : Nat) : Option Bytes :=
  if lo ≤ hi ∧ hi ≤ b.length then some ((b.take hi).drop lo) else none

def u32At (b : Bytes) (pos : Nat) : Option (Nat × Nat) := do
  let fin ← checkedAdd pos 4
  let bytes ← getRange b pos fin
  some (beNat bytes, fin)

/-- The loop of `decode_revealed`. -/
def decodeRevealedEntries (b : Bytes) :
    Nat → Option Nat → Nat → Option (List (Nat × Bytes) × Nat)
  | 0, _, pos => some ([], pos)
  | n + 1, prev, pos => do
    let (index, pos) ← u32At b pos
    if ∃ p ∈ prev, index ≤ p then none
    else do
      let (len, pos) ← u32At b pos
      let fin ← checkedAdd pos len
      let value ← getRange b pos fin
      let (out, pos) ← decodeRevealedEntries b n (some index) fin
      some ((index, value) :: out, pos)

def decodeRevealed (b : Bytes) : Exec Event (Option (List (Nat × Bytes))) :=
  match u32At b 0 with
  | none => pure none
  | some (count, pos) =>
    if count > maxBbsMessages then pure none
    else do
      withCapacity .decodedClaims count
      match decodeRevealedEntries b count none pos with
      | none => pure none
      | some (out, pos) => if pos ≠ b.length then pure none else pure (some out)

/-! ### The exports -/

def phiVerifySignature (E : EcdsaCurves) (curveCode : UInt8) (publicKey msg sig : Region) :
    Exec Event Int :=
  guard 0 <|
    match curveFromCode curveCode, asSlice publicKey, asSlice msg, asSlice sig with
    | some curve, some pk, some m, some s => pure (asI32 (didVerify E curve pk m s))
    | _, _, _, _ => pure 0

def phiWebauthnVerify (S : Suite) (parse : Bytes → Option ClientData) (E : Ecdsa)
    (authData clientDataJson signature challenge publicKey origin rpId : Region)
    (requireUv : Int) : Exec Event Int :=
  guard 0 <|
    match asSlice authData, asSlice clientDataJson, asSlice signature, asSlice challenge,
      asSlice publicKey, asStr origin, asStr rpId with
    | some ad, some cdj, some s, some ch, some pk, some org, some rp => do
      let assertion : WebAuthnAssertion :=
        { authenticatorData := ad, clientDataJson := cdj, signature := s }
      let verdict ← verifyWebauthn S parse E assertion ch pk org rp (requireUv ≠ 0)
      pure (asI32 verdict)
    | _, _, _, _, _, _, _ => pure 0

def phiBbsVerifyProof (H : Bytes → S.Fr) (proof publicKey nonce : Region) : Exec Event Int :=
  guard 0 <|
    match asSlice proof, asSlice publicKey, asSlice nonce with
    | some p, some pk, some n => do
      let verdict ← verifyProofBytes H p pk n
      pure (asI32 verdict)
    | _, _, _ => pure 0

def phiBbs2023VerifyProof (B : Blstrs S)
    (proof publicKey header presentationHeader revealed : Region) : Exec Event Int :=
  guard 0 <|
    match asSlice proof, asSlice publicKey, asSlice header, asSlice presentationHeader,
      asSlice revealed with
    | some p, some pk, some h, some ph, some rev => do
      match ← decodeRevealed rev with
      | none => pure 0
      | some revealedMsgs => do
        let verdict ← bbs2023ProofVerify B pk h ph p revealedMsgs
        pure (asI32 verdict)
    | _, _, _, _, _ => pure 0

def copyFromSlice (dst src : Bytes) : Exec Event Bytes :=
  if dst.length = src.length then pure src else Exec.abort .lengthMismatch

/-- `phi_compute_nullifier`: the return code, and the memory behind `out` after
    the call. -/
def phiComputeNullifier (S : Suite) (secret topic out : Region) : Exec Event (Int × Pointer) :=
  guard (0, out.ptr) <|
    match out.ptr with
    | .null => pure (0, out.ptr)
    | .valid memory =>
      if out.len < nullifierLen then pure (0, out.ptr)
      else
        match asSlice secret, asSlice topic with
        | some sec, some top => do
          let outSlice ← copyFromSlice (memory.take nullifierLen) (computeNullifier S sec top)
          pure (1, .valid (outSlice ++ memory.drop nullifierLen))
        | _, _ => pure (0, out.ptr)

def phiSemaphoreVerifyVote (H : Bytes → S.Fr)
    (bbsProof publicKey electionId nullifier signal : Region) : Exec Event Int :=
  guard 0 <|
    match asSlice bbsProof, asSlice publicKey, asSlice electionId, asSlice signal with
    | some proof, some pk, some election, some sig =>
      match asSlice nullifier with
      | none => pure 0
      | some null =>
        if null.length ≠ nullifierLen then pure 0
        else do
          let verdict ← verifyBoundProof H proof pk election null sig
          pure (asI32 verdict)
    | _, _, _, _ => pure 0

def phiVotingVerifyVoteV1 (H : Bytes → S.Fr)
    (proof publicKey chainId electionId nullifier signal : Region) : Exec Event Int :=
  guard 0 <|
    match asSlice proof, asSlice publicKey, asSlice chainId, asSlice electionId,
      asSlice signal with
    | some proofBytes, some pk, some chain, some election, some sig =>
      match asSlice nullifier with
      | none => pure 0
      | some null =>
        if null.length ≠ nullifierPointLen then pure 0
        else do
          match ← (VoteProof.fromBytes (S := S) proofBytes).run with
          | .error _ => pure 0
          | .ok voteProof =>
            match voteProof.nullifierBytes with
            | .error _ => pure 0
            | .ok embedded =>
              if null ≠ embedded then pure 0
              else do
                let verdict ← verifyVoteProof H voteProof pk chain election sig
                pure (asI32 verdict)
    | _, _, _, _, _ => pure 0

/-! ### Reading arguments and verdicts -/

theorem asSlice_of (b : Bytes) : asSlice (Region.of b) = some b := by
  unfold asSlice
  split
  · next hlen => rw [List.length_eq_zero_iff.mp hlen]
  · exact congrArg some (List.take_length)

/-- An export returns 1 for the verdict `true` only. -/
theorem returns_one_iff {x : Exec Event Bool} :
    (do let verdict ← x; pure (asI32 verdict) : Exec Event Int).Returns 1 ↔ x.Returns true := by
  rw [returns_bind_iff]
  constructor
  · rintro ⟨verdict, hx, hcode⟩
    cases verdict with
    | true => exact hx
    | false => cases hcode
  · intro hx
    exact ⟨true, hx, rfl⟩

end PhiCrypto

import PhiCrypto.Did

/-!
# WebAuthn assertions

`webauthn::verify_webauthn`. The parser for `clientDataJSON` is a parameter; its
strings are byte strings here.

The verifier reads three parts of authenticatorData by position. They are read
after its length has been checked, in `verify_inner` and, for the details that an
accepted assertion carries, in its caller (`meets_verifyWebauthnDetails`).
-/

namespace PhiCrypto

open Exec

structure ClientData where
  typ : Bytes
  challenge : Bytes
  origin : Bytes
  crossOrigin : Option Bool
  topOrigin : Option Bytes
deriving DecidableEq, Repr

structure WebAuthnAssertion where
  authenticatorData : Bytes
  clientDataJson : Bytes
  signature : Bytes
deriving DecidableEq, Repr

def flagUserPresent : UInt8 := 0x01

def flagUserVerified : UInt8 := 0x04

def flagBackupEligible : UInt8 := 0x08

def flagBackupState : UInt8 := 0x10

structure AssertionDetails where
  signCount : UInt32
  userPresent : Bool
  userVerified : Bool
  backupEligible : Bool
  backupState : Bool
deriving DecidableEq, Repr

/-! ### base64url -/

/-- The digit `n` of the URL-safe alphabet. -/
def base64UrlDigit (n : Nat) : UInt8 :=
  if n < 26 then UInt8.ofNat (65 + n)
  else if n < 52 then UInt8.ofNat (97 + (n - 26))
  else if n < 62 then UInt8.ofNat (48 + (n - 52))
  else if n = 62 then 45
  else 95

/-- `URL_SAFE_NO_PAD.encode`: six bits a digit, the last group cut short. -/
def base64Url : Bytes → Bytes
  | [] => []
  | [a] => [base64UrlDigit (a.toNat / 4), base64UrlDigit (a.toNat % 4 * 16)]
  | [a, b] =>
    [base64UrlDigit (a.toNat / 4), base64UrlDigit (a.toNat % 4 * 16 + b.toNat / 16),
      base64UrlDigit (b.toNat % 16 * 4)]
  | a :: b :: c :: rest =>
    base64UrlDigit (a.toNat / 4) :: base64UrlDigit (a.toNat % 4 * 16 + b.toNat / 16)
      :: base64UrlDigit (b.toNat % 16 * 4 + c.toNat / 64) :: base64UrlDigit (c.toNat % 64)
      :: base64Url rest

/-! ### The verifier -/

def verifyP256LowS (E : Ecdsa) (publicKey signed sigBytes : Bytes) : Bool :=
  match E.fromSec1Bytes publicKey with
  | none => false
  | some vk =>
    match (E.fromDer sigBytes).orElse fun _ => E.fromSlice sigBytes with
    | none => false
    | some signature =>
      if (E.normalizeS signature).isSome then false else E.verify vk signed signature

variable (S : Suite) (parse : Bytes → Option ClientData) (E : Ecdsa)

/-- `verify_inner`. -/
def webauthnVerifyInner (assertion : WebAuthnAssertion)
    (expectedChallenge publicKey expectedOrigin expectedRpId : Bytes) (requireUv : Bool) :
    Exec Event Bool := do
  match parse assertion.clientDataJson with
  | none => pure false
  | some cd =>
    if cd.typ ≠ ascii "webauthn.get" then return false
    if cd.origin ≠ expectedOrigin then return false
    if cd.crossOrigin = some true ∨ cd.topOrigin.isSome then return false
    if cd.challenge ≠ base64Url expectedChallenge then return false
    if assertion.authenticatorData.length < 37 then return false
    let rpIdHash ← sliceAt assertion.authenticatorData 0 32
    if rpIdHash ≠ S.sha256 expectedRpId then return false
    let flags ← indexAt assertion.authenticatorData 32
    if flags &&& flagUserPresent = 0 then return false
    if requireUv = true ∧ flags &&& flagUserVerified = 0 then return false
    withCapacity .signedData (assertion.authenticatorData.length + 32)
    let signed := assertion.authenticatorData ++ S.sha256 assertion.clientDataJson
    return verifyP256LowS E publicKey signed assertion.signature

def verifyWebauthnDetails (assertion : WebAuthnAssertion)
    (expectedChallenge publicKey expectedOrigin expectedRpId : Bytes) (requireUv : Bool) :
    Exec Event (Option AssertionDetails) := do
  if ← webauthnVerifyInner S parse E assertion expectedChallenge publicKey expectedOrigin
      expectedRpId requireUv then
    let flags ← indexAt assertion.authenticatorData 32
    let counter ← sliceAt assertion.authenticatorData 33 37
    let counter ← unwrap (if counter.length = 4 then some counter else none)
    return some
      { signCount := UInt32.ofNat (beNat counter)
        userPresent := flags &&& flagUserPresent ≠ 0
        userVerified := flags &&& flagUserVerified ≠ 0
        backupEligible := flags &&& flagBackupEligible ≠ 0
        backupState := flags &&& flagBackupState ≠ 0 }
  return none

def verifyWebauthn (assertion : WebAuthnAssertion)
    (expectedChallenge publicKey expectedOrigin expectedRpId : Bytes) (requireUv : Bool) :
    Exec Event Bool := do
  let details ← verifyWebauthnDetails S parse E assertion expectedChallenge publicKey
    expectedOrigin expectedRpId requireUv
  return details.isSome

/-! ### Its reads are in bounds -/

section Bounds

variable {S parse E}

/-- One of the early returns: the function ends with `false`, or goes on. -/
theorem meets_unless {P : Event → Prop} {Q : Bool → Prop} {bad : Prop} [Decidable bad]
    {x : Exec Event Bool} (hfalse : Q false) (hx : ¬ bad → x.Meets P Q) :
    (if bad then pure false else x).Meets P Q := by
  by_cases h : bad
  · rw [if_pos h]
    exact meets_pure hfalse
  · rw [if_neg h]
    exact hx h

/-- `verify_inner` does not panic, and accepts no authenticatorData of fewer than
    37 bytes. -/
theorem meets_webauthnVerifyInner {P : Event → Prop} {assertion : WebAuthnAssertion}
    (hP : P (.capacity .signedData (assertion.authenticatorData.length + 32)))
    (expectedChallenge publicKey expectedOrigin expectedRpId : Bytes) (requireUv : Bool) :
    (webauthnVerifyInner S parse E assertion expectedChallenge publicKey expectedOrigin
      expectedRpId requireUv).Meets P
        (fun verdict => verdict = true → 37 ≤ assertion.authenticatorData.length) := by
  have hfalse : false = true → 37 ≤ assertion.authenticatorData.length := fun h => by cases h
  unfold webauthnVerifyInner
  cases parse assertion.clientDataJson with
  | none => exact meets_pure hfalse
  | some cd =>
  refine meets_unless hfalse fun _ => meets_unless hfalse fun _ => meets_unless hfalse fun _ =>
    meets_unless hfalse fun _ => meets_unless hfalse fun hlen => ?_
  have hlen : 37 ≤ assertion.authenticatorData.length := not_lt.mp hlen
  apply (meets_sliceAt ⟨by omega, by omega⟩).bind
  rintro rpIdHash -
  refine meets_unless hfalse fun _ => ?_
  refine (meets_indexAt (List.getElem?_eq_getElem (by omega))).bind ?_
  rintro flags -
  refine meets_unless hfalse fun _ => meets_unless hfalse fun _ => ?_
  refine (meets_emit (Q := fun _ => True) hP trivial).bind ?_
  rintro ⟨⟩ -
  exact meets_pure fun _ => hlen

theorem meets_verifyWebauthnDetails {P : Event → Prop} {assertion : WebAuthnAssertion}
    (hP : P (.capacity .signedData (assertion.authenticatorData.length + 32)))
    (expectedChallenge publicKey expectedOrigin expectedRpId : Bytes) (requireUv : Bool) :
    (verifyWebauthnDetails S parse E assertion expectedChallenge publicKey expectedOrigin
      expectedRpId requireUv).Meets P (fun _ => True) := by
  refine (meets_webauthnVerifyInner hP expectedChallenge publicKey expectedOrigin expectedRpId
    requireUv).bind ?_
  intro verdict hverdict
  cases verdict with
  | false => exact meets_pure trivial
  | true =>
    have hlen := hverdict rfl
    refine (meets_indexAt (List.getElem?_eq_getElem (by omega))).bind ?_
    rintro flags -
    apply (meets_sliceAt ⟨by omega, by omega⟩).bind
    rintro counter rfl
    have hfour : ((assertion.authenticatorData.take 37).drop 33).length = 4 := by
      simp only [List.length_drop, List.length_take]
      omega
    rw [if_pos hfour]
    exact (meets_pure (Q := fun _ => True) trivial).bind fun _ _ => meets_pure trivial

theorem meets_verifyWebauthn {P : Event → Prop} {assertion : WebAuthnAssertion}
    (hP : P (.capacity .signedData (assertion.authenticatorData.length + 32)))
    (expectedChallenge publicKey expectedOrigin expectedRpId : Bytes) (requireUv : Bool) :
    (verifyWebauthn S parse E assertion expectedChallenge publicKey expectedOrigin expectedRpId
      requireUv).Meets P (fun _ => True) :=
  (meets_verifyWebauthnDetails hP expectedChallenge publicKey expectedOrigin expectedRpId
    requireUv).bind fun _ _ => meets_pure trivial

end Bounds

end PhiCrypto

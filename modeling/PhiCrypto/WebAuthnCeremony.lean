import PhiCrypto.SmallCurve
import PhiCrypto.SmallSuite
import PhiCrypto.WebAuthn

/-!
# One ceremony for each assertion

An assertion is bound to the challenge through text: `verify_inner` compares the
`challenge` member with the unpadded base64url form of the expected bytes. That form
is injective at every length, since the last group is cut short by as many digits as
bytes are missing (`base64Url_injective`). What else the verifier compares is stated
once, in `CeremonyAccepts`; the two entry points and the flags of the returned details
are read off it.
-/

namespace PhiCrypto

open Exec

/-! ### base64url is injective -/

theorem base64UrlDigit_injOn : ∀ m < 64, ∀ n < 64, base64UrlDigit m = base64UrlDigit n → m = n := by
  -- the digits through their values, so that only 64 cases are looked at
  let value : UInt8 → Nat := fun c =>
    if 97 ≤ c.toNat then c.toNat - 97 + 26
    else if c.toNat = 95 then 63
    else if 65 ≤ c.toNat then c.toNat - 65
    else if c.toNat = 45 then 62
    else c.toNat - 48 + 52
  have hvalue : ∀ n < 64, value (base64UrlDigit n) = n := by decide
  intro m hm n hn h
  rw [← hvalue m hm, h, hvalue n hn]

/-- Digits of six-bit values are compared as the values. -/
theorem base64UrlDigit_inj {m n : Nat} (h : base64UrlDigit m = base64UrlDigit n) (hm : m < 64)
    (hn : n < 64) : m = n :=
  base64UrlDigit_injOn m hm n hn h

/-- The first byte of a group lies in two digits, and leaves `m` in the second. -/
theorem first_byte_inj {a a' : UInt8} {m n : Nat} (hm : m < 16) (hn : n < 16)
    (h0 : base64UrlDigit (a.toNat / 4) = base64UrlDigit (a'.toNat / 4))
    (h1 : base64UrlDigit (a.toNat % 4 * 16 + m) = base64UrlDigit (a'.toNat % 4 * 16 + n)) :
    a = a' ∧ m = n := by
  have ha := a.toNat_lt
  have ha' := a'.toNat_lt
  have hhigh := base64UrlDigit_inj h0 (by omega) (by omega)
  have hlow := base64UrlDigit_inj h1 (by omega) (by omega)
  exact ⟨UInt8.toNat_inj.mp (by omega), by omega⟩

/-- The second byte, whose high half is known from the digit before. -/
theorem second_byte_inj {b b' : UInt8} {m n : Nat} (hm : m < 4) (hn : n < 4)
    (hhigh : b.toNat / 16 = b'.toNat / 16)
    (h : base64UrlDigit (b.toNat % 16 * 4 + m) = base64UrlDigit (b'.toNat % 16 * 4 + n)) :
    b = b' ∧ m = n := by
  have hlow := base64UrlDigit_inj h (by omega) (by omega)
  exact ⟨UInt8.toNat_inj.mp (by omega), by omega⟩

theorem base64Url_injective : Function.Injective base64Url := by
  intro xs
  induction xs using base64Url.induct with
  | case1 =>
    intro ys h
    match ys with
    | [] => rfl
    | [_] | [_, _] | _ :: _ :: _ :: _ => simp [base64Url] at h
  | case2 a =>
    intro ys h
    match ys with
    | [] | [_, _] | _ :: _ :: _ :: _ => simp [base64Url] at h
    | [a'] =>
      simp only [base64Url, List.cons.injEq, and_true] at h
      obtain ⟨ha, -⟩ := first_byte_inj Nat.ofNat_pos Nat.ofNat_pos h.1 h.2
      rw [ha]
  | case3 a b =>
    intro ys h
    match ys with
    | [] | [_] | _ :: _ :: _ :: _ => simp [base64Url] at h
    | [a', b'] =>
      simp only [base64Url, List.cons.injEq, and_true] at h
      have hb := b.toNat_lt
      have hb' := b'.toNat_lt
      obtain ⟨ha, hhigh⟩ := first_byte_inj (by omega) (by omega) h.1 h.2.1
      obtain ⟨hsecond, -⟩ := second_byte_inj Nat.ofNat_pos Nat.ofNat_pos hhigh h.2.2
      rw [ha, hsecond]
  | case4 a b c rest ih =>
    intro ys h
    match ys with
    | [] | [_] | [_, _] => simp [base64Url] at h
    | a' :: b' :: c' :: rest' =>
      simp only [base64Url, List.cons.injEq] at h
      have hb := b.toNat_lt
      have hb' := b'.toNat_lt
      have hc := c.toNat_lt
      have hc' := c'.toNat_lt
      obtain ⟨ha, hhigh⟩ := first_byte_inj (by omega) (by omega) h.1 h.2.1
      obtain ⟨hsecond, hquarter⟩ := second_byte_inj (by omega) (by omega) hhigh h.2.2.1
      have hlast := base64UrlDigit_inj h.2.2.2.1 (by omega) (by omega)
      rw [ha, hsecond, UInt8.toNat_inj.mp (show c.toNat = c'.toNat by omega), ih h.2.2.2.2]

/-! ### What an accepted assertion satisfies -/

/-- What the relying party expects of a ceremony. -/
structure Expectation where
  challenge : Bytes
  origin : Bytes
  rpId : Bytes
  requireUv : Bool

section Accepts

variable (S : Suite) (parse : Bytes → Option ClientData) (E : Ecdsa)

/-- The flags byte of authenticatorData. -/
def WebAuthnAssertion.flags (assertion : WebAuthnAssertion) : UInt8 :=
  assertion.authenticatorData.getD 32 0

/-- The details that an accepted assertion carries. -/
def WebAuthnAssertion.details (assertion : WebAuthnAssertion) : AssertionDetails where
  signCount := UInt32.ofNat (beNat ((assertion.authenticatorData.take 37).drop 33))
  userPresent := assertion.flags &&& flagUserPresent ≠ 0
  userVerified := assertion.flags &&& flagUserVerified ≠ 0
  backupEligible := assertion.flags &&& flagBackupEligible ≠ 0
  backupState := assertion.flags &&& flagBackupState ≠ 0

/-- What `verify_inner` checks of the client data. -/
structure ClientData.Matches (cd : ClientData) (x : Expectation) : Prop where
  typ_eq : cd.typ = ascii "webauthn.get"
  origin_eq : cd.origin = x.origin
  same_origin : ¬ (cd.crossOrigin = some true ∨ cd.topOrigin.isSome)
  challenge_eq : cd.challenge = base64Url x.challenge

/-- What `verify_inner` checks. -/
structure CeremonyAccepts (assertion : WebAuthnAssertion) (publicKey : Bytes) (x : Expectation) :
    Prop where
  client : ∃ cd, parse assertion.clientDataJson = some cd ∧ cd.Matches x
  length_ge : 37 ≤ assertion.authenticatorData.length
  rpId_eq : assertion.authenticatorData.take 32 = S.sha256 x.rpId
  present : assertion.flags &&& flagUserPresent ≠ 0
  verified : x.requireUv = true → assertion.flags &&& flagUserVerified ≠ 0
  signature : verifyP256LowS E publicKey
    (assertion.authenticatorData ++ S.sha256 assertion.clientDataJson) assertion.signature = true

variable {S parse E} {assertion : WebAuthnAssertion} {publicKey : Bytes} {x x' : Expectation}

/-- An early return is taken only where the condition `cond` of acceptance fails. -/
theorem meets_unless_iff {P : Event → Prop} {cond bad : Prop} [Decidable bad]
    {v : Exec Event Bool} (hbad : bad → ¬ cond)
    (hv : ¬ bad → v.Meets P (fun verdict => verdict = true ↔ cond)) :
    (if bad then pure false else v).Meets P (fun verdict => verdict = true ↔ cond) := by
  by_cases h : bad
  · rw [if_pos h]
    exact meets_pure (iff_of_false (by decide) (hbad h))
  · rw [if_neg h]
    exact hv h

theorem WebAuthnAssertion.getElem?_flags (h : 37 ≤ assertion.authenticatorData.length) :
    assertion.authenticatorData[32]? = some assertion.flags := by
  rw [WebAuthnAssertion.flags, List.getD_eq_getElem?_getD,
    List.getElem?_eq_getElem (show 32 < assertion.authenticatorData.length by omega)]
  rfl

variable (S parse E) in
theorem meets_webauthnVerifyInner_iff (assertion : WebAuthnAssertion) (publicKey : Bytes)
    (x : Expectation) :
    (webauthnVerifyInner S parse E assertion x.challenge publicKey x.origin x.rpId
      x.requireUv).Meets (fun _ => True)
        (fun verdict => verdict = true ↔ CeremonyAccepts S parse E assertion publicKey x) := by
  unfold webauthnVerifyInner
  cases hparse : parse assertion.clientDataJson with
  | none =>
    refine meets_pure (iff_of_false (by decide) ?_)
    intro h
    obtain ⟨cd, hcd, -⟩ := h.client
    cases hparse.symm.trans hcd
  | some cd =>
  have hmatches : CeremonyAccepts S parse E assertion publicKey x → cd.Matches x := by
    intro h
    obtain ⟨cd', hcd, hmatch⟩ := h.client
    cases hparse.symm.trans hcd
    exact hmatch
  refine meets_unless_iff (fun hbad h => hbad (hmatches h).typ_eq) fun htyp => ?_
  refine meets_unless_iff (fun hbad h => hbad (hmatches h).origin_eq) fun horigin => ?_
  refine meets_unless_iff (fun hbad h => (hmatches h).same_origin hbad) fun hsame => ?_
  refine meets_unless_iff (fun hbad h => hbad (hmatches h).challenge_eq) fun hchallenge => ?_
  refine meets_unless_iff (fun hbad h => absurd h.length_ge (not_le.mpr hbad)) fun hlen => ?_
  have hlen : 37 ≤ assertion.authenticatorData.length := not_lt.mp hlen
  refine (meets_sliceAt ⟨by omega, by omega⟩).bind ?_
  intro rpIdHash hhash
  rw [List.drop_zero] at hhash
  subst hhash
  refine meets_unless_iff (fun hbad h => hbad h.rpId_eq) fun hrp => ?_
  refine (meets_indexAt (WebAuthnAssertion.getElem?_flags hlen)).bind ?_
  intro flags hflags
  subst hflags
  refine meets_unless_iff (fun hbad h => h.present hbad) fun hpresent => ?_
  refine meets_unless_iff (fun hbad h => h.verified hbad.1 hbad.2) fun hverified => ?_
  refine (meets_emit (Q := fun _ => True) trivial trivial).bind ?_
  intro _ _
  refine meets_pure ⟨fun hsig => ?_, fun h => h.signature⟩
  exact ⟨⟨cd, hparse, not_not.mp htyp, not_not.mp horigin, hsame, not_not.mp hchallenge⟩, hlen,
    not_not.mp hrp, hpresent, fun huv hzero => hverified ⟨huv, hzero⟩, hsig⟩

variable (S parse E) in
/-- The details are those of the assertion, when it is accepted. -/
theorem meets_verifyWebauthnDetails_iff (assertion : WebAuthnAssertion) (publicKey : Bytes)
    (x : Expectation) :
    (verifyWebauthnDetails S parse E assertion x.challenge publicKey x.origin x.rpId
      x.requireUv).Meets (fun _ => True) (fun details =>
        (CeremonyAccepts S parse E assertion publicKey x ∧ details = some assertion.details) ∨
        (¬ CeremonyAccepts S parse E assertion publicKey x ∧ details = none)) := by
  refine (meets_webauthnVerifyInner_iff S parse E assertion publicKey x).bind ?_
  intro verdict hverdict
  cases verdict with
  | false =>
    have hrejected : ¬ CeremonyAccepts S parse E assertion publicKey x := by
      intro h
      cases hverdict.mpr h
    exact meets_pure (.inr ⟨hrejected, rfl⟩)
  | true =>
    have haccepts := hverdict.mp rfl
    have hlen := haccepts.length_ge
    refine (meets_indexAt (WebAuthnAssertion.getElem?_flags hlen)).bind ?_
    intro flags hflags
    subst hflags
    refine (meets_sliceAt ⟨by omega, by omega⟩).bind ?_
    intro counter hcounter
    subst hcounter
    have hfour : ((assertion.authenticatorData.take 37).drop 33).length = 4 := by
      simp only [List.length_drop, List.length_take]
      omega
    rw [if_pos hfour]
    refine (meets_pure (Q := (· = (assertion.authenticatorData.take 37).drop 33)) rfl).bind ?_
    intro octets hoctets
    subst hoctets
    exact meets_pure (.inl ⟨haccepts, rfl⟩)

theorem verifyWebauthnDetails_returns_iff {details : Option AssertionDetails} :
    (verifyWebauthnDetails S parse E assertion x.challenge publicKey x.origin x.rpId
      x.requireUv).Returns details ↔
        (CeremonyAccepts S parse E assertion publicKey x ∧ details = some assertion.details) ∨
        (¬ CeremonyAccepts S parse E assertion publicKey x ∧ details = none) := by
  have hmeets := meets_verifyWebauthnDetails_iff S parse E assertion publicKey x
  constructor
  · exact hmeets.of_returns
  · intro h
    obtain ⟨details', hret, h'⟩ := hmeets.exists_returns
    have heq : details' = details := by
      rcases h with ⟨ha, rfl⟩ | ⟨ha, rfl⟩
      · rcases h' with ⟨-, h'⟩ | ⟨hb, -⟩
        · exact h'
        · exact absurd ha hb
      · rcases h' with ⟨hb, -⟩ | ⟨-, h'⟩
        · exact absurd hb ha
        · exact h'
    rwa [heq] at hret

theorem verifyWebauthn_returns_iff {verdict : Bool} :
    (verifyWebauthn S parse E assertion x.challenge publicKey x.origin x.rpId
      x.requireUv).Returns verdict ↔
        ∃ details, (verifyWebauthnDetails S parse E assertion x.challenge publicKey x.origin x.rpId
          x.requireUv).Returns details ∧ verdict = details.isSome := by
  rw [verifyWebauthn, returns_bind_iff]
  constructor
  · intro h
    obtain ⟨details, hdetails, h⟩ := h
    cases h
    exact ⟨details, hdetails, rfl⟩
  · intro h
    obtain ⟨details, hdetails, rfl⟩ := h
    exact ⟨details, hdetails, rfl⟩

theorem verifyWebauthn_true_iff :
    (verifyWebauthn S parse E assertion x.challenge publicKey x.origin x.rpId
      x.requireUv).Returns true ↔ CeremonyAccepts S parse E assertion publicKey x := by
  rw [verifyWebauthn_returns_iff]
  constructor
  · intro h
    obtain ⟨details, hdetails, hsome⟩ := h
    rcases verifyWebauthnDetails_returns_iff.mp hdetails with ⟨haccepts, -⟩ | ⟨-, rfl⟩
    · exact haccepts
    · cases hsome
  · intro h
    exact ⟨_, verifyWebauthnDetails_returns_iff.mpr (.inl ⟨h, rfl⟩), rfl⟩

/-! ### One ceremony -/

theorem CeremonyAccepts.same_ceremony (h : CeremonyAccepts S parse E assertion publicKey x)
    (h' : CeremonyAccepts S parse E assertion publicKey x') :
    x.challenge = x'.challenge ∧ x.origin = x'.origin ∧ S.sha256 x.rpId = S.sha256 x'.rpId := by
  obtain ⟨cd, hparse, hmatch⟩ := h.client
  obtain ⟨cd', hparse', hmatch'⟩ := h'.client
  cases hparse.symm.trans hparse'
  refine ⟨base64Url_injective ?_, ?_, ?_⟩
  · rw [← hmatch.challenge_eq, ← hmatch'.challenge_eq]
  · rw [← hmatch.origin_eq, ← hmatch'.origin_eq]
  · rw [← h.rpId_eq, ← h'.rpId_eq]

/-- A verifier that does not require user verification accepts no less. -/
theorem CeremonyAccepts.without_uv (h : CeremonyAccepts S parse E assertion publicKey x) :
    CeremonyAccepts S parse E assertion publicKey { x with requireUv := false } := by
  obtain ⟨cd, hparse, hmatch⟩ := h.client
  exact ⟨⟨cd, hparse, hmatch.typ_eq, hmatch.origin_eq, hmatch.same_origin, hmatch.challenge_eq⟩,
    h.length_ge, h.rpId_eq, h.present, fun huv => absurd huv Bool.false_ne_true, h.signature⟩

end Accepts

/-- **One ceremony for each assertion.** Two expectations under which one assertion is
    accepted have the same challenge, the same origin and the same digest of the
    relying party's identifier. Acceptance with user verification implies acceptance
    without it, and the details say that the user was verified; the details of an
    accepted assertion always say that the user was present. The two entry points
    return on every input, and agree. -/
theorem assertion_one_ceremony (S : Suite) (parse : Bytes → Option ClientData) (E : Ecdsa)
    (assertion : WebAuthnAssertion) (publicKey : Bytes) :
    (∀ challenge challenge' origin origin' rpId rpId' requireUv requireUv',
      (verifyWebauthn S parse E assertion challenge publicKey origin rpId requireUv).Returns true →
      (verifyWebauthn S parse E assertion challenge' publicKey origin' rpId' requireUv').Returns
        true →
      challenge = challenge' ∧ origin = origin' ∧ S.sha256 rpId = S.sha256 rpId') ∧
    (∀ challenge origin rpId,
      (verifyWebauthn S parse E assertion challenge publicKey origin rpId true).Returns true →
      (verifyWebauthn S parse E assertion challenge publicKey origin rpId false).Returns true ∧
      ∀ requireUv, ∃ details, details.userVerified = true ∧
        (verifyWebauthnDetails S parse E assertion challenge publicKey origin rpId
          requireUv).Returns (some details)) ∧
    (∀ challenge origin rpId requireUv details,
      (verifyWebauthnDetails S parse E assertion challenge publicKey origin rpId
        requireUv).Returns (some details) → details.userPresent = true) ∧
    (∀ challenge origin rpId requireUv, ∃ details,
      (verifyWebauthnDetails S parse E assertion challenge publicKey origin rpId
        requireUv).Returns details ∧
      (verifyWebauthn S parse E assertion challenge publicKey origin rpId requireUv).Returns
        details.isSome) := by
  refine ⟨?_, ?_, ?_, ?_⟩
  · intro challenge challenge' origin origin' rpId rpId' requireUv requireUv' h h'
    have haccepts := (verifyWebauthn_true_iff (x := ⟨challenge, origin, rpId, requireUv⟩)).mp h
    have haccepts' :=
      (verifyWebauthn_true_iff (x := ⟨challenge', origin', rpId', requireUv'⟩)).mp h'
    exact haccepts.same_ceremony haccepts'
  · intro challenge origin rpId h
    have haccepts := (verifyWebauthn_true_iff (x := ⟨challenge, origin, rpId, true⟩)).mp h
    have hwithout := haccepts.without_uv
    refine ⟨verifyWebauthn_true_iff.mpr hwithout, ?_⟩
    intro requireUv
    refine ⟨assertion.details, decide_eq_true (haccepts.verified rfl), ?_⟩
    have hany : CeremonyAccepts S parse E assertion publicKey ⟨challenge, origin, rpId, requireUv⟩ := by
      cases requireUv with
      | true => exact haccepts
      | false => exact hwithout
    exact verifyWebauthnDetails_returns_iff.mpr (.inl ⟨hany, rfl⟩)
  · intro challenge origin rpId requireUv details h
    rcases (verifyWebauthnDetails_returns_iff (x := ⟨challenge, origin, rpId, requireUv⟩)).mp h
      with ⟨haccepts, hdetails⟩ | ⟨-, hnone⟩
    · cases hdetails
      exact decide_eq_true haccepts.present
    · cases hnone
  · intro challenge origin rpId requireUv
    obtain ⟨details, hdetails, -⟩ := (meets_verifyWebauthnDetails_iff S parse E assertion
      publicKey ⟨challenge, origin, rpId, requireUv⟩).exists_returns
    exact ⟨details, hdetails, verifyWebauthn_returns_iff.mpr ⟨details, hdetails, rfl⟩⟩

/-! ### A ceremony on the small curve -/

/-- Client data for the challenge `once`, which is `b25jZQ` in base64url. -/
def smallClientData : ClientData where
  typ := ascii "webauthn.get"
  challenge := ascii "b25jZQ"
  origin := ascii "https://phi"
  crossOrigin := none
  topOrigin := none

def smallClientDataJson : Bytes :=
  ascii "\x7b\"type\":\"webauthn.get\",\"challenge\":\"b25jZQ\",\"origin\":\"https://phi\"\x7d"

/-- A parser that knows this one text. -/
def parseSmall (text : Bytes) : Option ClientData :=
  if text = smallClientDataJson then some smallClientData else none

/-- An assertion under the secret key 5, with both flags set and the counter at 7. -/
def smallAssertion : WebAuthnAssertion where
  authenticatorData := smallSuite.sha256 (ascii "phi") ++ [5, 0, 0, 0, 7]
  clientDataJson := smallClientDataJson
  signature := EcdsaSignature.toDer (n := 13) ⟨5, 5, by decide, by decide, by decide, by decide⟩

/-- Accepted with user verification and therefore without it, and for no other challenge. -/
theorem smallAssertion_one_ceremony :
    (verifyWebauthn smallSuite parseSmall (p256Ecdsa SmallCurve.arithmetic) smallAssertion
        (ascii "once") (SmallCurve.toEncodedPoint 5 true) (ascii "https://phi") (ascii "phi")
        true).Returns true ∧
      (verifyWebauthn smallSuite parseSmall (p256Ecdsa SmallCurve.arithmetic) smallAssertion
        (ascii "once") (SmallCurve.toEncodedPoint 5 true) (ascii "https://phi") (ascii "phi")
        false).Returns true ∧
      (∃ details, details.userPresent = true ∧ details.userVerified = true ∧
        (verifyWebauthnDetails smallSuite parseSmall (p256Ecdsa SmallCurve.arithmetic)
          smallAssertion (ascii "once") (SmallCurve.toEncodedPoint 5 true) (ascii "https://phi")
          (ascii "phi") false).Returns (some details)) ∧
      ¬ (verifyWebauthn smallSuite parseSmall (p256Ecdsa SmallCurve.arithmetic) smallAssertion
        (ascii "twice") (SmallCurve.toEncodedPoint 5 true) (ascii "https://phi") (ascii "phi")
        false).Returns true := by
  obtain ⟨hunique, hverified, hpresent, -⟩ := assertion_one_ceremony smallSuite parseSmall
    (p256Ecdsa SmallCurve.arithmetic) smallAssertion (SmallCurve.toEncodedPoint 5 true)
  have haccepted : (verifyWebauthn smallSuite parseSmall (p256Ecdsa SmallCurve.arithmetic)
      smallAssertion (ascii "once") (SmallCurve.toEncodedPoint 5 true) (ascii "https://phi")
      (ascii "phi") true).Returns true := by
    decide +kernel
  obtain ⟨hwithout, hdetails⟩ := hverified _ _ _ haccepted
  obtain ⟨details, huv, hreturns⟩ := hdetails false
  refine ⟨haccepted, hwithout, ⟨details, hpresent _ _ _ _ _ hreturns, huv, hreturns⟩, ?_⟩
  intro hother
  obtain ⟨hchallenge, -⟩ := hunique _ _ _ _ _ _ _ _ haccepted hother
  exact absurd hchallenge (by decide)

end PhiCrypto

import PhiCrypto.ClientDataJson
import PhiCrypto.DidIdentifier
import PhiCrypto.Signing

/-!
# An honest ceremony

The client writes `clientDataJSON` with its members in a fixed order, and the parser reads them
back (`fromSlice_clientDataJson`). With a signature of the passkey over it, `verify_webauthn`
accepts, for every challenge and whatever members the client appends.
-/

namespace PhiCrypto

open Exec SerdeJson Json

/-! ### What the client writes -/

/-- A string that needs no escapes. -/
def quoted (text : Bytes) : Bytes := 0x22 :: (text ++ [0x22])

/-- `clientDataJSON` up to its `crossOrigin`; `more` is the brace, or further members. -/
def clientDataJson (challenge origin more : Bytes) : Bytes :=
  0x7b :: (quoted (ascii "type") ++ 0x3a :: (quoted (ascii "webauthn.get") ++
    0x2c :: (quoted (ascii "challenge") ++ 0x3a :: (quoted (base64Url challenge) ++
      0x2c :: (quoted (ascii "origin") ++ 0x3a :: (quoted origin ++
        0x2c :: (quoted (ascii "crossOrigin") ++ 0x3a :: (ascii "false" ++ more))))))))

/-- What the authenticator signs beside the digest of the client data. -/
def authenticatorData (S : Suite) (rpId : Bytes) (flags : UInt8) (signCount : UInt32)
    (extensions : Bytes) : Bytes :=
  S.sha256 rpId ++ flags :: (beBytes 4 signCount.toNat ++ extensions)

/-! ### Strings without escapes -/

theorem stringBody_of_plain {text : Bytes} (hplain : ∀ b ∈ text, IsPlain b) (t : Bytes) :
    StringBody (text ++ 0x22 :: t) text t := by
  induction text with
  | nil => exact .close t
  | cons b text ih =>
    exact .part (.plain (hplain b List.mem_cons_self))
      (ih fun c hc => hplain c (List.mem_cons_of_mem b hc))

theorem stringLit_quoted {text : Bytes} (hplain : ∀ b ∈ text, IsPlain b) (hutf8 : IsUtf8 text)
    (t : Bytes) : StringLit (quoted text ++ t) text t := by
  refine ⟨text ++ 0x22 :: t, ?_, stringBody_of_plain hplain t, hutf8⟩
  rw [quoted, List.cons_append, List.append_assoc]
  rfl

theorem plain_of_all {text : Bytes} (h : (text.all fun b => decide (IsPlain b)) = true) :
    ∀ b ∈ text, IsPlain b := by
  intro b hb
  exact of_decide_eq_true (List.all_eq_true.mp h b hb)

theorem isUtf8_ascii (s : String) : IsUtf8 (ascii s) := by
  rw [IsUtf8, ascii]
  exact s.isValidUTF8

/-- Bytes below 128 are characters. -/
theorem isUtf8_of_lt {text : Bytes} (h : ∀ b ∈ text, b < 0x80) : IsUtf8 text := by
  have hbyte : ∀ b : UInt8, b < 0x80 → String.utf8EncodeChar (Char.ofNat b.toNat) = [b] :=
    forall_byte (by decide +kernel)
  have hencode : (text.map fun b => Char.ofNat b.toNat).flatMap String.utf8EncodeChar = text := by
    induction text with
    | nil => rfl
    | cons b text ih =>
      rw [List.map_cons, List.flatMap_cons, hbyte b (h b List.mem_cons_self),
        ih fun c hc => h c (List.mem_cons_of_mem b hc)]
      rfl
  refine ⟨text.map fun b => Char.ofNat b.toNat, ?_⟩
  rw [List.utf8Encode, hencode]
  apply ByteArray.ext
  exact (List.data_toByteArray).symm

theorem base64UrlDigit_plain (n : Nat) :
    IsPlain (base64UrlDigit n) ∧ base64UrlDigit n < 0x80 := by
  have hdigits : ∀ n < 63, IsPlain (base64UrlDigit n) ∧ base64UrlDigit n < 0x80 := by decide
  by_cases hn : n < 63
  · exact hdigits n hn
  · have hlast : base64UrlDigit n = 95 := by
      unfold base64UrlDigit
      rw [if_neg (by omega), if_neg (by omega), if_neg (by omega), if_neg (by omega)]
    rw [hlast]
    decide

theorem base64Url_plain (bytes : Bytes) : ∀ b ∈ base64Url bytes, IsPlain b ∧ b < 0x80 := by
  induction bytes using base64Url.induct with
  | case1 => simp [base64Url]
  | case2 a => simp [base64Url, base64UrlDigit_plain]
  | case3 a b => simp [base64Url, base64UrlDigit_plain]
  | case4 a b c rest ih => simpa [base64Url, base64UrlDigit_plain] using ih

/-! ### The parser reads it back -/

open ClientData in
theorem member_quoted {key value t : Bytes} {entry : Entry} (hplain : ∀ b ∈ key, IsPlain b)
    (hutf8 : IsUtf8 key) (h : Entry.Reads key value entry t) :
    Member (quoted key ++ 0x3a :: value) entry t :=
  ⟨key, 0x3a :: value, _, value, value, .nil _, stringLit_quoted hplain hutf8 _, .nil _, .nil _, h⟩

open ClientData in
theorem filterMap_other {α : Type} {f : Entry → Option α} {entries : List Entry}
    (hf : f .other = none) (hother : ∀ entry ∈ entries, entry = .other) :
    entries.filterMap f = [] := by
  rw [List.filterMap_eq_nil_iff]
  intro entry hentry
  rw [hother entry hentry, hf]

open ClientData in
theorem fromSlice_clientDataJson (step : Nat) (challenge : Bytes) {origin : String} {more : Bytes}
    {entries : List Entry} (horigin : ∀ b ∈ ascii origin, IsPlain b)
    (hmore : Left false more entries []) (hother : ∀ entry ∈ entries, entry = .other) :
    fromSlice step (clientDataJson challenge (ascii origin) more)
      = some ⟨ascii "webauthn.get", base64Url challenge, ascii origin, some false, none⟩ := by
  have hchallenge : ∀ b ∈ base64Url challenge, IsPlain b :=
    fun b hb => (base64Url_plain challenge b hb).1
  have hchallenge8 : IsUtf8 (base64Url challenge) :=
    isUtf8_of_lt fun b hb => (base64Url_plain challenge b hb).2
  have hcross : Entries (quoted (ascii "crossOrigin") ++ 0x3a :: (ascii "false" ++ more))
      (.crossOrigin (some false) :: entries) [] := by
    have hfalse : Nullable BoolLit (ascii "false" ++ more) (some false) more :=
      .inr ⟨false, rfl, .inr ⟨rfl, rfl⟩⟩
    exact entries_iff.mpr ⟨_, entries, more, rfl,
      member_quoted (plain_of_all (by decide +kernel)) (isUtf8_ascii _) (.crossOrigin hfalse),
      hmore⟩
  refine fromSlice_eq_some_iff.mpr ⟨[], .nil [], .inl ⟨_, .typ (ascii "webauthn.get") ::
    .challenge (base64Url challenge) :: .origin (ascii origin) :: .crossOrigin (some false) ::
      entries, .nil _, ?_, ?_⟩⟩
  · refine .more (member_quoted (plain_of_all (by decide +kernel)) (isUtf8_ascii _)
      (.typ (stringLit_quoted (plain_of_all (by decide +kernel)) (isUtf8_ascii _) _))) (.nil _) ?_
    refine .more (member_quoted (plain_of_all (by decide +kernel)) (isUtf8_ascii _)
      (.challenge (stringLit_quoted hchallenge hchallenge8 _))) (.nil _) ?_
    exact .more (member_quoted (plain_of_all (by decide +kernel)) (isUtf8_ascii _)
      (.origin (stringLit_quoted horigin (isUtf8_ascii _) _))) (.nil _) hcross
  · constructor
    · change ascii "webauthn.get" :: entries.filterMap Entry.typ? = _
      rw [filterMap_other rfl hother]
    · change base64Url challenge :: entries.filterMap Entry.challenge? = _
      rw [filterMap_other rfl hother]
    · change ascii origin :: entries.filterMap Entry.origin? = _
      rw [filterMap_other rfl hother]
    · refine .inr ?_
      change some false :: entries.filterMap Entry.crossOrigin? = _
      rw [filterMap_other rfl hother]
    · refine .inl ⟨?_, rfl⟩
      change entries.filterMap Entry.topOrigin? = _
      rw [filterMap_other rfl hother]

/-! ### The authenticator's part -/

section Authenticator

variable {S : Suite} {rpId extensions client signature : Bytes} {flags : UInt8} {signCount : UInt32}

/-- What the verifier reads of it by position. -/
theorem authenticatorData_reads :
    (authenticatorData S rpId flags signCount extensions).take 32 = S.sha256 rpId ∧
      (authenticatorData S rpId flags signCount extensions).getD 32 0 = flags ∧
      ((authenticatorData S rpId flags signCount extensions).take 37).drop 33
        = beBytes 4 signCount.toNat := by
  have hlength := S.sha256_length rpId
  unfold authenticatorData
  refine ⟨?_, ?_, ?_⟩
  · exact List.take_left' hlength
  · rw [List.getD_append_right _ _ _ _ (by omega), hlength]
    rfl
  · rw [List.drop_take, List.drop_append, List.drop_eq_nil_of_le (by omega), hlength,
      List.nil_append]
    exact List.take_left' (beBytes_length 4 _)

theorem authenticatorData_length :
    37 ≤ (authenticatorData S rpId flags signCount extensions).length := by
  rw [authenticatorData, List.length_append, S.sha256_length, List.length_cons, List.length_append,
    beBytes_length]
  omega

theorem details_authenticatorData :
    (WebAuthnAssertion.mk (authenticatorData S rpId flags signCount extensions) client
      signature).details
      = { signCount
          userPresent := flags &&& flagUserPresent ≠ 0
          userVerified := flags &&& flagUserVerified ≠ 0
          backupEligible := flags &&& flagBackupEligible ≠ 0
          backupState := flags &&& flagBackupState ≠ 0 } := by
  obtain ⟨-, hflags, hcounter⟩ := @authenticatorData_reads S rpId extensions flags signCount
  unfold WebAuthnAssertion.details WebAuthnAssertion.flags
  dsimp only
  rw [hflags, hcounter, beNat_beBytes signCount.toNat_lt, UInt32.ofNat_toNat]

end Authenticator

/-! ### The ceremony -/

/-- **An honest ceremony.** Where the passkey signs, `verify_webauthn_details` accepts what
    client and authenticator made for the challenge, and returns the counter and flags. -/
theorem passkey_ceremony_accepted (S : Suite) {C : CurveArithmetic} (hC : C.Lawful) (step : Nat)
    {secret publicKey : Bytes} {d : Nat} (hd : secretFromSlice C secret = some d)
    (hq : C.fromSec1Bytes publicKey = some (C.mulByGenerator d)) (challenge : Bytes)
    {origin : String} (horigin : ∀ b ∈ ascii origin, IsPlain b) {more : Bytes}
    {entries : List ClientData.Entry} (hmore : ClientData.Left false more entries [])
    (hother : ∀ entry ∈ entries, entry = .other) (rpId extensions : Bytes) {flags : UInt8}
    (signCount : UInt32) {requireUv : Bool} (hpresent : flags &&& flagUserPresent ≠ 0)
    (hverified : requireUv = true → flags &&& flagUserVerified ≠ 0)
    (huse : UsableNonce C d (C.digest (authenticatorData S rpId flags signCount extensions ++
      S.sha256 (clientDataJson challenge (ascii origin) more)))) :
    ∃ sig, p256TrySign C d (authenticatorData S rpId flags signCount extensions ++
        S.sha256 (clientDataJson challenge (ascii origin) more)) = some sig ∧
      (verifyWebauthnDetails S (ClientData.fromSlice step) (p256Ecdsa C)
        ⟨authenticatorData S rpId flags signCount extensions,
          clientDataJson challenge (ascii origin) more, (sig.normalizeS.getD sig).toDer⟩
        challenge publicKey (ascii origin) rpId requireUv).Returns
          (some
            { signCount
              userPresent := true
              userVerified := flags &&& flagUserVerified ≠ 0
              backupEligible := flags &&& flagBackupEligible ≠ 0
              backupState := flags &&& flagBackupState ≠ 0 }) := by
  obtain ⟨hpos, hlt⟩ := of_secretFromSlice hd
  obtain ⟨hrpId, hflags, -⟩ := @authenticatorData_reads S rpId extensions flags signCount
  generalize hauth : authenticatorData S rpId flags signCount extensions = auth
    at huse hrpId hflags ⊢
  generalize hclient : clientDataJson challenge (ascii origin) more = client at huse ⊢
  have hk := (hC.generateK_range d (C.digest (auth ++ S.sha256 client)) hpos hlt).2
  obtain ⟨sig, hsig⟩ :=
    Option.isSome_iff_exists.mp ((hC.isSome_signPrehashed hpos hlt _).mpr huse)
  have haccepts := hC.acceptsSignature_of_sign ⟨publicKey, hq⟩ hlt hk hsig
  have hparse := fromSlice_clientDataJson step challenge horigin hmore hother
  rw [hclient] at hparse
  refine ⟨sig, hsig, ?_⟩
  refine (verifyWebauthnDetails_returns_iff (x := ⟨challenge, ascii origin, rpId, requireUv⟩)).mpr
    (.inl ⟨?_, ?_⟩)
  · refine ⟨⟨_, hparse, rfl, rfl, ?_, rfl⟩, ?_, hrpId, ?_, ?_, ?_⟩
    · rintro (hcross | htop)
      · cases hcross
      · cases htop
    · rw [← hauth]
      exact authenticatorData_length
    · rw [WebAuthnAssertion.flags, hflags]
      exact hpresent
    · rw [WebAuthnAssertion.flags, hflags]
      exact hverified
    · rw [verifyP256LowS_toDer hC hq]
      exact decide_eq_true haccepts
  · rw [← hauth, details_authenticatorData, decide_eq_true hpresent]

/-- A passkey of the small curve, with one further member in the client data. -/
theorem smallPasskey_accepted :
    ∃ sig, p256TrySign SmallCurve.arithmetic 5
        (authenticatorData sha256Suite (ascii "phi") 5 7 [] ++
          sha256 (clientDataJson (ascii "once") (ascii "https://phi")
            (ascii ",\"x\":1\x7d"))) = some sig ∧
      (verifyWebauthnDetails sha256Suite (ClientData.fromSlice 8) (p256Ecdsa SmallCurve.arithmetic)
        ⟨authenticatorData sha256Suite (ascii "phi") 5 7 [],
          clientDataJson (ascii "once") (ascii "https://phi") (ascii ",\"x\":1\x7d"),
          (sig.normalizeS.getD sig).toDer⟩
        (ascii "once") (SmallCurve.toEncodedPoint 5 true) (ascii "https://phi") (ascii "phi")
        true).Returns (some ⟨7, true, true, false, false⟩) := by
  have hmore : ClientData.Left false (ascii ",\"x\":1\x7d") [.other] [] := by
    have hone : Unsigned (ascii "1\x7d") (ascii "\x7d") :=
      ⟨_, _, .nonzero (by decide) (by decide) (.nil _), .none _, .none _⟩
    have hmember : ClientData.Member (ascii "\"x\":1\x7d") .other (ascii "\x7d") :=
      member_quoted (plain_of_all (by decide +kernel)) (isUtf8_ascii "x")
        (.other (by decide) (.unsigned hone))
    exact .inr ⟨_, .nil _, .last hmember (.nil _)⟩
  have hsecret : secretFromSlice SmallCurve.arithmetic smallEcdsaSecret = some 5 := by decide
  have hkey : SmallCurve.arithmetic.fromSec1Bytes (SmallCurve.toEncodedPoint 5 true)
      = some (SmallCurve.arithmetic.mulByGenerator 5) :=
    SmallCurve.fromSec1Bytes_toEncodedPoint 5 (by decide) true
  exact passkey_ceremony_accepted sha256Suite SmallCurve.lawful 8 hsecret hkey
    (ascii "once") (plain_of_all (by decide +kernel)) hmore (fun _ h => List.mem_singleton.mp h)
    (ascii "phi") [] 7 (by decide) (fun _ => by decide) (by decide +kernel)

end PhiCrypto

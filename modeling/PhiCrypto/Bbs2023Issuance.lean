import PhiCrypto.Bbs2023Extraction

/-!
# Issuing `bbs-2023` credentials

`bbs_2023::sign` takes the secret and the public key as two arguments and does not
compare them. What it returns verifies under the public key that was given exactly when
that is the key of the secret and the signature decodes (`signature_verifies_iff`).
`generate_keypair` and `sign_credential` give the key of the secret, so their
signatures verify.
-/

namespace PhiCrypto

open PairingCrypto

variable {S : Suite}

/-! ### Verification of signatures -/

namespace PairingCrypto

def digestMessages (B : Blstrs S) (messages : List Bytes) : Except Error (List S.Fr) :=
  messages.mapM (mapMessageToScalarAsHash B)

/-- `verify`, for a list of messages. -/
def verify (B : Blstrs S) (publicKey : Bytes) (header : Option Bytes) (messages : List Bytes)
    (signature : Bytes) : Except Error Bool :=
  match B.g2FromCompressed publicKey with
  | none => throw Error.badEncoding
  | some pk => do
    let messages ← digestMessages B messages
    let generators := Generators.derive B messages.length
    let signature ← Signature.fromOctets B signature
    signature.verify B pk header generators messages

end PairingCrypto

/-- `bbs_2023::verify`. -/
def bbs2023Verify (B : Blstrs S) (publicKey header : Bytes) (messages : List Bytes)
    (signature : Bytes) : Bool :=
  if publicKey.length ≠ publicKeyLen ∨ signature.length ≠ signatureLen then false
  else
    match PairingCrypto.verify B publicKey (opt header) messages signature with
    | .ok verdict => verdict
    | .error _ => false

/-- `bbs_2023::generate_keypair`, where `generateSk` makes a secret scalar of the drawn key
    material, or fails. -/
def bbs2023GenerateKeypair (B : Blstrs S) (generateSk : Bytes → Option S.Fr) (ikm : Bytes) :
    Except CryptoError (Bytes × Bytes) :=
  match generateSk ikm with
  | none => .error (.backend "bbs2023 keygen")
  | some sk =>
    if sk = 0 then .error (.backend "bbs2023 keygen")
    else .ok (beBytes 32 sk.val, B.g2ToCompressed (sk • B.g2Generator))

/-! ### What is accepted -/

/-- A signature that `bbs_2023::verify` accepts, with key and signature decoded. -/
structure Bbs2023Signed (B : Blstrs S) (publicKey header : Bytes) (messages : List Bytes)
    (signature : Bytes) (pk : S.G2) (sig : Signature S) : Prop where
  key_length : publicKey.length = 96
  signature_length : signature.length = 80
  key_eq : B.g2FromCompressed publicKey = some pk
  short : ∀ m ∈ messages, m.length < 2 ^ 64
  signature_eq : Signature.fromOctets B signature = .ok sig
  verifies : sig.verify B pk (opt header) (Generators.derive B messages.length)
    (messages.map (messageScalar B)) = .ok true

variable {B : Blstrs S}

theorem digestMessages_eq_ok_iff {messages : List Bytes} {digested : List S.Fr} :
    digestMessages B messages = .ok digested ↔
      (∀ m ∈ messages, m.length < 2 ^ 64) ∧ digested = messages.map (messageScalar B) := by
  induction messages generalizing digested with
  | nil =>
    rw [digestMessages, List.mapM_nil]
    constructor
    · intro h
      cases h
      simp
    · rintro ⟨-, rfl⟩
      rfl
  | cons m messages ih =>
    rw [digestMessages] at ih
    rw [digestMessages, List.mapM_cons]
    simp only [except_bind_eq_ok_iff, mapMessageToScalarAsHash_eq_ok_iff, ih, List.mem_cons,
      forall_eq_or_imp, List.map_cons]
    constructor
    · rintro ⟨_, ⟨hm, rfl⟩, _, ⟨hshort, rfl⟩, ⟨⟩⟩
      exact ⟨⟨hm, hshort⟩, rfl⟩
    · rintro ⟨⟨hm, hshort⟩, rfl⟩
      exact ⟨_, ⟨hm, rfl⟩, _, ⟨hshort, rfl⟩, rfl⟩

theorem bbs2023Verify_eq_true_iff {publicKey header signature : Bytes} {messages : List Bytes} :
    bbs2023Verify B publicKey header messages signature = true ↔
      ∃ pk sig, Bbs2023Signed B publicKey header messages signature pk sig := by
  unfold bbs2023Verify PairingCrypto.verify
  constructor
  · intro h
    split at h
    · cases h
    next hlen =>
    obtain ⟨hkey, hsignature⟩ := not_or.mp hlen
    cases hpk : B.g2FromCompressed publicKey with
    | none =>
      rw [hpk] at h
      cases h
    | some pk =>
      rw [hpk] at h
      dsimp only at h
      split at h
      · next verdict hverdict =>
        obtain ⟨digested, hdigested, hverdict⟩ := except_bind_eq_ok_iff.mp hverdict
        obtain ⟨hshort, rfl⟩ := digestMessages_eq_ok_iff.mp hdigested
        obtain ⟨sig, hsig, hverdict⟩ := except_bind_eq_ok_iff.mp hverdict
        rw [List.length_map, h] at hverdict
        exact ⟨pk, sig, not_not.mp hkey, not_not.mp hsignature, hpk, hshort, hsig, hverdict⟩
      · cases h
  · rintro ⟨pk, sig, h⟩
    have hlen : ¬ (publicKey.length ≠ publicKeyLen ∨ signature.length ≠ signatureLen) :=
      not_or.mpr ⟨not_not.mpr h.key_length, not_not.mpr h.signature_length⟩
    have hdigested := digestMessages_eq_ok_iff (B := B).mpr ⟨h.short, rfl⟩
    have hverdict : (do
        let messages ← digestMessages B messages
        let generators := Generators.derive B messages.length
        let signature ← Signature.fromOctets B signature
        signature.verify B pk (opt header) generators messages : Except Error Bool) = .ok true := by
      refine except_bind_eq_ok_iff.mpr ⟨_, hdigested, except_bind_eq_ok_iff.mpr ⟨sig,
        h.signature_eq, ?_⟩⟩
      rw [List.length_map]
      exact h.verifies
    rw [if_neg hlen, h.key_eq]
    dsimp only
    rw [hverdict]

/-! ### What is signed -/

/-- The point that a signature signs: the base point, the domain and all messages. -/
def PairingCrypto.messagesPoint (B : Blstrs S) (domain : S.Fr) (ms : List S.Fr) : S.G1 :=
  let generators := Generators.derive B ms.length
  msm (basePoint B :: generators.q :: generators.hList) (1 :: domain :: ms)

/-- A run of `bbs_2023::sign` that returns these octets. -/
structure Bbs2023SignRun (B : Blstrs S) (secretKey publicKey header : Bytes)
    (messages : List Bytes) (octets : Bytes) where
  sk : S.Fr
  pk : S.G2
  domain : S.Fr
  e : S.Fr
  secret_eq : secretKeyFromVec S secretKey = .ok sk
  sk_ne : sk ≠ 0
  key_length : publicKey.length = 96
  key_eq : B.g2FromCompressed publicKey = some pk
  short : ∀ m ∈ messages, m.length < 2 ^ 64
  nonempty : ¬ (opt header = none ∧ messages = [])
  domain_eq : computeDomain B pk (opt header) messages.length
    (Generators.derive B messages.length) = .ok domain
  exponent_ne : e + sk ≠ 0
  octets_eq : octets = Signature.toOctets B
    ⟨(e + sk)⁻¹ • messagesPoint B domain (messages.map (messageScalar B)), e⟩

theorem secretKeyFromBytes_eq_ok_iff {bytes : Bytes} {sk : S.Fr} :
    secretKeyFromBytes S bytes = .ok sk ↔ scalarFromBytesBe S bytes = some sk ∧ sk ≠ 0 := by
  unfold secretKeyFromBytes
  cases hs : scalarFromBytesBe S bytes with
  | none => exact iff_of_false (fun h => by cases h) (fun h => by cases h.1)
  | some s =>
    rw [rejectIf_bind_eq_ok_iff]
    constructor
    · rintro ⟨hne, h⟩
      cases h
      exact ⟨rfl, hne⟩
    · rintro ⟨h, hne⟩
      cases h
      exact ⟨hne, rfl⟩

theorem bbs2023Sign_inversion {secretKey publicKey header octets : Bytes} {messages : List Bytes}
    (h : bbs2023Sign B secretKey publicKey header messages = .ok octets) :
    Nonempty (Bbs2023SignRun B secretKey publicKey header messages octets) := by
  obtain ⟨hsecret, h⟩ := rejectIf_bind_eq_ok_iff.mp h
  obtain ⟨hkey, h⟩ := rejectIf_bind_eq_ok_iff.mp h
  rw [mapError_eq_ok_iff] at h
  obtain ⟨sk, hsk, h⟩ := except_bind_eq_ok_iff.mp h
  cases hpk : B.g2FromCompressed publicKey with
  | none =>
    rw [hpk] at h
    cases h
  | some pk =>
  rw [hpk] at h
  obtain ⟨digested, hdigested, h⟩ := except_bind_eq_ok_iff.mp h
  obtain ⟨hshort, rfl⟩ := digestMessages_eq_ok_iff.mp hdigested
  obtain ⟨signature, hnew, h⟩ := except_bind_eq_ok_iff.mp h
  cases h
  obtain ⟨hne, hnew⟩ := rejectIf_bind_eq_ok_iff.mp hnew
  obtain ⟨-, hnew⟩ := rejectIf_bind_eq_ok_iff.mp hnew
  obtain ⟨hsk_ne, hnew⟩ := rejectIf_bind_eq_ok_iff.mp hnew
  obtain ⟨domain, hdomain, hnew⟩ := except_bind_eq_ok_iff.mp hnew
  obtain ⟨e, -, hnew⟩ := except_bind_eq_ok_iff.mp hnew
  obtain ⟨b, hb, hnew⟩ := except_bind_eq_ok_iff.mp hnew
  obtain ⟨hexp, hnew⟩ := rejectIf_bind_eq_ok_iff.mp hnew
  cases hnew
  rw [computeB_eq_ok_iff] at hb
  rw [List.length_map] at hdomain
  refine ⟨⟨sk, pk, domain, e, ?_, hsk_ne, not_not.mp hkey, hpk, hshort, ?_, hdomain, hexp, ?_⟩⟩
  · exact rejectIf_bind_eq_ok_iff.mpr ⟨hsecret, hsk⟩
  · rintro ⟨hnone, rfl⟩
    exact hne ⟨hnone, rfl⟩
  · rw [hb.2]
    rfl

/-! ### A signature verifies under the key of its secret -/

theorem publicFromSecret_eq_ok_iff {secretKey publicKey : Bytes} :
    publicFromSecret B secretKey = .ok publicKey ↔
      ∃ sk, secretKeyFromVec S secretKey = .ok sk ∧
        publicKey = B.g2ToCompressed (sk • B.g2Generator) := by
  unfold publicFromSecret
  simp only [except_bind_eq_ok_iff, mapError_eq_ok_iff]
  constructor
  · rintro ⟨sk, hsk, h⟩
    cases h
    exact ⟨sk, hsk, rfl⟩
  · rintro ⟨sk, hsk, rfl⟩
    exact ⟨sk, hsk, rfl⟩

/-- The equation of a signature says that the key is the one of the secret. -/
theorem signature_pairing_iff {a : S.G1} (ha : a ≠ 0) (pk : S.G2) (sk e : S.Fr) :
    S.pairing a (pk + e • B.g2Generator) + S.pairing ((e + sk) • a) (-B.g2Generator) = 0 ↔
      pk = sk • B.g2Generator := by
  have hdiff : S.pairing a (pk + e • B.g2Generator) + S.pairing ((e + sk) • a) (-B.g2Generator)
      = S.pairing a (pk - sk • B.g2Generator) := by
    simp only [map_add, map_sub, map_smul, map_neg, LinearMap.smul_apply]
    module
  rw [hdiff]
  constructor
  · intro h
    exact sub_eq_zero.mp ((S.pairing_nondegenerate _ _ h).resolve_left ha)
  · intro h
    rw [h, sub_self, map_zero]

theorem Signature.toOctets_injective (hB : B.Canonical) {sig sig' : Signature S}
    (h : sig.toOctets B = sig'.toOctets B) : sig = sig' := by
  obtain ⟨ha, he⟩ := append_split (by rw [hB.g1_length, hB.g1_length]) h
  cases sig
  cases sig'
  cases hB.g1_injective ha
  cases beBytes_val_injective he
  rfl

namespace Bbs2023SignRun

variable {secretKey publicKey header octets : Bytes} {messages : List Bytes}
  (run : Bbs2023SignRun B secretKey publicKey header messages octets)

/-- The signature that is encoded. -/
def signature : Signature S :=
  ⟨(run.e + run.sk)⁻¹ • messagesPoint B run.domain (messages.map (messageScalar B)), run.e⟩

include run in
theorem octets_length (hB : B.Canonical) : octets.length = 80 := by
  rw [run.octets_eq, Signature.toOctets, List.length_append, hB.g1_length, beBytes_length]

theorem fromOctets_iff (hB : B.Canonical) {sig : Signature S} :
    Signature.fromOctets B octets = .ok sig ↔
      sig = run.signature ∧ run.signature.a ≠ 0 ∧ run.signature.e ≠ 0 := by
  rw [Signature.fromOctets_eq_ok_iff hB (run.octets_length hB)]
  constructor
  · rintro ⟨ha, he, hoctets⟩
    obtain rfl := Signature.toOctets_injective hB (hoctets.symm.trans run.octets_eq)
    exact ⟨rfl, ha, he⟩
  · rintro ⟨rfl, ha, he⟩
    exact ⟨ha, he, run.octets_eq⟩

/-- The given key is the one of the secret as a point exactly when it is in octets. -/
theorem key_eq_iff (hB : B.Canonical) (hg2 : B.g2Generator ≠ 0) :
    run.pk = run.sk • B.g2Generator ↔ publicFromSecret B secretKey = .ok publicKey := by
  rw [publicFromSecret_eq_ok_iff]
  have hne : run.sk • B.g2Generator ≠ 0 := smul_ne_zero run.sk_ne hg2
  constructor
  · intro hpk
    refine ⟨run.sk, run.secret_eq, ?_⟩
    rw [← hpk] at hne ⊢
    exact hB.g2_canonical _ _ run.key_length run.key_eq hne
  · rintro ⟨sk, hsk, hoctets⟩
    cases hsk.symm.trans run.secret_eq
    have hread : B.g2FromCompressed publicKey = some (run.sk • B.g2Generator) :=
      (congrArg B.g2FromCompressed hoctets).trans (hB.g2_roundtrip _)
    exact Option.some.inj (run.key_eq.symm.trans hread)

theorem verify_iff (hg2 : B.g2Generator ≠ 0) (ha : run.signature.a ≠ 0) :
    run.signature.verify B run.pk (opt header) (Generators.derive B messages.length)
        (messages.map (messageScalar B)) = .ok true ↔ run.pk = run.sk • B.g2Generator := by
  have hms : (messages.map (messageScalar B)).length = messages.length := List.length_map _
  have hpoint : msm
      (basePoint B :: (Generators.derive B messages.length).q
        :: (Generators.derive B messages.length).hList)
      (1 :: run.domain :: messages.map (messageScalar B))
        = (run.signature.e + run.sk) • run.signature.a := by
    refine Eq.trans ?_ (smul_inv_smul₀ run.exponent_ne _).symm
    rw [messagesPoint, hms]
  have hpairing := signature_pairing_iff (B := B) ha run.pk run.sk run.signature.e
  rw [← hpoint] at hpairing
  rw [Signature.verify_eq_ok_true_iff hms]
  constructor
  · rintro ⟨-, -, domain, hdomain, h⟩
    cases run.domain_eq.symm.trans hdomain
    exact hpairing.mp h
  · intro hpk
    refine ⟨?_, ?_, run.domain, run.domain_eq, hpairing.mpr hpk⟩
    · rintro ⟨hnone, hnil⟩
      exact run.nonempty ⟨hnone, List.map_eq_nil_iff.mp hnil⟩
    · rw [hpk]
      exact smul_ne_zero run.sk_ne hg2

end Bbs2023SignRun

theorem bbs2023Verify_of_run (hB : B.Canonical) (hg2 : B.g2Generator ≠ 0)
    {secretKey publicKey header octets : Bytes} {messages : List Bytes}
    (run : Bbs2023SignRun B secretKey publicKey header messages octets) :
    bbs2023Verify B publicKey header messages octets = true ↔
      publicFromSecret B secretKey = .ok publicKey ∧
        ∃ sig, Signature.fromOctets B octets = .ok sig := by
  rw [bbs2023Verify_eq_true_iff, ← run.key_eq_iff hB hg2]
  constructor
  · rintro ⟨pk, sig, hsig⟩
    obtain ⟨rfl, ha, -⟩ := (run.fromOctets_iff hB).mp hsig.signature_eq
    cases run.key_eq.symm.trans hsig.key_eq
    exact ⟨(run.verify_iff hg2 ha).mp hsig.verifies, _, hsig.signature_eq⟩
  · rintro ⟨hpk, sig, hsig⟩
    obtain ⟨rfl, ha, -⟩ := (run.fromOctets_iff hB).mp hsig
    exact ⟨run.pk, run.signature, run.key_length, run.octets_length hB, run.key_eq, run.short,
      hsig, (run.verify_iff hg2 ha).mpr hpk⟩

/-- The two halves of a generated key pair belong together. -/
theorem publicFromSecret_generateKeypair {generateSk : Bytes → Option S.Fr}
    {ikm secretKey publicKey : Bytes}
    (h : bbs2023GenerateKeypair B generateSk ikm = .ok (secretKey, publicKey)) :
    publicFromSecret B secretKey = .ok publicKey := by
  unfold bbs2023GenerateKeypair at h
  split at h
  · cases h
  next sk _ =>
  split at h
  · cases h
  next hne =>
  cases h
  refine publicFromSecret_eq_ok_iff.mpr ⟨sk, rejectIf_bind_eq_ok_iff.mpr ⟨?_, ?_⟩, rfl⟩
  · rw [beBytes_length]
    exact not_not.mpr rfl
  · exact secretKeyFromBytes_eq_ok_iff.mpr ⟨scalarFromBytesBe_beBytes sk, hne⟩

/-- A signature under a generated key pair verifies exactly when it decodes. -/
theorem generated_key_signs (hB : B.Canonical) (hg2 : B.g2Generator ≠ 0)
    {generateSk : Bytes → Option S.Fr} {ikm secretKey publicKey header octets : Bytes}
    {messages : List Bytes}
    (hkey : bbs2023GenerateKeypair B generateSk ikm = .ok (secretKey, publicKey))
    (h : bbs2023Sign B secretKey publicKey header messages = .ok octets) :
    bbs2023Verify B publicKey header messages octets = true ↔
      ∃ sig, Signature.fromOctets B octets = .ok sig := by
  obtain ⟨run⟩ := bbs2023Sign_inversion h
  rw [bbs2023Verify_of_run hB hg2 run, publicFromSecret_generateKeypair hkey]
  exact and_iff_right rfl

/-- **Issuance.** What `sign` returns verifies under the public key it was given exactly when
    that is the public key of the secret and the octets decode, that is when neither
    component of the signature is zero. -/
theorem signature_verifies_iff (hB : B.Canonical) (hg2 : B.g2Generator ≠ 0)
    {secretKey publicKey header octets : Bytes} {messages : List Bytes}
    (h : bbs2023Sign B secretKey publicKey header messages = .ok octets) :
    bbs2023Verify B publicKey header messages octets = true ↔
      publicFromSecret B secretKey = .ok publicKey ∧
        ∃ sig, Signature.fromOctets B octets = .ok sig := by
  obtain ⟨run⟩ := bbs2023Sign_inversion h
  exact bbs2023Verify_of_run hB hg2 run

/-- A signature under the right key verifies, one made with another public key does not. -/
theorem smallSignature_verifies_iff :
    bbs2023Verify smallBlstrs smallBbs2023Key [] [[4], [3]]
        (Signature.toOctets smallBlstrs ⟨SmallSuite.elem 5, SmallSuite.elem 4⟩) = true ∧
      bbs2023Verify smallBlstrs (smallSuite.g2Codec.ser (SmallSuite.elem 1)) [] [[4], [3]]
        (Signature.toOctets smallBlstrs ⟨SmallSuite.elem 5, SmallSuite.elem 6⟩) = false := by
  have hg2 : smallBlstrs.g2Generator ≠ 0 := by decide
  have hsign : bbs2023Sign smallBlstrs smallBbs2023Secret smallBbs2023Key [] [[4], [3]]
      = .ok (Signature.toOctets smallBlstrs ⟨SmallSuite.elem 5, SmallSuite.elem 4⟩) := by
    decide +kernel
  have hother : bbs2023Sign smallBlstrs smallBbs2023Secret
      (smallSuite.g2Codec.ser (SmallSuite.elem 1)) [] [[4], [3]]
        = .ok (Signature.toOctets smallBlstrs ⟨SmallSuite.elem 5, SmallSuite.elem 6⟩) := by
    decide +kernel
  constructor
  · refine (signature_verifies_iff smallBlstrs_canonical hg2 hsign).mpr ⟨by decide +kernel, _,
      (Signature.fromOctets_eq_ok_iff smallBlstrs_canonical (by decide)).mpr ⟨?_, ?_, rfl⟩⟩
    · decide
    · decide
  · rw [← Bool.not_eq_true, signature_verifies_iff smallBlstrs_canonical hg2 hother]
    intro h
    exact absurd h.1 (by decide +kernel)

end PhiCrypto

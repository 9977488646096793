import PhiCrypto.BbsPlus

/-!
# The encodings of keys, signatures and proofs

The derived `ark-serialize` encodings of the vendored structures: fields one
after another, in the order of declaration.

The encoding of `PoKOfSignatureG1Proof` is not canonical. Its points may be
identities, which have several encodings, and it ends in the optional
`sc_partial_resp_2`, a map whose entries may be permuted or repeated.
`PoKOfSignatureG1Proof.decoder_sound` says what an accepted encoding looks like,
field by field.
-/

namespace PhiCrypto

variable {S : Suite}

/-- `PublicKeyG2`: one point of `G2`. -/
def publicKeyDecoder (S : Suite) : Ark S.G2 := S.g2Codec.decoder

structure SignatureG1 (S : Suite) where
  a : S.G1
  e : S.Fr
  s : S.Fr
deriving DecidableEq

namespace SignatureG1

def decoder : Ark (SignatureG1 S) := do
  let a ← S.g1Codec.decoder
  let e ← Ark.fr S.r
  let s ← Ark.fr S.r
  pure { a, e, s }

def ser (sig : SignatureG1 S) : Bytes :=
  S.g1Codec.ser sig.a ++ S.serFr sig.e ++ S.serFr sig.s

def verify (sig : SignatureG1 S) (messages : List S.Fr) (pk : S.G2)
    (params : SignatureParamsG1 S) : Except BBSPlusError Unit := do
  rejectIf (messages = []) BBSPlusError.noMessageToSign
  rejectIf (messages.length ≠ params.h.length) BBSPlusError.messageCountIncompatibleWithSigParams
  rejectIf (sig.a = 0) BBSPlusError.zeroSignature
  let b := params.b messages sig.s
  rejectIf (S.pair sig.a pk + S.pair (sig.e • sig.a - b) params.g2 ≠ 0)
    BBSPlusError.invalidSignature

theorem verify_eq_ok_iff {sig : SignatureG1 S} {messages : List S.Fr} {pk : S.G2}
    {params : SignatureParamsG1 S} :
    sig.verify messages pk params = .ok () ↔
      messages ≠ [] ∧ messages.length = params.h.length ∧ sig.a ≠ 0 ∧
        S.pairing sig.a pk + S.pairing (sig.e • sig.a - params.b messages sig.s) params.g2 = 0 := by
  rw [verify, rejectIf_bind_eq_ok_iff, rejectIf_bind_eq_ok_iff,
    rejectIf_bind_eq_ok_iff, rejectIf_eq_ok_iff, not_not, not_not, Suite.pair, Suite.pair]

end SignatureG1

namespace PokDiscreteLog

def decoder : Ark (PokDiscreteLog S) := do
  let t ← S.g1Codec.decoder
  let response ← Ark.fr S.r
  pure { t, response }

def ser (p : PokDiscreteLog S) : Bytes :=
  S.g1Codec.ser p.t ++ S.serFr p.response

theorem ser_length (p : PokDiscreteLog S) : p.ser.length = 80 := by
  simp [ser, S.g1Codec.ser_length]

theorem decoder_ser (p : PokDiscreteLog S) (s : Bytes) : decoder (p.ser ++ s) = .ok (p, s) := by
  simp only [ser, List.append_assoc]
  rw [decoder, Decoder.bind_ok (S.g1Codec.decoder_ser _ _),
    Decoder.bind_ok (S.canonical_fr.complete _ trivial), Decoder.pure_apply]

theorem deser_ser (p : PokDiscreteLog S) : deser decoder p.ser = .ok p := by
  rw [deser_eq_ok_iff]
  simpa using decoder_ser p []

theorem decoder_sound {s t : Bytes} {p : PokDiscreteLog S} (h : decoder s = .ok (p, t)) :
    ∃ rawT : Bytes, rawT.length = 48 ∧ S.g1Codec.de rawT = some p.t ∧
      s = rawT ++ S.serFr p.response ++ t := by
  rw [decoder, Decoder.bind_eq_ok_iff] at h
  rcases h with ⟨point, u, hpoint, h⟩
  rw [Decoder.bind_eq_ok_iff] at h
  rcases h with ⟨response, v, hresponse, h⟩
  cases h
  obtain ⟨rawT, hlen, hraw, rfl⟩ := S.g1Codec.decoder_sound hpoint
  obtain ⟨-, rfl⟩ := S.canonical_fr.sound hresponse
  exact ⟨rawT, hlen, hraw, by simp⟩

end PokDiscreteLog

namespace PokPedersenCommitment

def decoder : Ark (PokPedersenCommitment S) := do
  let t ← S.g1Codec.decoder
  let response1 ← Ark.fr S.r
  let response2 ← Ark.fr S.r
  pure { t, response1, response2 }

def ser (p : PokPedersenCommitment S) : Bytes :=
  S.g1Codec.ser p.t ++ S.serFr p.response1 ++ S.serFr p.response2

theorem decoder_ser (p : PokPedersenCommitment S) (s : Bytes) :
    decoder (p.ser ++ s) = .ok (p, s) := by
  simp only [ser, List.append_assoc]
  rw [decoder, Decoder.bind_ok (S.g1Codec.decoder_ser _ _),
    Decoder.bind_ok (S.canonical_fr.complete _ trivial),
    Decoder.bind_ok (S.canonical_fr.complete _ trivial), Decoder.pure_apply]

theorem decoder_sound {s t : Bytes} {p : PokPedersenCommitment S}
    (h : decoder s = .ok (p, t)) :
    ∃ rawT : Bytes, rawT.length = 48 ∧ S.g1Codec.de rawT = some p.t ∧
      s = rawT ++ S.serFr p.response1 ++ S.serFr p.response2 ++ t := by
  rw [decoder, Decoder.bind_eq_ok_iff] at h
  rcases h with ⟨point, u, hpoint, h⟩
  rw [Decoder.bind_eq_ok_iff] at h
  rcases h with ⟨response1, v, hresponse1, h⟩
  rw [Decoder.bind_eq_ok_iff] at h
  rcases h with ⟨response2, w, hresponse2, h⟩
  cases h
  obtain ⟨rawT, hlen, hraw, rfl⟩ := S.g1Codec.decoder_sound hpoint
  obtain ⟨-, rfl⟩ := S.canonical_fr.sound hresponse1
  obtain ⟨-, rfl⟩ := S.canonical_fr.sound hresponse2
  exact ⟨rawT, hlen, hraw, by simp⟩

end PokPedersenCommitment

namespace PartialSchnorrResponse

def decoder : Ark (PartialSchnorrResponse S) := do
  let responses ← Ark.map (Ark.fr S.r)
  let totalResponses ← Ark.u64
  pure { responses, totalResponses }

def ser (p : PartialSchnorrResponse S) : Bytes :=
  leBytes 8 p.responses.length
    ++ (p.responses.entries.map fun e => leBytes 8 e.1 ++ S.serFr e.2).flatten
    ++ leBytes 8 p.totalResponses

end PartialSchnorrResponse

namespace PoKOfSignatureG1Proof

def decoder : Ark (PoKOfSignatureG1Proof S) := do
  let aPrime ← S.g1Codec.decoder
  let aBar ← S.g1Codec.decoder
  let d ← S.g1Codec.decoder
  let scResp1 ← PokPedersenCommitment.decoder
  let t2 ← S.g1Codec.decoder
  let scResp2 ← Ark.option (Ark.vec (Ark.fr S.r))
  let scPartialResp2 ← Ark.option PartialSchnorrResponse.decoder
  pure { aPrime, aBar, d, scResp1, t2, scResp2, scPartialResp2 }

/-- The encoding up to the last field. -/
def serHead (p : PoKOfSignatureG1Proof S) : Bytes :=
  S.g1Codec.ser p.aPrime ++ S.g1Codec.ser p.aBar ++ S.g1Codec.ser p.d ++ p.scResp1.ser
    ++ S.g1Codec.ser p.t2 ++ Ark.optionBytes (Ark.vecBytes S.serFr) p.scResp2

def ser (p : PoKOfSignatureG1Proof S) : Bytes :=
  p.serHead ++ Ark.optionBytes PartialSchnorrResponse.ser p.scPartialResp2

theorem length_flatten_serFr (zs : List S.Fr) :
    (zs.map S.serFr).flatten.length = 32 * zs.length := by
  induction zs with
  | nil => rfl
  | cons z zs ih =>
    simp only [List.map_cons, List.flatten_cons, List.length_append, S.serFr_length, ih,
      List.length_cons]
    omega

theorem canonical_responses :
    Decoder.Canonical (Ark.vec (Ark.fr S.r)) (Ark.vecBytes S.serFr)
      (fun as => as.length < 2 ^ 64 ∧ ∀ a ∈ as, True) :=
  Ark.Canonical.vec S.canonical_fr

/-- A full response is read back, whatever decodes as the last field. -/
theorem decoder_append {p : PoKOfSignatureG1Proof S} {responses : List S.Fr}
    (hresp : p.scResp2 = some responses) (hlen : responses.length < 2 ^ 64) {s t : Bytes}
    (htail : Ark.option PartialSchnorrResponse.decoder s = .ok (p.scPartialResp2, t)) :
    decoder (p.serHead ++ s) = .ok (p, t) := by
  have hoption : Ark.option (Ark.vec (Ark.fr S.r))
      (Ark.optionBytes (Ark.vecBytes S.serFr) p.scResp2 ++ s) = .ok (p.scResp2, s) := by
    rw [hresp, Ark.optionBytes, List.append_assoc]
    exact Ark.option_some (canonical_responses.complete s ⟨hlen, fun _ _ => trivial⟩)
  simp only [serHead, List.append_assoc]
  rw [decoder, Decoder.bind_ok (S.g1Codec.decoder_ser _ _),
    Decoder.bind_ok (S.g1Codec.decoder_ser _ _), Decoder.bind_ok (S.g1Codec.decoder_ser _ _),
    Decoder.bind_ok (PokPedersenCommitment.decoder_ser _ _),
    Decoder.bind_ok (S.g1Codec.decoder_ser _ _), Decoder.bind_ok hoption,
    Decoder.bind_ok htail, Decoder.pure_apply]

theorem deser_ser {p : PoKOfSignatureG1Proof S} {responses : List S.Fr}
    (hresp : p.scResp2 = some responses) (hpart : p.scPartialResp2 = none)
    (hlen : responses.length < 2 ^ 64) : deser decoder p.ser = .ok p := by
  rw [deser_eq_ok_iff, ser, hpart, Ark.optionBytes, ← List.append_nil (Ark.boolBytes false)]
  apply decoder_append hresp hlen
  rw [hpart]
  exact Ark.option_none _ []

theorem ser_length {p : PoKOfSignatureG1Proof S} {responses : List S.Fr}
    (hresp : p.scResp2 = some responses) (hpart : p.scPartialResp2 = none) :
    p.ser.length = 314 + 32 * responses.length := by
  simp only [ser, serHead, hresp, hpart, Ark.optionBytes, Ark.vecBytes, Ark.boolBytes,
    PokPedersenCommitment.ser, List.length_append, S.g1Codec.ser_length, S.serFr_length,
    leBytes_length, length_flatten_serFr]
  simp
  omega

/-- An accepted encoding of a proof with a full response: five points in some
    encoding, the responses, and a last field that decodes to the partial
    response. -/
theorem decoder_sound {s t : Bytes} {p : PoKOfSignatureG1Proof S} {responses : List S.Fr}
    (h : decoder s = .ok (p, t)) (hresp : p.scResp2 = some responses) :
    ∃ rawAPrime rawABar rawD rawT1 rawT2 tail : Bytes,
      (rawAPrime.length = 48 ∧ S.g1Codec.de rawAPrime = some p.aPrime) ∧
      (rawABar.length = 48 ∧ S.g1Codec.de rawABar = some p.aBar) ∧
      (rawD.length = 48 ∧ S.g1Codec.de rawD = some p.d) ∧
      (rawT1.length = 48 ∧ S.g1Codec.de rawT1 = some p.scResp1.t) ∧
      (rawT2.length = 48 ∧ S.g1Codec.de rawT2 = some p.t2) ∧
      Ark.option PartialSchnorrResponse.decoder tail = .ok (p.scPartialResp2, t) ∧
      s = rawAPrime ++ rawABar ++ rawD ++ rawT1 ++ S.serFr p.scResp1.response1
        ++ S.serFr p.scResp1.response2 ++ rawT2 ++ Ark.boolBytes true
        ++ Ark.vecBytes S.serFr responses ++ tail := by
  rw [decoder, Decoder.bind_eq_ok_iff] at h
  rcases h with ⟨aPrime, s₁, haPrime, h⟩
  rw [Decoder.bind_eq_ok_iff] at h
  rcases h with ⟨aBar, s₂, haBar, h⟩
  rw [Decoder.bind_eq_ok_iff] at h
  rcases h with ⟨d, s₃, hd, h⟩
  rw [Decoder.bind_eq_ok_iff] at h
  rcases h with ⟨scResp1, s₄, hscResp1, h⟩
  rw [Decoder.bind_eq_ok_iff] at h
  rcases h with ⟨t2, s₅, ht2, h⟩
  rw [Decoder.bind_eq_ok_iff] at h
  rcases h with ⟨scResp2, s₆, hscResp2, h⟩
  rw [Decoder.bind_eq_ok_iff] at h
  rcases h with ⟨scPartialResp2, s₇, hpart, h⟩
  cases h
  obtain ⟨rawAPrime, hlenA, hdeA, rfl⟩ := S.g1Codec.decoder_sound haPrime
  obtain ⟨rawABar, hlenB, hdeB, rfl⟩ := S.g1Codec.decoder_sound haBar
  obtain ⟨rawD, hlenD, hdeD, rfl⟩ := S.g1Codec.decoder_sound hd
  obtain ⟨rawT1, hlenT1, hdeT1, rfl⟩ := PokPedersenCommitment.decoder_sound hscResp1
  obtain ⟨rawT2, hlenT2, hdeT2, rfl⟩ := S.g1Codec.decoder_sound ht2
  dsimp only at hresp
  subst hresp
  rw [Ark.option_eq_ok_iff] at hscResp2
  rcases hscResp2 with ⟨hnone, -⟩ | ⟨zs, u, hzs, rfl, hvec⟩
  · cases hnone
  cases hzs
  obtain ⟨-, rfl⟩ := canonical_responses.sound hvec
  exact ⟨rawAPrime, rawABar, rawD, rawT1, rawT2, s₆, ⟨hlenA, hdeA⟩, ⟨hlenB, hdeB⟩,
    ⟨hlenD, hdeD⟩, ⟨hlenT1, hdeT1⟩, ⟨hlenT2, hdeT2⟩, hpart, by simp⟩

end PoKOfSignatureG1Proof

end PhiCrypto

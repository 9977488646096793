import PhiCrypto.SelectiveProofWire

/-!
# The wire format of `VoteProof`

`VoteProof::to_bytes`, `VoteProof::from_bytes` and `VoteProof::nullifier_bytes`.
The format nests a compressed curve point. A point has one encoding unless it is
the identity, and the decoder rejects an identity nullifier, so here too the
accepted byte strings are the encodings of well-formed proofs, one for each.
-/

namespace PhiCrypto

open Exec

variable {S : Suite}

structure VoteProof (S : Suite) where
  messageCount : UInt32
  revealed : List (UInt32 × Bytes)
  bbsProof : Bytes
  dlProof : Bytes
  nullifier : S.G1
deriving DecidableEq

def nullifierIsIdentity : CryptoError := .invalidInput "nullifier is identity"

def voterSecretRevealed : CryptoError := .invalidInput "voter secret cannot be revealed"

/-- `ser` of a point of `G1`: writing to a `Vec` does not fail. -/
def serG1 (P : S.G1) : Except CryptoError Bytes := .ok (S.g1Codec.ser P)

namespace VoteProof

def nullifierBytes (p : VoteProof S) : Except CryptoError Bytes := do
  let v ← serG1 p.nullifier
  if v.length = nullifierPointLen then pure v
  else throw (CryptoError.backend "nullifier length")

def toBytes (p : VoteProof S) : Except CryptoError Bytes := do
  let nullifier ← serG1 p.nullifier
  pure (beBytes 4 p.messageCount.toNat ++ frame 4 p.bbsProof ++ frame 4 p.dlProof
    ++ frame 4 nullifier ++ beBytes 4 p.revealed.length ++ Wire.revealedBytes p.revealed)

/-- The two index checks of the decoding loop. -/
def checkIndex (messageCount idx : UInt32) : Except CryptoError Unit := do
  rejectIf (idx.toNat = voterSecretMsgIndex) voterSecretRevealed
  rejectIf (idx ≥ messageCount) (CryptoError.invalidInput "revealed index out of range")

/-- The nullifier field: the point is decoded and the identity refused. -/
def readNullifier (r : Reader) : RustResult (S.G1 × Reader) := do
  let (point, r) ← r.bytes
  let nullifier ← ofExcept (deser S.g1Codec.decoder point)
  rejectIf (nullifier = 0) nullifierIsIdentity
  pure (nullifier, r)

def fromBytes (b : Bytes) : RustResult (VoteProof S) := do
  let r : Reader := ⟨b, 0⟩
  let (messageCount, r) ← r.u32
  rejectIf (countOutOfRange messageCount) countRangeError
  let (bbsProof, r) ← r.bytes
  let (dlProof, r) ← r.bytes
  let (nullifier, r) ← readNullifier r
  let (n, r) ← r.u32
  rejectIf (n.toNat > messageCount.toNat) tooManyRevealed
  withCapacity .decodedClaims n.toNat
  let (revealed, r) ← readRevealed (checkIndex messageCount) n.toNat none r
  rejectIf (r.pos ≠ r.b.length) trailingBytes
  pure { messageCount, revealed, bbsProof, dlProof, nullifier }

/-- What the format promises about a vote proof. -/
structure WellFormed (p : VoteProof S) : Prop where
  count_pos : 1 ≤ p.messageCount.toNat
  count_le : p.messageCount.toNat ≤ 64
  nullifier_ne_zero : p.nullifier ≠ 0
  increasing : (p.revealed.map Prod.fst).Pairwise (· < ·)
  secret_hidden : ∀ entry ∈ p.revealed, 1 ≤ entry.1.toNat
  in_range : ∀ entry ∈ p.revealed, entry.1 < p.messageCount
  bbs_short : p.bbsProof.length < 2 ^ 32
  dl_short : p.dlProof.length < 2 ^ 32
  claims_short : ∀ entry ∈ p.revealed, entry.2.length < 2 ^ 32

theorem checkIndex_eq_ok_iff {messageCount idx : UInt32} :
    checkIndex messageCount idx = .ok () ↔ 1 ≤ idx.toNat ∧ idx < messageCount := by
  unfold checkIndex rejectIf voterSecretMsgIndex
  by_cases hzero : idx.toNat = 0
  · rw [if_pos hzero]
    exact iff_of_false (by simp [throw, throwThe, MonadExceptOf.throw, bind, Except.bind])
      (by omega)
  · rw [if_neg hzero]
    exact SelectiveProof.checkIndex_eq_ok_iff.trans
      ⟨fun h => ⟨by omega, h⟩, fun h => h.2⟩

theorem nullifierBytes_eq (p : VoteProof S) :
    p.nullifierBytes = .ok (S.g1Codec.ser p.nullifier) := by
  have hlen : (S.g1Codec.ser p.nullifier).length = nullifierPointLen := S.g1Codec.ser_length _
  simp only [nullifierBytes, serG1, bind, Except.bind, if_pos hlen]
  rfl

/-! ### The format is canonical -/

def encoding (p : VoteProof S) : Bytes :=
  beBytes 4 p.messageCount.toNat ++ frame 4 p.bbsProof ++ frame 4 p.dlProof
    ++ frame 4 (S.g1Codec.ser p.nullifier) ++ beBytes 4 p.revealed.length
    ++ Wire.revealedBytes p.revealed

theorem toBytes_eq (p : VoteProof S) : p.toBytes = .ok p.encoding := rfl

/-- A framed point other than the identity. -/
def nullifierFormat : Decoder CryptoError S.G1 := fun s =>
  match Wire.bytes s with
  | .error k => .error k
  | .ok (point, t) =>
    match deser S.g1Codec.decoder point with
    | .error k => .error k
    | .ok P => if P = 0 then .error nullifierIsIdentity else .ok (P, t)

def format : Decoder CryptoError (VoteProof S) := do
  let messageCount ← Wire.u32
  rejectIf (countOutOfRange messageCount) countRangeError
  let bbsProof ← Wire.bytes
  let dlProof ← Wire.bytes
  let nullifier ← nullifierFormat
  let n ← Wire.u32
  rejectIf (n.toNat > messageCount.toNat) tooManyRevealed
  let revealed ← Wire.revealed (checkIndex messageCount) n.toNat none
  pure { messageCount, revealed, bbsProof, dlProof, nullifier }

theorem canonical_nullifierFormat :
    Decoder.Canonical (nullifierFormat (S := S)) (fun P => frame 4 (S.g1Codec.ser P))
      (· ≠ 0) where
  complete := by
    intro P s hP
    have hshort : (S.g1Codec.ser P).length < 2 ^ 32 := by
      rw [S.g1Codec.ser_length]
      decide
    rw [nullifierFormat, Wire.canonical_bytes.complete s hshort]
    simp only [deser_point, if_neg hP]
  sound := by
    intro s t P h
    unfold nullifierFormat at h
    split at h
    · cases h
    next point u hbytes =>
    obtain ⟨-, rfl⟩ := Wire.canonical_bytes.sound hbytes
    split at h
    · cases h
    next Q hde =>
    split at h
    · cases h
    next hQ =>
    cases h
    obtain ⟨raw, hlen, hraw, hsplit⟩ := S.g1Codec.decoder_sound (deser_eq_ok_iff.mp hde)
    rw [List.append_nil] at hsplit
    subst hsplit
    exact ⟨hQ, by rw [← S.g1Codec.canonical hlen hraw hQ]⟩

theorem WellFormed.revealed_length_le {p : VoteProof S} (hp : p.WellFormed) :
    p.revealed.length ≤ p.messageCount.toNat :=
  length_le_of_increasing hp.increasing fun e he => UInt32.lt_iff_toNat_lt.mp (hp.in_range e he)

theorem canonical_format : Decoder.Canonical (format (S := S)) encoding WellFormed where
  complete := by
    intro p s hp
    have hcount : ¬ countOutOfRange p.messageCount :=
      not_countOutOfRange_iff.mpr ⟨hp.count_pos, hp.count_le⟩
    have hle := hp.revealed_length_le
    have hn : (UInt32.ofNat p.revealed.length).toNat = p.revealed.length := by
      rw [UInt32.toNat_ofNat', Nat.mod_eq_of_lt (by have := hp.count_le; omega)]
    have hentries : Wire.WellFormed (checkIndex p.messageCount) p.revealed.length none p.revealed :=
      ⟨rfl, by simp, hp.increasing,
        fun e he => checkIndex_eq_ok_iff.mpr ⟨hp.secret_hidden e he, hp.in_range e he⟩,
        hp.claims_short⟩
    have hread := Wire.canonical_u32.complete (a := UInt32.ofNat p.revealed.length)
      (Wire.revealedBytes p.revealed ++ s) trivial
    rw [hn] at hread
    simp only [encoding, List.append_assoc]
    rw [format, Decoder.bind_ok (Wire.canonical_u32.complete _ trivial),
      Decoder.rejectIf_bind_apply, if_neg hcount,
      Decoder.bind_ok (Wire.canonical_bytes.complete _ hp.bbs_short),
      Decoder.bind_ok (Wire.canonical_bytes.complete _ hp.dl_short),
      Decoder.bind_ok (canonical_nullifierFormat.complete _ hp.nullifier_ne_zero),
      Decoder.bind_ok hread, Decoder.rejectIf_bind_apply, hn, if_neg (by omega),
      Decoder.bind_ok ((Wire.canonical_revealed _ _ none).complete s hentries),
      Decoder.pure_apply]
  sound := by
    intro s t p h
    rw [format, Decoder.bind_eq_ok_iff] at h
    rcases h with ⟨messageCount, u, hcount, h⟩
    obtain ⟨-, rfl⟩ := Wire.canonical_u32.sound hcount
    rw [Decoder.rejectIf_bind_eq_ok_iff] at h
    obtain ⟨hrange, h⟩ := h
    rw [Decoder.bind_eq_ok_iff] at h
    rcases h with ⟨bbsProof, v, hbbs, h⟩
    obtain ⟨hbbsShort, rfl⟩ := Wire.canonical_bytes.sound hbbs
    rw [Decoder.bind_eq_ok_iff] at h
    rcases h with ⟨dlProof, w, hdl, h⟩
    obtain ⟨hdlShort, rfl⟩ := Wire.canonical_bytes.sound hdl
    rw [Decoder.bind_eq_ok_iff] at h
    rcases h with ⟨nullifier, x, hnull, h⟩
    obtain ⟨hne, rfl⟩ := canonical_nullifierFormat.sound hnull
    rw [Decoder.bind_eq_ok_iff] at h
    rcases h with ⟨n, y, hn, h⟩
    obtain ⟨-, rfl⟩ := Wire.canonical_u32.sound hn
    rw [Decoder.rejectIf_bind_eq_ok_iff] at h
    obtain ⟨hfew, h⟩ := h
    rw [Decoder.bind_eq_ok_iff] at h
    rcases h with ⟨revealed, z, hrevealed, h⟩
    cases h
    obtain ⟨hwf, rfl⟩ := (Wire.canonical_revealed _ _ none).sound hrevealed
    obtain ⟨hpos, hle⟩ := not_countOutOfRange_iff.mp hrange
    have hindex := fun e he => checkIndex_eq_ok_iff.mp (hwf.checked e he)
    refine ⟨⟨hpos, hle, hne, hwf.increasing, fun e he => (hindex e he).1,
      fun e he => (hindex e he).2, hbbsShort, hdlShort, hwf.short⟩, ?_⟩
    simp [encoding, hwf.length_eq]

theorem meets_readNullifier {P : Event → Prop} {r : Reader} (hpos : r.pos ≤ r.b.length) :
    MeetsResult P (r.Follows (nullifierFormat (S := S) r.rest)) (readNullifier r) := by
  unfold nullifierFormat
  refine MeetsResult.bind (Reader.meets_bytes hpos) ?_ ?_
  · rintro ⟨point, r'⟩ ⟨hb, hpos', hread⟩
    rw [hread]
    dsimp only
    refine meets_ofExcept_bind ?_ ?_
    · intro nullifier hde
      rw [hde]
      refine MeetsResult.rejectIf_bind ?_ ?_
      · intro hzero _
        exact if_pos hzero
      · intro hne
        exact meetsResult_pure ⟨hb, hpos', if_neg hne⟩
    · intro k hk _
      rw [hk]
  · intro k hk hlen
    rw [hk hlen]

theorem meets_fromBytes {P : Event → Prop}
    (hP : ∀ n ≤ maxBbsMessages, P (.capacity .decodedClaims n)) (b : Bytes) :
    MeetsResult P (Reader.Agrees b (Decoder.runAll (format (S := S)) trailingBytes b))
      (fromBytes b) := by
  change MeetsResult P
    (Reader.Agrees (Reader.mk b 0).b (Decoder.runAll format trailingBytes (Reader.mk b 0).rest)) _
  apply Reader.agrees_bind (Reader.meets_u32 (Nat.zero_le _))
  intro messageCount r₁ _ hpos₁ _
  apply Reader.agrees_rejectIf
  intro hrange
  have hle := (not_countOutOfRange_iff.mp hrange).2
  apply Reader.agrees_bind (Reader.meets_bytes hpos₁)
  intro bbsProof r₂ _ hpos₂ _
  apply Reader.agrees_bind (Reader.meets_bytes hpos₂)
  intro dlProof r₃ _ hpos₃ _
  apply Reader.agrees_bind (meets_readNullifier hpos₃)
  intro nullifier r₄ _ hpos₄ _
  apply Reader.agrees_bind (Reader.meets_u32 hpos₄)
  intro n r₅ _ hpos₅ _
  apply Reader.agrees_rejectIf
  intro hfew
  have hcap : P (.capacity .decodedClaims n.toNat) := hP _ (by unfold maxBbsMessages; omega)
  apply MeetsResult.emit_bind hcap
  apply Reader.agrees_bind (meets_readRevealed _ _ none hpos₅)
  intro revealed r₆ _ hpos₆ _
  exact Reader.meets_finish hpos₆ trailingBytes _

theorem WellFormed.encoding_length_lt {p : VoteProof S} (hp : p.WellFormed) :
    p.encoding.length < 2 ^ 64 := by
  have hentries := Wire.revealedBytes_length_le hp.claims_short
  have hmul := Nat.mul_le_mul_right (2 ^ 32 + 8) (hp.revealed_length_le.trans hp.count_le)
  have hbbs := hp.bbs_short
  have hdl := hp.dl_short
  simp only [encoding, List.length_append, beBytes_length, frame_length, S.g1Codec.ser_length]
  omega

/-- The decoder accepts a byte string exactly when it encodes a well-formed
    vote proof, and returns that proof. -/
theorem fromBytes_returns_iff (b : Bytes) (p : VoteProof S) :
    (fromBytes b).run.Returns (.ok p) ↔ p.WellFormed ∧ b = p.encoding :=
  Reader.returns_iff_of_agrees (meets_fromBytes (P := fun _ => True) (fun _ _ => trivial) b)
    canonical_format (fun _ hwf => hwf.encoding_length_lt) p

end VoteProof

end PhiCrypto

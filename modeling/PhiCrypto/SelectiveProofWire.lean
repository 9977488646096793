import PhiCrypto.WireReader

/-!
# The wire format of `SelectiveProof`

`SelectiveProof::to_bytes` and `SelectiveProof::from_bytes`. The decoder
accepts exactly the encodings of well-formed proofs, so an accepted byte string
is determined by the proof it decodes to.
-/

namespace PhiCrypto

open Exec

structure SelectiveProof where
  messageCount : UInt32
  proof : Bytes
  revealed : List (UInt32 × Bytes)
deriving DecidableEq, Repr

/-- The test on `message_count` that opens both decoders. -/
def countOutOfRange (messageCount : UInt32) : Prop :=
  messageCount = 0 ∨ messageCount.toNat > maxBbsMessages

instance (messageCount : UInt32) : Decidable (countOutOfRange messageCount) :=
  inferInstanceAs (Decidable (_ ∨ _))

theorem not_countOutOfRange_iff {messageCount : UInt32} :
    ¬ countOutOfRange messageCount ↔ 1 ≤ messageCount.toNat ∧ messageCount.toNat ≤ 64 := by
  have hzero : messageCount = 0 ↔ messageCount.toNat = 0 := by
    rw [← UInt32.toNat_inj]
    rfl
  unfold countOutOfRange maxBbsMessages
  rw [hzero]
  omega

def countRangeError : CryptoError := .invalidInput "message_count out of range"

def tooManyRevealed : CryptoError := .invalidInput "revealed count exceeds message_count"

def trailingBytes : CryptoError := .invalidInput "trailing bytes"

namespace SelectiveProof

/-- The range check of the decoding loop. -/
def checkIndex (messageCount idx : UInt32) : Except CryptoError Unit :=
  rejectIf (idx ≥ messageCount) (CryptoError.invalidInput "revealed index out of range")

def toBytes (p : SelectiveProof) : Bytes :=
  beBytes 4 p.messageCount.toNat ++ frame 4 p.proof ++ beBytes 4 p.revealed.length
    ++ Wire.revealedBytes p.revealed

def fromBytes (b : Bytes) : RustResult SelectiveProof := do
  let r : Reader := ⟨b, 0⟩
  let (messageCount, r) ← r.u32
  rejectIf (countOutOfRange messageCount) countRangeError
  let (proof, r) ← r.bytes
  let (n, r) ← r.u32
  rejectIf (n.toNat > messageCount.toNat) tooManyRevealed
  withCapacity .decodedClaims n.toNat
  let (revealed, r) ← readRevealed (checkIndex messageCount) n.toNat none r
  rejectIf (r.pos ≠ r.b.length) trailingBytes
  pure { messageCount, proof, revealed }

/-- What the format promises about a proof. -/
structure WellFormed (p : SelectiveProof) : Prop where
  count_pos : 1 ≤ p.messageCount.toNat
  count_le : p.messageCount.toNat ≤ 64
  increasing : (p.revealed.map Prod.fst).Pairwise (· < ·)
  in_range : ∀ entry ∈ p.revealed, entry.1 < p.messageCount
  proof_short : p.proof.length < 2 ^ 32
  claims_short : ∀ entry ∈ p.revealed, entry.2.length < 2 ^ 32

theorem checkIndex_eq_ok_iff {messageCount idx : UInt32} :
    checkIndex messageCount idx = .ok () ↔ idx < messageCount := by
  rw [checkIndex, rejectIf_eq_ok_iff]
  exact UInt32.not_le

end SelectiveProof

theorem length_le_of_increasing {entries : List (UInt32 × Bytes)} {n : Nat}
    (hinc : (entries.map Prod.fst).Pairwise (· < ·)) (hlt : ∀ e ∈ entries, e.1.toNat < n) :
    entries.length ≤ n := by
  have hnodup : (entries.map fun e => e.1.toNat).Nodup := by
    rw [List.Nodup, List.pairwise_map]
    apply (List.pairwise_map.mp hinc).imp
    intro a b hab heq
    exact absurd (UInt32.lt_iff_toNat_lt.mp hab) (by omega)
  have hsub : (entries.map fun e => e.1.toNat) ⊆ List.range n := by
    intro k hk
    obtain ⟨e, he, rfl⟩ := List.mem_map.mp hk
    exact List.mem_range.mpr (hlt e he)
  have hle := (hnodup.subperm hsub).length_le
  simpa using hle

namespace SelectiveProof

/-! ### The format is canonical -/

def format : Decoder CryptoError SelectiveProof := do
  let messageCount ← Wire.u32
  rejectIf (countOutOfRange messageCount) countRangeError
  let proof ← Wire.bytes
  let n ← Wire.u32
  rejectIf (n.toNat > messageCount.toNat) tooManyRevealed
  let revealed ← Wire.revealed (checkIndex messageCount) n.toNat none
  pure { messageCount, proof, revealed }

theorem WellFormed.revealed_length_le {p : SelectiveProof} (hp : p.WellFormed) :
    p.revealed.length ≤ p.messageCount.toNat :=
  length_le_of_increasing hp.increasing fun e he => UInt32.lt_iff_toNat_lt.mp (hp.in_range e he)

theorem canonical_format : Decoder.Canonical format toBytes WellFormed where
  complete := by
    intro p s hp
    have hcount : ¬ countOutOfRange p.messageCount :=
      not_countOutOfRange_iff.mpr ⟨hp.count_pos, hp.count_le⟩
    have hle := hp.revealed_length_le
    have hn : (UInt32.ofNat p.revealed.length).toNat = p.revealed.length := by
      rw [UInt32.toNat_ofNat', Nat.mod_eq_of_lt (by have := hp.count_le; omega)]
    have hentries : Wire.WellFormed (checkIndex p.messageCount) p.revealed.length none p.revealed :=
      ⟨rfl, by simp, hp.increasing,
        fun e he => checkIndex_eq_ok_iff.mpr (hp.in_range e he), hp.claims_short⟩
    have hread := Wire.canonical_u32.complete (a := UInt32.ofNat p.revealed.length)
      (Wire.revealedBytes p.revealed ++ s) trivial
    rw [hn] at hread
    simp only [toBytes, List.append_assoc]
    rw [format, Decoder.bind_ok (Wire.canonical_u32.complete _ trivial),
      Decoder.rejectIf_bind_apply, if_neg hcount,
      Decoder.bind_ok (Wire.canonical_bytes.complete _ hp.proof_short),
      Decoder.bind_ok hread, Decoder.rejectIf_bind_apply, hn, if_neg (by omega),
      Decoder.bind_ok ((Wire.canonical_revealed _ _ none).complete s hentries),
      Decoder.pure_apply]
  sound := by
    intro s t p h
    rw [format, Decoder.bind_eq_ok_iff] at h
    rcases h with ⟨messageCount, u, hcount, h⟩
    obtain ⟨-, rfl⟩ := Wire.canonical_u32.sound hcount
    rw [Decoder.rejectIf_bind_eq_ok_iff] at h
    obtain ⟨hrange, h⟩ := h
    rw [Decoder.bind_eq_ok_iff] at h
    rcases h with ⟨proof, v, hproof, h⟩
    obtain ⟨hshort, rfl⟩ := Wire.canonical_bytes.sound hproof
    rw [Decoder.bind_eq_ok_iff] at h
    rcases h with ⟨n, w, hn, h⟩
    obtain ⟨-, rfl⟩ := Wire.canonical_u32.sound hn
    rw [Decoder.rejectIf_bind_eq_ok_iff] at h
    obtain ⟨hfew, h⟩ := h
    rw [Decoder.bind_eq_ok_iff] at h
    rcases h with ⟨revealed, x, hrevealed, h⟩
    cases h
    obtain ⟨hwf, rfl⟩ := (Wire.canonical_revealed _ _ none).sound hrevealed
    obtain ⟨hpos, hle⟩ := not_countOutOfRange_iff.mp hrange
    refine ⟨⟨hpos, hle, hwf.increasing, ?_, hshort, hwf.short⟩, ?_⟩
    · exact fun e he => checkIndex_eq_ok_iff.mp (hwf.checked e he)
    · simp [toBytes, hwf.length_eq]

theorem meets_fromBytes {P : Event → Prop}
    (hP : ∀ n ≤ maxBbsMessages, P (.capacity .decodedClaims n)) (b : Bytes) :
    MeetsResult P (Reader.Agrees b (Decoder.runAll format trailingBytes b)) (fromBytes b) := by
  change MeetsResult P
    (Reader.Agrees (Reader.mk b 0).b (Decoder.runAll format trailingBytes (Reader.mk b 0).rest)) _
  apply Reader.agrees_bind (Reader.meets_u32 (Nat.zero_le _))
  intro messageCount r₁ _ hpos₁ _
  apply Reader.agrees_rejectIf
  intro hrange
  have hle := (not_countOutOfRange_iff.mp hrange).2
  apply Reader.agrees_bind (Reader.meets_bytes hpos₁)
  intro proof r₂ _ hpos₂ _
  apply Reader.agrees_bind (Reader.meets_u32 hpos₂)
  intro n r₃ _ hpos₃ _
  apply Reader.agrees_rejectIf
  intro hfew
  have hcap : P (.capacity .decodedClaims n.toNat) := hP _ (by unfold maxBbsMessages; omega)
  apply MeetsResult.emit_bind hcap
  apply Reader.agrees_bind (meets_readRevealed _ _ none hpos₃)
  intro revealed r₄ _ hpos₄ _
  exact Reader.meets_finish hpos₄ trailingBytes _

theorem WellFormed.toBytes_length_lt {p : SelectiveProof} (hp : p.WellFormed) :
    p.toBytes.length < 2 ^ 64 := by
  have hentries := Wire.revealedBytes_length_le hp.claims_short
  have hmul := Nat.mul_le_mul_right (2 ^ 32 + 8) (hp.revealed_length_le.trans hp.count_le)
  have hproof := hp.proof_short
  simp only [toBytes, List.length_append, beBytes_length, frame_length]
  omega

/-- The decoder accepts a byte string exactly when it encodes a well-formed
    proof, and returns that proof. -/
theorem fromBytes_returns_iff (b : Bytes) (p : SelectiveProof) :
    (fromBytes b).run.Returns (.ok p) ↔ p.WellFormed ∧ b = p.toBytes := by
  -- an encoding is far too short to reach the end of the address space
  exact Reader.returns_iff_of_agrees (meets_fromBytes (P := fun _ => True) (fun _ _ => trivial) b)
    canonical_format (fun _ hwf => hwf.toBytes_length_lt) p

/-- **Canonical wire format.** Decoding inverts encoding on well-formed proofs;
    whatever is accepted is the encoding of the well-formed proof it decodes to.
    So the accepted strings are the encodings of well-formed proofs, one for
    each. -/
theorem selectiveProof_wire_canonical :
    (∀ p : SelectiveProof, p.WellFormed → (fromBytes p.toBytes).run.Returns (.ok p)) ∧
    (∀ (b : Bytes) (p : SelectiveProof),
      (fromBytes b).run.Returns (.ok p) → p.WellFormed ∧ p.toBytes = b) ∧
    (∀ b : Bytes, (∃ p, (fromBytes b).run.Returns (.ok p)) ↔
      ∃ p : SelectiveProof, p.WellFormed ∧ p.toBytes = b) ∧
    (∀ (b b' : Bytes) (p : SelectiveProof),
      (fromBytes b).run.Returns (.ok p) → (fromBytes b').run.Returns (.ok p) → b = b') := by
  refine ⟨?_, ?_, ?_, ?_⟩
  · intro p hp
    exact (fromBytes_returns_iff _ p).mpr ⟨hp, rfl⟩
  · intro b p h
    obtain ⟨hp, rfl⟩ := (fromBytes_returns_iff b p).mp h
    exact ⟨hp, rfl⟩
  · intro b
    simp only [fromBytes_returns_iff, eq_comm]
  · intro b b' p h h'
    obtain ⟨-, rfl⟩ := (fromBytes_returns_iff b p).mp h
    obtain ⟨-, rfl⟩ := (fromBytes_returns_iff b' p).mp h'
    rfl

end SelectiveProof

end PhiCrypto

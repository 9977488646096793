import PhiCrypto.RevealedDecoders

/-!
# The accepted wire languages are prefix-free

A buffer that was cut off or padded may still hold plausible counts and lengths. The
decoders read it at the same positions, though: the formats that they follow are
stable (`Decoder.Stable`), so the longer of two accepted buffers would leave bytes
over. For a vote proof this does not depend on the point format. Its decoder is
written here over an arbitrary one, of which `VoteProof::from_bytes` is an instance.
-/

namespace PhiCrypto

open Exec

variable {S : Suite}

/-- The decoder returns a value. -/
def Accepts {α : Type} (decoder : Bytes → RustResult α) (b : Bytes) : Prop :=
  ∃ a, (decoder b).run.Returns (.ok a)

theorem Reader.runAll_of_accepts {α : Type} {decoder : Bytes → RustResult α} {b : Bytes}
    {format : Decoder CryptoError α} {trailing : CryptoError}
    (hmeets : MeetsResult (fun _ => True)
      (Reader.Agrees b (Decoder.runAll format trailing b)) (decoder b))
    (h : Accepts decoder b) : ∃ a, Decoder.runAll format trailing b = .ok a := by
  obtain ⟨a, ha⟩ := h
  exact ⟨a, Meets.of_returns hmeets ha⟩

/-! ### Selective proofs -/

theorem SelectiveProof.prefixFree : Decoder.PrefixFree (Accepts SelectiveProof.fromBytes) := by
  apply Decoder.PrefixFree.mono SelectiveProof.canonical_format.stable.prefixFree
  intro b hb
  exact Reader.runAll_of_accepts (SelectiveProof.meets_fromBytes (fun _ _ => trivial) b) hb

/-! ### Vote proofs, with any point codec -/

namespace VoteProof

variable (decodePoint : Bytes → Except CryptoError S.G1)

/-- `readNullifier`, for an arbitrary point format. -/
def readNullifierWith (r : Reader) : RustResult (S.G1 × Reader) := do
  let (point, r) ← r.bytes
  let nullifier ← ofExcept (decodePoint point)
  rejectIf (nullifier = 0) nullifierIsIdentity
  pure (nullifier, r)

/-- `VoteProof::from_bytes`, for an arbitrary point format. -/
def fromBytesWith (b : Bytes) : RustResult (VoteProof S) := do
  let r : Reader := ⟨b, 0⟩
  let (messageCount, r) ← r.u32
  rejectIf (countOutOfRange messageCount) countRangeError
  let (bbsProof, r) ← r.bytes
  let (dlProof, r) ← r.bytes
  let (nullifier, r) ← readNullifierWith decodePoint r
  let (n, r) ← r.u32
  rejectIf (n.toNat > messageCount.toNat) tooManyRevealed
  withCapacity .decodedClaims n.toNat
  let (revealed, r) ← readRevealed (checkIndex messageCount) n.toNat none r
  rejectIf (r.pos ≠ r.b.length) trailingBytes
  pure { messageCount, revealed, bbsProof, dlProof, nullifier }

theorem fromBytesWith_deser :
    fromBytesWith (deser S.g1Codec.decoder) = fromBytes (S := S) := rfl

def nullifierFormatWith : Decoder CryptoError S.G1 := do
  let point ← Wire.bytes
  let nullifier ← Decoder.ofResult (decodePoint point)
  rejectIf (nullifier = 0) nullifierIsIdentity
  pure nullifier

def formatWith : Decoder CryptoError (VoteProof S) := do
  let messageCount ← Wire.u32
  rejectIf (countOutOfRange messageCount) countRangeError
  let bbsProof ← Wire.bytes
  let dlProof ← Wire.bytes
  let nullifier ← nullifierFormatWith decodePoint
  let n ← Wire.u32
  rejectIf (n.toNat > messageCount.toNat) tooManyRevealed
  let revealed ← Wire.revealed (checkIndex messageCount) n.toNat none
  pure { messageCount, revealed, bbsProof, dlProof, nullifier }

theorem stable_nullifierFormatWith : (nullifierFormatWith decodePoint).Stable := by
  apply Wire.canonical_bytes.stable.bind
  intro point
  apply (Decoder.stable_ofResult _).bind
  intro nullifier
  apply (Decoder.stable_rejectIf _ _).bind
  intro _
  exact Decoder.stable_pure nullifier

theorem stable_formatWith : (formatWith decodePoint).Stable := by
  apply Wire.canonical_u32.stable.bind
  intro messageCount
  apply (Decoder.stable_rejectIf _ _).bind
  intro _
  apply Wire.canonical_bytes.stable.bind
  intro bbsProof
  apply Wire.canonical_bytes.stable.bind
  intro dlProof
  apply (stable_nullifierFormatWith decodePoint).bind
  intro nullifier
  apply Wire.canonical_u32.stable.bind
  intro n
  apply (Decoder.stable_rejectIf _ _).bind
  intro _
  apply (Wire.canonical_revealed _ _ none).stable.bind
  intro revealed
  exact Decoder.stable_pure _

theorem meets_readNullifierWith {P : Event → Prop} {r : Reader} (hpos : r.pos ≤ r.b.length) :
    MeetsResult P (r.Follows (nullifierFormatWith decodePoint r.rest))
      (readNullifierWith decodePoint r) := by
  apply Reader.follows_bind (Reader.meets_bytes hpos)
  intro point r' hpos' _
  refine meets_ofExcept_bind ?_ ?_
  · intro nullifier hde
    rw [hde, Decoder.bind_ok (Decoder.ofResult_ok nullifier r'.rest), Decoder.rejectIf_bind_apply]
    refine MeetsResult.rejectIf_bind ?_ ?_
    · intro hzero _
      exact if_pos hzero
    · intro hne
      rw [if_neg hne]
      exact meetsResult_pure ⟨rfl, hpos', rfl⟩
  · intro k hk _
    rw [hk, Decoder.bind_error (Decoder.ofResult_error k r'.rest)]

theorem meets_fromBytesWith (b : Bytes) :
    MeetsResult (fun _ => True)
      (Reader.Agrees b (Decoder.runAll (formatWith decodePoint) trailingBytes b))
      (fromBytesWith decodePoint b) := by
  change MeetsResult _ (Reader.Agrees (Reader.mk b 0).b
    (Decoder.runAll (formatWith decodePoint) trailingBytes (Reader.mk b 0).rest)) _
  apply Reader.agrees_bind (Reader.meets_u32 (Nat.zero_le _))
  intro messageCount r₁ _ hpos₁ _
  apply Reader.agrees_rejectIf
  intro _
  apply Reader.agrees_bind (Reader.meets_bytes hpos₁)
  intro bbsProof r₂ _ hpos₂ _
  apply Reader.agrees_bind (Reader.meets_bytes hpos₂)
  intro dlProof r₃ _ hpos₃ _
  apply Reader.agrees_bind (meets_readNullifierWith decodePoint hpos₃)
  intro nullifier r₄ _ hpos₄ _
  apply Reader.agrees_bind (Reader.meets_u32 hpos₄)
  intro n r₅ _ hpos₅ _
  apply Reader.agrees_rejectIf
  intro _
  apply MeetsResult.emit_bind trivial
  apply Reader.agrees_bind (meets_readRevealed _ _ none hpos₅)
  intro revealed r₆ _ hpos₆ _
  exact Reader.meets_finish hpos₆ trailingBytes _

theorem prefixFree : Decoder.PrefixFree (Accepts (fromBytesWith decodePoint)) := by
  apply Decoder.PrefixFree.mono (stable_formatWith decodePoint).prefixFree
  intro b hb
  exact Reader.runAll_of_accepts (meets_fromBytesWith decodePoint b) hb

end VoteProof

/-! ### Revealed lists -/

/-- The format of a revealed list by itself. -/
def listFormat : Decoder CryptoError (List (UInt32 × Bytes)) := do
  let n ← Wire.u32
  Wire.revealed anyIndex n.toNat none

theorem stable_listFormat : listFormat.Stable := by
  apply Wire.canonical_u32.stable.bind
  intro n
  exact (Wire.canonical_revealed _ _ none).stable

theorem listFormat_listBytes {entries : List (UInt32 × Bytes)} (h : DecodedList entries) :
    Decoder.runAll listFormat trailingBytes (listBytes entries) = .ok entries := by
  have hle := h.length_le
  have hn : (UInt32.ofNat entries.length).toNat = entries.length := by
    rw [UInt32.toNat_ofNat', Nat.mod_eq_of_lt (by omega)]
  have hcount := Wire.canonical_u32.complete (a := UInt32.ofNat entries.length)
    (Wire.revealedBytes entries) trivial
  have hentries := (Wire.canonical_revealed anyIndex _ none).complete [] h.wellFormed
  rw [hn] at hcount
  rw [List.append_nil] at hentries
  rw [Decoder.runAll_eq_ok_iff, listBytes, listFormat, Decoder.bind_ok hcount, hn, hentries]

theorem decodeRevealed_prefixFree :
    Decoder.PrefixFree fun b => ∃ l, (decodeRevealed b).Returns (some l) := by
  have hfree : Decoder.PrefixFree fun b => ∃ entries, listFormat.runAll trailingBytes b = .ok entries :=
    stable_listFormat.prefixFree
  apply hfree.mono
  intro b hb
  obtain ⟨l, hl⟩ := hb
  obtain ⟨entries, hlist, -, rfl⟩ := decodeRevealed_returns_iff.mp hl
  exact ⟨entries, listFormat_listBytes hlist⟩

/-- **Prefix-free wire languages.** Of a byte string that one of the three decoders
    accepts, no proper prefix and no proper extension is accepted by the same decoder;
    for vote proofs with any point format in place of the compressed one. -/
theorem wire_prefixFree (S : Suite) :
    (∀ b, Accepts SelectiveProof.fromBytes b →
      (∀ b', b' <+: b → b' ≠ b → ¬ Accepts SelectiveProof.fromBytes b') ∧
      (∀ b', b <+: b' → b' ≠ b → ¬ Accepts SelectiveProof.fromBytes b')) ∧
    (∀ (decodePoint : Bytes → Except CryptoError S.G1) (b : Bytes),
      Accepts (VoteProof.fromBytesWith decodePoint) b →
      (∀ b', b' <+: b → b' ≠ b → ¬ Accepts (VoteProof.fromBytesWith decodePoint) b') ∧
      (∀ b', b <+: b' → b' ≠ b → ¬ Accepts (VoteProof.fromBytesWith decodePoint) b')) ∧
    (∀ b, Accepts (VoteProof.fromBytes (S := S)) b →
      (∀ b', b' <+: b → b' ≠ b → ¬ Accepts (VoteProof.fromBytes (S := S)) b') ∧
      (∀ b', b <+: b' → b' ≠ b → ¬ Accepts (VoteProof.fromBytes (S := S)) b')) ∧
    (∀ b, (∃ l, (decodeRevealed b).Returns (some l)) →
      (∀ b', b' <+: b → b' ≠ b → ¬ ∃ l, (decodeRevealed b').Returns (some l)) ∧
      (∀ b', b <+: b' → b' ≠ b → ¬ ∃ l, (decodeRevealed b').Returns (some l))) := by
  refine ⟨Decoder.prefixFree_iff.mp SelectiveProof.prefixFree, ?_, ?_,
    Decoder.prefixFree_iff.mp decodeRevealed_prefixFree⟩
  · intro decodePoint
    exact Decoder.prefixFree_iff.mp (VoteProof.prefixFree decodePoint)
  · rw [← VoteProof.fromBytesWith_deser]
    exact Decoder.prefixFree_iff.mp (VoteProof.prefixFree _)

end PhiCrypto

import PhiCrypto.Bbs2023Completeness
import PhiCrypto.SuiteContract

/-!
# The octets of proofs and signatures of the second suite

`Proof::from_octets` cuts a buffer into points and scalars by its length alone. Each
piece has one encoding and none of them may be zero, so the decoder is exactly the
inverse of `to_octets` on proofs without a zero component
(`returns_fromOctets_iff`); the same holds of signatures
(`Signature.fromOctets_eq_ok_iff`).
-/

namespace PhiCrypto

open Exec

variable {S : Suite}

/-- The compressed encodings of both groups, as `blstrs` documents them: a point other
    than the identity is read from one octet string. -/
structure Blstrs.Canonical (B : Blstrs S) : Prop extends B.Encodes where
  g1_canonical : ∀ b P, b.length = 48 → B.g1FromCompressed b = some P → P ≠ 0 →
    b = B.g1ToCompressed P
  g2_length : ∀ Q, (B.g2ToCompressed Q).length = 96
  g2_roundtrip : ∀ Q, B.g2FromCompressed (B.g2ToCompressed Q) = some Q
  g2_canonical : ∀ b Q, b.length = 96 → B.g2FromCompressed b = some Q → Q ≠ 0 →
    b = B.g2ToCompressed Q

theorem smallBlstrs_canonical : smallBlstrs.Canonical where
  g1_length := smallSuite.g1Codec.ser_length
  g1_roundtrip := smallSuite.g1Codec.de_ser
  g1_canonical := fun _ _ hlen h hne => smallSuite.g1Codec.canonical hlen h hne
  g2_length := smallSuite.g2Codec.ser_length
  g2_roundtrip := smallSuite.g2Codec.de_ser
  g2_canonical := fun _ _ hlen h hne => smallSuite.g2Codec.canonical hlen h hne

namespace Blstrs.Canonical

variable {B : Blstrs S}

theorem g1_injective (hB : B.Canonical) {P P' : S.G1}
    (h : B.g1ToCompressed P = B.g1ToCompressed P') : P = P' := by
  have hread := hB.g1_roundtrip P
  rw [h, hB.g1_roundtrip] at hread
  exact (Option.some.inj hread).symm

theorem g2_injective (hB : B.Canonical) {Q Q' : S.G2}
    (h : B.g2ToCompressed Q = B.g2ToCompressed Q') : Q = Q' := by
  have hread := hB.g2_roundtrip Q
  rw [h, hB.g2_roundtrip] at hread
  exact (Option.some.inj hread).symm

end Blstrs.Canonical

namespace PairingCrypto

variable {B : Blstrs S}

/-! ### One piece of a buffer -/

theorem scalarFromBytesBe_eq_some_iff {b : Bytes} (hlen : b.length = 32) {x : S.Fr} :
    scalarFromBytesBe S b = some x ↔ b = beBytes 32 x.val := by
  constructor
  · intro h
    unfold scalarFromBytesBe at h
    split at h
    · next hlt =>
      cases h
      have hback := beBytes_beNat b
      rw [hlen] at hback
      rw [ZMod.val_cast_of_lt hlt, hback]
    · cases h
  · rintro rfl
    exact scalarFromBytesBe_beBytes x

section Pieces

variable {buffer : Bytes} {offset : Nat}

/-- What stands before a window and after it. -/
theorem drop_eq_window_append (buffer : Bytes) (offset width : Nat) :
    buffer.drop offset
      = (buffer.take (offset + width)).drop offset ++ buffer.drop (offset + width) := by
  rw [List.drop_take, Nat.add_sub_cancel_left, ← List.drop_drop, List.take_append_drop]

theorem length_window {width : Nat} (h : offset + width ≤ buffer.length) :
    ((buffer.take (offset + width)).drop offset).length = width := by
  rw [List.length_drop, List.length_take]
  omega

theorem returns_slicer_iff {width : Nat} {s : Bytes} (h : offset + width ≤ buffer.length) :
    (slicer buffer offset (offset + width) width).run.Returns (.ok s) ↔
      s = (buffer.take (offset + width)).drop offset := by
  have hwindow := length_window h
  refine ⟨of_returns_slicer, ?_⟩
  rintro rfl
  refine returns_ok_lift_bind_iff.mpr ⟨_, ?_, returns_ok_rejectIf_bind_iff.mpr ⟨?_, rfl⟩⟩
  · rw [sliceAt, if_pos ⟨Nat.le_add_right _ _, h⟩]
    rfl
  · exact not_not.mpr hwindow

/-- A point is read where its encoding stands, unless it is the identity. -/
theorem returns_extractPointValue_iff (hB : B.Canonical) (h : offset + 48 ≤ buffer.length)
    {value : S.G1} {offset' fin' : Nat} :
    (extractPointValue B offset (offset + 48) buffer).run.Returns (.ok (value, offset', fin')) ↔
      value ≠ 0 ∧ buffer.drop offset = B.g1ToCompressed value ++ buffer.drop (offset + 48) ∧
        offset' = offset + 48 ∧ fin' = offset + 48 + 48 := by
  have hlen := length_window h
  have hcut := drop_eq_window_append buffer offset 48
  rw [extractPointValue, returns_ok_bind_iff]
  constructor
  · rintro ⟨octets, hslice, hread⟩
    obtain rfl := (returns_slicer_iff h).mp hslice
    split at hread
    · cases hread
    · next P hP =>
      obtain ⟨hne, hread⟩ := returns_ok_rejectIf_bind hread
      cases hread
      refine ⟨hne, ?_, rfl, rfl⟩
      rw [← hB.g1_canonical _ _ hlen hP hne]
      exact hcut
  · rintro ⟨hne, hbuffer, rfl, rfl⟩
    refine ⟨_, (returns_slicer_iff h).mpr rfl, ?_⟩
    have hoctets : (buffer.take (offset + 48)).drop offset = B.g1ToCompressed value := by
      rw [hcut] at hbuffer
      exact List.append_cancel_right hbuffer
    rw [hoctets, hB.g1_roundtrip]
    exact returns_ok_rejectIf_bind_iff.mpr ⟨hne, rfl⟩

/-- The same for a scalar, which may not be zero. -/
theorem returns_extractScalarValue_iff (h : offset + 32 ≤ buffer.length)
    {value : S.Fr} {offset' fin' : Nat} :
    (extractScalarValue (S := S) offset (offset + 32) buffer).run.Returns
        (.ok (value, offset', fin')) ↔
      value ≠ 0 ∧ buffer.drop offset = beBytes 32 value.val ++ buffer.drop (offset + 32) ∧
        offset' = offset + 32 ∧ fin' = offset + 32 + 32 := by
  have hlen := length_window h
  have hcut := drop_eq_window_append buffer offset 32
  rw [extractScalarValue, returns_ok_bind_iff]
  constructor
  · rintro ⟨octets, hslice, hread⟩
    obtain rfl := (returns_slicer_iff h).mp hslice
    split at hread
    · cases hread
    · next x hx =>
      obtain ⟨hne, hread⟩ := returns_ok_rejectIf_bind hread
      cases hread
      refine ⟨hne, ?_, rfl, rfl⟩
      rw [← (scalarFromBytesBe_eq_some_iff hlen).mp hx]
      exact hcut
  · rintro ⟨hne, hbuffer, rfl, rfl⟩
    refine ⟨_, (returns_slicer_iff h).mpr rfl, ?_⟩
    have hoctets : (buffer.take (offset + 32)).drop offset = beBytes 32 value.val := by
      rw [hcut] at hbuffer
      exact List.append_cancel_right hbuffer
    rw [hoctets, scalarFromBytesBe_beBytes]
    exact returns_ok_rejectIf_bind_iff.mpr ⟨hne, rfl⟩

/-- The octets of the hidden responses. -/
def responseOctets (xs : List S.Fr) : Bytes := (xs.map fun x => beBytes 32 x.val).flatten

@[simp] theorem responseOctets_cons (x : S.Fr) (xs : List S.Fr) :
    responseOctets (x :: xs) = beBytes 32 x.val ++ responseOctets xs := rfl

theorem returns_extractScalarValues_iff {n : Nat} :
    ∀ {offset : Nat}, offset + 32 * n ≤ buffer.length → ∀ {values : List S.Fr} {offset' fin' : Nat},
      (extractScalarValues (S := S) buffer n offset (offset + 32)).run.Returns
          (.ok (values, offset', fin')) ↔
        values.length = n ∧ (∀ x ∈ values, x ≠ 0) ∧
          buffer.drop offset = responseOctets values ++ buffer.drop (offset + 32 * n) ∧
          offset' = offset + 32 * n ∧ fin' = offset + 32 * n + 32 := by
  induction n with
  | zero =>
    intro offset _ values offset' fin'
    constructor
    · intro h
      cases h
      exact ⟨rfl, by simp, rfl, rfl, rfl⟩
    · rintro ⟨hlen, -, -, rfl, rfl⟩
      obtain rfl := List.length_eq_zero_iff.mp hlen
      rfl
  | succ n ih =>
    intro offset hbound values offset' fin'
    have hnext : offset + 32 + 32 * n = offset + 32 * (n + 1) := by omega
    have ih := @ih (offset + 32) (by omega)
    rw [hnext] at ih
    rw [extractScalarValues, returns_ok_bind_iff]
    constructor
    · rintro ⟨⟨value, o, f⟩, hvalue, h⟩
      rw [returns_extractScalarValue_iff (by omega)] at hvalue
      obtain ⟨hne, hbuffer, rfl, rfl⟩ := hvalue
      rw [returns_ok_bind_iff] at h
      obtain ⟨⟨rest, o', f'⟩, hrest, h⟩ := h
      rw [ih] at hrest
      obtain ⟨hlen, hnonzero, htail, rfl, rfl⟩ := hrest
      cases h
      refine ⟨by rw [List.length_cons, hlen], ?_, ?_, rfl, rfl⟩
      · intro x hx
        rcases List.mem_cons.mp hx with rfl | hx
        · exact hne
        · exact hnonzero x hx
      · rw [hbuffer, htail, responseOctets_cons, List.append_assoc]
    · rintro ⟨hlen, hnonzero, hbuffer, rfl, rfl⟩
      obtain ⟨value, rest, rfl⟩ := List.exists_cons_of_length_eq_add_one hlen
      rw [responseOctets_cons, List.append_assoc] at hbuffer
      have htail := drop_window hbuffer
      rw [beBytes_length] at htail
      refine ⟨(value, offset + 32, offset + 32 + 32), ?_, ?_⟩
      · rw [returns_extractScalarValue_iff (by omega)]
        exact ⟨hnonzero value (by simp), by rw [hbuffer, htail], rfl, rfl⟩
      · refine returns_ok_bind_iff.mpr ⟨(rest, offset + 32 * (n + 1), offset + 32 * (n + 1) + 32),
          ih.mpr ⟨?_, ?_, htail, rfl, rfl⟩, rfl⟩
        · simpa using hlen
        · intro x hx
          exact hnonzero x (List.mem_cons_of_mem _ hx)

end Pieces

/-! ### Proofs -/

/-- No component of the proof is zero. -/
structure Proof.NonZero (p : Proof S) : Prop where
  aBar_ne : p.aBar ≠ 0
  bBar_ne : p.bBar ≠ 0
  r2Hat_ne : p.r2Hat ≠ 0
  zHat_ne : p.zHat ≠ 0
  mHat_ne : ∀ m ∈ p.mHatList, m ≠ 0
  c_ne : p.c ≠ 0

theorem Proof.toOctets_eq (B : Blstrs S) (p : Proof S) :
    p.toOctets B = B.g1ToCompressed p.aBar ++ (B.g1ToCompressed p.bBar
      ++ (beBytes 32 p.r2Hat.val ++ (beBytes 32 p.zHat.val
      ++ (responseOctets p.mHatList ++ beBytes 32 p.c.val)))) := by
  simp [Proof.toOctets, responseOctets]

/-- The last scalar of a buffer. -/
theorem returns_challenge_iff {buffer : Bytes} {offset : Nat} (h : offset + 32 = buffer.length)
    {x : S.Fr} :
    (∃ octets, (slicer buffer offset (offset + 32) octetScalarLength).run.Returns (.ok octets) ∧
        scalarFromBytesBe S octets = some x) ↔ buffer.drop offset = beBytes 32 x.val := by
  have hlen := length_window h.le
  have hcut := drop_eq_window_append buffer offset 32
  rw [List.drop_eq_nil_of_le h.ge, List.append_nil] at hcut
  rw [← hcut] at hlen
  constructor
  · rintro ⟨octets, hslice, hx⟩
    obtain rfl := (returns_slicer_iff h.le).mp hslice
    rw [← hcut] at hx
    exact (scalarFromBytesBe_eq_some_iff hlen).mp hx
  · intro hx
    refine ⟨_, (returns_slicer_iff h.le).mpr rfl, ?_⟩
    rw [← hcut]
    exact (scalarFromBytesBe_eq_some_iff hlen).mpr hx

/-- The pieces of a buffer that holds `n` responses, in the order in which they are read. -/
structure Proof.Pieces (B : Blstrs S) (buffer : Bytes) (n : Nat) (p : Proof S) : Prop where
  length_eq : buffer.length = 192 + 32 * n
  responses : p.mHatList.length = n
  aBar_eq : buffer = B.g1ToCompressed p.aBar ++ buffer.drop 48
  bBar_eq : buffer.drop 48 = B.g1ToCompressed p.bBar ++ buffer.drop 96
  r2Hat_eq : buffer.drop 96 = beBytes 32 p.r2Hat.val ++ buffer.drop 128
  zHat_eq : buffer.drop 128 = beBytes 32 p.zHat.val ++ buffer.drop 160
  mHat_eq : buffer.drop 160 = responseOctets p.mHatList ++ buffer.drop (160 + 32 * n)
  c_eq : buffer.drop (160 + 32 * n) = beBytes 32 p.c.val

theorem Proof.pieces_iff (hB : B.Encodes) {buffer : Bytes} {p : Proof S} :
    (∃ n, p.Pieces B buffer n) ↔ buffer = p.toOctets B := by
  constructor
  · rintro ⟨n, h⟩
    rw [Proof.toOctets_eq, ← h.c_eq, ← h.mHat_eq, ← h.zHat_eq, ← h.r2Hat_eq, ← h.bBar_eq]
    exact h.aBar_eq
  · intro hbuffer
    have hlen := length_toOctets hB.g1_length p
    rw [← hbuffer] at hlen
    have hstart : buffer.drop 0 = B.g1ToCompressed p.aBar ++ (B.g1ToCompressed p.bBar
        ++ (beBytes 32 p.r2Hat.val ++ (beBytes 32 p.zHat.val
        ++ (responseOctets p.mHatList ++ beBytes 32 p.c.val)))) := by
      rw [List.drop_zero, hbuffer, Proof.toOctets_eq]
    have hbBar := drop_window hstart
    rw [hB.g1_length] at hbBar
    have hr2Hat := drop_window hbBar
    rw [hB.g1_length] at hr2Hat
    have hzHat := drop_window hr2Hat
    rw [beBytes_length] at hzHat
    have hmHat := drop_window hzHat
    rw [beBytes_length] at hmHat
    have hc := drop_window hmHat
    have hresponses : (responseOctets p.mHatList).length = 32 * p.mHatList.length := by
      simp [responseOctets, List.length_flatten, Function.comp_def, Nat.mul_comm]
    rw [hresponses] at hc
    exact ⟨p.mHatList.length,
      { length_eq := hlen
        responses := rfl
        aBar_eq := by rw [hbBar, ← hstart, List.drop_zero]
        bBar_eq := by rw [hr2Hat, ← hbBar]
        r2Hat_eq := by rw [hzHat, ← hr2Hat]
        zHat_eq := by rw [hmHat, ← hzHat]
        mHat_eq := by rw [hc, ← hmHat]
        c_eq := hc }⟩

/-- The decoder reads its pieces one after the other. -/
theorem returns_fromOctets_iff_pieces (hB : B.Canonical) {buffer : Bytes} {p : Proof S} :
    (Proof.fromOctets B buffer).run.Returns (.ok p) ↔
      p.NonZero ∧ ∃ n, p.Pieces B buffer n := by
  constructor
  · intro h
    have hlength := fromOctets_length h
    generalize p.mHatList.length = n at hlength
    rcases returns_ok_rejectIf_bind h with ⟨hfloor, h⟩
    rcases returns_ok_lift_bind h with ⟨extra, hextra, h⟩
    have hextra : extra = buffer.length - proofLenFloor :=
      (meets_usizeSub (P := fun _ => True) (not_lt.mp hfloor)).of_returns hextra
    rcases returns_ok_rejectIf_bind h with ⟨-, h⟩
    have hcount : extra / octetScalarLength = n := by
      simp only [proofLenFloor, octetPointG1Length, octetScalarLength] at hextra ⊢
      omega
    rcases returns_ok_bind h with ⟨⟨aBar, o1, f1⟩, hread, h⟩
    obtain ⟨haBar_ne, haBar, rfl, rfl⟩ :=
      (returns_extractPointValue_iff hB (show 0 + 48 ≤ buffer.length by omega)).mp hread
    rcases returns_ok_bind h with ⟨⟨bBar, o2, f2⟩, hread, h⟩
    obtain ⟨hbBar_ne, hbBar, rfl, rfl⟩ := (returns_extractPointValue_iff hB (by omega)).mp hread
    rcases returns_ok_bind h with ⟨⟨r2Hat, o3, f3⟩, hread, h⟩
    obtain ⟨hr2Hat_ne, hr2Hat, rfl, rfl⟩ := (returns_extractScalarValue_iff (by omega)).mp hread
    rcases returns_ok_bind h with ⟨⟨zHat, o4, f4⟩, hread, h⟩
    obtain ⟨hzHat_ne, hzHat, rfl, rfl⟩ := (returns_extractScalarValue_iff (by omega)).mp hread
    dsimp only at h
    rw [hcount] at h
    rcases returns_ok_lift_bind h with ⟨⟨⟩, -, h⟩
    rcases returns_ok_bind h with ⟨⟨mHatList, o5, f5⟩, hread, h⟩
    obtain ⟨hresponses, hmHat_ne, hmHat, rfl, rfl⟩ :=
      (returns_extractScalarValues_iff (by omega)).mp hread
    dsimp only at h
    rcases returns_ok_bind h with ⟨octets, hslice, h⟩
    split at h
    · cases h
    next c hc =>
    rcases returns_ok_rejectIf_bind h with ⟨hc_ne, h⟩
    have hlast := (returns_challenge_iff (by omega)).mp ⟨octets, hslice, hc⟩
    cases h
    exact ⟨⟨haBar_ne, hbBar_ne, hr2Hat_ne, hzHat_ne, hmHat_ne, hc_ne⟩, n,
      ⟨hlength.symm, hresponses, haBar, hbBar, hr2Hat, hzHat, hmHat, hlast⟩⟩
  · rintro ⟨hne, n, h⟩
    have hlength := h.length_eq
    refine returns_ok_rejectIf_bind_iff.mpr ⟨?_, ?_⟩
    · simp only [proofLenFloor, octetPointG1Length, octetScalarLength]
      omega
    refine returns_ok_lift_bind_iff.mpr ⟨32 * n, ?_, ?_⟩
    · have hfloor : proofLenFloor ≤ buffer.length := by
        simp only [proofLenFloor, octetPointG1Length, octetScalarLength]
        omega
      have hextra : buffer.length - proofLenFloor = 32 * n := by
        simp only [proofLenFloor, octetPointG1Length, octetScalarLength]
        omega
      rw [usizeSub, if_pos hfloor, hextra]
      rfl
    have hmultiple : ¬ 32 * n % octetScalarLength ≠ 0 := by
      simp only [octetScalarLength]
      omega
    have hcount : 32 * n / octetScalarLength = n := by
      simp only [octetScalarLength]
      omega
    refine returns_ok_rejectIf_bind_iff.mpr ⟨hmultiple, ?_⟩
    refine returns_ok_bind_iff.mpr ⟨(p.aBar, 48, 96), ?_, ?_⟩
    · exact (returns_extractPointValue_iff hB (show 0 + 48 ≤ buffer.length by omega)).mpr
        ⟨hne.aBar_ne, h.aBar_eq, rfl, rfl⟩
    refine returns_ok_bind_iff.mpr ⟨(p.bBar, 96, 144), ?_, ?_⟩
    · exact (returns_extractPointValue_iff hB (by omega)).mpr ⟨hne.bBar_ne, h.bBar_eq, rfl, rfl⟩
    refine returns_ok_bind_iff.mpr ⟨(p.r2Hat, 128, 160), ?_, ?_⟩
    · exact (returns_extractScalarValue_iff (by omega)).mpr ⟨hne.r2Hat_ne, h.r2Hat_eq, rfl, rfl⟩
    refine returns_ok_bind_iff.mpr ⟨(p.zHat, 160, 192), ?_, ?_⟩
    · exact (returns_extractScalarValue_iff (by omega)).mpr ⟨hne.zHat_ne, h.zHat_eq, rfl, rfl⟩
    dsimp only
    rw [hcount]
    refine returns_ok_lift_bind_iff.mpr ⟨(), rfl, ?_⟩
    refine returns_ok_bind_iff.mpr ⟨(p.mHatList, 160 + 32 * n, 160 + 32 * n + 32), ?_, ?_⟩
    · exact (returns_extractScalarValues_iff (by omega)).mpr
        ⟨h.responses, hne.mHat_ne, h.mHat_eq, rfl, rfl⟩
    obtain ⟨octets, hslice, hc⟩ := (returns_challenge_iff (S := S) (by omega)).mpr h.c_eq
    refine returns_ok_bind_iff.mpr ⟨octets, hslice, ?_⟩
    rw [hc]
    exact returns_ok_rejectIf_bind_iff.mpr ⟨hne.c_ne, rfl⟩

/-- **Canonical proofs.** The decoder accepts exactly the encodings of proofs without a
    zero component, and reads back the proof that was encoded. -/
theorem returns_fromOctets_iff (hB : B.Canonical) {buffer : Bytes} {p : Proof S} :
    (Proof.fromOctets B buffer).run.Returns (.ok p) ↔ p.NonZero ∧ buffer = p.toOctets B := by
  rw [returns_fromOctets_iff_pieces hB, Proof.pieces_iff hB.toEncodes]

/-! ### Signatures -/

theorem Signature.fromOctets_eq_ok_iff (hB : B.Canonical) {data : Bytes} (hlen : data.length = 80)
    {signature : Signature S} :
    Signature.fromOctets B data = .ok signature ↔
      signature.a ≠ 0 ∧ signature.e ≠ 0 ∧ data = signature.toOctets B := by
  have hpoint : (data.take 48).length = 48 := by rw [List.length_take, hlen]; rfl
  have hscalar : ((data.drop 48).take 32).length = 32 := by
    rw [List.length_take, List.length_drop, hlen]
    rfl
  have hdata : data = data.take 48 ++ (data.drop 48).take 32 := by
    have hall : (data.drop 48).take 32 = data.drop 48 :=
      List.take_of_length_le (by rw [List.length_drop, hlen])
    rw [hall, List.take_append_drop]
  constructor
  · intro h
    unfold Signature.fromOctets at h
    split at h
    · cases h
    next a ha =>
    obtain ⟨hane, h⟩ := rejectIf_bind_eq_ok_iff.mp h
    split at h
    · cases h
    next e he =>
    obtain ⟨hene, h⟩ := rejectIf_bind_eq_ok_iff.mp h
    cases h
    refine ⟨hane, hene, ?_⟩
    rw [Signature.toOctets, ← hB.g1_canonical _ _ hpoint ha hane,
      ← (scalarFromBytesBe_eq_some_iff hscalar).mp he]
    exact hdata
  · rintro ⟨hane, hene, hoctets⟩
    rw [Signature.toOctets] at hoctets
    obtain ⟨ha, he⟩ := append_split (by rw [hpoint, hB.g1_length]) (hdata.symm.trans hoctets)
    unfold Signature.fromOctets octetPointG1Length octetScalarLength
    rw [ha, he, hB.g1_roundtrip]
    refine rejectIf_bind_eq_ok_iff.mpr ⟨hane, ?_⟩
    rw [scalarFromBytesBe_beBytes]
    exact rejectIf_bind_eq_ok_iff.mpr ⟨hene, rfl⟩

theorem not_panics_fromOctets (B : Blstrs S) {buffer : Bytes} :
    ¬ (Proof.fromOctets B buffer).run.Panics := by
  intro hpanics
  have hmeets : MeetsResult (fun _ => True) _ (Proof.fromOctets B buffer) :=
    meets_fromOctets B fun _ _ => trivial
  obtain ⟨res, hres, -⟩ := hmeets.exists_returns
  exact hpanics.not_returns res hres

/-- **Canonical octets.** Proofs and signatures have one accepted octet string each: both
    decoders are inverse to the encoders on values without a zero component, and accept
    nothing else. No buffer makes the decoder of proofs panic. -/
theorem octets_canonical (hB : B.Canonical) :
    (∀ buffer, ¬ (Proof.fromOctets B buffer).run.Panics) ∧
      (∀ buffer (p : Proof S), (Proof.fromOctets B buffer).run.Returns (.ok p) ↔
        p.NonZero ∧ buffer = p.toOctets B) ∧
      (∀ (data : Bytes) (signature : Signature S), data.length = 80 →
        (Signature.fromOctets B data = .ok signature ↔
          signature.a ≠ 0 ∧ signature.e ≠ 0 ∧ data = signature.toOctets B)) :=
  ⟨fun _ => not_panics_fromOctets B, fun _ _ => returns_fromOctets_iff hB,
    fun _ _ hlen => Signature.fromOctets_eq_ok_iff hB hlen⟩

/-- A proof with two hidden responses. -/
def twoHiddenProof : Proof smallSuite where
  aBar := SmallSuite.elem 2
  bBar := SmallSuite.elem 3
  r2Hat := SmallSuite.elem 1
  zHat := SmallSuite.elem 6
  mHatList := [SmallSuite.elem 4, SmallSuite.elem 5]
  c := SmallSuite.elem 3

theorem twoHiddenProof_nonZero : twoHiddenProof.NonZero :=
  ⟨by decide, by decide, by decide, by decide, by decide, by decide⟩

theorem twoHiddenProof_octets_canonical :
    ¬ (Proof.fromOctets smallBlstrs ((twoHiddenProof.toOctets smallBlstrs).take 200)).run.Panics ∧
      (Proof.fromOctets smallBlstrs (twoHiddenProof.toOctets smallBlstrs)).run.Returns
        (.ok twoHiddenProof) ∧
      ¬ (Proof.fromOctets smallBlstrs ((twoHiddenProof.toOctets smallBlstrs).set 0 0xa0)).run.Returns
        (.ok twoHiddenProof) := by
  obtain ⟨htotal, hcanonical, -⟩ := octets_canonical smallBlstrs_canonical
  refine ⟨htotal _, (hcanonical _ _).mpr ⟨twoHiddenProof_nonZero, rfl⟩, ?_⟩
  rw [hcanonical]
  rintro ⟨-, hsame⟩
  revert hsame
  decide

end PairingCrypto

end PhiCrypto

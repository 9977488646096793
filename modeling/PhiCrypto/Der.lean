import PhiCrypto.PrefixDecoder

/-!
# DER: lengths, headers and unsigned integers

The part of DER that a sequence of two unsigned integers needs, as the `der` crate
reads and writes it. The decoders are strict: a length uses as few octets as it can, an
integer has no leading zero other than the one that keeps it positive, and a nested
value fills its window. Errors carry no information here.

What is written in the short form of lengths is read back (`uint_encodeUint`,
`sequence_encodeSequence`).
-/

namespace PhiCrypto

namespace Der

/-- `Length::MAX`. -/
def maxLength : Nat := 0xfffffff

/-- `Length::initial_octet`: the octet in front of a length in the long form. -/
def initialOctet (len : Nat) : Option UInt8 :=
  if len < 0x80 then none
  else if len ≤ 0xff then some 0x81
  else if len ≤ 0xffff then some 0x82
  else if len ≤ 0xffffff then some 0x83
  else if len ≤ maxLength then some 0x84
  else none

/-- `strip_leading_zeroes`: the last octet stays. -/
def stripLeadingZeroes : Bytes → Bytes
  | 0 :: b :: rest => stripLeadingZeroes (b :: rest)
  | bytes => bytes

def needsLeadingZero : Bytes → Bool
  | [] => false
  | b :: _ => decide (b ≥ 0x80)

/-- `UintRef::value_len`. -/
def valueLen (bytes : Bytes) : Nat :=
  (stripLeadingZeroes bytes).length + (needsLeadingZero (stripLeadingZeroes bytes)).toNat

/-! ### Decoding -/

def readByte : Decoder Unit UInt8 := fun s =>
  match s with
  | [] => .error ()
  | b :: rest => .ok (b, rest)

/-- `Length::decode`. -/
def length : Decoder Unit Nat := do
  let tag ← readByte
  if tag < 0x80 then pure tag.toNat
  else if tag = 0x80 then throw ()
  else if tag ≤ 0x84 then do
    let octets ← Decoder.take (tag.toNat - 0x80) ()
    rejectIf (beNat octets > maxLength) ()
    rejectIf (initialOctet (beNat octets) ≠ some tag) ()
    pure (beNat octets)
  else throw ()

/-- `Header::decode` and the check of its tag. -/
def header (tag : UInt8) : Decoder Unit Nat := do
  let b ← readByte
  rejectIf (b ≠ tag) ()
  length

/-- `decode_to_slice`: the octets of an `INTEGER` that is not negative. -/
def decodeToSlice : Bytes → Except Unit Bytes
  | [] => .error ()
  | [0] => .ok [0]
  | 0 :: b :: rest => if b < 0x80 then .error () else .ok (b :: rest)
  | b :: rest => if b ≥ 0x80 then .error () else .ok (b :: rest)

/-- `UintRef::decode`. -/
def uint : Decoder Unit Bytes := do
  let len ← header 0x02
  let octets ← Decoder.take len ()
  let slice ← Decoder.ofResult (decodeToSlice octets)
  rejectIf (valueLen (stripLeadingZeroes slice) ≠ len) ()
  pure (stripLeadingZeroes slice)

/-- `Reader::sequence`: `body` has to read its window to the end. -/
def sequence {α : Type} (body : Decoder Unit α) : Decoder Unit α := do
  let len ← header 0x30
  let octets ← Decoder.take len ()
  Decoder.ofResult (Decoder.runAll body () octets)

/-- `SliceReader::new` and `finish`: a whole input. -/
def decode {α : Type} (d : Decoder Unit α) (input : Bytes) : Except Unit α :=
  if input.length > maxLength then .error () else Decoder.runAll d () input

/-! ### Encoding -/

/-- `Length::encode`. -/
def encodeLength (len : Nat) : Bytes :=
  match initialOctet len with
  | some tag => tag :: stripLeadingZeroes (beBytes 4 len)
  | none => [UInt8.ofNat len]

/-- The octets of an `INTEGER`. -/
def uintValue (bytes : Bytes) : Bytes :=
  if valueLen bytes > (stripLeadingZeroes bytes).length then 0 :: stripLeadingZeroes bytes
  else stripLeadingZeroes bytes

def encodeUint (bytes : Bytes) : Bytes :=
  0x02 :: (encodeLength (valueLen bytes) ++ uintValue bytes)

def encodeSequence (body : Bytes) : Bytes :=
  0x30 :: (encodeLength body.length ++ body)

/-! ### Leading zeroes -/

theorem stripLeadingZeroes_of_ne {b : UInt8} {rest : Bytes} (hb : b ≠ 0) :
    stripLeadingZeroes (b :: rest) = b :: rest := by
  rw [stripLeadingZeroes]
  intro b' rest' heq
  cases heq
  exact hb rfl

theorem stripLeadingZeroes_cases (bytes : Bytes) :
    stripLeadingZeroes bytes = [] ∨ stripLeadingZeroes bytes = [0] ∨
      ∃ b rest, stripLeadingZeroes bytes = b :: rest ∧ b ≠ 0 := by
  induction bytes using stripLeadingZeroes.induct with
  | case1 b rest ih =>
    rw [stripLeadingZeroes]
    exact ih
  | case2 bytes hcases =>
    match bytes with
    | [] => exact .inl rfl
    | [b] =>
      by_cases hb : b = 0
      · subst hb
        exact .inr (.inl rfl)
      · exact .inr (.inr ⟨b, [], stripLeadingZeroes_of_ne hb, hb⟩)
    | b :: c :: rest =>
      have hb : b ≠ 0 := by
        intro hzero
        subst hzero
        exact hcases c rest rfl
      exact .inr (.inr ⟨b, c :: rest, stripLeadingZeroes_of_ne hb, hb⟩)

@[simp] theorem stripLeadingZeroes_strip (bytes : Bytes) :
    stripLeadingZeroes (stripLeadingZeroes bytes) = stripLeadingZeroes bytes := by
  rcases stripLeadingZeroes_cases bytes with h | h | ⟨b, rest, h, hb⟩
  · rw [h]
    rfl
  · rw [h]
    rfl
  · rw [h, stripLeadingZeroes_of_ne hb]

@[simp] theorem valueLen_strip (bytes : Bytes) :
    valueLen (stripLeadingZeroes bytes) = valueLen bytes := by
  rw [valueLen, stripLeadingZeroes_strip, valueLen]

/-- Padding puts the zeroes back. -/
theorem pad_stripLeadingZeroes (bytes : Bytes) :
    (stripLeadingZeroes bytes).length ≤ bytes.length ∧
      List.replicate (bytes.length - (stripLeadingZeroes bytes).length) 0
        ++ stripLeadingZeroes bytes = bytes := by
  induction bytes using stripLeadingZeroes.induct with
  | case1 b rest ih =>
    obtain ⟨hle, hpad⟩ := ih
    rw [stripLeadingZeroes]
    refine ⟨Nat.le_succ_of_le hle, ?_⟩
    rw [List.length_cons, Nat.succ_sub hle, List.replicate_succ, List.cons_append, hpad]
  | case2 bytes hcases =>
    rw [stripLeadingZeroes]
    · simp
    · exact hcases

theorem stripLeadingZeroes_ne_nil {bytes : Bytes} (h : bytes ≠ []) :
    stripLeadingZeroes bytes ≠ [] := by
  induction bytes using stripLeadingZeroes.induct with
  | case1 b rest ih =>
    rw [stripLeadingZeroes]
    exact ih (by simp)
  | case2 bytes hcases =>
    rw [stripLeadingZeroes]
    · exact h
    · exact hcases

theorem valueLen_le {bytes : Bytes} : valueLen bytes ≤ bytes.length + 1 := by
  have hle := (pad_stripLeadingZeroes bytes).1
  have hbool := Bool.toNat_le (needsLeadingZero (stripLeadingZeroes bytes))
  rw [valueLen]
  omega

theorem uintValue_length (bytes : Bytes) : (uintValue bytes).length = valueLen bytes := by
  unfold uintValue valueLen
  cases needsLeadingZero (stripLeadingZeroes bytes) <;> simp

/-- The value of an integer is read back. -/
theorem decodeToSlice_uintValue {bytes : Bytes} (h : bytes ≠ []) :
    decodeToSlice (uintValue bytes) = .ok (stripLeadingZeroes bytes) := by
  unfold uintValue valueLen
  rcases stripLeadingZeroes_cases bytes with hs | hs | ⟨b, rest, hs, hb⟩
  · exact absurd hs (stripLeadingZeroes_ne_nil h)
  · rw [hs]
    rfl
  · rw [hs, needsLeadingZero]
    by_cases hhigh : b ≥ 0x80
    · rw [if_pos (by simp [hhigh])]
      simp only [decodeToSlice]
      rw [if_neg (by simpa using hhigh)]
    · rw [if_neg (by simp [hhigh]), decodeToSlice]
      · rw [if_neg hhigh]
      · intro hzero _
        exact hb hzero
      · intro c rest' hzero _
        exact hb hzero

/-! ### Round trips -/

theorem encodeLength_short {len : Nat} (h : len < 0x80) : encodeLength len = [UInt8.ofNat len] := by
  rw [encodeLength, initialOctet, if_pos h]

theorem encodeUint_length {bytes : Bytes} (h : valueLen bytes < 0x80) :
    (encodeUint bytes).length = valueLen bytes + 2 := by
  rw [encodeUint, encodeLength_short h, List.length_cons, List.length_append, List.length_singleton,
    uintValue_length]
  omega

theorem header_encodeLength (tag : UInt8) {len : Nat} (h : len < 0x80) (s : Bytes) :
    header tag (tag :: (encodeLength len ++ s)) = .ok (len, s) := by
  have hval : (UInt8.ofNat len).toNat = len := by
    rw [UInt8.toNat_ofNat', Nat.mod_eq_of_lt (by omega)]
  have hlt : UInt8.ofNat len < 0x80 := by
    rw [UInt8.lt_iff_toNat_lt, hval]
    exact h
  rw [encodeLength_short h, header, Decoder.bind_ok (show readByte _ = .ok (tag, _) from rfl),
    Decoder.rejectIf_bind_apply, if_neg (by simp), length]
  rw [Decoder.bind_ok (show readByte _ = .ok (UInt8.ofNat len, s) from rfl), if_pos hlt, hval]
  rfl

/-- Integers of fewer than 127 octets are read back without their leading zeroes. -/
theorem uint_encodeUint {bytes : Bytes} (hne : bytes ≠ []) (hlen : valueLen bytes < 0x80)
    (s : Bytes) : uint (encodeUint bytes ++ s) = .ok (stripLeadingZeroes bytes, s) := by
  have hheader := header_encodeLength 0x02 hlen (uintValue bytes ++ s)
  have htake := Decoder.take_append () (uintValue_length bytes) s
  rw [encodeUint, List.cons_append, List.append_assoc, uint, Decoder.bind_ok hheader,
    Decoder.bind_ok htake, decodeToSlice_uintValue hne, Decoder.bind_ok (Decoder.ofResult_ok _ s),
    Decoder.rejectIf_bind_apply, if_neg (by simp), stripLeadingZeroes_strip, Decoder.pure_apply]

theorem sequence_encodeSequence {α : Type} {body : Decoder Unit α} {octets : Bytes} {a : α}
    (hlen : octets.length < 0x80) (hbody : body octets = .ok (a, [])) (s : Bytes) :
    sequence body (encodeSequence octets ++ s) = .ok (a, s) := by
  have hheader := header_encodeLength 0x30 hlen (octets ++ s)
  have hrun : Decoder.runAll body () octets = .ok a := Decoder.runAll_eq_ok_iff.mpr hbody
  rw [encodeSequence, List.cons_append, List.append_assoc, sequence, Decoder.bind_ok hheader,
    Decoder.bind_ok (Decoder.take_append () rfl s), hrun, Decoder.ofResult_ok]

/-! ### What a successful read has seen -/

theorem of_readByte_ok {b : UInt8} {s t : Bytes} (h : readByte s = .ok (b, t)) : s = b :: t := by
  cases s with
  | nil => cases h
  | cons c rest =>
    cases h
    rfl

/-- The short form, or a length of 128 and more. -/
theorem of_length_ok {len : Nat} {s t : Bytes} (h : length s = .ok (len, t)) :
    s = UInt8.ofNat len :: t ∨ 0x80 ≤ len ∧ t.length ≤ s.length := by
  rw [length, Decoder.bind_eq_ok_iff] at h
  obtain ⟨tag, u, htag, h⟩ := h
  have hs := of_readByte_ok htag
  split at h
  · cases h
    rw [UInt8.ofNat_toNat]
    exact .inl hs
  · split at h
    · cases h
    · split at h
      · rw [Decoder.bind_eq_ok_iff] at h
        obtain ⟨octets, v, htake, h⟩ := h
        obtain ⟨-, hu⟩ := Decoder.take_sound htake
        rw [Decoder.rejectIf_bind_eq_ok_iff] at h
        obtain ⟨-, h⟩ := h
        rw [Decoder.rejectIf_bind_eq_ok_iff] at h
        obtain ⟨hinitial, h⟩ := h
        cases h
        refine .inr ⟨?_, ?_⟩
        · -- a shorter length has no initial octet
          by_contra hlt
          rw [not_not, initialOctet, if_pos (not_le.mp hlt)] at hinitial
          cases hinitial
        · rw [hs, hu, List.length_cons, List.length_append]
          omega
      · cases h

theorem of_header_ok {tag : UInt8} {len : Nat} {s t : Bytes} (h : header tag s = .ok (len, t)) :
    ∃ rest, s = tag :: rest ∧ length rest = .ok (len, t) := by
  rw [header, Decoder.bind_eq_ok_iff] at h
  obtain ⟨b, rest, hb, h⟩ := h
  rw [Decoder.rejectIf_bind_eq_ok_iff] at h
  obtain ⟨htag, hlength⟩ := h
  rw [not_not] at htag
  subst htag
  exact ⟨rest, of_readByte_ok hb, hlength⟩

theorem length_le_of_decodeToSlice {octets slice : Bytes}
    (h : decodeToSlice octets = .ok slice) : slice.length ≤ octets.length := by
  unfold decodeToSlice at h
  split at h
  · cases h
  · cases h
    exact le_rfl
  · split at h
    · cases h
    · cases h
      exact Nat.le_succ _
  · split at h
    · cases h
    · cases h
      exact le_rfl

/-- An integer in an input of fewer than 128 octets has its length in the short form. -/
theorem of_uint_short {bytes s t : Bytes} (h : uint s = .ok (bytes, t)) (hlen : s.length < 0x80) :
    ∃ octets, s = 0x02 :: UInt8.ofNat octets.length :: (octets ++ t) ∧
      bytes.length ≤ octets.length := by
  rw [uint, Decoder.bind_eq_ok_iff] at h
  obtain ⟨len, u, hheader, h⟩ := h
  obtain ⟨rest, hs, hlength⟩ := of_header_ok hheader
  rw [Decoder.bind_eq_ok_iff] at h
  obtain ⟨octets, v, htake, h⟩ := h
  obtain ⟨hoctets, hu⟩ := Decoder.take_sound htake
  cases hslice : decodeToSlice octets with
  | error e =>
    rw [hslice, Decoder.bind_eq_ok_iff] at h
    obtain ⟨_, _, herror, -⟩ := h
    rw [Decoder.ofResult_error] at herror
    cases herror
  | ok slice =>
    rw [hslice, Decoder.bind_ok (Decoder.ofResult_ok _ v), Decoder.rejectIf_bind_eq_ok_iff] at h
    obtain ⟨-, h⟩ := h
    cases h
    refine ⟨octets, ?_, ?_⟩
    · rcases of_length_ok hlength with hshort | ⟨hlong, hle⟩
      · rw [hs, hshort, hoctets, hu]
      · rw [hu, List.length_append] at hle
        rw [hs, List.length_cons] at hlen
        omega
    · exact (pad_stripLeadingZeroes slice).1.trans (length_le_of_decodeToSlice hslice)

/-- A sequence that ends with its input, shorter than 128 octets, has the short form. -/
theorem of_sequence_ok {α : Type} {body : Decoder Unit α} {a : α} {s : Bytes}
    (h : sequence body s = .ok (a, [])) (hlen : s.length < 0x80) :
    ∃ octets, s = 0x30 :: UInt8.ofNat octets.length :: octets ∧ body octets = .ok (a, []) := by
  rw [sequence, Decoder.bind_eq_ok_iff] at h
  obtain ⟨len, u, hheader, h⟩ := h
  obtain ⟨rest, hs, hlength⟩ := of_header_ok hheader
  rw [Decoder.bind_eq_ok_iff] at h
  obtain ⟨octets, v, htake, h⟩ := h
  obtain ⟨hoctets, hu⟩ := Decoder.take_sound htake
  cases hrun : Decoder.runAll body () octets with
  | error e =>
    rw [hrun, Decoder.ofResult_error] at h
    cases h
  | ok b =>
    rw [hrun, Decoder.ofResult_ok] at h
    cases h
    rw [List.append_nil] at hu
    subst hu
    refine ⟨u, ?_, Decoder.runAll_eq_ok_iff.mp hrun⟩
    rcases of_length_ok hlength with hshort | ⟨hlong, hle⟩
    · rw [hs, hshort, hoctets]
    · rw [hs, List.length_cons] at hlen
      omega

end Der

end PhiCrypto

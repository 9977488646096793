import PhiCrypto.JsonGrammar
import PhiCrypto.JsonScan

/-!
# Strings of `serde_json`

`SliceRead` over what is left of its slice: whitespace and identifiers, strings with their
escapes, and strings that are skipped. The position of an error is left out, since nobody
looks at errors. Each function accepts what the grammar has for it: a string that is read
denotes text in UTF-8, with surrogates in pairs; one that is skipped need not.
-/

namespace PhiCrypto

namespace SerdeJson

open Json

/-! ### The model -/

/-- `parse_whitespace`; the byte that it peeks is the first one left. -/
def parseWhitespace : Bytes → Bytes
  | [] => []
  | b :: rest =>
    if b = 0x20 ∨ b = 0x0a ∨ b = 0x09 ∨ b = 0x0d then parseWhitespace rest else b :: rest

/-- `parse_ident`. -/
def parseIdent : Bytes → Bytes → Option Bytes
  | [], s => some s
  | _ :: _, [] => none
  | expected :: ident, next :: rest => if next ≠ expected then none else parseIdent ident rest

/-- `decode_hex_val_slow`. -/
def decodeHexValSlow (val : UInt8) : Option Nat :=
  if 0x30 ≤ val ∧ val ≤ 0x39 then some (val - 0x30).toNat
  else if 0x41 ≤ val ∧ val ≤ 0x46 then some (val - 0x41 + 10).toNat
  else if 0x61 ≤ val ∧ val ≤ 0x66 then some (val - 0x61 + 10).toNat
  else none

/-- An entry of `HEX0` or `HEX1`, which are shifted by 0 and 4, as an `i32`. -/
def hexTable (shift : Nat) (ch : UInt8) : BitVec 32 :=
  match decodeHexValSlow ch with
  | some val => BitVec.ofNat 32 (val <<< shift)
  | none => BitVec.allOnes 32

/-- `decode_four_hex_digits`, with its single check of the sign. -/
def decodeFourHexDigits (a b c d : UInt8) : Option Nat :=
  let codepoint := ((hexTable 4 a ||| hexTable 0 b) <<< 8) ||| hexTable 4 c ||| hexTable 0 d
  if codepoint.msb then none else some (codepoint.toNat % 2 ^ 16)

/-- `decode_hex_escape`. -/
def decodeHexEscape : Bytes → Option (Nat × Bytes)
  | a :: b :: c :: d :: rest => (decodeFourHexDigits a b c d).map fun val => (val, rest)
  | _ => none

/-- `push_wtf8_codepoint`: the bytes that it writes. -/
def pushWtf8Codepoint (n : UInt32) : Bytes :=
  if n < 0x80 then [n.toUInt8]
  else if n ≤ 0x7ff then
    [((n >>> 6) &&& 0x1f).toUInt8 ||| 0xc0, (n &&& 0x3f).toUInt8 ||| 0x80]
  else if n ≤ 0xffff then
    [((n >>> 12) &&& 0x0f).toUInt8 ||| 0xe0, ((n >>> 6) &&& 0x3f).toUInt8 ||| 0x80,
      (n &&& 0x3f).toUInt8 ||| 0x80]
  else
    [((n >>> 18) &&& 0x07).toUInt8 ||| 0xf0, ((n >>> 12) &&& 0x3f).toUInt8 ||| 0x80,
      ((n >>> 6) &&& 0x3f).toUInt8 ||| 0x80, (n &&& 0x3f).toUInt8 ||| 0x80]

/-- The second half of `parse_unicode_escape`: a trailing surrogate behind `n1`. -/
def parseTrailingSurrogate (n1 : Nat) : Bytes → Option (Bytes × Bytes)
  | backslash :: u :: s =>
    if backslash ≠ 0x5c ∨ u ≠ 0x75 then none
    else
      match decodeHexEscape s with
      | none => none
      | some (n2, s) =>
        if n2 < 0xdc00 ∨ n2 > 0xdfff then none
        else
          let n := (((n1 - 0xd800) <<< 10) ||| (n2 - 0xdc00)) + 0x10000
          some (pushWtf8Codepoint (UInt32.ofNat n), s)
  | _ => none

/-- `parse_unicode_escape`, validating: what it pushes, and the rest. -/
def parseUnicodeEscape (s : Bytes) : Option (Bytes × Bytes) :=
  match decodeHexEscape s with
  | none => none
  | some (n, s) =>
    if 0xdc00 ≤ n ∧ n ≤ 0xdfff then none
    else if n < 0xd800 ∨ n > 0xdbff then some (pushWtf8Codepoint (UInt32.ofNat n), s)
    else parseTrailingSurrogate n s

/-- The arms of `parse_escape` that push one byte. -/
def escapedByte (ch : UInt8) : Option UInt8 :=
  if ch = 0x22 then some 0x22
  else if ch = 0x5c then some 0x5c
  else if ch = 0x2f then some 0x2f
  else if ch = 0x62 then some 0x08
  else if ch = 0x66 then some 0x0c
  else if ch = 0x6e then some 0x0a
  else if ch = 0x72 then some 0x0d
  else if ch = 0x74 then some 0x09
  else none

/-- `parse_escape`, behind the backslash. -/
def parseEscape : Bytes → Option (Bytes × Bytes)
  | [] => none
  | ch :: rest =>
    match escapedByte ch with
    | some b => some ([b], rest)
    | none => if ch = 0x75 then parseUnicodeEscape rest else none

/-- The loop of `parse_str_bytes`, behind the opening quotation mark. -/
def parseStrBytes (step : Nat) : Nat → Bytes → Bytes → Option (Bytes × Bytes)
  | 0, _, _ => none
  | fuel + 1, scratch, s =>
    let found := skipToEscape step s
    let scratch := scratch ++ s.take (s.length - found.length)
    match found with
    | [] => none
    | ch :: rest =>
      if ch = 0x22 then some (scratch, rest)
      else if ch = 0x5c then
        match parseEscape rest with
        | none => none
        | some (pushed, rest) => parseStrBytes step fuel (scratch ++ pushed) rest
      else none

/-- `parse_str`. -/
def parseStr (step : Nat) (s : Bytes) : Option (Bytes × Bytes) :=
  match parseStrBytes step (s.length + 1) [] s with
  | none => none
  | some (text, rest) => if ByteArray.validateUTF8 ⟨text.toArray⟩ then some (text, rest) else none

/-- `ignore_escape`. -/
def ignoreEscape : Bytes → Option Bytes
  | [] => none
  | ch :: rest =>
    if ch = 0x22 ∨ ch = 0x5c ∨ ch = 0x2f ∨ ch = 0x62 ∨ ch = 0x66 ∨ ch = 0x6e ∨ ch = 0x72 ∨ ch = 0x74
    then some rest
    else if ch = 0x75 then (decodeHexEscape rest).map Prod.snd
    else none

/-- The loop of `ignore_str`. -/
def ignoreStrLoop (step : Nat) : Nat → Bytes → Option Bytes
  | 0, _ => none
  | fuel + 1, s =>
    match skipToEscape step s with
    | [] => none
    | ch :: rest =>
      if ch = 0x22 then some rest
      else if ch = 0x5c then
        match ignoreEscape rest with
        | none => none
        | some rest => ignoreStrLoop step fuel rest
      else none

/-- `ignore_str`, behind the opening quotation mark. -/
def ignoreStr (step : Nat) (s : Bytes) : Option Bytes := ignoreStrLoop step (s.length + 1) s

/-! ### Whitespace and identifiers -/

/-- Nothing to skip at the front. -/
def NoSpace (t : Bytes) : Prop := ∀ b ∈ t.head?, ¬ IsSpace b

theorem noSpace_cons {b : UInt8} {t : Bytes} : NoSpace (b :: t) ↔ ¬ IsSpace b := by
  simp [NoSpace]

theorem spaces_parseWhitespace (s : Bytes) : Spaces s (parseWhitespace s) := by
  induction s with
  | nil => exact .nil []
  | cons b rest ih =>
    rw [parseWhitespace]
    split
    next hspace => exact .cons hspace ih
    next => exact .nil _

/-- Whatever whitespace a derivation passes over, the loop passes over exactly that much. -/
theorem parseWhitespace_eq {s t : Bytes} (h : Spaces s t) (ht : NoSpace t) :
    parseWhitespace s = t := by
  induction h with
  | nil s =>
    cases s with
    | nil => rfl
    | cons b rest => exact if_neg (noSpace_cons.mp ht)
  | cons hspace _ ih =>
    rw [parseWhitespace]
    exact (if_pos hspace).trans (ih ht)

theorem parseWhitespace_eq_cons_iff {s t : Bytes} {b : UInt8} (hb : ¬ IsSpace b) :
    parseWhitespace s = b :: t ↔ Spaces s (b :: t) := by
  constructor
  · intro h
    rw [← h]
    exact spaces_parseWhitespace s
  · intro h
    exact parseWhitespace_eq h (noSpace_cons.mpr hb)

theorem parseWhitespace_length_le (s : Bytes) : (parseWhitespace s).length ≤ s.length := by
  induction s with
  | nil => exact le_rfl
  | cons b rest ih =>
    rw [parseWhitespace]
    split
    next => exact ih.trans (Nat.le_succ _)
    next => exact le_rfl

theorem parseIdent_eq_some_iff {ident s t : Bytes} :
    parseIdent ident s = some t ↔ s = ident ++ t := by
  induction ident generalizing s with
  | nil =>
    rw [parseIdent, List.nil_append]
    exact Option.some_inj
  | cons expected ident ih =>
    cases s with
    | nil => simp [parseIdent]
    | cons next rest =>
      rw [parseIdent, List.cons_append, List.cons.injEq]
      split
      next hne => simp [hne]
      next heq => simp [not_not.mp heq, ih]

/-! ### Escapes -/

/-- What holds of all 256 bytes holds of a byte. -/
theorem forall_byte {p : UInt8 → Prop} (h : ∀ n : Fin 256, p (UInt8.ofNat n.val)) (b : UInt8) :
    p b := by
  have hb := h ⟨b.toNat, b.toNat_lt⟩
  rwa [UInt8.ofNat_toNat] at hb

theorem decodeHexValSlow_eq (val : UInt8) : decodeHexValSlow val = hexVal val := by
  have hall : ∀ val : UInt8, decodeHexValSlow val = hexVal val := forall_byte (by decide +kernel)
  exact hall val

theorem hexVal_lt {b : UInt8} {v : Nat} (h : hexVal b = some v) : v < 16 := by
  have hall : ∀ b : UInt8, ∀ v ∈ hexVal b, v < 16 := forall_byte (by decide +kernel)
  exact hall b v h

/-- Two digits of one byte. -/
theorem hexTable_or : ∀ va < 16, ∀ vb < 16,
    BitVec.ofNat 32 (va <<< 4) ||| BitVec.ofNat 32 (vb <<< 0) = BitVec.ofNat 32 (16 * va + vb) := by
  decide +kernel

/-- Two bytes of one number. -/
theorem bytes_or {x y : Nat} (hx : x < 256) (hy : y < 256) :
    (BitVec.ofNat 32 x <<< 8 ||| BitVec.ofNat 32 y) = BitVec.ofNat 32 (256 * x + y) := by
  apply BitVec.eq_of_toNat_eq
  have hshift : x <<< 8 = 256 * x := by rw [Nat.shiftLeft_eq, Nat.mul_comm]
  have hor := Nat.shiftLeft_add_eq_or_of_lt (show y < 2 ^ 8 from hy) x
  rw [hshift] at hor
  simp only [BitVec.toNat_or, BitVec.toNat_shiftLeft, BitVec.toNat_ofNat]
  rw [Nat.mod_eq_of_lt (show x < 2 ^ 32 by omega), Nat.mod_eq_of_lt (show y < 2 ^ 32 by omega),
    hshift, Nat.mod_eq_of_lt (show 256 * x < 2 ^ 32 by omega),
    Nat.mod_eq_of_lt (show 256 * x + y < 2 ^ 32 by omega), hor]

/-- An entry that is no digit makes the sum negative, in each of the four places. -/
theorem msb_of_no_digit {a b c d : BitVec 32}
    (h : a = BitVec.allOnes 32 ∨ b = BitVec.allOnes 32 ∨ c = BitVec.allOnes 32 ∨
      d = BitVec.allOnes 32) :
    ((a ||| b) <<< 8 ||| c ||| d).msb = true := by
  have hones : (BitVec.allOnes 32).msb = true := by decide
  have hshift : (BitVec.allOnes 32 <<< 8).msb = true := by decide
  rw [BitVec.msb_or, BitVec.msb_or]
  rcases h with rfl | rfl | rfl | rfl
  · rw [BitVec.allOnes_or, hshift, Bool.true_or, Bool.true_or]
  · rw [BitVec.or_allOnes, hshift, Bool.true_or, Bool.true_or]
  · rw [hones, Bool.or_true, Bool.true_or]
  · rw [hones, Bool.or_true]

theorem hexTable_of_none {shift : Nat} {ch : UInt8} (h : hexVal ch = none) :
    hexTable shift ch = BitVec.allOnes 32 := by
  rw [hexTable, decodeHexValSlow_eq, h]

theorem hexTable_of_some {shift v : Nat} {ch : UInt8} (h : hexVal ch = some v) :
    hexTable shift ch = BitVec.ofNat 32 (v <<< shift) := by
  rw [hexTable, decodeHexValSlow_eq, h]

theorem decodeFourHexDigits_of_digits {a b c d : UInt8} {va vb vc vd : Nat}
    (ha : hexVal a = some va) (hb : hexVal b = some vb) (hc : hexVal c = some vc)
    (hd : hexVal d = some vd) :
    decodeFourHexDigits a b c d = some (4096 * va + 256 * vb + 16 * vc + vd) := by
  have hva := hexVal_lt ha
  have hvb := hexVal_lt hb
  have hvc := hexVal_lt hc
  have hvd := hexVal_lt hd
  have hsum : (hexTable 4 a ||| hexTable 0 b) <<< 8 ||| hexTable 4 c ||| hexTable 0 d
      = BitVec.ofNat 32 (256 * (16 * va + vb) + (16 * vc + vd)) := by
    rw [hexTable_of_some ha, hexTable_of_some hb, hexTable_of_some hc, hexTable_of_some hd,
      BitVec.or_assoc, hexTable_or va hva vb hvb, hexTable_or vc hvc vd hvd,
      bytes_or (by omega) (by omega)]
  have hmsb : (BitVec.ofNat 32 (256 * (16 * va + vb) + (16 * vc + vd))).msb = false := by
    rw [BitVec.msb_eq_false_iff_two_mul_lt, BitVec.toNat_ofNat]
    omega
  rw [decodeFourHexDigits, hsum, hmsb, if_neg Bool.false_ne_true, BitVec.toNat_ofNat]
  congr 1
  omega

/-- The sign tells whether all four are digits. -/
theorem decodeFourHexDigits_eq_some_iff {a b c d : UInt8} {n : Nat} :
    decodeFourHexDigits a b c d = some n ↔
      ∃ va vb vc vd, hexVal a = some va ∧ hexVal b = some vb ∧ hexVal c = some vc ∧
        hexVal d = some vd ∧ n = 4096 * va + 256 * vb + 16 * vc + vd := by
  constructor
  · intro h
    have hdigit : ¬ (hexVal a = none ∨ hexVal b = none ∨ hexVal c = none ∨ hexVal d = none) := by
      intro hnone
      have hmsb : ((hexTable 4 a ||| hexTable 0 b) <<< 8 ||| hexTable 4 c ||| hexTable 0 d).msb
          = true :=
        msb_of_no_digit (hnone.imp hexTable_of_none
          (Or.imp hexTable_of_none (Or.imp hexTable_of_none hexTable_of_none)))
      rw [decodeFourHexDigits, hmsb, if_pos rfl] at h
      cases h
    simp only [not_or, ← ne_eq, Option.ne_none_iff_exists'] at hdigit
    obtain ⟨⟨va, ha⟩, ⟨vb, hb⟩, ⟨vc, hc⟩, vd, hd⟩ := hdigit
    rw [decodeFourHexDigits_of_digits ha hb hc hd, Option.some_inj] at h
    exact ⟨va, vb, vc, vd, ha, hb, hc, hd, h.symm⟩
  · intro ⟨va, vb, vc, vd, ha, hb, hc, hd, hn⟩
    rw [hn, decodeFourHexDigits_of_digits ha hb hc hd]

theorem decodeHexEscape_eq_some_iff {s t : Bytes} {n : Nat} :
    decodeHexEscape s = some (n, t) ↔ Hex4 s n t := by
  constructor
  · intro h
    unfold decodeHexEscape at h
    split at h
    next a b c d rest =>
      obtain ⟨val, hval, heq⟩ := Option.map_eq_some_iff.mp h
      obtain ⟨va, vb, vc, vd, ha, hb, hc, hd, rfl⟩ := decodeFourHexDigits_eq_some_iff.mp hval
      cases heq
      exact .mk ha hb hc hd
    next => cases h
  · intro h
    cases h with
    | mk ha hb hc hd =>
      rw [decodeHexEscape, decodeFourHexDigits_eq_some_iff.mpr ⟨_, _, _, _, ha, hb, hc, hd, rfl⟩]
      rfl

theorem hex4_lt {s t : Bytes} {n : Nat} (h : Hex4 s n t) : n < 2 ^ 16 := by
  cases h with
  | mk ha hb hc hd =>
    have := hexVal_lt ha
    have := hexVal_lt hb
    have := hexVal_lt hc
    have := hexVal_lt hd
    omega

/-- `push_wtf8_codepoint` is the UTF-8 of a character. -/
theorem pushWtf8Codepoint_eq {n : Nat} (h : n.isValidChar) :
    pushWtf8Codepoint (UInt32.ofNat n) = String.utf8EncodeChar (Char.ofNat n) := by
  have hval : (Char.ofNat n).val = UInt32.ofNat n := by
    have hsmall : n < 2 ^ 32 := by
      rcases h with h | h <;> omega
    apply UInt32.toNat_inj.mp
    rw [Char.ofNat, dif_pos h, UInt32.toNat_ofNat_of_lt' hsmall]
    rfl
  rw [String.utf8EncodeChar_eq_utf8EncodeCharFast, String.utf8EncodeCharFast, hval,
    pushWtf8Codepoint]
  generalize UInt32.ofNat n = v
  have hlt : v < 0x80 ↔ v ≤ 0x7f := by
    rw [UInt32.lt_iff_toNat_lt, UInt32.le_iff_toNat_le]
    change v.toNat < 128 ↔ v.toNat ≤ 127
    omega
  simp only [hlt, UInt32.toUInt8_and]
  rfl

theorem isValidChar_of_not_surrogate {n : Nat} (hlt : n < 2 ^ 16) (hhigh : ¬ IsHighSurrogate n)
    (hlow : ¬ IsLowSurrogate n) : n.isValidChar := by
  unfold IsHighSurrogate at hhigh
  unfold IsLowSurrogate at hlow
  change n < 0xd800 ∨ 0xdfff < n ∧ n < 0x110000
  omega

/-- The code point of a pair of surrogates. -/
theorem surrogates_or {high low : Nat} (hlow : IsLowSurrogate low) :
    ((high - 0xd800) <<< 10 ||| (low - 0xdc00)) + 0x10000
      = 0x10000 + 0x400 * (high - 0xd800) + (low - 0xdc00) := by
  obtain ⟨hge, hle⟩ := hlow
  have hor := Nat.shiftLeft_add_eq_or_of_lt (show low - 0xdc00 < 2 ^ 10 by omega) (high - 0xd800)
  rw [← hor, Nat.shiftLeft_eq, Nat.mul_comm, Nat.add_comm, Nat.add_assoc]

theorem parseTrailingSurrogate_eq_some_iff {high : Nat} (hhigh : IsHighSurrogate high)
    {s u t : Bytes} :
    parseTrailingSurrogate high s = some (u, t) ↔
      ∃ w low, s = 0x5c :: 0x75 :: w ∧ Hex4 w low t ∧ IsLowSurrogate low ∧
        u = String.utf8EncodeChar
          (Char.ofNat (0x10000 + 0x400 * (high - 0xd800) + (low - 0xdc00))) := by
  have hvalid : ∀ low, IsLowSurrogate low →
      (0x10000 + 0x400 * (high - 0xd800) + (low - 0xdc00)).isValidChar := by
    intro low hlow
    obtain ⟨hge, hle⟩ := hhigh
    obtain ⟨hge', hle'⟩ := hlow
    change _ < 0xd800 ∨ 0xdfff < _ ∧ _ < 0x110000
    omega
  constructor
  · intro h
    unfold parseTrailingSurrogate at h
    split at h
    next backslash c w =>
      split at h
      · cases h
      next hescape =>
      obtain ⟨hbackslash, hu⟩ := not_or.mp hescape
      split at h
      · cases h
      next low rest hdigits =>
      split at h
      · cases h
      next hrange =>
      have hlow : IsLowSurrogate low := ⟨by omega, by omega⟩
      dsimp only at h
      rw [surrogates_or hlow, pushWtf8Codepoint_eq (hvalid low hlow), Option.some_inj,
        Prod.mk.injEq] at h
      rw [← h.2]
      exact ⟨w, low, by rw [not_not.mp hbackslash, not_not.mp hu],
        decodeHexEscape_eq_some_iff.mp hdigits, hlow, h.1.symm⟩
    next => cases h
  · intro ⟨w, low, hs, hdigits, hlow, hu⟩
    have hrange : ¬ (low < 0xdc00 ∨ low > 0xdfff) := by
      obtain ⟨hge, hle⟩ := hlow
      omega
    rw [hs, parseTrailingSurrogate, if_neg (by simp), decodeHexEscape_eq_some_iff.mpr hdigits]
    dsimp only
    rw [if_neg hrange, surrogates_or hlow, pushWtf8Codepoint_eq (hvalid low hlow), hu]

theorem parseUnicodeEscape_eq_some_iff {s u t : Bytes} :
    parseUnicodeEscape s = some (u, t) ↔ StringPart (0x5c :: 0x75 :: s) u t := by
  constructor
  · intro h
    unfold parseUnicodeEscape at h
    split at h
    · cases h
    next n rest hdigits =>
    rw [decodeHexEscape_eq_some_iff] at hdigits
    split at h
    · cases h
    next hlow =>
    split at h
    next hrange =>
      have hhigh : ¬ IsHighSurrogate n := fun ⟨hge, hle⟩ => by omega
      cases h
      rw [pushWtf8Codepoint_eq (isValidChar_of_not_surrogate (hex4_lt hdigits) hhigh hlow)]
      exact .unicode hdigits hhigh hlow
    next hrange =>
      have hhigh : IsHighSurrogate n := ⟨by omega, by omega⟩
      obtain ⟨w, low, hrest, hdigits2, hlow2, hu⟩ :=
        (parseTrailingSurrogate_eq_some_iff hhigh).mp h
      rw [hrest] at hdigits
      rw [hu]
      exact .pair hdigits hhigh hdigits2 hlow2
  · intro h
    cases h with
    | plain hplain => exact absurd rfl hplain.2.2
    | short hshort => cases hshort
    | @unicode _ _ n hdigits hhigh hlow =>
      have hrange : n < 0xd800 ∨ n > 0xdbff := by
        by_contra hcontra
        exact hhigh ⟨by omega, by omega⟩
      rw [parseUnicodeEscape, decodeHexEscape_eq_some_iff.mpr hdigits]
      dsimp only
      rw [if_neg (show ¬ (0xdc00 ≤ n ∧ n ≤ 0xdfff) from hlow), if_pos hrange,
        pushWtf8Codepoint_eq (isValidChar_of_not_surrogate (hex4_lt hdigits) hhigh hlow)]
    | @pair _ _ w high low hdigits hhigh hdigits2 hlow2 =>
      obtain ⟨hge, hle⟩ := hhigh
      rw [parseUnicodeEscape, decodeHexEscape_eq_some_iff.mpr hdigits]
      dsimp only
      rw [if_neg (by omega), if_neg (by omega)]
      exact (parseTrailingSurrogate_eq_some_iff ⟨hge, hle⟩).mpr ⟨w, low, rfl, hdigits2, hlow2, rfl⟩

theorem escapedByte_eq (ch : UInt8) : escapedByte ch = shortEscape ch := by
  have hall : ∀ ch : UInt8, escapedByte ch = shortEscape ch := forall_byte (by decide +kernel)
  exact hall ch

theorem parseEscape_eq_some_iff {s u t : Bytes} :
    parseEscape s = some (u, t) ↔ StringPart (0x5c :: s) u t := by
  constructor
  · intro h
    cases s with
    | nil => cases h
    | cons ch rest =>
      rw [parseEscape, escapedByte_eq] at h
      cases hshort : shortEscape ch with
      | some b =>
        rw [hshort] at h
        cases h
        exact .short hshort
      | none =>
        rw [hshort] at h
        dsimp only at h
        split at h
        next hu =>
          rw [hu]
          exact parseUnicodeEscape_eq_some_iff.mp h
        next => cases h
  · intro h
    cases s with
    | nil =>
      cases h with
      | plain hplain => exact absurd rfl hplain.2.2
    | cons ch rest =>
      rw [parseEscape, escapedByte_eq]
      have hletter : shortEscape 0x75 = none := by decide
      cases h with
      | plain hplain => exact absurd rfl hplain.2.2
      | short hshort => rw [hshort]
      | unicode hdigits hhigh hlow =>
        rw [hletter]
        exact parseUnicodeEscape_eq_some_iff.mpr (.unicode hdigits hhigh hlow)
      | pair hdigits hhigh hdigits2 hlow2 =>
        rw [hletter]
        exact parseUnicodeEscape_eq_some_iff.mpr (.pair hdigits hhigh hdigits2 hlow2)

theorem hex4_length {s t : Bytes} {n : Nat} (h : Hex4 s n t) : s.length = t.length + 4 := by
  cases h with
  | mk => rfl

theorem stringPart_length {s u t : Bytes} (h : StringPart s u t) : t.length < s.length := by
  cases h with
  | plain => exact Nat.lt_succ_self _
  | short => simp only [List.length_cons]; omega
  | unicode hdigits =>
    have := hex4_length hdigits
    simp only [List.length_cons]
    omega
  | pair hdigits _ hdigits2 =>
    have := hex4_length hdigits
    have := hex4_length hdigits2
    simp only [List.length_cons] at *
    omega

/-! ### Strings -/

section Loop

variable {step fuel : Nat} {scratch s t u : Bytes} {b : UInt8}

theorem isEscape_of_isPlain (h : IsPlain b) : isEscape b = false := by
  obtain ⟨hge, hquote, hbackslash⟩ := h
  rw [Bool.eq_false_iff, ne_eq, isEscape_iff]
  rw [UInt8.le_iff_toNat_le] at hge
  rw [ne_eq, ← UInt8.toNat_inj] at hquote hbackslash
  have hspace : (0x20 : UInt8).toNat = 0x20 := rfl
  rintro (hlt | heq | heq)
  · omega
  · exact hquote heq
  · exact hbackslash heq

theorem skipToEscape_cons (step : Nat) (b : UInt8) (s : Bytes) :
    skipToEscape step (b :: s) = if isEscape b then b :: s else skipToEscape step s := by
  rw [skipToEscape_eq_slow, skipToEscape_eq_slow, skipToEscapeSlow]

theorem skipToEscape_length_le (step : Nat) (s : Bytes) :
    (skipToEscape step s).length ≤ s.length := by
  rw [skipToEscape_eq_slow]
  induction s with
  | nil => exact le_rfl
  | cons b s ih =>
    rw [skipToEscapeSlow]
    split
    next => exact le_rfl
    next => exact ih.trans (Nat.le_succ _)

theorem parseStrBytes_nil : parseStrBytes step fuel scratch [] = none := by
  cases fuel <;> rfl

theorem parseStrBytes_quote :
    parseStrBytes step (fuel + 1) scratch (0x22 :: s) = some (scratch, s) := by
  rw [parseStrBytes, skipToEscape_cons, if_pos (by decide)]
  simp

theorem parseStrBytes_backslash :
    parseStrBytes step (fuel + 1) scratch (0x5c :: s)
      = (parseEscape s).bind fun p => parseStrBytes step fuel (scratch ++ p.1) p.2 := by
  rw [parseStrBytes, skipToEscape_cons, if_pos (by decide), Nat.sub_self, List.take_zero,
    List.append_nil]
  dsimp only
  rw [if_neg (by decide), if_pos rfl]
  cases parseEscape s <;> rfl

theorem parseStrBytes_control (hb : b < 0x20) :
    parseStrBytes step (fuel + 1) scratch (b :: s) = none := by
  have hescape : isEscape b = true :=
    (isEscape_iff b).mpr (.inl (UInt8.lt_iff_toNat_lt.mp hb))
  have hquote : b ≠ 0x22 := by
    rintro rfl
    exact absurd hb (by decide)
  have hbackslash : b ≠ 0x5c := by
    rintro rfl
    exact absurd hb (by decide)
  rw [parseStrBytes, skipToEscape_cons, if_pos hescape]
  dsimp only
  rw [if_neg hquote, if_neg hbackslash]

/-- A byte that stands for itself goes to the scratch space. -/
theorem parseStrBytes_plain (hb : IsPlain b) :
    parseStrBytes step (fuel + 1) scratch (b :: s)
      = parseStrBytes step (fuel + 1) (scratch ++ [b]) s := by
  have hle := skipToEscape_length_le step s
  have hskip : skipToEscape step (b :: s) = skipToEscape step s := by
    rw [skipToEscape_cons, if_neg (by rw [isEscape_of_isPlain hb]; exact Bool.false_ne_true)]
  have htake : scratch ++ (b :: s).take ((b :: s).length - (skipToEscape step s).length)
      = scratch ++ [b] ++ s.take (s.length - (skipToEscape step s).length) := by
    rw [List.length_cons, Nat.succ_sub hle, List.take_succ_cons, List.append_assoc]
    rfl
  rw [parseStrBytes, parseStrBytes, hskip, htake]

/-- The four kinds of bytes in a string. -/
theorem byte_cases (b : UInt8) : b = 0x22 ∨ b = 0x5c ∨ b < 0x20 ∨ IsPlain b := by
  by_cases hquote : b = 0x22
  · exact .inl hquote
  by_cases hbackslash : b = 0x5c
  · exact .inr (.inl hbackslash)
  by_cases hlt : b < 0x20
  · exact .inr (.inr (.inl hlt))
  · exact .inr (.inr (.inr ⟨UInt8.not_lt.mp hlt, hquote, hbackslash⟩))

theorem not_stringBody_nil : ¬ StringBody [] u t := by
  intro h
  cases h with
  | part hpart _ => cases hpart

/-- A body of a string begins with the end of the string or with a part. -/
theorem stringBody_cons_iff {out : Bytes} :
    StringBody (b :: s) out t ↔
      (b = 0x22 ∧ out = [] ∧ t = s) ∨
        ∃ u w v, StringPart (b :: s) u w ∧ StringBody w v t ∧ out = u ++ v := by
  constructor
  · intro h
    cases h with
    | close => exact .inl ⟨rfl, rfl, rfl⟩
    | part hpart hbody => exact .inr ⟨_, _, _, hpart, hbody, rfl⟩
  · rintro (⟨rfl, rfl, rfl⟩ | ⟨u, w, v, hpart, hbody, rfl⟩)
    · exact .close _
    · exact .part hpart hbody

theorem stringPart_plain_iff (hb : IsPlain b) {w : Bytes} :
    StringPart (b :: s) u w ↔ u = [b] ∧ w = s := by
  constructor
  · intro h
    cases h with
    | plain => exact ⟨rfl, rfl⟩
    | short => exact absurd rfl hb.2.2
    | unicode => exact absurd rfl hb.2.2
    | pair => exact absurd rfl hb.2.2
  · rintro ⟨rfl, rfl⟩
    exact .plain hb

theorem not_stringPart_of_not_plain (hb : ¬ IsPlain b) (hbackslash : b ≠ 0x5c) {w : Bytes} :
    ¬ StringPart (b :: s) u w := by
  intro h
  cases h with
  | plain hplain => exact hb hplain
  | short => exact hbackslash rfl
  | unicode => exact hbackslash rfl
  | pair => exact hbackslash rfl

/-- The loop reads a body of a string, and puts what it denotes behind the scratch space. -/
theorem parseStrBytes_eq_some_iff {text : Bytes} (hfuel : s.length < fuel) :
    parseStrBytes step fuel scratch s = some (text, t) ↔
      ∃ out, text = scratch ++ out ∧ StringBody s out t := by
  induction hn : s.length using Nat.strong_induction_on generalizing s fuel scratch with
  | _ n ih =>
  cases fuel with
  | zero => cases hfuel
  | succ fuel =>
  cases s with
  | nil => simp [parseStrBytes_nil, not_stringBody_nil]
  | cons b s =>
  rw [List.length_cons] at hfuel hn
  simp only [stringBody_cons_iff]
  rcases byte_cases b with rfl | rfl | hcontrol | hplain
  · have hpart : ∀ u w, ¬ StringPart (0x22 :: s) u w := fun u w =>
      not_stringPart_of_not_plain (fun h => h.2.1 rfl) (by decide)
    rw [parseStrBytes_quote]
    simp [hpart, eq_comm]
  · rw [parseStrBytes_backslash, Option.bind_eq_some_iff]
    simp only [show ¬ ((0x5c : UInt8) = 0x22) by decide, false_and, false_or]
    constructor
    · intro ⟨p, hp, h⟩
      have hpart := parseEscape_eq_some_iff.mp hp
      have hlt := stringPart_length hpart
      rw [List.length_cons] at hlt
      obtain ⟨out, hout, hbody⟩ := (ih p.2.length (by omega) (by omega) rfl).mp h
      exact ⟨p.1 ++ out, by rw [hout, List.append_assoc], p.1, p.2, out, hpart, hbody, rfl⟩
    · rintro ⟨_, hout, u, w, v, hpart, hbody, rfl⟩
      have hlt := stringPart_length hpart
      rw [List.length_cons] at hlt
      refine ⟨(u, w), parseEscape_eq_some_iff.mpr hpart, ?_⟩
      exact (ih w.length (by omega) (by omega) rfl).mpr
        ⟨v, by rw [hout, List.append_assoc], hbody⟩
  · have hquote : b ≠ 0x22 := by
      rintro rfl
      exact absurd hcontrol (by decide)
    have hpart : ∀ u w, ¬ StringPart (b :: s) u w := fun u w => by
      refine not_stringPart_of_not_plain (fun h => ?_) ?_
      · exact absurd hcontrol (UInt8.not_lt.mpr h.1)
      · rintro rfl
        exact absurd hcontrol (by decide)
    rw [parseStrBytes_control hcontrol]
    simp [hpart, hquote]
  · rw [parseStrBytes_plain hplain, ih s.length (by omega) (by omega) rfl]
    simp only [stringPart_plain_iff hplain, hplain.2.1, false_and, false_or]
    constructor
    · intro ⟨out, hout, hbody⟩
      exact ⟨b :: out, by rw [hout]; simp, [b], s, out, ⟨rfl, rfl⟩, hbody, rfl⟩
    · rintro ⟨_, hout, _, _, out, ⟨rfl, rfl⟩, hbody, rfl⟩
      exact ⟨out, by rw [hout]; simp, hbody⟩

end Loop

/-- `parse_str` reads the strings of the grammar. -/
theorem parseStr_eq_some_iff {step : Nat} {s text t : Bytes} :
    parseStr step s = some (text, t) ↔ StringBody s text t ∧ IsUtf8 text := by
  unfold parseStr IsUtf8
  constructor
  · intro h
    split at h
    · cases h
    next text' rest hloop =>
    split at h
    next hvalid =>
      cases h
      obtain ⟨out, rfl, hbody⟩ := (parseStrBytes_eq_some_iff (Nat.lt_succ_self _)).mp hloop
      exact ⟨hbody, ByteArray.validateUTF8_eq_true_iff.mp hvalid⟩
    next => cases h
  · intro ⟨hbody, hvalid⟩
    have hloop : parseStrBytes step (s.length + 1) [] s = some (text, t) :=
      (parseStrBytes_eq_some_iff (Nat.lt_succ_self _)).mpr ⟨text, rfl, hbody⟩
    rw [hloop]
    exact if_pos (ByteArray.validateUTF8_eq_true_iff.mpr hvalid)

/-! ### Skipped strings -/

section Skip

variable {step fuel : Nat} {s t : Bytes} {b : UInt8}

theorem ignoreEscape_eq_some_iff :
    ignoreEscape s = some t ↔
      (∃ c v, shortEscape c = some v ∧ s = c :: t) ∨ ∃ n u, s = 0x75 :: u ∧ Hex4 u n t := by
  cases s with
  | nil => simp [ignoreEscape]
  | cons ch rest =>
    have hshort : (ch = 0x22 ∨ ch = 0x5c ∨ ch = 0x2f ∨ ch = 0x62 ∨ ch = 0x66 ∨ ch = 0x6e ∨
        ch = 0x72 ∨ ch = 0x74) ↔ (shortEscape ch).isSome := by
      have hall : ∀ ch : UInt8, (ch = 0x22 ∨ ch = 0x5c ∨ ch = 0x2f ∨ ch = 0x62 ∨ ch = 0x66 ∨
          ch = 0x6e ∨ ch = 0x72 ∨ ch = 0x74) ↔ (shortEscape ch).isSome :=
        forall_byte (by decide +kernel)
      exact hall ch
    have hletter : shortEscape 0x75 = none := by decide
    rw [ignoreEscape]
    cases hch : shortEscape ch with
    | some v =>
      rw [if_pos (hshort.mpr (by rw [hch]; rfl))]
      constructor
      · intro h
        cases h
        exact .inl ⟨ch, v, hch, rfl⟩
      · rintro (⟨_, _, _, h⟩ | ⟨_, _, h, _⟩)
        · rw [(List.cons.inj h).2]
        · rw [(List.cons.inj h).1, hletter] at hch
          cases hch
    | none =>
      rw [if_neg (fun h => by rw [hshort, hch] at h; cases h)]
      constructor
      · intro h
        split at h
        next hu =>
          obtain ⟨⟨n, rest'⟩, hdigits, rfl⟩ := Option.map_eq_some_iff.mp h
          exact .inr ⟨n, rest, by rw [hu], decodeHexEscape_eq_some_iff.mp hdigits⟩
        next => cases h
      · rintro (⟨_, _, hsome, h⟩ | ⟨n, u, h, hdigits⟩)
        · rw [← (List.cons.inj h).1, hch] at hsome
          cases hsome
        · rw [if_pos (List.cons.inj h).1, (List.cons.inj h).2,
            decodeHexEscape_eq_some_iff.mpr hdigits]
          rfl

theorem ignoreEscape_length (h : ignoreEscape s = some t) : t.length < s.length := by
  rcases ignoreEscape_eq_some_iff.mp h with ⟨_, _, _, rfl⟩ | ⟨_, u, rfl, hdigits⟩
  · exact Nat.lt_succ_self _
  · have := hex4_length hdigits
    rw [List.length_cons]
    omega

/-- `skip_to_escape` leaves one step of the loop to do. -/
theorem ignoreStrLoop_succ (b : UInt8) (s : Bytes) :
    ignoreStrLoop step (fuel + 1) (b :: s)
      = if b = 0x22 then some s
        else if b = 0x5c then (ignoreEscape s).bind (ignoreStrLoop step fuel)
        else if b < 0x20 then none
        else ignoreStrLoop step (fuel + 1) s := by
  rcases byte_cases b with rfl | rfl | hcontrol | hplain
  · rw [ignoreStrLoop, skipToEscape_cons, if_pos (by decide)]
    rfl
  · rw [ignoreStrLoop, skipToEscape_cons, if_pos (by decide)]
    dsimp only
    rw [if_neg (by decide), if_pos rfl, if_neg (by decide), if_pos rfl]
    cases ignoreEscape s <;> rfl
  · have hquote : b ≠ 0x22 := by
      rintro rfl
      exact absurd hcontrol (by decide)
    have hbackslash : b ≠ 0x5c := by
      rintro rfl
      exact absurd hcontrol (by decide)
    rw [ignoreStrLoop, skipToEscape_cons,
      if_pos ((isEscape_iff b).mpr (.inl (UInt8.lt_iff_toNat_lt.mp hcontrol)))]
    dsimp only
    rw [if_neg hquote, if_neg hbackslash, if_neg hquote, if_neg hbackslash, if_pos hcontrol]
  · rw [if_neg hplain.2.1, if_neg hplain.2.2, if_neg (UInt8.not_lt.mpr hplain.1), ignoreStrLoop,
      skipToEscape_cons, if_neg (by rw [isEscape_of_isPlain hplain]; exact Bool.false_ne_true),
      ignoreStrLoop]

theorem skippedBody_cons_iff :
    SkippedBody (b :: s) t ↔
      (b = 0x22 ∧ s = t) ∨ (IsPlain b ∧ SkippedBody s t) ∨
        (b = 0x5c ∧ ∃ w, ignoreEscape s = some w ∧ SkippedBody w t) := by
  constructor
  · intro h
    cases h with
    | close => exact .inl ⟨rfl, rfl⟩
    | plain hplain hbody => exact .inr (.inl ⟨hplain, hbody⟩)
    | short hshort hbody =>
      exact .inr (.inr ⟨rfl, _, ignoreEscape_eq_some_iff.mpr (.inl ⟨_, _, hshort, rfl⟩), hbody⟩)
    | unicode hdigits hbody =>
      exact .inr (.inr ⟨rfl, _, ignoreEscape_eq_some_iff.mpr (.inr ⟨_, _, rfl, hdigits⟩), hbody⟩)
  · rintro (⟨rfl, rfl⟩ | ⟨hplain, hbody⟩ | ⟨rfl, w, hescape, hbody⟩)
    · exact .close _
    · exact .plain hplain hbody
    · rcases ignoreEscape_eq_some_iff.mp hescape with ⟨c, v, hshort, rfl⟩ | ⟨n, u, rfl, hdigits⟩
      · exact .short hshort hbody
      · exact .unicode hdigits hbody

theorem ignoreStrLoop_eq_some_iff (hfuel : s.length < fuel) :
    ignoreStrLoop step fuel s = some t ↔ SkippedBody s t := by
  induction hn : s.length using Nat.strong_induction_on generalizing s fuel with
  | _ n ih =>
  cases fuel with
  | zero => cases hfuel
  | succ fuel =>
  cases s with
  | nil =>
    refine iff_of_false (fun h => by cases h) (fun h => by cases h)
  | cons b s =>
  rw [List.length_cons] at hfuel hn
  rw [ignoreStrLoop_succ, skippedBody_cons_iff]
  rcases byte_cases b with rfl | rfl | hcontrol | hplain
  · simp [IsPlain]
  · rw [if_neg (by decide), if_pos rfl, Option.bind_eq_some_iff]
    simp only [show ¬ ((0x5c : UInt8) = 0x22) by decide, false_and, false_or, IsPlain, ne_eq,
      not_true, and_false, true_and]
    refine exists_congr fun w => and_congr_right fun hescape => ?_
    have hlt := ignoreEscape_length hescape
    exact ih w.length (by omega) (by omega) rfl
  · have hquote : b ≠ 0x22 := by
      rintro rfl
      exact absurd hcontrol (by decide)
    have hbackslash : b ≠ 0x5c := by
      rintro rfl
      exact absurd hcontrol (by decide)
    have hplain : ¬ IsPlain b := fun h => absurd hcontrol (UInt8.not_lt.mpr h.1)
    rw [if_neg hquote, if_neg hbackslash, if_pos hcontrol]
    simp [hquote, hbackslash, hplain]
  · rw [if_neg hplain.2.1, if_neg hplain.2.2, if_neg (UInt8.not_lt.mpr hplain.1),
      ih s.length (by omega) (by omega) rfl]
    simp [hplain, hplain.2.1, hplain.2.2]

theorem ignoreStr_eq_some_iff : ignoreStr step s = some t ↔ SkippedBody s t :=
  ignoreStrLoop_eq_some_iff (Nat.lt_succ_self _)

theorem skippedBody_of_stringBody {text : Bytes} (h : StringBody s text t) : SkippedBody s t := by
  induction h with
  | close => exact .close _
  | part hpart _ ih =>
    cases hpart with
    | plain hplain => exact .plain hplain ih
    | short hshort => exact .short hshort ih
    | unicode hdigits => exact .unicode hdigits ih
    | pair hhigh _ hlow => exact .unicode hhigh (.unicode hlow ih)

end Skip

/-- **Strings.** `parse_str` reads exactly the strings that denote text in UTF-8, with
    surrogates in pairs, and returns that text. `ignore_str` skips exactly the strings of
    the grammar, and ends where `parse_str` does. -/
theorem strings_read_exactly (step : Nat) (s : Bytes) :
    (∀ text t, parseStr step s = some (text, t) ↔ StringBody s text t ∧ IsUtf8 text) ∧
      (∀ t, ignoreStr step s = some t ↔ SkippedBody s t) ∧
      ∀ text t, parseStr step s = some (text, t) → ignoreStr step s = some t := by
  refine ⟨fun _ _ => parseStr_eq_some_iff, fun _ => ignoreStr_eq_some_iff, ?_⟩
  intro text t h
  exact ignoreStr_eq_some_iff.mpr (skippedBody_of_stringBody (parseStr_eq_some_iff.mp h).1)

end SerdeJson

end PhiCrypto

import PhiCrypto.Radix
import PhiCrypto.EnglishWords
import PhiCrypto.TracedExec
import PhiCrypto.Sha256
import Mathlib.Data.List.GetD
import Mathlib.Data.List.Nodup

/-!
# Mnemonic phrases

`bip32::mnemonic`: 32 bytes of entropy and a checksum byte are 24 groups of 11 bits, each of
which names a word. `BitIter` cuts the bytes into groups and `BitWriter` puts groups
together again; both are regroupings in the sense of `Radix`. A phrase is accepted exactly
when it is the phrase of some entropy (`Phrase.new_eq_ok_iff`).
-/

namespace PhiCrypto

open Radix

/-- `bip32::Error`, as far as phrases and derivation return it. -/
inductive Bip32Error where
  | bip39
  | childNumber
  | crypto
  | decode
  | depth
  | seedLength
deriving DecidableEq, Repr

/-! ### `BitWriter` -/

/-- `BitWriter`: `remainder` is a `u32` with `offset` bits at its top. -/
structure BitWriter where
  offset : Nat
  remainder : Nat
  inner : Bytes
deriving DecidableEq, Repr

namespace BitWriter

/-- `with_capacity`, which only reserves memory. -/
def withCapacity : BitWriter := ⟨0, 0, []⟩

/-- The loop of `push`: complete bytes leave the remainder. -/
def flush : Nat → BitWriter → BitWriter
  | 0, w => w
  | fuel + 1, w =>
    if w.offset ≥ 8 then
      flush fuel
        { inner := w.inner ++ [UInt8.ofNat (w.remainder >>> 24)],
          remainder := (w.remainder <<< 8) % 2 ^ 32,
          offset := w.offset - 8 }
    else w

/-- `push`, for a source of `size` bits. -/
def push (size : Nat) (w : BitWriter) (bits : Nat) : BitWriter :=
  let shift := 32 - size
  let remainder := w.remainder ||| ((bits <<< shift) % 2 ^ 32) >>> w.offset
  flush (w.offset + size) { w with remainder, offset := w.offset + size }

def intoBytes (w : BitWriter) : Bytes :=
  if w.offset ≠ 0 then w.inner ++ [UInt8.ofNat (w.remainder >>> 24)] else w.inner

/-! What a writer has been given. -/

variable {w : BitWriter} {size : Nat} {ds : List Nat}

/-- The bytes and the remainder together are the groups `ds`. -/
def Holds (size : Nat) (w : BitWriter) (ds : List Nat) : Prop :=
  ∃ v, Regroups size 8 ds (w.inner.map UInt8.toNat) w.offset v ∧
    Aligned 32 w.offset v w.remainder

theorem holds_withCapacity (size : Nat) : withCapacity.Holds size [] :=
  ⟨0, Regroups.start size 8, Aligned.start 32⟩

/-- One round of the loop. -/
theorem Holds.byte (h : w.Holds size ds) (hoffset : 8 ≤ w.offset) :
    Holds size
      { inner := w.inner ++ [UInt8.ofNat (w.remainder >>> 24)],
        remainder := (w.remainder <<< 8) % 2 ^ 32,
        offset := w.offset - 8 } ds := by
  obtain ⟨v, hgroups, haligned⟩ := h
  obtain ⟨hbyte, haligned⟩ := haligned.giveOut hoffset
  have hgroups := hgroups.giveOut hoffset
  have hlt : w.remainder >>> 24 < 2 ^ 8 := by
    rw [hbyte]
    exact hgroups.bounded _ (List.mem_append_right _ (List.mem_singleton.mpr rfl))
  have htoNat : (UInt8.ofNat (w.remainder >>> 24)).toNat = v / 2 ^ (w.offset - 8) := by
    rw [UInt8.toNat_ofNat_of_lt' hlt, hbyte]
  refine ⟨_, ?_, haligned⟩
  rw [List.map_append, List.map_singleton, htoNat]
  exact hgroups

theorem Holds.flush {fuel : Nat} (h : w.Holds size ds) (hfuel : w.offset ≤ fuel) :
    (flush fuel w).Holds size ds ∧ (BitWriter.flush fuel w).offset < 8 := by
  induction fuel generalizing w with
  | zero => exact ⟨h, by simp only [BitWriter.flush]; omega⟩
  | succ fuel ih =>
    rw [BitWriter.flush]
    split
    · next hoffset => exact ih (h.byte hoffset) (by simp only; omega)
    · next hoffset => exact ⟨h, by omega⟩

theorem Holds.push {bits : Nat} (h : w.Holds size ds) (hoffset : w.offset < 8)
    (hsize : size ≤ 24) (hbits : bits < 2 ^ size) :
    (push size w bits).Holds size (ds ++ [bits]) ∧ (BitWriter.push size w bits).offset < 8 := by
  obtain ⟨v, hgroups, haligned⟩ := h
  have hshift : ((bits <<< (32 - size)) % 2 ^ 32) >>> w.offset
      = bits * 2 ^ (32 - (w.offset + size)) := by
    have hlt : bits * 2 ^ (32 - size) < 2 ^ 32 := by
      calc bits * 2 ^ (32 - size) < 2 ^ size * 2 ^ (32 - size) :=
            Nat.mul_lt_mul_of_pos_right hbits (Nat.two_pow_pos _)
        _ = 2 ^ 32 := by rw [← pow_add, Nat.add_sub_cancel' (by omega)]
    have hsplit : 32 - size = 32 - (w.offset + size) + w.offset := by omega
    rw [Nat.shiftLeft_eq, Nat.mod_eq_of_lt hlt, Nat.shiftRight_eq_div_pow, hsplit, pow_add,
      ← Nat.mul_assoc, Nat.mul_div_cancel _ (Nat.two_pow_pos _)]
  have hread := haligned.read hbits (show w.offset + size ≤ 32 by omega)
  rw [BitWriter.push, hshift]
  exact Holds.flush ⟨_, hgroups.read hbits, hread⟩ le_rfl

/-- Pushing a list of groups. -/
theorem Holds.foldl_push {groups : List Nat} (h : w.Holds size ds) (hoffset : w.offset < 8)
    (hsize : size ≤ 24) (hgroups : Bounded size groups) :
    (groups.foldl (BitWriter.push size) w).Holds size (ds ++ groups) ∧
      (groups.foldl (BitWriter.push size) w).offset < 8 := by
  induction groups generalizing w ds with
  | nil => exact ⟨by simpa using h, hoffset⟩
  | cons d groups ih =>
    obtain ⟨hd, hrest⟩ := List.forall_mem_cons.mp hgroups
    obtain ⟨hpush, hoffset⟩ := h.push hoffset hsize hd
    have hall := ih hpush hoffset hrest
    rwa [List.append_assoc] at hall

/-- A writer that was given whole bytes. -/
theorem Holds.intoBytes (h : w.Holds size ds) (hoffset : w.offset = 0) :
    Regroups size 8 ds (w.intoBytes.map UInt8.toNat) 0 0 := by
  obtain ⟨v, hgroups, haligned⟩ := h
  rw [hoffset] at hgroups haligned
  rw [BitWriter.intoBytes, if_neg (not_not.mpr hoffset)]
  obtain ⟨rfl, -⟩ := haligned.eq_zero
  exact hgroups

theorem intoBytes_length (w : BitWriter) :
    w.intoBytes.length = w.inner.length + if w.offset = 0 then 0 else 1 := by
  rw [intoBytes]
  by_cases hoffset : w.offset = 0
  · rw [if_neg (not_not.mpr hoffset), if_pos hoffset, Nat.add_zero]
  · rw [if_pos hoffset, if_neg hoffset, List.length_append, List.length_singleton]

theorem Holds.length_eq (h : w.Holds size ds) :
    8 * w.inner.length + w.offset = size * ds.length := by
  obtain ⟨v, hgroups, -⟩ := h
  simpa using hgroups.length_eq

end BitWriter

/-! ### `BitIter` -/

/-- `BitIter`: the groups that are left and a `u64` with `read` bits at its top. -/
structure BitIter where
  source : List Nat
  read : Nat
  buffer : Nat
deriving DecidableEq, Repr

namespace BitIter

def new (source : List Nat) : BitIter := ⟨source, 0, 0⟩

/-- The loop of `next`, from groups of `inSize` to groups of `outSize` bits. -/
def fill (inSize outSize : Nat) : List Nat → Nat → Nat → Option BitIter
  | [], read, buffer => if read < outSize then none else some ⟨[], read, buffer⟩
  | bits :: source, read, buffer =>
    if read < outSize then
      fill inSize outSize source (read + inSize)
        (buffer ||| (bits <<< (64 - (read + inSize))) % 2 ^ 64)
    else some ⟨bits :: source, read, buffer⟩

def next (inSize outSize : Nat) (it : BitIter) : Option (Nat × BitIter) :=
  (fill inSize outSize it.source it.read it.buffer).map fun it =>
    ((it.buffer >>> (64 - outSize)) % 2 ^ 16,
      { it with buffer := (it.buffer <<< outSize) % 2 ^ 64, read := it.read - outSize })

/-- The first items, until there are no more. -/
def items (inSize outSize : Nat) : Nat → BitIter → List Nat
  | 0, _ => []
  | fuel + 1, it =>
    match it.next inSize outSize with
    | none => []
    | some (item, it) => item :: items inSize outSize fuel it

end BitIter

/-- `bits`, read to the end: every item takes at least one bit. -/
def bits (inSize outSize : Nat) (source : List Nat) : List Nat :=
  BitIter.items inSize outSize (inSize * source.length) (BitIter.new source)

namespace BitIter

variable {inSize outSize : Nat} {it : BitIter} {ds out : List Nat}

/-- Of the groups `ds`, those before `source` were read and gave the items `out` and the
    bits of the buffer. -/
def Holds (inSize outSize : Nat) (it : BitIter) (ds out : List Nat) : Prop :=
  ∃ done v, ds = done ++ it.source ∧ Regroups inSize outSize done out it.read v ∧
    Aligned 64 it.read v it.buffer

theorem holds_new (inSize outSize : Nat) (ds : List Nat) :
    (new ds).Holds inSize outSize ds [] :=
  ⟨[], 0, rfl, Regroups.start inSize outSize, Aligned.start 64⟩

/-- The loop reads groups until an item is there, or there are no more. -/
theorem Holds.fill (h : it.Holds inSize outSize ds out) (hds : Bounded inSize ds)
    (hfit : outSize + inSize ≤ 64) :
    (∃ it', BitIter.fill inSize outSize it.source it.read it.buffer = some it' ∧
        it'.Holds inSize outSize ds out ∧ outSize ≤ it'.read) ∨
      (BitIter.fill inSize outSize it.source it.read it.buffer = none ∧
        ∃ k v, k < outSize ∧ Regroups inSize outSize ds out k v) := by
  obtain ⟨source, read, buffer⟩ := it
  induction source generalizing read buffer with
  | nil =>
    obtain ⟨done, v, hds', hgroups, haligned⟩ := h
    rw [BitIter.fill]
    split
    · next hread =>
      refine .inr ⟨rfl, read, v, hread, ?_⟩
      rw [hds', List.append_nil]
      exact hgroups
    · next hread =>
      exact .inl ⟨_, rfl, ⟨done, v, hds', hgroups, haligned⟩, not_lt.mp hread⟩
  | cons d source ih =>
    rw [BitIter.fill]
    split
    · next hread =>
      obtain ⟨done, v, hds', hgroups, haligned⟩ := h
      have hd : d < 2 ^ inSize := hds d (by rw [hds']; simp)
      have hshift : (d <<< (64 - (read + inSize))) % 2 ^ 64 = d * 2 ^ (64 - (read + inSize)) := by
        rw [Nat.shiftLeft_eq]
        apply Nat.mod_eq_of_lt
        calc d * 2 ^ (64 - (read + inSize)) < 2 ^ inSize * 2 ^ (64 - (read + inSize)) :=
              Nat.mul_lt_mul_of_pos_right hd (Nat.two_pow_pos _)
          _ = 2 ^ (inSize + (64 - (read + inSize))) := (pow_add 2 _ _).symm
          _ ≤ 2 ^ 64 := Nat.pow_le_pow_right (by omega) (by omega)
      apply ih
      refine ⟨done ++ [d], _, by simpa using hds', hgroups.read hd, ?_⟩
      simp only [hshift]
      exact haligned.read hd (by omega)
    · next hread => exact .inl ⟨_, rfl, h, not_lt.mp hread⟩

/-- An item leaves the buffer. -/
theorem Holds.item (h : it.Holds inSize outSize ds out) (hread : outSize ≤ it.read)
    (hsize : outSize ≤ 16) :
    Holds inSize outSize
      { it with buffer := (it.buffer <<< outSize) % 2 ^ 64, read := it.read - outSize } ds
      (out ++ [(it.buffer >>> (64 - outSize)) % 2 ^ 16]) := by
  obtain ⟨done, v, hds, hgroups, haligned⟩ := h
  obtain ⟨hitem, haligned⟩ := haligned.giveOut hread
  have hgroups := hgroups.giveOut hread
  have hlt : v / 2 ^ (it.read - outSize) < 2 ^ 16 := by
    refine lt_of_lt_of_le ?_ (Nat.pow_le_pow_right (by omega) hsize)
    exact hgroups.bounded _ (List.mem_append_right _ (List.mem_singleton.mpr rfl))
  rw [hitem, Nat.mod_eq_of_lt hlt]
  exact ⟨done, _, hds, hgroups, haligned⟩

/-- Reading to the end regroups everything; less than one item is left. -/
theorem Holds.items {fuel : Nat} (h : it.Holds inSize outSize ds out) (hds : Bounded inSize ds)
    (hin : 0 < inSize) (hout : 0 < outSize) (hsize : outSize ≤ 16) (hfit : outSize + inSize ≤ 64)
    (hfuel : inSize * ds.length ≤ fuel + outSize * out.length) :
    ∃ k v, k < outSize ∧
      Regroups inSize outSize ds (out ++ BitIter.items inSize outSize fuel it) k v := by
  induction fuel generalizing it out with
  | zero =>
    -- Without fuel every bit has been given out already.
    obtain ⟨done, v, rfl, hgroups, -⟩ := h
    have hlength := hgroups.length_eq
    rw [List.length_append, Nat.mul_add] at hfuel
    have hnil : it.source = [] := by
      have hzero : inSize * it.source.length = 0 := by omega
      exact List.length_eq_zero_iff.mp ((Nat.mul_eq_zero.mp hzero).resolve_left (by omega))
    refine ⟨it.read, v, by omega, ?_⟩
    rw [hnil, List.append_nil, BitIter.items, List.append_nil]
    exact hgroups
  | succ fuel ih =>
    rw [BitIter.items, next]
    rcases h.fill hds hfit with ⟨it', hfill, hit', hread⟩ | ⟨hfill, k, v, hk, hgroups⟩
    · have hrest := ih (hit'.item hread hsize) (by
        rw [List.length_append, List.length_singleton, Nat.mul_add]
        omega)
      simp only [hfill, Option.map_some]
      rwa [List.append_assoc, List.singleton_append] at hrest
    · simp only [hfill, Option.map_none, List.append_nil]
      exact ⟨k, v, hk, hgroups⟩

end BitIter

/-- `bits` regroups a source of whole items. -/
theorem regroups_bits {inSize outSize : Nat} {ds : List Nat} (hds : Bounded inSize ds)
    (hin : 0 < inSize) (hout : 0 < outSize) (hsize : outSize ≤ 16) (hfit : outSize + inSize ≤ 64)
    (hwhole : outSize ∣ inSize * ds.length) :
    Regroups inSize outSize ds (bits inSize outSize ds) 0 0 := by
  have hfuel : inSize * ds.length ≤ inSize * ds.length + outSize * ([] : List Nat).length := by
    simp
  obtain ⟨k, v, hk, hgroups⟩ :=
    (BitIter.holds_new inSize outSize ds).items hds hin hout hsize hfit hfuel
  rw [List.nil_append] at hgroups
  have hzero : k = 0 := by
    have hdvd : outSize ∣ k := (Nat.dvd_add_right (Nat.dvd_mul_right _ _)).mp
      (hgroups.length_eq ▸ hwhole)
    exact Nat.eq_zero_of_dvd_of_lt hdvd hk
  subst hzero
  obtain rfl : v = 0 := by simpa using hgroups.pending_lt
  exact hgroups

/-! ### Words -/

/-- `WordMap::get_bits`: the words are distinct, so each one has one index. -/
def getBits (word : Str) : Option Nat := englishWords.idxOf? word

/-- `WordList::get_word`, for groups of 11 bits. -/
def getWord (bits : Nat) : Str := englishWords.getD bits []

theorem lt_englishWords_length {i : Nat} : i < englishWords.length ↔ i < 2 ^ 11 := by
  rw [englishWords_length]
  norm_num

theorem getWord_eq {i : Nat} (hi : i < englishWords.length) : getWord i = englishWords[i] :=
  List.getD_eq_getElem _ _ hi

theorem getBits_eq_some_iff {word : Str} {i : Nat} :
    getBits word = some i ↔ i < 2 ^ 11 ∧ getWord i = word := by
  rw [getBits, List.idxOf?_eq_some_iff]
  constructor
  · intro ⟨hi, hword, _⟩
    exact ⟨lt_englishWords_length.mp hi, (getWord_eq hi).trans hword⟩
  · intro ⟨hi, hword⟩
    have hlt := lt_englishWords_length.mpr hi
    rw [getWord_eq hlt] at hword
    refine ⟨hlt, hword, fun j hj heq => ?_⟩
    have hindex := englishWords_nodup.getElem_inj_iff.mp (heq.trans hword.symm)
    omega

theorem getWord_mem {i : Nat} (hi : i < 2 ^ 11) : getWord i ∈ englishWords := by
  rw [getWord_eq (lt_englishWords_length.mpr hi)]
  exact List.getElem_mem _

/-! ### `Phrase` -/

def keySize : Nat := 32

/-- `Phrase`; English is the one language there is. -/
structure Phrase where
  entropy : Bytes
  phrase : Str
deriving DecidableEq, Repr

/-- The first byte of the digest of the entropy. -/
def checksumByte (entropy : Bytes) : UInt8 := (sha256 entropy).headD 0

/-- The groups of 11 bits of the entropy and its checksum. -/
def wordIndices (entropy : Bytes) : List Nat :=
  bits 8 11 ((entropy ++ [checksumByte entropy]).map UInt8.toNat)

namespace Phrase

def fromEntropy (entropy : Bytes) : Phrase where
  entropy := entropy
  phrase := [' '].intercalate ((wordIndices entropy).map getWord)

/-- One round of the loop of `new`. -/
def pushWord (bits : BitWriter) (word : Str) : Except Bip32Error BitWriter :=
  match getBits word with
  | none => .error .bip39
  | some index => .ok (bits.push 11 index)

def new (phrase : Str) : Except Bip32Error Phrase := do
  let bits ← (phrase.splitOn ' ').foldlM pushWord BitWriter.withCapacity
  let entropy := bits.intoBytes
  rejectIf (entropy.length ≠ keySize + 1) Bip32Error.bip39
  let actualChecksum := entropy.getD keySize 0
  let entropy := entropy.take keySize
  let expectedChecksum := checksumByte entropy
  rejectIf (actualChecksum ≠ expectedChecksum) Bip32Error.bip39
  pure (fromEntropy entropy)

/-! What is accepted. -/

theorem foldlM_pushWord_eq_ok_iff {words : List Str} {w w' : BitWriter} :
    words.foldlM pushWord w = .ok w' ↔
      ∃ groups, Bounded 11 groups ∧ groups.map getWord = words ∧
        w' = groups.foldl (BitWriter.push 11) w := by
  induction words generalizing w with
  | nil =>
    constructor
    · intro h
      cases h
      exact ⟨[], by simp [Bounded], rfl, rfl⟩
    · intro h
      obtain ⟨groups, -, hwords, hw'⟩ := h
      obtain rfl := List.map_eq_nil_iff.mp hwords
      rw [hw']
      rfl
  | cons word words ih =>
    rw [List.foldlM_cons, except_bind_eq_ok_iff]
    constructor
    · intro h
      obtain ⟨w₁, hpush, h⟩ := h
      obtain ⟨groups, hbounded, rfl, rfl⟩ := ih.mp h
      unfold pushWord at hpush
      cases hword : getBits word with
      | none => simp [hword] at hpush
      | some i =>
        rw [hword] at hpush
        cases hpush
        obtain ⟨hi, rfl⟩ := getBits_eq_some_iff.mp hword
        exact ⟨i :: groups, List.forall_mem_cons.mpr ⟨hi, hbounded⟩, rfl, rfl⟩
    · intro h
      obtain ⟨groups, hbounded, hwords, hw'⟩ := h
      cases groups with
      | nil => cases hwords
      | cons i groups =>
        obtain ⟨hi, hbounded⟩ := List.forall_mem_cons.mp hbounded
        obtain ⟨hword, hwords⟩ := List.cons.inj hwords
        refine ⟨w.push 11 i, ?_, ih.mpr ⟨groups, hbounded, hwords, hw'⟩⟩
        rw [pushWord, getBits_eq_some_iff.mpr ⟨hi, hword⟩]

theorem bounded_bytes (bytes : Bytes) : Bounded 8 (bytes.map UInt8.toNat) := by
  intro d hd
  obtain ⟨b, -, rfl⟩ := List.mem_map.mp hd
  exact b.toNat_lt

theorem map_toNat_injective {bytes bytes' : Bytes}
    (h : bytes.map UInt8.toNat = bytes'.map UInt8.toNat) : bytes = bytes' :=
  List.map_injective_iff.mpr (fun _ _ => UInt8.toNat_inj.mp) h

/-- The words of an entropy regroup its bits and those of the checksum. -/
theorem regroups_wordIndices {entropy : Bytes} (hlen : entropy.length = keySize) :
    Regroups 8 11 ((entropy ++ [checksumByte entropy]).map UInt8.toNat) (wordIndices entropy) 0 0 := by
  apply regroups_bits (bounded_bytes _) (by decide) (by decide) (by decide) (by decide)
  rw [List.length_map, List.length_append, hlen, List.length_singleton]
  decide

theorem length_wordIndices {entropy : Bytes} (hlen : entropy.length = keySize) :
    (wordIndices entropy).length = 24 := by
  have hlength := (regroups_wordIndices hlen).length_eq
  rw [List.length_map, List.length_append, hlen, keySize, List.length_singleton] at hlength
  omega

/-- The words of the phrase of an entropy. -/
theorem splitOn_fromEntropy {entropy : Bytes} (hlen : entropy.length = keySize) :
    (fromEntropy entropy).phrase.splitOn ' ' = (wordIndices entropy).map getWord := by
  apply List.splitOn_intercalate
  · intro word hword
    obtain ⟨i, hi, rfl⟩ := List.mem_map.mp hword
    exact space_not_mem_englishWords (getWord_mem ((regroups_wordIndices hlen).bounded i hi))
  · intro hnil
    have hlength := length_wordIndices hlen
    rw [List.map_eq_nil_iff.mp hnil] at hlength
    cases hlength

/-- The groups that `new` writes are an entropy with its checksum exactly when they are the
    word indices of this entropy. -/
theorem written_eq_iff {groups : List Nat} (hgroups : Bounded 11 groups) {entropy : Bytes}
    (hlen : entropy.length = keySize) :
    (groups.foldl (BitWriter.push 11) BitWriter.withCapacity).intoBytes
        = entropy ++ [checksumByte entropy] ↔ groups = wordIndices entropy := by
  have hindices := regroups_wordIndices hlen
  obtain ⟨hholds, hoffset⟩ :=
    (BitWriter.holds_withCapacity 11).foldl_push (by decide) (by decide) hgroups
  rw [List.nil_append] at hholds
  generalize groups.foldl (BitWriter.push 11) BitWriter.withCapacity = w at hholds hoffset
  have hlength := hholds.length_eq
  constructor
  · intro hbytes
    -- 33 bytes come of whole groups only when no bits are left over.
    have hcount := w.intoBytes_length
    rw [hbytes, List.length_append, hlen, keySize, List.length_singleton] at hcount
    have hzero : w.offset = 0 := by
      split at hcount
      all_goals omega
    have hwritten := hholds.intoBytes hzero
    rw [hbytes] at hwritten
    exact (hwritten.back hindices (by decide) hgroups).symm
  · rintro rfl
    rw [length_wordIndices hlen] at hlength
    exact map_toNat_injective
      (hindices.back (hholds.intoBytes (by omega)) (by decide) (bounded_bytes _))

theorem eq_take_concat {bytes : Bytes} {n : Nat} (hlen : bytes.length = n + 1) :
    bytes = bytes.take n ++ [bytes.getD n 0] := by
  have hn : n < bytes.length := by omega
  rw [List.getD_eq_getElem _ _ hn, List.take_append_getElem hn, ← hlen, List.take_length]

/-- The checks of `new` after its loop. -/
theorem new_eq_ok_iff_written {phrase : Str} {m : Phrase} :
    new phrase = .ok m ↔
      ∃ groups, Bounded 11 groups ∧ groups.map getWord = phrase.splitOn ' ' ∧
        ∃ entropy : Bytes, entropy.length = keySize ∧
          (groups.foldl (BitWriter.push 11) BitWriter.withCapacity).intoBytes
            = entropy ++ [checksumByte entropy] ∧ m = fromEntropy entropy := by
  rw [new, except_bind_eq_ok_iff]
  constructor
  · intro ⟨w, hw, h⟩
    obtain ⟨groups, hgroups, hwords, rfl⟩ := foldlM_pushWord_eq_ok_iff.mp hw
    obtain ⟨hcount, h⟩ := rejectIf_bind_eq_ok_iff.mp h
    obtain ⟨hchecksum, h⟩ := rejectIf_bind_eq_ok_iff.mp h
    cases h
    refine ⟨groups, hgroups, hwords, _, ?_, ?_, rfl⟩
    · rw [List.length_take, not_not.mp hcount]
      rfl
    · rw [← not_not.mp hchecksum]
      exact eq_take_concat (not_not.mp hcount)
  · intro ⟨groups, hgroups, hwords, entropy, hlen, hbytes, hm⟩
    refine ⟨_, foldlM_pushWord_eq_ok_iff.mpr ⟨groups, hgroups, hwords, rfl⟩, ?_⟩
    have htake : (entropy ++ [checksumByte entropy]).take keySize = entropy := by
      rw [← hlen, List.take_left]
    have hget : (entropy ++ [checksumByte entropy]).getD keySize 0 = checksumByte entropy := by
      simp [← hlen]
    rw [hbytes]
    refine rejectIf_bind_eq_ok_iff.mpr ⟨?_, rejectIf_bind_eq_ok_iff.mpr ⟨?_, ?_⟩⟩
    · rw [List.length_append, hlen]
      exact not_not.mpr rfl
    · rw [hget, htake]
      exact not_not.mpr rfl
    · rw [htake, hm]
      rfl

/-- `new` accepts the phrases of 32 bytes of entropy and no other text. -/
theorem new_eq_ok_iff {phrase : Str} {m : Phrase} :
    new phrase = .ok m ↔
      ∃ entropy : Bytes, entropy.length = keySize ∧ m = fromEntropy entropy ∧ phrase = m.phrase := by
  rw [new_eq_ok_iff_written]
  constructor
  · intro ⟨groups, hgroups, hwords, entropy, hlen, hbytes, hm⟩
    obtain rfl := (written_eq_iff hgroups hlen).mp hbytes
    refine ⟨entropy, hlen, hm, ?_⟩
    rw [hm, fromEntropy, hwords, List.intercalate_splitOn]
  · rintro ⟨entropy, hlen, rfl, rfl⟩
    have hgroups := (regroups_wordIndices hlen).bounded
    exact ⟨wordIndices entropy, hgroups, (splitOn_fromEntropy hlen).symm, entropy, hlen,
      (written_eq_iff hgroups hlen).mpr rfl, rfl⟩

/-- Distinct entropies have distinct phrases. -/
theorem phrase_injective {entropy entropy' : Bytes} (hlen : entropy.length = keySize)
    (hlen' : entropy'.length = keySize)
    (h : (fromEntropy entropy).phrase = (fromEntropy entropy').phrase) : entropy = entropy' := by
  have hnew := new_eq_ok_iff.mpr ⟨entropy, hlen, rfl, rfl⟩
  rw [h, new_eq_ok_iff.mpr ⟨entropy', hlen', rfl, rfl⟩] at hnew
  exact congrArg Phrase.entropy (Except.ok.inj hnew).symm

end Phrase

/-- **Recovery phrases.** `Phrase::new` accepts a text exactly when it is the phrase of 32
    bytes of entropy, and gives this entropy back; distinct entropies have distinct phrases,
    and every phrase has 24 words of the list. -/
theorem phrases_are_entropies :
    (∀ phrase m, Phrase.new phrase = .ok m ↔ ∃ entropy : Bytes,
      entropy.length = keySize ∧ m = Phrase.fromEntropy entropy ∧ phrase = m.phrase) ∧
    ∀ entropy : Bytes, entropy.length = keySize →
      ((Phrase.fromEntropy entropy).phrase.splitOn ' ').length = 24 ∧
      (∀ word ∈ (Phrase.fromEntropy entropy).phrase.splitOn ' ', word ∈ englishWords) ∧
      ∀ entropy' : Bytes, entropy'.length = keySize →
        (Phrase.fromEntropy entropy).phrase = (Phrase.fromEntropy entropy').phrase →
        entropy = entropy' := by
  refine ⟨fun _ _ => Phrase.new_eq_ok_iff, fun entropy hlen => ⟨?_, ?_, ?_⟩⟩
  · rw [Phrase.splitOn_fromEntropy hlen, List.length_map, Phrase.length_wordIndices hlen]
  · intro word hword
    rw [Phrase.splitOn_fromEntropy hlen] at hword
    obtain ⟨i, hi, rfl⟩ := List.mem_map.mp hword
    exact getWord_mem ((Phrase.regroups_wordIndices hlen).bounded i hi)
  · exact fun entropy' hlen' h => Phrase.phrase_injective hlen hlen' h

/-- The phrase of 32 zero bytes. -/
def zeroPhrase : Str :=
  [' '].intercalate (List.replicate 23 (chars "abandon") ++ [chars "art"])

theorem zeroEntropy_phrase :
    Phrase.new zeroPhrase = .ok (Phrase.fromEntropy (List.replicate 32 0)) ∧
      (zeroPhrase.splitOn ' ').length = 24 := by
  have hphrase : zeroPhrase = (Phrase.fromEntropy (List.replicate 32 0)).phrase := by
    decide +kernel
  have hlen : (List.replicate 32 (0 : UInt8)).length = keySize := by decide
  constructor
  · exact (phrases_are_entropies.1 _ _).mpr ⟨_, hlen, rfl, hphrase⟩
  · rw [hphrase]
    exact (phrases_are_entropies.2 _ hlen).1

end PhiCrypto

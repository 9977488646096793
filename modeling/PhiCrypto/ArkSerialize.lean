import PhiCrypto.PrefixDecoder
import PhiCrypto.OrderedMap
import Mathlib.Data.ZMod.Basic

/-!
# Compressed `ark-serialize` encodings

The arkworks encodings of the values that occur inside a proof: integers,
booleans, `Option`, `Vec`, `BTreeMap`, scalars and curve points. Every decoding
error of the crate is reported to the caller in the same way, so the error type
here is `Unit`.

Curve points enter through `PointCodec`. The 48- and 96-byte point formats of
`ark-bls12-381` give each non-identity point one encoding, but ignore the
remaining bits once the infinity flag is set: the identity has many. The field
`canonical` therefore speaks of non-identity points only.
-/

namespace PhiCrypto

abbrev Ark (α : Type) := Decoder Unit α

namespace Ark

variable {α : Type}

/-! ### Integers, booleans, options -/

/-- `u64` (and `usize`): eight little-endian bytes. -/
def u64 : Ark Nat := do
  let b ← Decoder.take 8 ()
  pure (leNat b)

theorem canonical_u64 : Decoder.Canonical u64 (leBytes 8) (· < 2 ^ 64) where
  complete := by
    intro n s hn
    have hread := Decoder.take_append () (leBytes_length 8 n) s
    rw [u64, Decoder.bind_ok hread, Decoder.pure_apply, leNat_leBytes (by omega)]
  sound := by
    intro s t n h
    rw [u64, Decoder.bind_eq_ok_iff] at h
    rcases h with ⟨b, u, hread, h⟩
    cases h
    obtain ⟨hlen, rfl⟩ := Decoder.take_sound hread
    have hlt := leNat_lt b
    have hback := leBytes_leNat b
    rw [hlen] at hlt hback
    exact ⟨by omega, by rw [hback]⟩

/-- `bool`: one byte, zero or one. -/
def bool : Ark Bool := do
  let b ← Decoder.take 1 ()
  if b = [0] then pure false
  else if b = [1] then pure true
  else throw ()

def boolBytes (b : Bool) : Bytes := if b then [1] else [0]

theorem canonical_bool : Decoder.Canonical bool boolBytes (fun _ => True) where
  complete := by
    intro b s _
    have hlen : (boolBytes b).length = 1 := by cases b <;> rfl
    have hread := Decoder.take_append () hlen s
    rw [bool, Decoder.bind_ok hread]
    cases b <;> rfl
  sound := by
    intro s t b h
    rw [bool, Decoder.bind_eq_ok_iff] at h
    rcases h with ⟨raw, u, hread, h⟩
    obtain ⟨-, rfl⟩ := Decoder.take_sound hread
    split at h
    · next hraw => cases h; exact ⟨trivial, by rw [hraw]; rfl⟩
    · split at h
      · next hraw => cases h; exact ⟨trivial, by rw [hraw]; rfl⟩
      · cases h

/-- `Option<T>`: a flag, then the value if there is one. -/
def option (d : Ark α) : Ark (Option α) := do
  let isSome ← bool
  if isSome then
    let a ← d
    pure (some a)
  else pure none

def optionBytes (enc : α → Bytes) : Option α → Bytes
  | none => boolBytes false
  | some a => boolBytes true ++ enc a

/-- What an accepted `Option<T>` looked like, for a decoder of any kind. -/
theorem option_eq_ok_iff {d : Ark α} {s t : Bytes} {x : Option α} :
    option d s = .ok (x, t) ↔
      (x = none ∧ s = boolBytes false ++ t) ∨
        ∃ a u, x = some a ∧ s = boolBytes true ++ u ∧ d u = .ok (a, t) := by
  rw [option, Decoder.bind_eq_ok_iff]
  constructor
  · rintro ⟨flag, u, hflag, h⟩
    obtain ⟨-, rfl⟩ := canonical_bool.sound hflag
    cases flag with
    | false => cases h; exact .inl ⟨rfl, rfl⟩
    | true =>
      simp only [if_true] at h
      rw [Decoder.bind_eq_ok_iff] at h
      rcases h with ⟨a, v, ha, h⟩
      cases h
      exact .inr ⟨a, u, rfl, rfl, ha⟩
  · rintro (⟨rfl, rfl⟩ | ⟨a, u, rfl, rfl, ha⟩)
    · exact ⟨false, t, canonical_bool.complete t trivial, rfl⟩
    · refine ⟨true, u, canonical_bool.complete u trivial, ?_⟩
      simp only [if_true]
      rw [Decoder.bind_ok ha]
      rfl

theorem option_none (d : Ark α) (s : Bytes) :
    option d (boolBytes false ++ s) = .ok (none, s) :=
  option_eq_ok_iff.mpr (.inl ⟨rfl, rfl⟩)

theorem option_some {d : Ark α} {u t : Bytes} {a : α} (h : d u = .ok (a, t)) :
    option d (boolBytes true ++ u) = .ok (some a, t) :=
  option_eq_ok_iff.mpr (.inr ⟨a, u, rfl, rfl, h⟩)

/-! ### Sequences and maps -/

/-- `Vec<T>`: an eight-byte count, then the elements. -/
def vec (d : Ark α) : Ark (List α) := do
  let n ← u64
  Decoder.replicate d n

def vecBytes (enc : α → Bytes) (as : List α) : Bytes :=
  leBytes 8 as.length ++ (as.map enc).flatten

theorem Canonical.vec {d : Ark α} {enc : α → Bytes} {wf : α → Prop}
    (h : Decoder.Canonical d enc wf) :
    Decoder.Canonical (Ark.vec d) (vecBytes enc)
      (fun as => as.length < 2 ^ 64 ∧ ∀ a ∈ as, wf a) where
  complete := by
    rintro as s ⟨hlen, hwf⟩
    rw [vecBytes, List.append_assoc, Ark.vec, Decoder.bind_ok (canonical_u64.complete _ hlen)]
    exact (h.replicate as.length).complete s ⟨rfl, hwf⟩
  sound := by
    intro s t as hd
    rw [Ark.vec, Decoder.bind_eq_ok_iff] at hd
    rcases hd with ⟨n, u, hn, hd⟩
    obtain ⟨hlt, rfl⟩ := canonical_u64.sound hn
    obtain ⟨⟨rfl, hwf⟩, rfl⟩ := (h.replicate n).sound hd
    exact ⟨⟨hlt, hwf⟩, by simp [vecBytes]⟩

/-- `BTreeMap<usize, T>`: an eight-byte count, then key and value of each entry.
    The entries may come in any order, and repeated keys are collapsed. -/
def map (d : Ark α) : Ark (OrderedMap α) := do
  let n ← u64
  let entries ← Decoder.replicate (do
    let k ← u64
    let v ← d
    pure (k, v)) n
  pure (OrderedMap.ofList entries)

/-! ### Scalars -/

section Scalars

variable (r : Nat)

/-- `Fr` serialized: thirty-two little-endian bytes. -/
def serFr (x : ZMod r) : Bytes := leBytes 32 x.val

/-- `Fr` deserialized: the integer must be reduced. -/
def fr : Ark (ZMod r) := do
  let b ← Decoder.take 32 ()
  if leNat b < r then pure (leNat b : ZMod r) else throw ()

variable {r}

@[simp] theorem serFr_length (x : ZMod r) : (serFr r x).length = 32 := by
  simp [serFr]

variable [NeZero r]

theorem canonical_fr (hr : r ≤ 2 ^ 256) :
    Decoder.Canonical (fr r) (serFr r) (fun _ => True) where
  complete := by
    intro x s _
    have hlt : x.val < r := x.val_lt
    have hval : leNat (serFr r x) = x.val := leNat_leBytes (by omega)
    have hread := Decoder.take_append () (serFr_length x) s
    rw [fr, Decoder.bind_ok hread, hval, if_pos hlt, ZMod.natCast_zmod_val]
    rfl
  sound := by
    intro s t x h
    rw [fr, Decoder.bind_eq_ok_iff] at h
    rcases h with ⟨b, u, hread, h⟩
    obtain ⟨hlen, rfl⟩ := Decoder.take_sound hread
    split at h
    · next hlt =>
      cases h
      refine ⟨trivial, ?_⟩
      have hback := leBytes_leNat b
      rw [hlen] at hback
      rw [serFr, ZMod.val_natCast, Nat.mod_eq_of_lt hlt, hback]
    · cases h

theorem serFr_injective (hr : r ≤ 2 ^ 256) {x y : ZMod r} (h : serFr r x = serFr r y) :
    x = y := by
  have hx : x.val < r := x.val_lt
  have hy : y.val < r := y.val_lt
  exact ZMod.val_injective r (leBytes_injective (by omega) (by omega) h)

end Scalars

end Ark

/-! ### Curve points -/

/-- A compressed point format of `size` bytes with subgroup validation. -/
structure PointCodec (G : Type) [Zero G] (size : Nat) where
  ser : G → Bytes
  de : Bytes → Option G
  ser_length : ∀ P, (ser P).length = size
  de_ser : ∀ P, de (ser P) = some P
  canonical : ∀ {b : Bytes} {P : G}, b.length = size → de b = some P → P ≠ 0 → b = ser P

namespace PointCodec

variable {G : Type} [Zero G] {size : Nat} (codec : PointCodec G size)

def decoder : Ark G := do
  let b ← Decoder.take size ()
  match codec.de b with
  | some P => pure P
  | none => throw ()

theorem decoder_append {b : Bytes} (hlen : b.length = size) {P : G} (h : codec.de b = some P)
    (s : Bytes) : codec.decoder (b ++ s) = .ok (P, s) := by
  have hread := Decoder.take_append () hlen s
  rw [decoder, Decoder.bind_ok hread, h]
  rfl

theorem decoder_ser (P : G) (s : Bytes) : codec.decoder (codec.ser P ++ s) = .ok (P, s) :=
  codec.decoder_append (codec.ser_length P) (codec.de_ser P) s

/-- An accepted point was read from the next `size` bytes. -/
theorem decoder_sound {s t : Bytes} {P : G} (h : codec.decoder s = .ok (P, t)) :
    ∃ raw : Bytes, raw.length = size ∧ codec.de raw = some P ∧ s = raw ++ t := by
  rw [decoder, Decoder.bind_eq_ok_iff] at h
  rcases h with ⟨b, u, hread, h⟩
  obtain ⟨hlen, rfl⟩ := Decoder.take_sound hread
  cases hde : codec.de b with
  | none => rw [hde] at h; cases h
  | some Q =>
    rw [hde] at h
    cases h
    exact ⟨b, hlen, hde, rfl⟩

theorem ser_injective {P Q : G} (h : codec.ser P = codec.ser Q) : P = Q := by
  have hP := codec.de_ser P
  rw [h, codec.de_ser Q] at hP
  exact (Option.some.inj hP).symm

end PointCodec

end PhiCrypto

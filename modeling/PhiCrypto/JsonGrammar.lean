import PhiCrypto.ByteString

/-!
# JSON texts

The grammar of JSON on bytes. A production relates a text to what is left of it behind the
production, so that productions follow one another without being taken apart again. Strings
come twice: with the bytes that they denote, and skipped, where an escape of four hexadecimal
digits need not be a character.
-/

namespace PhiCrypto

namespace Json

/-! ### Whitespace -/

def IsSpace (b : UInt8) : Prop := b = 0x20 ∨ b = 0x0a ∨ b = 0x09 ∨ b = 0x0d

instance (b : UInt8) : Decidable (IsSpace b) := inferInstanceAs (Decidable (_ ∨ _))

/-- Any amount of whitespace. -/
inductive Spaces : Bytes → Bytes → Prop where
  | nil (s : Bytes) : Spaces s s
  | cons {b : UInt8} {s t : Bytes} : IsSpace b → Spaces s t → Spaces (b :: s) t

/-! ### Strings -/

/-- The value of a hexadecimal digit. -/
def hexVal (b : UInt8) : Option Nat :=
  if 0x30 ≤ b ∧ b ≤ 0x39 then some (b.toNat - 0x30)
  else if 0x41 ≤ b ∧ b ≤ 0x46 then some (b.toNat - 0x41 + 10)
  else if 0x61 ≤ b ∧ b ≤ 0x66 then some (b.toNat - 0x61 + 10)
  else none

/-- Four hexadecimal digits and their number. -/
inductive Hex4 : Bytes → Nat → Bytes → Prop where
  | mk {a b c d : UInt8} {va vb vc vd : Nat} {t : Bytes} :
      hexVal a = some va → hexVal b = some vb → hexVal c = some vc → hexVal d = some vd →
      Hex4 (a :: b :: c :: d :: t) (4096 * va + 256 * vb + 16 * vc + vd) t

def IsHighSurrogate (n : Nat) : Prop := 0xd800 ≤ n ∧ n ≤ 0xdbff

def IsLowSurrogate (n : Nat) : Prop := 0xdc00 ≤ n ∧ n ≤ 0xdfff

/-- The byte that an escape of one letter denotes. -/
def shortEscape (c : UInt8) : Option UInt8 :=
  if c = 0x22 ∨ c = 0x5c ∨ c = 0x2f then some c
  else if c = 0x62 then some 0x08
  else if c = 0x66 then some 0x0c
  else if c = 0x6e then some 0x0a
  else if c = 0x72 then some 0x0d
  else if c = 0x74 then some 0x09
  else none

/-- A byte that stands for itself. -/
def IsPlain (b : UInt8) : Prop := 0x20 ≤ b ∧ b ≠ 0x22 ∧ b ≠ 0x5c

instance (b : UInt8) : Decidable (IsPlain b) := inferInstanceAs (Decidable (_ ∧ _))

/-- A part of a string, with what it denotes. -/
inductive StringPart : Bytes → Bytes → Bytes → Prop where
  | plain {b : UInt8} {t : Bytes} : IsPlain b → StringPart (b :: t) [b] t
  | short {c v : UInt8} {t : Bytes} :
      shortEscape c = some v → StringPart (0x5c :: c :: t) [v] t
  | unicode {s t : Bytes} {n : Nat} :
      Hex4 s n t → ¬ IsHighSurrogate n → ¬ IsLowSurrogate n →
      StringPart (0x5c :: 0x75 :: s) (String.utf8EncodeChar (Char.ofNat n)) t
  | pair {s t u : Bytes} {high low : Nat} :
      Hex4 s high (0x5c :: 0x75 :: u) → IsHighSurrogate high → Hex4 u low t →
      IsLowSurrogate low →
      StringPart (0x5c :: 0x75 :: s)
        (String.utf8EncodeChar
          (Char.ofNat (0x10000 + 0x400 * (high - 0xd800) + (low - 0xdc00)))) t

/-- What is behind the opening quotation mark, the closing one included. -/
inductive StringBody : Bytes → Bytes → Bytes → Prop where
  | close (t : Bytes) : StringBody (0x22 :: t) [] t
  | part {s t r u v : Bytes} :
      StringPart s u t → StringBody t v r → StringBody s (u ++ v) r

/-- The bytes of a text in UTF-8. -/
def IsUtf8 (b : Bytes) : Prop := (ByteArray.mk b.toArray).IsValidUTF8

/-- A string, with the text that it denotes. -/
def StringLit (s text t : Bytes) : Prop :=
  ∃ body, s = 0x22 :: body ∧ StringBody body text t ∧ IsUtf8 text

/-- The body of a string that is skipped. -/
inductive SkippedBody : Bytes → Bytes → Prop where
  | close (t : Bytes) : SkippedBody (0x22 :: t) t
  | plain {b : UInt8} {s t : Bytes} : IsPlain b → SkippedBody s t → SkippedBody (b :: s) t
  | short {c v : UInt8} {s t : Bytes} :
      shortEscape c = some v → SkippedBody s t → SkippedBody (0x5c :: c :: s) t
  | unicode {s t u : Bytes} {n : Nat} :
      Hex4 s n t → SkippedBody t u → SkippedBody (0x5c :: 0x75 :: s) u

/-! ### Numbers -/

def IsDigit (b : UInt8) : Prop := 0x30 ≤ b ∧ b ≤ 0x39

instance (b : UInt8) : Decidable (IsDigit b) := inferInstanceAs (Decidable (_ ∧ _))

/-- Any amount of digits. -/
inductive Digits : Bytes → Bytes → Prop where
  | nil (s : Bytes) : Digits s s
  | cons {b : UInt8} {s t : Bytes} : IsDigit b → Digits s t → Digits (b :: s) t

inductive IntPart : Bytes → Bytes → Prop where
  | zero (t : Bytes) : IntPart (0x30 :: t) t
  | nonzero {b : UInt8} {s t : Bytes} :
      IsDigit b → b ≠ 0x30 → Digits s t → IntPart (b :: s) t

inductive FracPart : Bytes → Bytes → Prop where
  | none (s : Bytes) : FracPart s s
  | some {b : UInt8} {s t : Bytes} : IsDigit b → Digits s t → FracPart (0x2e :: b :: s) t

/-- The letter of an exponent. -/
def IsE (b : UInt8) : Prop := b = 0x65 ∨ b = 0x45

def IsSign (b : UInt8) : Prop := b = 0x2b ∨ b = 0x2d

inductive ExpPart : Bytes → Bytes → Prop where
  | none (s : Bytes) : ExpPart s s
  | unsigned {e b : UInt8} {s t : Bytes} :
      IsE e → IsDigit b → Digits s t → ExpPart (e :: b :: s) t
  | signed {e sign b : UInt8} {s t : Bytes} :
      IsE e → IsSign sign → IsDigit b → Digits s t → ExpPart (e :: sign :: b :: s) t

/-- A number without its sign. -/
def Unsigned (s v : Bytes) : Prop := ∃ t u, IntPart s t ∧ FracPart t u ∧ ExpPart u v

/-! ### Values -/

/-- `null`. -/
def NullLit (s t : Bytes) : Prop := s = 0x6e :: 0x75 :: 0x6c :: 0x6c :: t

/-- `true` or `false`. -/
def BoolLit (s : Bytes) (b : Bool) (t : Bytes) : Prop :=
  (b = true ∧ s = 0x74 :: 0x72 :: 0x75 :: 0x65 :: t) ∨
    (b = false ∧ s = 0x66 :: 0x61 :: 0x6c :: 0x73 :: 0x65 :: t)

/-- `null`, or what the production reads. -/
def Nullable {α : Type} (production : Bytes → α → Bytes → Prop) (s : Bytes) (value : Option α)
    (t : Bytes) : Prop :=
  (value = none ∧ NullLit s t) ∨ ∃ a, value = some a ∧ production s a t

/-- The key of a member that is skipped, with the colon. -/
def SkippedKey (s v : Bytes) : Prop :=
  ∃ body t u, Spaces s (0x22 :: body) ∧ SkippedBody body t ∧ Spaces t (0x3a :: u) ∧ Spaces u v

mutual

/-- A value that is skipped. -/
inductive Value : Bytes → Bytes → Prop where
  | nullLit {s t : Bytes} : NullLit s t → Value s t
  | boolLit {s t : Bytes} {b : Bool} : BoolLit s b t → Value s t
  | unsigned {s t : Bytes} : Unsigned s t → Value s t
  | negative {s t : Bytes} : Unsigned s t → Value (0x2d :: s) t
  | string {s t : Bytes} : SkippedBody s t → Value (0x22 :: s) t
  | emptyArray {s t : Bytes} : Spaces s (0x5d :: t) → Value (0x5b :: s) t
  | array {s t : Bytes} : Elements s t → Value (0x5b :: s) t
  | emptyObject {s t : Bytes} : Spaces s (0x7d :: t) → Value (0x7b :: s) t
  | object {s t : Bytes} : Members s t → Value (0x7b :: s) t

/-- The elements of an array, with the closing bracket. -/
inductive Elements : Bytes → Bytes → Prop where
  | last {s v w t : Bytes} : Spaces s v → Value v w → Spaces w (0x5d :: t) → Elements s t
  | more {s v w u t : Bytes} :
      Spaces s v → Value v w → Spaces w (0x2c :: u) → Elements u t → Elements s t

/-- The members of an object, with the closing brace. -/
inductive Members : Bytes → Bytes → Prop where
  | last {s v w t : Bytes} : SkippedKey s v → Value v w → Spaces w (0x7d :: t) → Members s t
  | more {s v w u t : Bytes} :
      SkippedKey s v → Value v w → Spaces w (0x2c :: u) → Members u t → Members s t

end

end Json

end PhiCrypto

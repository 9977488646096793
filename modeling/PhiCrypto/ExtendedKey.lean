import PhiCrypto.Sha512
import PhiCrypto.DerivationPath
import PhiCrypto.KeyPair

/-!
# Extended keys

`bip32::ExtendedPrivateKey` on a curve: the master key of a seed and the derivation of child
keys along a path. Each step adds a tweak to the scalar. A hardened step computes the tweak
from the secret key, any other from the public key, so that a child key that is not
hardened, with the public half of its parent, gives the parent's secret away.
-/

namespace PhiCrypto

namespace SigningKey

variable {n : Nat}

/-- `PrivateKey::from_bytes`, for 32 bytes. -/
def fromBytes (n : Nat) (bytes : Bytes) : Except Bip32Error (SigningKey n) :=
  if h : 1 ≤ beNat bytes ∧ beNat bytes < n then .ok ⟨beNat bytes, h.1, h.2⟩ else .error .crypto

/-- `PrivateKey::derive_child`: the sum with a tweak, which is a key itself. -/
def deriveChild (key : SigningKey n) (tweak : Bytes) : Except Bip32Error (SigningKey n) := do
  let childScalar ← fromBytes n tweak
  let derivedScalar := (key.d + childScalar.d) % n
  if h : 1 ≤ derivedScalar ∧ derivedScalar < n then pure ⟨derivedScalar, h.1, h.2⟩
  else throw Bip32Error.crypto

end SigningKey

/-- The compressed public key of a signing key. -/
def CurveArithmetic.publicKeyBytes (C : CurveArithmetic) (key : SigningKey C.order) : Bytes :=
  C.toEncodedPoint (C.mulByGenerator key.d) true

/-- `Depth`, a `u8`. -/
abbrev Depth := Fin 256

/-- `checked_add` of one level. -/
def Depth.next (depth : Depth) : Except Bip32Error Depth :=
  if h : depth.val + 1 < 256 then .ok ⟨depth.val + 1, h⟩ else .error .depth

abbrev ChainCode := { code : Bytes // code.length = keySize }

/-- An HMAC, split into key material and a chain code. -/
def hmacSplit (key msg : Bytes) : Bytes × ChainCode :=
  ((hmacSha512 key msg).take keySize, ⟨(hmacSha512 key msg).drop keySize, by simp [keySize]⟩)

/-- `ExtendedKeyAttrs`, without the fingerprint of the parent, which no derivation reads. -/
structure ExtendedKeyAttrs where
  depth : Depth
  childNumber : ChildNumber
  chainCode : ChainCode
deriving DecidableEq

/-- `ExtendedPrivateKey`. -/
structure ExtendedPrivateKey (C : CurveArithmetic) where
  privateKey : SigningKey C.order
  attrs : ExtendedKeyAttrs

namespace ExtendedPrivateKey

variable {C : CurveArithmetic}

/-- `BIP39_DOMAIN_SEPARATOR`. -/
def bip39DomainSeparator : Bytes := ascii "Bitcoin seed"

/-- `new`: the root of a seed. -/
def new (C : CurveArithmetic) (seed : Bytes) : Except Bip32Error (ExtendedPrivateKey C) := do
  rejectIf (seed.length ∉ [16, 32, 64]) Bip32Error.seedLength
  let (secretKey, chainCode) := hmacSplit bip39DomainSeparator seed
  let privateKey ← SigningKey.fromBytes C.order secretKey
  pure { privateKey, attrs := { depth := 0, childNumber := ⟨0⟩, chainCode } }

/-- What the tweak is computed from. -/
def tweakInput (key : ExtendedPrivateKey C) (childNumber : ChildNumber) : Bytes :=
  (if childNumber.isHardened then 0 :: key.privateKey.toBytes else C.publicKeyBytes key.privateKey)
    ++ childNumber.toBytes

/-- `derive_tweak`: tweak and chain code of a child. -/
def deriveTweak (key : ExtendedPrivateKey C) (childNumber : ChildNumber) : Bytes × ChainCode :=
  hmacSplit key.attrs.chainCode (key.tweakInput childNumber)

/-- `derive_child`. -/
def deriveChild (key : ExtendedPrivateKey C) (childNumber : ChildNumber) :
    Except Bip32Error (ExtendedPrivateKey C) := do
  let depth ← key.attrs.depth.next
  let (tweak, chainCode) := key.deriveTweak childNumber
  let privateKey ← key.privateKey.deriveChild tweak
  pure { privateKey, attrs := { depth, childNumber, chainCode } }

/-- `derive_from_path`: a fold that starts from the root. -/
def deriveFromPath (C : CurveArithmetic) (seed : Bytes) (path : List ChildNumber) :
    Except Bip32Error (ExtendedPrivateKey C) :=
  path.foldl (fun maybeKey childNumber => maybeKey >>= fun key => key.deriveChild childNumber)
    (new C seed)

/-- The descent from a key, child by child. -/
def deriveAlong (key : ExtendedPrivateKey C) (path : List ChildNumber) :
    Except Bip32Error (ExtendedPrivateKey C) :=
  path.foldlM (fun key childNumber => key.deriveChild childNumber) key

/-! ### One step -/

/-- The scalar that a step adds. -/
def tweak (key : ExtendedPrivateKey C) (childNumber : ChildNumber) : Nat :=
  beNat (key.deriveTweak childNumber).1

/-- What one derivation step does. -/
structure Child (parent : ExtendedPrivateKey C) (childNumber : ChildNumber)
    (child : ExtendedPrivateKey C) : Prop where
  depth_eq : child.attrs.depth.val = parent.attrs.depth.val + 1
  childNumber_eq : child.attrs.childNumber = childNumber
  chainCode_eq : child.attrs.chainCode = (parent.deriveTweak childNumber).2
  tweak_pos : 1 ≤ parent.tweak childNumber
  tweak_lt : parent.tweak childNumber < C.order
  key_eq : child.privateKey.d
    = (parent.privateKey.d + parent.tweak childNumber) % C.order

end ExtendedPrivateKey

theorem Depth.next_eq_ok_iff {depth next : Depth} :
    depth.next = .ok next ↔ next.val = depth.val + 1 := by
  unfold Depth.next
  constructor
  · intro h
    split at h
    · cases h
      rfl
    · cases h
  · intro h
    rw [dif_pos (h ▸ next.isLt)]
    exact congrArg Except.ok (Fin.ext h.symm)

theorem SigningKey.fromBytes_eq_ok_iff {n : Nat} {bytes : Bytes} {key : SigningKey n} :
    fromBytes n bytes = .ok key ↔ key.d = beNat bytes := by
  unfold fromBytes
  constructor
  · intro h
    split at h
    · cases h
      rfl
    · cases h
  · intro h
    obtain ⟨d, pos, lt⟩ := key
    subst h
    rw [dif_pos ⟨pos, lt⟩]

theorem SigningKey.deriveChild_eq_ok_iff {n : Nat} {key child : SigningKey n} {tweak : Bytes} :
    key.deriveChild tweak = .ok child ↔
      1 ≤ beNat tweak ∧ beNat tweak < n ∧ child.d = (key.d + beNat tweak) % n := by
  unfold deriveChild
  rw [except_bind_eq_ok_iff]
  constructor
  · intro ⟨scalar, hscalar, h⟩
    rw [fromBytes_eq_ok_iff] at hscalar
    dsimp only at h
    split at h
    · cases h
      exact ⟨hscalar ▸ scalar.pos, hscalar ▸ scalar.lt, congrArg (fun a => (key.d + a) % n) hscalar⟩
    · cases h
  · intro ⟨hpos, hlt, hchild⟩
    refine ⟨⟨beNat tweak, hpos, hlt⟩, fromBytes_eq_ok_iff.mpr rfl, ?_⟩
    obtain ⟨d, pos, lt⟩ := child
    subst hchild
    exact dif_pos ⟨pos, lt⟩

namespace ExtendedPrivateKey

variable {C : CurveArithmetic} {parent child : ExtendedPrivateKey C} {childNumber : ChildNumber}

theorem deriveChild_eq_ok_iff :
    parent.deriveChild childNumber = .ok child ↔ parent.Child childNumber child := by
  unfold deriveChild
  simp only [except_bind_eq_ok_iff, Depth.next_eq_ok_iff, SigningKey.deriveChild_eq_ok_iff]
  constructor
  · intro ⟨depth, hdepth, privateKey, ⟨hpos, hlt, hsum⟩, h⟩
    cases h
    exact ⟨hdepth, rfl, rfl, hpos, hlt, hsum⟩
  · intro h
    obtain ⟨hdepth, hnumber, hchain, hpos, hlt, hsum⟩ := h
    refine ⟨child.attrs.depth, hdepth, child.privateKey, ⟨hpos, hlt, hsum⟩, ?_⟩
    rw [← hchain, ← hnumber]
    rfl

/-! ### A path -/

/-- A descent, with the scalar that each of its steps adds. -/
inductive Descends : ExtendedPrivateKey C → List ChildNumber → List Nat →
    ExtendedPrivateKey C → Prop where
  | nil (key : ExtendedPrivateKey C) : Descends key [] [] key
  | cons {key child leaf : ExtendedPrivateKey C} {childNumber : ChildNumber}
      {path : List ChildNumber} {tweaks : List Nat} :
      key.Child childNumber child → Descends child path tweaks leaf →
      Descends key (childNumber :: path) (key.tweak childNumber :: tweaks) leaf

variable {key leaf : ExtendedPrivateKey C} {path : List ChildNumber} {tweaks : List Nat}

theorem deriveAlong_eq_ok_iff :
    ∀ {path : List ChildNumber} {key : ExtendedPrivateKey C},
      key.deriveAlong path = .ok leaf ↔ ∃ tweaks, Descends key path tweaks leaf
  | [], key => by
    constructor
    · intro h
      cases h
      exact ⟨[], .nil _⟩
    · intro ⟨_, h⟩
      cases h
      rfl
  | childNumber :: path, key => by
    rw [deriveAlong, List.foldlM_cons, except_bind_eq_ok_iff]
    constructor
    · intro ⟨child, hchild, h⟩
      obtain ⟨tweaks, hdescends⟩ := deriveAlong_eq_ok_iff.mp h
      exact ⟨_, .cons (deriveChild_eq_ok_iff.mp hchild) hdescends⟩
    · intro ⟨_, h⟩
      cases h with
      | cons hchild hdescends =>
        exact ⟨_, deriveChild_eq_ok_iff.mpr hchild, deriveAlong_eq_ok_iff.mpr ⟨_, hdescends⟩⟩

theorem foldl_bind_eq_deriveAlong :
    ∀ (path : List ChildNumber) (maybeKey : Except Bip32Error (ExtendedPrivateKey C)),
      path.foldl (fun maybeKey childNumber => maybeKey >>= fun key => key.deriveChild childNumber)
        maybeKey = maybeKey >>= fun key => key.deriveAlong path
  | [], maybeKey => (bind_pure maybeKey).symm
  | childNumber :: path, maybeKey => by
    rw [List.foldl_cons, foldl_bind_eq_deriveAlong path, bind_assoc]
    exact bind_congr fun key => (List.foldlM_cons ..).symm

theorem deriveFromPath_eq (seed : Bytes) (path : List ChildNumber) :
    deriveFromPath C seed path = new C seed >>= fun root => root.deriveAlong path :=
  foldl_bind_eq_deriveAlong path (new C seed)

theorem deriveAlong_append (key : ExtendedPrivateKey C) (path rest : List ChildNumber) :
    key.deriveAlong (path ++ rest)
      = key.deriveAlong path >>= fun child => child.deriveAlong rest :=
  List.foldlM_append

/-! ### What a descent keeps -/

namespace Descends

theorem tweaks_length (h : Descends key path tweaks leaf) : tweaks.length = path.length := by
  induction h with
  | nil key => rfl
  | cons hchild hdescends ih => rw [List.length_cons, List.length_cons, ih]

theorem depth_eq (h : Descends key path tweaks leaf) : leaf.attrs.depth.val = key.attrs.depth.val + path.length := by
  induction h with
  | nil key => rfl
  | cons hchild hdescends ih =>
    rw [ih, hchild.depth_eq, List.length_cons]
    omega

theorem childNumber_eq (h : Descends key path tweaks leaf) :
    leaf.attrs.childNumber = path.getLast?.getD key.attrs.childNumber := by
  induction h with
  | nil key => rfl
  | cons hchild hdescends ih => rw [ih, hchild.childNumber_eq, List.getLast?_cons, Option.getD_some]

theorem tweaks_range (h : Descends key path tweaks leaf) :
    ∀ t ∈ tweaks, 1 ≤ t ∧ t < C.order := by
  induction h with
  | nil key => simp
  | cons hchild hdescends ih =>
    intro t ht
    rcases List.mem_cons.mp ht with heq | ht
    · rw [heq]
      exact ⟨hchild.tweak_pos, hchild.tweak_lt⟩
    · exact ih t ht

theorem key_eq (h : Descends key path tweaks leaf) :
    leaf.privateKey.d = (key.privateKey.d + tweaks.sum) % C.order := by
  induction h with
  | nil key =>
    rw [List.sum_nil, Nat.add_zero, Nat.mod_eq_of_lt key.privateKey.lt]
  | cons hchild hdescends ih =>
    rw [ih, hchild.key_eq, Nat.mod_add_mod, List.sum_cons, Nat.add_assoc]

end Descends

theorem new_eq_ok_iff {seed : Bytes} {root : ExtendedPrivateKey C} :
    new C seed = .ok root ↔
      seed.length ∈ [16, 32, 64] ∧
        root.privateKey.d = beNat (hmacSplit bip39DomainSeparator seed).1 ∧
        root.attrs = ⟨0, ⟨0⟩, (hmacSplit bip39DomainSeparator seed).2⟩ := by
  rw [new, rejectIf_bind_eq_ok_iff, Decidable.not_not]
  refine and_congr_right fun _ => ?_
  simp only [except_bind_eq_ok_iff, SigningKey.fromBytes_eq_ok_iff]
  constructor
  · intro ⟨privateKey, hkey, h⟩
    cases h
    exact ⟨hkey, rfl⟩
  · intro ⟨hkey, hattrs⟩
    exact ⟨root.privateKey, hkey, hattrs ▸ rfl⟩

/-- A derivation descends from the root of the seed, and the scalar it ends with is that of
    the root with all tweaks added. What a prefix of the path gives is where the rest
    starts. -/
theorem path_adds_tweaks (C : CurveArithmetic) (seed : Bytes) (path : List ChildNumber) :
    (∀ key, deriveFromPath C seed path = .ok key ↔
      ∃ root tweaks, new C seed = .ok root ∧ Descends root path tweaks key) ∧
    (∀ root tweaks key, new C seed = .ok root → Descends root path tweaks key →
      seed.length ∈ [16, 32, 64] ∧ path.length ≤ 255 ∧ key.attrs.depth.val = path.length ∧
      key.attrs.childNumber = path.getLast?.getD ⟨0⟩ ∧ tweaks.length = path.length ∧
      (∀ t ∈ tweaks, 1 ≤ t ∧ t < C.order) ∧
      key.privateKey.d
        = (beNat (hmacSplit bip39DomainSeparator seed).1 + tweaks.sum) % C.order) ∧
    (∀ rest, deriveFromPath C seed (path ++ rest)
      = deriveFromPath C seed path >>= fun key => key.deriveAlong rest) := by
  refine ⟨?_, ?_, ?_⟩
  · intro key
    simp only [deriveFromPath_eq, except_bind_eq_ok_iff, deriveAlong_eq_ok_iff, exists_and_left]
  · intro root tweaks key hroot h
    obtain ⟨hseed, hkey, hattrs⟩ := new_eq_ok_iff.mp hroot
    have hdepth : key.attrs.depth.val = path.length := by
      rw [h.depth_eq, hattrs]
      exact Nat.zero_add _
    have hbound := key.attrs.depth.isLt
    have hnumber := h.childNumber_eq
    rw [hattrs] at hnumber
    exact ⟨hseed, by omega, hdepth, hnumber, h.tweaks_length, h.tweaks_range, hkey ▸ h.key_eq⟩
  · intro rest
    simp only [deriveFromPath_eq, deriveAlong_append, bind_assoc]

end ExtendedPrivateKey

/-- The integers modulo the order of secp256k1, as a curve. -/
def additiveCurve : CurveArithmetic where
  order := 0xfffffffffffffffffffffffffffffffebaaedce6af48a03bbfd25e8cd0364141
  Point := Nat
  invert := id
  mulByGenerator := id
  lincomb := fun u q v =>
    (u + v * q) % 0xfffffffffffffffffffffffffffffffebaaedce6af48a03bbfd25e8cd0364141
  x := id
  fromSec1Bytes := fun b => some (beNat (b.drop 1))
  toEncodedPoint := fun q _ => 2 :: beBytes 32 q
  digest := id
  generateK := fun d _ => d

/-- A descent of two levels, the first one hardened. -/
theorem additiveCurve_path :
    ∃ root tweaks key, ExtendedPrivateKey.new additiveCurve (List.replicate 16 7) = .ok root ∧
      ExtendedPrivateKey.Descends root [⟨0x8000002c⟩, ⟨0⟩] tweaks key ∧
      tweaks.length = 2 ∧ key.attrs.depth.val = 2 := by
  have hok : (ExtendedPrivateKey.deriveFromPath additiveCurve (List.replicate 16 7)
      [⟨0x8000002c⟩, ⟨0⟩]).isOk = true := by decide +kernel
  obtain ⟨hiff, hkeeps, -⟩ := ExtendedPrivateKey.path_adds_tweaks additiveCurve
    (List.replicate 16 7) [⟨0x8000002c⟩, ⟨0⟩]
  cases hkey : ExtendedPrivateKey.deriveFromPath additiveCurve (List.replicate 16 7)
      [⟨0x8000002c⟩, ⟨0⟩] with
  | error e =>
    rw [hkey] at hok
    cases hok
  | ok key =>
    obtain ⟨root, tweaks, hroot, hdescends⟩ := (hiff key).mp hkey
    obtain ⟨-, -, hdepth, -, htweaks, -, -⟩ := hkeeps root tweaks key hroot hdescends
    exact ⟨root, tweaks, key, hroot, hdescends, htweaks, hdepth⟩

end PhiCrypto

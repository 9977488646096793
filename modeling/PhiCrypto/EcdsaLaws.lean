import PhiCrypto.EcdsaCore
import Mathlib.Data.ZMod.Basic
import Mathlib.Tactic.LinearCombination

/-!
# The laws of ECDSA

`Lawful` states what the `ecdsa` crate relies on of a curve: scalars invert, multiples
of the generator add up, opposite points share their `x`, and a nonce is a nonzero
scalar. Two facts follow. A signature of `sign_prehashed` satisfies the verification
equation of its key (`verificationEquation_of_sign`), and the equation does not tell
`s` from `-s` (`verificationEquation_neg`). What makes a signature unique is therefore
the check for low S, which the signers and the verifiers repeat for each curve.
-/

namespace PhiCrypto

/-- `-u`, as a natural number below `n`. -/
def negScalar (n u : Nat) : Nat := (n - u) % n

/-- A point that is the public key of some encoding. -/
def CurveArithmetic.IsKey (C : CurveArithmetic) (q : C.Point) : Prop :=
  ∃ publicKey, C.fromSec1Bytes publicKey = some q

/-- The arithmetic of a curve of odd order, as far as ECDSA uses it. -/
structure CurveArithmetic.Lawful (C : CurveArithmetic) : Prop where
  order_odd : C.order % 2 = 1
  order_le : C.order ≤ 2 ^ 256
  invert_mul : ∀ a, 1 ≤ a → a < C.order → C.invert a * a % C.order = 1
  lincomb_mulByGenerator : ∀ d u v, d < C.order → u < C.order → v < C.order →
    C.lincomb u (C.mulByGenerator d) v = C.mulByGenerator ((u + v * d) % C.order)
  /-- A point and its opposite have one `x`. -/
  x_lincomb_neg : ∀ q u v, C.IsKey q → u < C.order → v < C.order →
    C.x (C.lincomb (negScalar C.order u) q (negScalar C.order v)) = C.x (C.lincomb u q v)
  /-- `generate_k` draws until the nonce is nonzero and below the order. -/
  generateK_range : ∀ d z, 1 ≤ d → d < C.order →
    1 ≤ C.generateK d z ∧ C.generateK d z < C.order

/-- SEC1 decoding inverts both encodings of a key. -/
structure CurveArithmetic.Sec1Lawful (C : CurveArithmetic) : Prop where
  fromSec1Bytes_toEncodedPoint : ∀ q compress, C.IsKey q →
    C.fromSec1Bytes (C.toEncodedPoint q compress) = some q

/-- The nonce of a key and a prehash gives two nonzero scalars. `Signer::sign` panics
    on any other. -/
def UsableNonce (C : CurveArithmetic) (d : Nat) (z : Bytes) : Prop :=
  let r := C.x (C.mulByGenerator (C.generateK d z)) % C.order
  r ≠ 0 ∧ (beNat z % C.order + r * d) % C.order ≠ 0

instance (C : CurveArithmetic) (d : Nat) (z : Bytes) : Decidable (UsableNonce C d z) :=
  inferInstanceAs (Decidable (_ ∧ _))

/-- The inversion of `sign_prehashed`. -/
theorem of_signPrehashed {C : CurveArithmetic} {d k : Nat} {z : Bytes}
    {sig : EcdsaSignature C.order} (h : signPrehashed C d k z = some sig) :
    k ≠ 0 ∧ sig.r = C.x (C.mulByGenerator k) % C.order ∧
      sig.s = C.invert k * (beNat z % C.order + sig.r * d) % C.order := by
  unfold signPrehashed EcdsaSignature.fromScalars at h
  split at h
  · cases h
  · next hk =>
    dsimp only at h
    split at h
    · cases h
      exact ⟨hk, rfl, rfl⟩
    · cases h

/-! ### Scalars modulo the order -/

theorem cast_negScalar {n u : Nat} (hu : u ≤ n) : (negScalar n u : ZMod n) = -u := by
  rw [negScalar, ZMod.natCast_mod, Nat.cast_sub hu, ZMod.natCast_self, zero_sub]

theorem mod_eq_mod_of_cast {n a b : Nat} (h : (a : ZMod n) = b) : a % n = b % n :=
  (ZMod.natCast_eq_natCast_iff' a b n).mp h

namespace CurveArithmetic.Lawful

variable {C : CurveArithmetic} (hC : C.Lawful)
include hC

theorem cast_invert_mul {a : Nat} (hpos : 1 ≤ a) (hlt : a < C.order) :
    (C.invert a : ZMod C.order) * a = 1 := by
  have hmod : (C.invert a * a) % C.order = 1 % C.order := by
    rw [hC.invert_mul a hpos hlt, Nat.mod_eq_of_lt (Nat.lt_of_le_of_lt hpos hlt)]
  have hcast := (ZMod.natCast_eq_natCast_iff' _ _ _).mpr hmod
  rwa [Nat.cast_mul, Nat.cast_one] at hcast

theorem cast_invert_neg {s : Nat} (hpos : 1 ≤ s) (hlt : s < C.order) :
    (C.invert (C.order - s) : ZMod C.order) = -C.invert s := by
  have hs := hC.cast_invert_mul hpos hlt
  have hneg := hC.cast_invert_mul (a := C.order - s) (by omega) (by omega)
  rw [Nat.cast_sub hlt.le, ZMod.natCast_self, zero_sub] at hneg
  linear_combination (-(C.invert (C.order - s)) : ZMod C.order) * hs - C.invert s * hneg

/-- The scalars of the equation for `-s` are the opposites of those for `s`. -/
theorem mul_invert_neg (a : Nat) {s : Nat} (hpos : 1 ≤ s) (hlt : s < C.order) :
    a * C.invert (C.order - s) % C.order = negScalar C.order (a * C.invert s % C.order) := by
  have hle : a * C.invert s % C.order ≤ C.order := (Nat.mod_lt _ (by omega)).le
  have hcast : ((a * C.invert (C.order - s) : Nat) : ZMod C.order)
      = (negScalar C.order (a * C.invert s % C.order) : Nat) := by
    rw [cast_negScalar hle, ZMod.natCast_mod, Nat.cast_mul, Nat.cast_mul, hC.cast_invert_neg hpos hlt]
    ring
  rw [mod_eq_mod_of_cast hcast, negScalar, Nat.mod_mod]

/-- The equation is the same for `s` and `-s`. -/
theorem verificationEquation_neg {q : C.Point} (hq : C.IsKey q) (z : Bytes) (r : Nat) {s : Nat}
    (hpos : 1 ≤ s) (hlt : s < C.order) :
    VerificationEquation C q z r (C.order - s) ↔ VerificationEquation C q z r s := by
  have hz : beNat z % C.order * C.invert s % C.order < C.order := Nat.mod_lt _ (by omega)
  have hr : r * C.invert s % C.order < C.order := Nat.mod_lt _ (by omega)
  rw [VerificationEquation, hC.mul_invert_neg _ hpos hlt, hC.mul_invert_neg _ hpos hlt,
    hC.x_lincomb_neg q _ _ hq hz hr, VerificationEquation]

/-! ### Signing -/

/-- The verifier recovers the nonce of `sign_prehashed`. -/
theorem verificationEquation_of_sign {d k : Nat} {z : Bytes} {sig : EcdsaSignature C.order}
    (hd : d < C.order) (hk : k < C.order) (hsig : signPrehashed C d k z = some sig) :
    VerificationEquation C (C.mulByGenerator d) z sig.r sig.s := by
  obtain ⟨hk0, hr, hs⟩ := of_signPrehashed hsig
  have hpos : 0 < C.order := Nat.lt_of_le_of_lt (Nat.zero_le _) hk
  have hkinv := hC.cast_invert_mul (Nat.pos_of_ne_zero hk0) hk
  have hsinv := hC.cast_invert_mul sig.s_pos sig.s_lt
  have hscast : (sig.s : ZMod C.order) = C.invert k * (beNat z + sig.r * d) := by
    rw [hs]
    push_cast [ZMod.natCast_mod]
    ring
  have hnonce : (((beNat z % C.order * C.invert sig.s % C.order)
      + (sig.r * C.invert sig.s % C.order) * d : Nat) : ZMod C.order) = k := by
    push_cast [ZMod.natCast_mod]
    -- `k · s = z + r · d`, and `u₁ + u₂ · d` is that over `s`.
    linear_combination (-(C.invert sig.s * (beNat z + sig.r * d)) : ZMod C.order) * hkinv
      + (k : ZMod C.order) * hsinv - (C.invert sig.s * k : ZMod C.order) * hscast
  rw [VerificationEquation,
    hC.lincomb_mulByGenerator d _ _ hd (Nat.mod_lt _ hpos) (Nat.mod_lt _ hpos),
    mod_eq_mod_of_cast hnonce, Nat.mod_eq_of_lt hk]
  exact hr

/-- The signer succeeds on exactly the nonces that give two nonzero scalars. -/
theorem isSome_signPrehashed {d : Nat} (hdpos : 1 ≤ d) (hdlt : d < C.order) (z : Bytes) :
    (signPrehashed C d (C.generateK d z) z).isSome = true ↔ UsableNonce C d z := by
  obtain ⟨hkpos, hklt⟩ := hC.generateK_range d z hdpos hdlt
  unfold signPrehashed UsableNonce EcdsaSignature.fromScalars
  rw [if_neg (by omega)]
  dsimp only
  generalize C.generateK d z = k at hkpos hklt ⊢
  have hr : C.x (C.mulByGenerator k) % C.order < C.order := Nat.mod_lt _ (by omega)
  generalize C.x (C.mulByGenerator k) % C.order = r at hr ⊢
  generalize beNat z % C.order + r * d = w
  have hkinv := hC.cast_invert_mul hkpos hklt
  have hzero : C.invert k * w % C.order = 0 ↔ w % C.order = 0 := by
    rw [← Nat.dvd_iff_mod_eq_zero, ← Nat.dvd_iff_mod_eq_zero, ← ZMod.natCast_eq_zero_iff,
      ← ZMod.natCast_eq_zero_iff, Nat.cast_mul]
    constructor
    · intro h
      linear_combination (k : ZMod C.order) * h - (w : ZMod C.order) * hkinv
    · intro h
      rw [h, mul_zero]
  have hs : C.invert k * w % C.order < C.order := Nat.mod_lt _ (by omega)
  constructor
  · intro hsome
    split at hsome
    · next hrange => exact ⟨by omega, fun hw => by omega⟩
    · cases hsome
  · intro huse
    have hs0 : C.invert k * w % C.order ≠ 0 := fun h => huse.2 (hzero.mp h)
    rw [dif_pos ⟨⟨Nat.pos_of_ne_zero huse.1, hr⟩, Nat.pos_of_ne_zero hs0, hs⟩]
    rfl

end CurveArithmetic.Lawful

/-! ### Low S -/

namespace EcdsaSignature

/-- Normalizing twice is normalizing once, so it does not matter that `k256` has already
    done it. -/
theorem getD_normalizeS_idem {n : Nat} (hodd : n % 2 = 1) (sig : EcdsaSignature n) :
    (sig.normalizeS.getD sig).normalizeS.getD (sig.normalizeS.getD sig)
      = sig.normalizeS.getD sig := by
  rw [getD_normalizeS, isHigh_getD_normalizeS sig hodd, if_neg Bool.false_ne_true]

theorem le_half_of_not_high {n : Nat} (hodd : n % 2 = 1) {sig : EcdsaSignature n}
    (h : sig.isHigh = false) : sig.s ≤ (n - 1) / 2 := by
  have hle := of_decide_eq_false h
  omega

end EcdsaSignature

namespace CurveArithmetic.Lawful

variable {C : CurveArithmetic} (hC : C.Lawful)
include hC

/-- Of a pair that satisfies the equation and its opposite, the one with the low `s` is
    accepted. -/
theorem acceptsSignature_neg {q : C.Point} (hq : C.IsKey q) {msg : Bytes} {pair : EcdsaSignature C.order}
    (h : VerificationEquation C q (C.digest msg) pair.r pair.s) :
    (AcceptsSignature C q msg pair ↔ pair.isHigh = false) ∧
      (AcceptsSignature C q msg pair.negS ↔ pair.isHigh = true) := by
  have hneg : VerificationEquation C q (C.digest msg) pair.negS.r pair.negS.s :=
    (hC.verificationEquation_neg hq _ _ pair.s_pos pair.s_lt).mpr h
  refine ⟨and_iff_left h, (and_iff_left hneg).trans ?_⟩
  rw [pair.isHigh_negS hC.order_odd, Bool.not_eq_false']

theorem decide_acceptsSignature_neg {q : C.Point} (hq : C.IsKey q) {msg : Bytes}
    {pair : EcdsaSignature C.order} (h : VerificationEquation C q (C.digest msg) pair.r pair.s) :
    decide (AcceptsSignature C q msg pair.negS) = !decide (AcceptsSignature C q msg pair) := by
  obtain ⟨hpair, hneg⟩ := hC.acceptsSignature_neg hq h
  rw [Bool.eq_iff_iff, decide_eq_true_iff, Bool.not_eq_true', decide_eq_false_iff_not, hpair, hneg,
    Bool.not_eq_false]

/-- The normalized signature of a key is accepted under the key. -/
theorem acceptsSignature_of_sign {d k : Nat} {msg : Bytes} {sig : EcdsaSignature C.order}
    (hq : C.IsKey (C.mulByGenerator d)) (hd : d < C.order) (hk : k < C.order)
    (hsig : signPrehashed C d k (C.digest msg) = some sig) :
    AcceptsSignature C (C.mulByGenerator d) msg (sig.normalizeS.getD sig) := by
  obtain ⟨hpair, hneg⟩ := hC.acceptsSignature_neg hq (hC.verificationEquation_of_sign hd hk hsig)
  rw [EcdsaSignature.getD_normalizeS]
  split
  · next hhigh => exact hneg.mpr hhigh
  · next hlow => exact hpair.mpr (Bool.eq_false_of_not_eq_true hlow)

end CurveArithmetic.Lawful

end PhiCrypto

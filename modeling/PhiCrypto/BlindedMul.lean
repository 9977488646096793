import PhiCrypto.VoteCompleteness
import Mathlib.Data.Nat.Bitwise

/-!
# The blinded scalar multiplication

`blinded_mul` never multiplies by the voter secret. It multiplies the base by the
sum of the secret and a random blind, then by the blind, and subtracts. Both
multiplications are double-and-add loops over the bits of reduced scalars, so the
sum is the integer sum less `r` when it wraps, and the difference is off by `r • base`
then (`blindedMulBigint_eq`). On the subgroup of order `r` that is nothing, and the
nullifier does not depend on the blind.
-/

namespace PhiCrypto

/-! ### Double and add -/

section DoubleAndAdd

variable {E : Type} [AddCommGroup E]

/-- `BitIteratorBE`: the lowest `width` bits, most significant first. -/
def bitsBE (n : Nat) : Nat → List Bool
  | 0 => []
  | width + 1 => n.testBit width :: bitsBE n width

/-- One turn of the loop in `mul_affine`. -/
def doubleAdd (base res : E) (b : Bool) : E :=
  if b then res + res + base else res + res

/-- `Affine::mul_bigint`, for an exponent of four limbs of 64 bits. -/
def mulBigint (base : E) (n : Nat) : E :=
  ((bitsBE n 256).dropWhile (! ·)).foldl (doubleAdd base) 0

/-- Leading zeros double zero. -/
theorem foldl_doubleAdd_dropWhile (base : E) (bits : List Bool) :
    (bits.dropWhile (! ·)).foldl (doubleAdd base) 0 = bits.foldl (doubleAdd base) 0 := by
  induction bits with
  | nil => rfl
  | cons b bits ih =>
    cases b with
    | true => rfl
    | false => simpa [doubleAdd] using ih

theorem foldl_doubleAdd (base : E) (n width : Nat) (res : E) :
    (bitsBE n width).foldl (doubleAdd base) res = 2 ^ width • res + (n % 2 ^ width) • base := by
  induction width generalizing res with
  | zero => simp [bitsBE, Nat.mod_one]
  | succ width ih =>
    rw [bitsBE, List.foldl_cons, ih, Nat.mod_pow_succ, ← Nat.toNat_testBit]
    cases hbit : n.testBit width with
    | true =>
      simp only [doubleAdd, if_true, Bool.toNat_true]
      module
    | false =>
      simp only [doubleAdd, Bool.false_eq_true, if_false, Bool.toNat_false]
      module

theorem mulBigint_eq (base : E) {n : Nat} (hn : n < 2 ^ 256) : mulBigint base n = n • base := by
  rw [mulBigint, foldl_doubleAdd_dropWhile, foldl_doubleAdd, Nat.mod_eq_of_lt hn]
  simp

/-! ### The blind -/

variable {r : Nat} [NeZero r]

/-- `blinded_mul` on the whole curve, with its reduced exponents and for the blind that
    it draws. -/
def blindedMulBigint (base : E) (scalar blind : ZMod r) : E :=
  let masked := scalar + blind
  mulBigint base masked.val - mulBigint base blind.val

/-- The masked scalar may wrap; the result is then short of `r • base`. -/
theorem blindedMulBigint_eq (hr : r ≤ 2 ^ 256) (base : E) (scalar blind : ZMod r) :
    blindedMulBigint base scalar blind
      = scalar.val • base - if r ≤ scalar.val + blind.val then r • base else 0 := by
  have hmasked : (scalar + blind).val < 2 ^ 256 := (ZMod.val_lt _).trans_le hr
  have hblind : blind.val < 2 ^ 256 := (ZMod.val_lt _).trans_le hr
  rw [blindedMulBigint, mulBigint_eq base hmasked, mulBigint_eq base hblind]
  split
  · next hwrap =>
    have hval := ZMod.val_add_val_of_le hwrap
    have hsum : (scalar + blind).val • base + r • base = scalar.val • base + blind.val • base := by
      rw [← add_smul, ← add_smul, hval]
    rw [eq_sub_of_add_eq hsum]
    abel
  · next hfits =>
    rw [ZMod.val_add_of_lt (not_le.mp hfits), add_smul]
    abel

/-- On a base of order `r` the blind cancels. -/
theorem blindedMulBigint_of_order (hr : r ≤ 2 ^ 256) {base : E} (hbase : r • base = 0)
    (scalar blind : ZMod r) : blindedMulBigint base scalar blind = scalar.val • base := by
  rw [blindedMulBigint_eq hr, hbase, ite_self, sub_zero]

end DoubleAndAdd

/-! ### The nullifier -/

variable {S : Suite}

theorem order_smul (P : S.G1) : S.r • P = 0 := by
  rw [← Nat.cast_smul_eq_nsmul (ZMod S.r), CharP.cast_eq_zero, zero_smul]

theorem val_smul (x : S.Fr) (P : S.G1) : x.val • P = x • P := by
  rw [← Nat.cast_smul_eq_nsmul (ZMod S.r), ZMod.natCast_zmod_val]

/-- The loops compute what the prover's model takes from the group. -/
theorem blindedMulBigint_eq_blindedMul (base : S.G1) (scalar blind : S.Fr) :
    blindedMulBigint base scalar blind = blindedMul base scalar blind := by
  rw [blindedMulBigint_of_order S.order_le (order_smul base), blindedMul_eq, val_smul]

theorem VoteRun.nullifier_eq_claim {H : Bytes → S.Fr} {claims : List Bytes}
    {signature issuerPublicKey : Bytes} {reveal : List Nat} {chainId electionId signal : Bytes}
    {p : VoteProof S} (run : VoteRun H claims signature issuerPublicKey reveal chainId electionId
      signal p) {claim : Bytes} (hclaim : claims[voterSecretMsgIndex]? = some claim) :
    p.nullifier = claimToFr S claim • run.hE := by
  rw [run.nullifier_eq, List.getD_eq_getElem?_getD, List.getElem?_map, hclaim]
  rfl

/-- **The nullifier is a function of the secret and the election.** Whenever
    `prove_vote` returns a proof, its nullifier is the secret claim's scalar times the
    election's generator, it is what the blinded multiplication computes for every
    blind, wrapping or not, and every other successful call with the same secret claim
    and election has the same nullifier. -/
theorem nullifier_of_secret_and_election {H : Bytes → S.Fr} {claims : List Bytes}
    {signature issuerPublicKey : Bytes} {reveal : List Nat} {chainId electionId signal : Bytes}
    {p : VoteProof S}
    (h : Succeeds (proveVote H claims signature issuerPublicKey reveal chainId electionId signal)
      p) :
    ∃ claim hE, claims[voterSecretMsgIndex]? = some claim ∧ hashToG1 S electionId = .ok hE ∧
      p.nullifier = claimToFr S claim • hE ∧
      (∀ blind, blindedMulBigint hE (claimToFr S claim) blind = p.nullifier) ∧
      ∀ (H' : Bytes → S.Fr) (claims' : List Bytes) (signature' issuerPublicKey' : Bytes)
        (reveal' : List Nat) (chainId' signal' : Bytes) (p' : VoteProof S),
        Succeeds (proveVote H' claims' signature' issuerPublicKey' reveal' chainId' electionId
          signal') p' →
        claims'[voterSecretMsgIndex]? = some claim → p'.nullifier = p.nullifier := by
  obtain ⟨run⟩ := proveVote_inversion h
  obtain ⟨claim, hclaim⟩ : ∃ claim, claims[voterSecretMsgIndex]? = some claim := by
    have hne := run.inputs.claims_ne
    cases claims with
    | nil => exact absurd rfl hne
    | cons claim rest => exact ⟨claim, rfl⟩
  have hnullifier := run.nullifier_eq_claim hclaim
  refine ⟨claim, run.hE, hclaim, run.hE_eq, hnullifier, ?_, ?_⟩
  · intro blind
    rw [blindedMulBigint_eq_blindedMul, blindedMul_eq, hnullifier]
  · intro H' claims' signature' issuerPublicKey' reveal' chainId' signal' p' h' hclaim'
    obtain ⟨run'⟩ := proveVote_inversion h'
    have hgenerator : run'.hE = run.hE := Except.ok.inj (run'.hE_eq.symm.trans run.hE_eq)
    rw [run'.nullifier_eq_claim hclaim', hnullifier, hgenerator]

/-- The two runs differ in the third claim, the reveal set and the signal. -/
theorem smallVote_nullifiers_agree :
    ∃ p p' : VoteProof smallSuite,
      Succeeds (proveVote smallOracle [[0], [4], [1]] votingCredential.signature credentialKey [1]
        [] [] [1]) p ∧
      Succeeds (proveVote smallOracle [[0], [4], [2]] votingCredential.signature credentialKey []
        [] [] [2]) p' ∧
      p'.nullifier = p.nullifier := by
  obtain ⟨p, hp⟩ : ∃ p, Succeeds (proveVote smallOracle [[0], [4], [1]]
      votingCredential.signature credentialKey [1] [] [] [1]) p :=
    exists_succeeds (List.replicate 10 (1 : ZMod 7)) (by decide +kernel)
  obtain ⟨p', hp'⟩ : ∃ p, Succeeds (proveVote smallOracle [[0], [4], [2]]
      votingCredential.signature credentialKey [] [] [] [2]) p :=
    exists_succeeds (List.replicate 10 (1 : ZMod 7)) (by decide +kernel)
  obtain ⟨claim, hE, hclaim, -, -, -, hsame⟩ := nullifier_of_secret_and_election hp
  exact ⟨p, p', hp, hp', hsame _ _ _ _ _ _ _ _ hp' hclaim⟩

end PhiCrypto

import Mathlib.Data.List.Induction
import Mathlib.Tactic.Common

/-!
# Decimal numerals below a limit

Reading a numeral digit by digit, with a check against a limit after every digit, as
machine integers are read. The texts of a number are its decimal digits with any number
of zeros in front (`foldlM_step_eq_some_iff`).
-/

namespace PhiCrypto

namespace Decimal

/-- The value of a decimal digit. -/
def digitValue (c : Char) : Option Nat :=
  if '0'.toNat ≤ c.toNat ∧ c.toNat ≤ '9'.toNat then some (c.toNat - '0'.toNat) else none

/-- One more digit; the value has to stay below the limit. -/
def step (limit acc : Nat) (c : Char) : Option Nat :=
  (digitValue c).bind fun d => if acc * 10 + d < limit then some (acc * 10 + d) else none

variable {limit acc n : Nat} {c : Char} {s : List Char}

theorem digitValue_eq_some_iff {d : Nat} :
    digitValue c = some d ↔ d < 10 ∧ c = Nat.digitChar d := by
  unfold digitValue
  constructor
  · intro h
    split at h
    · next hc =>
      cases h
      have hlow : 48 ≤ c.toNat := hc.1
      have hhigh : c.toNat ≤ 57 := hc.2
      have hd : c.toNat - 48 < 10 := by omega
      refine ⟨hd, ?_⟩
      apply Char.toNat_inj.mp
      have hdigit : ∀ d < 10, (Nat.digitChar d).toNat = 48 + d := by decide
      exact (Nat.add_sub_cancel' hlow).symm.trans (hdigit _ hd).symm
    · cases h
  · rintro ⟨hd, rfl⟩
    revert d
    decide

theorem step_eq_some_iff :
    step limit acc c = some n ↔
      ∃ d < 10, c = Nat.digitChar d ∧ n = 10 * acc + d ∧ n < limit := by
  simp only [step, Option.bind_eq_some_iff, digitValue_eq_some_iff, Option.ite_none_right_eq_some,
    Option.some.injEq]
  constructor
  · rintro ⟨d, ⟨hd, hc⟩, hlt, rfl⟩
    exact ⟨d, hd, hc, by omega, hlt⟩
  · rintro ⟨d, hd, hc, rfl, hlt⟩
    exact ⟨d, ⟨hd, hc⟩, by omega, by omega⟩

theorem foldlM_toDigits (hn : n < limit) :
    (Nat.toDigits 10 n).foldlM (step limit) 0 = some n := by
  induction n using Nat.strongRecOn with
  | ind n ih =>
    by_cases hten : n < 10
    · rw [Nat.toDigits_of_lt_base hten, List.foldlM_cons]
      have hdigit := step_eq_some_iff.mpr ⟨n, hten, rfl, (by omega : n = 10 * 0 + n), hn⟩
      rw [hdigit]
      rfl
    · have hle : 10 ≤ n := Nat.not_lt.mp hten
      rw [Nat.toDigits_of_base_le (by decide) hle, List.foldlM_append,
        ih (n / 10) (by omega) (by omega)]
      have hdigit := step_eq_some_iff.mpr
        ⟨n % 10, Nat.mod_lt _ (by decide), rfl, (Nat.div_add_mod n 10).symm, hn⟩
      simp only [Option.bind_eq_bind, Option.bind_some, List.foldlM_cons, hdigit]
      rfl

theorem foldlM_replicate_zero (hlimit : 0 < limit) (zeros : Nat) :
    (List.replicate zeros '0').foldlM (step limit) 0 = some 0 := by
  induction zeros with
  | zero => rfl
  | succ zeros ih =>
    have hdigit : step limit 0 '0' = some 0 :=
      step_eq_some_iff.mpr ⟨0, by decide, rfl, rfl, hlimit⟩
    rw [List.replicate_succ, List.foldlM_cons, hdigit]
    exact ih

/-- The texts that are read as `n`. -/
theorem foldlM_step_eq_some_iff (hs : s ≠ []) :
    s.foldlM (step limit) 0 = some n ↔
      n < limit ∧ ∃ zeros, s = List.replicate zeros '0' ++ Nat.toDigits 10 n := by
  constructor
  · intro h
    induction s using List.reverseRecOn generalizing n with
    | nil => exact absurd rfl hs
    | append_singleton s c ih =>
      rw [List.foldlM_append, Option.bind_eq_bind, Option.bind_eq_some_iff] at h
      obtain ⟨acc, hacc, h⟩ := h
      rw [List.foldlM_cons, Option.bind_eq_bind, Option.bind_eq_some_iff] at h
      obtain ⟨n', hstep, h⟩ := h
      cases h
      obtain ⟨d, hd, rfl, rfl, hlt⟩ := step_eq_some_iff.mp hstep
      refine ⟨hlt, ?_⟩
      have hdigit : [Nat.digitChar d] = Nat.toDigits 10 d := (Nat.toDigits_of_lt_base hd).symm
      rcases List.eq_nil_or_concat s with rfl | ⟨t, e, rfl⟩
      · cases hacc
        exact ⟨0, by simpa using hdigit⟩
      · obtain ⟨-, zeros, hzeros⟩ := ih (by simp) hacc
        rw [hzeros, hdigit]
        rcases Nat.eq_zero_or_pos acc with rfl | hpos
        · refine ⟨zeros + 1, ?_⟩
          rw [Nat.toDigits_zero, List.replicate_succ', Nat.mul_zero, Nat.zero_add]
        · refine ⟨zeros, ?_⟩
          rw [List.append_assoc, Nat.toDigits_append_toDigits (by decide) hpos hd]
  · rintro ⟨hn, zeros, rfl⟩
    rw [List.foldlM_append, foldlM_replicate_zero (by omega)]
    exact foldlM_toDigits hn

end Decimal

end PhiCrypto

import Mathlib.Tactic.Ring
import Mathlib.Data.List.Induction

/-!
# Regrouping bits

A list of digits of `w` bits each, most significant first, is a string of bits, and with
it a number (`value`). Regrouping reads digits of `a` bits and gives out digits of `b` bits
of the same string. `Regroups` is the state in between: what was read is what was given
out and `k` pending bits. It is kept by every step that reads or gives out a digit, in any
order, so a loop of such steps needs no invariant of its own.

Machines keep the pending bits at the top of a word of `W` bits (`Aligned`), where reading
and giving out are shifts.
-/

namespace PhiCrypto

namespace Radix

variable {w a b : Nat} {ds es : List Nat}

/-! ### Digits -/

/-- The number of a list of digits of `w` bits. -/
def value (w : Nat) (ds : List Nat) : Nat := ds.foldl (fun v d => v * 2 ^ w + d) 0

/-- Every digit fits into `w` bits. -/
def Bounded (w : Nat) (ds : List Nat) : Prop := ∀ d ∈ ds, d < 2 ^ w

@[simp] theorem value_nil (w : Nat) : value w [] = 0 := rfl

theorem value_concat (w : Nat) (ds : List Nat) (d : Nat) :
    value w (ds ++ [d]) = value w ds * 2 ^ w + d := by
  simp [value]

theorem bounded_concat_iff {d : Nat} : Bounded w (ds ++ [d]) ↔ Bounded w ds ∧ d < 2 ^ w := by
  simp only [Bounded, List.mem_append, List.mem_singleton]
  constructor
  · intro h
    exact ⟨fun e he => h e (.inl he), h d (.inr rfl)⟩
  · rintro ⟨hds, hd⟩ e (he | rfl)
    · exact hds e he
    · exact hd

/-- Digits of one width are determined by their number and how many they are. -/
theorem eq_of_value_eq (hlen : ds.length = es.length) (hds : Bounded w ds) (hes : Bounded w es)
    (h : value w ds = value w es) : ds = es := by
  induction ds using List.reverseRecOn generalizing es with
  | nil => exact (List.length_eq_zero_iff.mp hlen.symm).symm
  | append_singleton ds d ih =>
    obtain ⟨es, e, rfl⟩ : ∃ es' e, es = es' ++ [e] := by
      have hne : es ≠ [] := by
        intro hnil
        simp [hnil] at hlen
      exact ⟨es.dropLast, es.getLast hne, (List.dropLast_concat_getLast hne).symm⟩
    obtain ⟨hds, hd⟩ := bounded_concat_iff.mp hds
    obtain ⟨hes, he⟩ := bounded_concat_iff.mp hes
    rw [value_concat, value_concat] at h
    have hmod := congrArg (· % 2 ^ w) h
    have hdiv := congrArg (· / 2 ^ w) h
    simp only [Nat.mul_add_mod_self_right, Nat.mod_eq_of_lt hd, Nat.mod_eq_of_lt he] at hmod
    simp only [Nat.mul_comm _ (2 ^ w), Nat.mul_add_div (Nat.two_pow_pos w), Nat.div_eq_of_lt hd,
      Nat.div_eq_of_lt he, Nat.add_zero] at hdiv
    rw [ih (by simpa using hlen) hds hes hdiv, hmod]

/-! ### Reading and giving out -/

/-- The digits `ds` of `a` bits were read, the digits `out` of `b` bits were given out, and
    the last `k` bits, of value `v`, are pending. -/
structure Regroups (a b : Nat) (ds out : List Nat) (k v : Nat) : Prop where
  value_eq : value b out * 2 ^ k + v = value a ds
  length_eq : b * out.length + k = a * ds.length
  pending_lt : v < 2 ^ k
  bounded : Bounded b out

namespace Regroups

variable {out : List Nat} {k v d : Nat}

theorem start (a b : Nat) : Regroups a b [] [] 0 0 where
  value_eq := rfl
  length_eq := rfl
  pending_lt := Nat.one_pos
  bounded := by simp [Bounded]

theorem read (h : Regroups a b ds out k v) (hd : d < 2 ^ a) :
    Regroups a b (ds ++ [d]) out (k + a) (v * 2 ^ a + d) where
  value_eq := by
    rw [value_concat, ← h.value_eq, pow_add]
    ring
  length_eq := by
    rw [List.length_append, List.length_singleton, Nat.mul_add, ← h.length_eq]
    ring
  pending_lt := by
    have hv : v + 1 ≤ 2 ^ k := h.pending_lt
    calc v * 2 ^ a + d < v * 2 ^ a + 2 ^ a := by omega
      _ = (v + 1) * 2 ^ a := by ring
      _ ≤ 2 ^ k * 2 ^ a := Nat.mul_le_mul_right _ hv
      _ = 2 ^ (k + a) := (pow_add 2 k a).symm
  bounded := h.bounded

theorem giveOut (h : Regroups a b ds out k v) (hk : b ≤ k) :
    Regroups a b ds (out ++ [v / 2 ^ (k - b)]) (k - b) (v % 2 ^ (k - b)) where
  value_eq := by
    have hsplit : 2 ^ k = 2 ^ b * 2 ^ (k - b) := by rw [← pow_add, Nat.add_sub_cancel' hk]
    rw [value_concat, ← h.value_eq, hsplit, Nat.add_mul, Nat.add_assoc, Nat.div_add_mod' v,
      Nat.mul_assoc]
  length_eq := by
    rw [List.length_append, List.length_singleton, Nat.mul_add, ← h.length_eq]
    omega
  pending_lt := Nat.mod_lt _ (Nat.two_pow_pos _)
  bounded := by
    refine bounded_concat_iff.mpr ⟨h.bounded, ?_⟩
    apply Nat.div_lt_of_lt_mul
    rw [← pow_add, Nat.sub_add_cancel hk]
    exact h.pending_lt

/-- Regrouping back gives the digits that were read. -/
theorem back {ds' : List Nat} (h : Regroups a b ds out 0 0) (hback : Regroups b a out ds' 0 0)
    (ha : 0 < a) (hds : Bounded a ds) : ds' = ds := by
  have hlen : a * ds'.length = a * ds.length := by
    rw [← h.length_eq, ← hback.length_eq]
    rfl
  have hvalue : value a ds' = value a ds := by
    simpa using hback.value_eq.trans (by simpa using h.value_eq)
  exact eq_of_value_eq (Nat.eq_of_mul_eq_mul_left ha hlen) hback.bounded hds hvalue

end Regroups

/-! ### Words with the pending bits at the top -/

/-- The top `k` bits of a word of `W` bits have the value `v`, the others are zero. -/
def Aligned (W k v word : Nat) : Prop := k ≤ W ∧ v < 2 ^ k ∧ word = v * 2 ^ (W - k)

namespace Aligned

variable {W k v d word : Nat}

theorem start (W : Nat) : Aligned W 0 0 0 := ⟨Nat.zero_le W, Nat.one_pos, by simp⟩

/-- A digit goes right below the bits that are pending. -/
theorem read (h : Aligned W k v word) (hd : d < 2 ^ a) (hfit : k + a ≤ W) :
    Aligned W (k + a) (v * 2 ^ a + d) (word ||| d * 2 ^ (W - (k + a))) := by
  obtain ⟨-, hv, rfl⟩ := h
  refine ⟨hfit, ?_, ?_⟩
  · calc v * 2 ^ a + d < (v + 1) * 2 ^ a := by
          rw [Nat.add_mul]
          omega
      _ ≤ 2 ^ k * 2 ^ a := Nat.mul_le_mul_right _ hv
      _ = 2 ^ (k + a) := (pow_add 2 k a).symm
  · have hsplit : W - k = a + (W - (k + a)) := by omega
    have hlow : d * 2 ^ (W - (k + a)) < 2 ^ (W - k) := by
      rw [hsplit, pow_add]
      exact Nat.mul_lt_mul_of_pos_right hd (Nat.two_pow_pos _)
    rw [Nat.mul_comm v, ← Nat.two_pow_add_eq_or_of_lt hlow, hsplit, pow_add]
    ring

/-- The top digit and the word without it. -/
theorem giveOut (h : Aligned W k v word) (hk : b ≤ k) :
    word >>> (W - b) = v / 2 ^ (k - b) ∧
      Aligned W (k - b) (v % 2 ^ (k - b)) ((word <<< b) % 2 ^ W) := by
  obtain ⟨hW, hv, rfl⟩ := h
  constructor
  · have hsplit : W - b = (k - b) + (W - k) := by omega
    rw [Nat.shiftRight_eq_div_pow, hsplit, pow_add,
      Nat.mul_div_mul_right _ _ (Nat.two_pow_pos _)]
  · refine ⟨by omega, Nat.mod_lt _ (Nat.two_pow_pos _), ?_⟩
    have hsplit : W - (k - b) = W - k + b := by omega
    have hword : W = (k - b) + (W - (k - b)) := by omega
    rw [Nat.shiftLeft_eq, Nat.mul_assoc, ← pow_add, ← hsplit]
    conv_lhs => rw [hword, Nat.add_sub_cancel_left, pow_add]
    rw [Nat.mul_mod_mul_right]

/-- The bits of a word that are not pending. -/
theorem eq_zero (h : Aligned W 0 v word) : v = 0 ∧ word = 0 := by
  obtain ⟨-, hv, rfl⟩ := h
  have hzero : v = 0 := by simpa using hv
  exact ⟨hzero, by rw [hzero, Nat.zero_mul]⟩

end Aligned

end Radix

end PhiCrypto

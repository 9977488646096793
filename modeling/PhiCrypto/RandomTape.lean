import Mathlib.Tactic.Common
import Mathlib.Logic.Equiv.Basic
import Mathlib.Data.List.Basic

/-!
# Programs with a random tape

A randomised program reads its randomness from a finite tape of uniform values;
a tape that is too short gives no result (`none`). What a program draws from the
tape can be described once and for all: `Lossless read write wf` says that the
draws of `read` are a way of cutting the front off a tape, with `write` as the
inverse.

A bijection on what was drawn extends to a bijection on tapes (`permute`), which
keeps the length if every rewriting does. This is the form in which two programs
are shown to have the same output distribution.
-/

namespace PhiCrypto

/-- A program that reads values of type `F` off a tape. -/
abbrev Rng (F α : Type) := StateT (List F) Option α

namespace Rng

variable {F C α β : Type}

/-- The next value. -/
def draw : Rng F F := fun tape =>
  match tape with
  | [] => none
  | x :: rest => some (x, rest)

/-- The next `n` values. -/
def drawMany : Nat → Rng F (List F)
  | 0 => pure []
  | n + 1 => do
    let x ← draw
    let xs ← drawMany n
    pure (x :: xs)

section NonZero

variable [Zero F] [DecidableEq F]

/-- The next value that is not zero, with the number of zeros before it. -/
def drawNonZeroCounted : List F → Option ((Nat × F) × List F)
  | [] => none
  | x :: rest =>
    if x = 0 then (drawNonZeroCounted rest).map fun p => ((p.1.1 + 1, p.1.2), p.2)
    else some ((0, x), rest)

/-- Draw until the value is not zero. -/
def drawNonZero : Rng F F := fun tape =>
  (drawNonZeroCounted tape).map fun p => (p.1.2, p.2)

end NonZero

/-- Draw until the value passes a test. -/
def drawUntil (test : F → Bool) : Rng F F
  | [] => none
  | x :: rest => if test x then some (x, rest) else drawUntil test rest

theorem bind_apply (x : Rng F α) (f : α → Rng F β) (tape : List F) :
    (x >>= f) tape = (x tape).bind fun p => f p.1 p.2 := rfl

theorem pure_apply (a : α) (tape : List F) : (pure a : Rng F α) tape = some (a, tape) := rfl

theorem bind_eq_some_iff {x : Rng F α} {f : α → Rng F β} {tape rest : List F} {b : β} :
    (x >>= f) tape = some (b, rest) ↔
      ∃ a middle, x tape = some (a, middle) ∧ f a middle = some (b, rest) := by
  rw [bind_apply, Option.bind_eq_some_iff]
  simp only [Prod.exists]

theorem map_apply (f : α → β) (x : Rng F α) (tape : List F) :
    (f <$> x) tape = (x tape).map fun p => (f p.1, p.2) := by
  change (x tape).bind (fun p => some (f p.1, p.2)) = _
  cases x tape <;> rfl

/-! ### Draws that lose nothing -/

/-- `read` cuts `write c` off the front of a tape and returns `c`. -/
structure Lossless (read : Rng F C) (write : C → List F) (wf : C → Prop) : Prop where
  complete : ∀ {c : C} (rest : List F), wf c → read (write c ++ rest) = some (c, rest)
  sound : ∀ {tape rest : List F} {c : C}, read tape = some (c, rest) →
    wf c ∧ tape = write c ++ rest

theorem lossless_draw : Lossless (draw (F := F)) (fun x => [x]) (fun _ => True) where
  complete := by
    intro x rest _
    rfl
  sound := by
    intro tape rest x h
    cases tape with
    | nil => cases h
    | cons y tape =>
      cases h
      exact ⟨trivial, rfl⟩

theorem lossless_drawMany (n : Nat) :
    Lossless (drawMany (F := F) n) id (fun xs => xs.length = n) where
  complete := by
    induction n with
    | zero =>
      intro xs rest hlen
      obtain rfl := List.length_eq_zero_iff.mp hlen
      rfl
    | succ n ih =>
      intro xs rest hlen
      obtain ⟨x, xs, rfl⟩ := List.exists_cons_of_length_eq_add_one hlen
      have hrest := ih rest (c := xs) (by simpa using hlen)
      rw [drawMany, bind_eq_some_iff]
      exact ⟨x, xs ++ rest, rfl, bind_eq_some_iff.mpr ⟨xs, rest, hrest, rfl⟩⟩
  sound := by
    induction n with
    | zero =>
      intro tape rest xs h
      cases h
      exact ⟨rfl, rfl⟩
    | succ n ih =>
      intro tape rest xs h
      rw [drawMany, bind_eq_some_iff] at h
      rcases h with ⟨x, middle, hx, h⟩
      rw [bind_eq_some_iff] at h
      rcases h with ⟨tail, end', htail, h⟩
      cases h
      obtain ⟨-, rfl⟩ := lossless_draw.sound hx
      obtain ⟨hlen, rfl⟩ := ih htail
      exact ⟨by simp [hlen], rfl⟩

theorem lossless_drawNonZeroCounted [Zero F] [DecidableEq F] :
    Lossless (drawNonZeroCounted (F := F)) (fun c => List.replicate c.1 0 ++ [c.2])
      (fun c => c.2 ≠ 0) where
  complete := by
    rintro ⟨k, x⟩ rest hx
    induction k with
    | zero => simp [drawNonZeroCounted, hx]
    | succ k ih =>
      rw [List.replicate_succ, List.cons_append, List.cons_append, drawNonZeroCounted,
        if_pos rfl, ih hx]
      rfl
  sound := by
    intro tape
    induction tape with
    | nil => intro rest c h; cases h
    | cons y tape ih =>
      intro rest c h
      rw [drawNonZeroCounted] at h
      split at h
      · next hy =>
        rw [Option.map_eq_some_iff] at h
        rcases h with ⟨⟨⟨k, x⟩, rest'⟩, hrec, h⟩
        cases h
        obtain ⟨hx, htape⟩ := ih hrec
        exact ⟨hx, by rw [htape, hy]; simp [List.replicate_succ]⟩
      · next hy =>
        cases h
        exact ⟨hy, rfl⟩

namespace Lossless

variable {read : Rng F C} {write : C → List F} {wf : C → Prop}

/-- Rewrite what `read` draws; a tape that is too short stays as it is. -/
def rewrite (read : Rng F C) (write : C → List F) (σ : C → C) (tape : List F) : List F :=
  match read tape with
  | none => tape
  | some (c, rest) => write (σ c) ++ rest

theorem read_rewrite (h : Lossless read write wf) {σ : C → C} (hσ : ∀ c, wf c → wf (σ c))
    (tape : List F) :
    read (rewrite read write σ tape) = (read tape).map fun p => (σ p.1, p.2) := by
  unfold rewrite
  cases hread : read tape with
  | none => simpa using hread
  | some p =>
    obtain ⟨c, rest⟩ := p
    exact h.complete rest (hσ c (h.sound hread).1)

theorem rewrite_rewrite (h : Lossless read write wf) {σ τ : C → C} (hσ : ∀ c, wf c → wf (σ c))
    (hτσ : ∀ c, wf c → τ (σ c) = c) (tape : List F) :
    rewrite read write τ (rewrite read write σ tape) = tape := by
  have hback := h.read_rewrite hσ tape
  rw [rewrite, hback]
  cases hread : read tape with
  | none =>
    rw [rewrite, hread]
    rfl
  | some p =>
    obtain ⟨c, rest⟩ := p
    obtain ⟨hwf, htape⟩ := h.sound hread
    simp only [Option.map_some, hτσ c hwf, htape]

/-- A permutation of what `read` draws, as a permutation of tapes. -/
def permute (h : Lossless read write wf) (σ τ : C → C) (hσ : ∀ c, wf c → wf (σ c))
    (hτ : ∀ c, wf c → wf (τ c)) (hτσ : ∀ c, wf c → τ (σ c) = c)
    (hστ : ∀ c, wf c → σ (τ c) = c) : List F ≃ List F where
  toFun := rewrite read write σ
  invFun := rewrite read write τ
  left_inv := h.rewrite_rewrite hσ hτσ
  right_inv := h.rewrite_rewrite hτ hστ

theorem length_rewrite (h : Lossless read write wf) {σ : C → C}
    (hlen : ∀ c, wf c → (write (σ c)).length = (write c).length) (tape : List F) :
    (rewrite read write σ tape).length = tape.length := by
  unfold rewrite
  cases hread : read tape with
  | none => rfl
  | some p =>
    obtain ⟨c, rest⟩ := p
    obtain ⟨hwf, htape⟩ := h.sound hread
    rw [htape]
    simp [hlen c hwf]

end Lossless

theorem test_of_drawUntil {test : F → Bool} {tape rest : List F} {x : F}
    (h : drawUntil test tape = some (x, rest)) : test x = true := by
  induction tape with
  | nil => cases h
  | cons y tape ih =>
    rw [drawUntil] at h
    split at h
    · next hy =>
      cases h
      exact hy
    · exact ih h

/-! ### Endless tapes -/

/-- The outcome `a` on an endless tape: some initial part of it is enough. -/
def Outcome (x : Rng F α) (ω : Nat → F) (a : α) : Prop :=
  ∃ n rest, x ((List.range n).map ω) = some (a, rest)

/-- A computation on draws has an outcome where the draws have one, and none that is
    not computed on draws. -/
theorem outcome_iff_of_run {read : Rng F C} {f : C → β} {x : Rng F β}
    (hx : ∀ tape, x tape = (read tape).map fun p => (f p.1, p.2)) {ω : Nat → F} {b : β} :
    Outcome x ω b ↔ ∃ c, Outcome read ω c ∧ b = f c := by
  constructor
  · rintro ⟨n, rest, h⟩
    rw [hx, Option.map_eq_some_iff] at h
    rcases h with ⟨⟨c, rest'⟩, hread, h⟩
    cases h
    exact ⟨c, ⟨n, rest', hread⟩, rfl⟩
  · rintro ⟨c, ⟨n, rest, hread⟩, rfl⟩
    exact ⟨n, rest, by rw [hx, hread]; rfl⟩

theorem outcome_draw_bind_iff {f : F → Rng F β} {ω : Nat → F} {b : β} :
    Outcome (draw >>= f) ω b ↔ Outcome (f (ω 0)) (fun i => ω (i + 1)) b := by
  have hcons : ∀ n, (List.range (n + 1)).map ω = ω 0 :: (List.range n).map fun i => ω (i + 1) := by
    intro n
    rw [List.range_succ_eq_map, List.map_cons, List.map_map]
    rfl
  constructor
  · rintro ⟨n, rest, h⟩
    cases n with
    | zero => cases h
    | succ n =>
      rw [hcons] at h
      exact ⟨n, rest, h⟩
  · rintro ⟨n, rest, h⟩
    refine ⟨n + 1, rest, ?_⟩
    rw [hcons]
    exact h

/-- Draws that lose nothing have an outcome on a tape that starts with one. -/
theorem Lossless.outcome {read : Rng F C} {write : C → List F} {wf : C → Prop}
    (h : Lossless read write wf) {ω : Nat → F} {c : C} {n : Nat} (hc : wf c)
    (htape : (List.range n).map ω = write c) : Outcome read ω c := by
  refine ⟨n, [], ?_⟩
  rw [htape, ← List.append_nil (write c)]
  exact h.complete [] hc

/-- What was drawn from an endless tape stands at its start. -/
theorem Lossless.getElem?_write {read : Rng F C} {write : C → List F} {wf : C → Prop}
    (h : Lossless read write wf) {ω : Nat → F} {c : C} (hout : Outcome read ω c) :
    wf c ∧ ∀ i x, (write c)[i]? = some x → ω i = x := by
  rcases hout with ⟨n, rest, hread⟩
  obtain ⟨hc, htape⟩ := h.sound hread
  refine ⟨hc, fun i x hx => ?_⟩
  have hi : i < (write c).length := (List.getElem?_eq_some_iff.mp hx).1
  have hat : ((List.range n).map ω)[i]? = some x := by
    rw [htape, List.getElem?_append_left hi, hx]
  rw [List.getElem?_map, Option.map_eq_some_iff] at hat
  rcases hat with ⟨j, hj, hx'⟩
  have hji : i = j := by
    obtain ⟨hlt, hget⟩ := List.getElem?_eq_some_iff.mp hj
    rwa [List.getElem_range] at hget
  rw [hji, hx']

/-- An endless tape determines what is drawn from it. -/
theorem Lossless.outcome_unique {read : Rng F C} {write : C → List F} {wf : C → Prop}
    (h : Lossless read write wf) {ω : Nat → F} {c c' : C} (hout : Outcome read ω c)
    (hout' : Outcome read ω c') : c = c' := by
  have hlonger : ∀ {n m rest rest' c c'}, n ≤ m →
      read ((List.range n).map ω) = some (c, rest) →
      read ((List.range m).map ω) = some (c', rest') → c = c' := by
    intro n m rest rest' c c' hle hread hread'
    obtain ⟨hc, htape⟩ := h.sound hread
    obtain ⟨d, rfl⟩ := Nat.exists_eq_add_of_le hle
    rw [List.range_add, List.map_append, htape, List.append_assoc, h.complete _ hc] at hread'
    exact (Prod.mk.inj (Option.some.inj hread')).1
  rcases hout with ⟨n, rest, hread⟩
  rcases hout' with ⟨m, rest', hread'⟩
  rcases Nat.le_total n m with hle | hle
  · exact hlonger hle hread hread'
  · exact (hlonger hle hread' hread).symm

/-! ### Coupled programs -/

/-- Some length-preserving bijection of tapes carries every outcome of `x` to the
    same outcome of `y`: on a uniform tape the two have one distribution. -/
def Coupled (x y : Rng F α) : Prop :=
  ∃ φ : List F ≃ List F, (∀ tape, (φ tape).length = tape.length) ∧
    ∀ tape, (x tape).map Prod.fst = (y (φ tape)).map Prod.fst

theorem Coupled.refl (x : Rng F α) : Coupled x x :=
  ⟨Equiv.refl _, fun _ => rfl, fun _ => rfl⟩

/-- Two programs that draw the same kind of coins are coupled by a permutation of
    the coins under which their computations agree. -/
theorem Lossless.coupled {read : Rng F C} {write : C → List F} {wf : C → Prop}
    (h : Lossless read write wf) {f g : C → α} {x y : Rng F α}
    (hx : ∀ tape, x tape = (read tape).map fun p => (f p.1, p.2))
    (hy : ∀ tape, y tape = (read tape).map fun p => (g p.1, p.2))
    {σ τ : C → C} (hσ : ∀ c, wf c → wf (σ c)) (hτ : ∀ c, wf c → wf (τ c))
    (hτσ : ∀ c, wf c → τ (σ c) = c) (hστ : ∀ c, wf c → σ (τ c) = c)
    (hlen : ∀ c, wf c → (write (σ c)).length = (write c).length)
    (hagree : ∀ c, wf c → g (σ c) = f c) : Coupled x y := by
  refine ⟨h.permute σ τ hσ hτ hτσ hστ, h.length_rewrite hlen, ?_⟩
  intro tape
  change (x tape).map Prod.fst = (y (rewrite read write σ tape)).map Prod.fst
  rw [hx, hy, h.read_rewrite hσ]
  cases hread : read tape with
  | none => rfl
  | some p =>
    have hwf := (h.sound hread).1
    simp only [Option.map_some, hagree p.1 hwf]

end Rng

end PhiCrypto

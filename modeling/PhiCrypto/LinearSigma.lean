import Mathlib.Algebra.Module.Basic
import Mathlib.Algebra.Field.Basic
import Mathlib.Algebra.BigOperators.Group.List.Basic
import Mathlib.Tactic.Module
import Mathlib.Tactic.FieldSimp
import Mathlib.Tactic.LinearCombination

/-!
# Schnorr protocols for linear relations

A prover shows knowledge of scalars `w` with `msm bases w = y` by committing to
`t = msm bases b`, receiving a challenge `c` and answering `z = b + w * c`; the
verifier checks `msm bases z - c • y = t`. One base gives the discrete-logarithm
protocol, two the Pedersen opening, any number the generalised one.

Over an arbitrary field and an arbitrary vector space, this module proves what
such proofs rest on: two answers to different challenges give a witness
(`msm_extract`), one set of answers for two statements ties the statements
together (`smul_eq_smul_of_same_response`), and moving the blindings along the
difference of two witnesses changes neither the commitment nor the answer
(`msm_shiftBlindings`, `respond_shiftBlindings`).
-/

namespace PhiCrypto

variable {F G : Type} [Field F] [AddCommGroup G] [Module F G]

/-! ### Multi-scalar multiplication -/

/-- `bases[0] * scalars[0] + bases[1] * scalars[1] + ...`; extra entries of the
    longer list are ignored (`msm_unchecked`). -/
def msm (bases : List G) (scalars : List F) : G :=
  (List.zipWith (fun b s => s • b) bases scalars).sum

@[simp] theorem msm_nil_left (scalars : List F) : msm ([] : List G) scalars = 0 := by
  simp [msm]

@[simp] theorem msm_nil_right (bases : List G) : msm bases ([] : List F) = 0 := by
  simp [msm]

@[simp] theorem msm_cons (b : G) (bases : List G) (s : F) (scalars : List F) :
    msm (b :: bases) (s :: scalars) = s • b + msm bases scalars := by
  simp [msm]

theorem msm_append {bases bases' : List G} {scalars scalars' : List F}
    (hlen : bases.length = scalars.length) :
    msm (bases ++ bases') (scalars ++ scalars') = msm bases scalars + msm bases' scalars' := by
  simp only [msm]
  rw [List.zipWith_append hlen, List.sum_append]

/-- `msm` is linear in the scalars. -/
theorem msm_zipWith_add_mul (c : F) (bases : List G) :
    ∀ {xs ys : List F}, xs.length = ys.length →
      msm bases (List.zipWith (fun x y => x + y * c) xs ys)
        = msm bases xs + c • msm bases ys := by
  induction bases with
  | nil => intros; simp
  | cons b bases ih =>
    intro xs ys hlen
    cases xs with
    | nil =>
      obtain rfl := List.length_eq_zero_iff.mp hlen.symm
      simp
    | cons x xs =>
      obtain ⟨y, ys, rfl⟩ := List.exists_cons_of_length_eq_add_one hlen.symm
      have hlen' : xs.length = ys.length := by simpa using hlen
      simp only [List.zipWith_cons_cons, msm_cons, ih hlen']
      module

/-! ### Special soundness -/

/-- The witness that two answers to the challenges `c` and `c'` determine. -/
def extract (c c' : F) (zs zs' : List F) : List F :=
  List.zipWith (fun z z' => (z - z') / (c - c')) zs zs'

theorem extract_length {c c' : F} {zs zs' : List F} (hlen : zs.length = zs'.length) :
    (extract c c' zs zs').length = zs.length := by
  simp [extract, hlen]

theorem getElem?_extract (c c' : F) {zs zs' : List F} {i : Nat} {z z' : F}
    (hz : zs[i]? = some z) (hz' : zs'[i]? = some z') :
    (extract c c' zs zs')[i]? = some ((z - z') / (c - c')) := by
  simp [extract, List.getElem?_zipWith, hz, hz']

theorem msm_extract_eq_smul (c c' : F) (bases : List G) :
    ∀ {zs zs' : List F}, zs.length = zs'.length →
      msm bases (extract c c' zs zs')
        = (c - c')⁻¹ • (msm bases zs - msm bases zs') := by
  induction bases with
  | nil => intros; simp
  | cons b bases ih =>
    intro zs zs' hlen
    cases zs with
    | nil =>
      obtain rfl := List.length_eq_zero_iff.mp hlen.symm
      simp [extract]
    | cons z zs =>
      obtain ⟨z', zs', rfl⟩ := List.exists_cons_of_length_eq_add_one hlen.symm
      have hlen' : zs.length = zs'.length := by simpa using hlen
      have hcons : extract c c' (z :: zs) (z' :: zs')
          = (z - z') / (c - c') :: extract c c' zs zs' := rfl
      rw [hcons, msm_cons, ih hlen', msm_cons, msm_cons, div_eq_inv_mul]
      module

/-- **Special soundness.** Two accepted answers for one commitment and two
    different challenges yield a witness of the statement. -/
theorem msm_extract {c c' : F} (hc : c ≠ c') {bases : List G} {zs zs' : List F} {y t : G}
    (hlen : zs.length = zs'.length)
    (h : msm bases zs + (-c) • y = t) (h' : msm bases zs' + (-c') • y = t) :
    msm bases (extract c c' zs zs') = y := by
  have hne : c - c' ≠ 0 := sub_ne_zero.mpr hc
  have hdiff : msm bases zs - msm bases zs' = (c - c') • y := by
    have heq : msm bases zs + (-c) • y = msm bases zs' + (-c') • y := h.trans h'.symm
    have hmove : msm bases zs = msm bases zs' + (-c') • y - (-c) • y :=
      eq_sub_of_add_eq heq
    rw [hmove]
    module
  rw [msm_extract_eq_smul c c' bases hlen, hdiff, inv_smul_smul₀ hne]

/-! ### One answer, two statements -/

/-- If the same commitment and answer are accepted for `(y, c)` and `(y', c')`,
    the two statements are tied by the challenges. -/
theorem smul_eq_smul_of_same_response {c c' : F} {p y y' t : G}
    (h : p + (-c) • y = t) (h' : p + (-c') • y' = t) : c • y = c' • y' := by
  have heq : (-c) • y = (-c') • y' := add_left_cancel (h.trans h'.symm)
  simpa using heq

/-- The same statement and answer under two challenges: a non-zero statement
    admits only one. -/
theorem challenge_unique {c c' : F} {p y t : G} (hy : y ≠ 0)
    (h : p + (-c) • y = t) (h' : p + (-c') • y = t) : c = c' := by
  have hzero : (c - c') • y = 0 := by
    rw [sub_smul, smul_eq_smul_of_same_response h h', sub_self]
  exact sub_eq_zero.mp ((smul_eq_zero.mp hzero).resolve_right hy)

/-! ### Changing the witness behind a transcript -/

/-- Answer the challenge `c`: `blindings[i] + witnesses[i] * c`. -/
def respond (c : F) (blindings witnesses : List F) : List F :=
  List.zipWith (fun b w => b + w * c) blindings witnesses

/-- **Completeness.** The answers of a prover who knows a witness are accepted. -/
theorem msm_respond {c : F} {bases : List G} {bs ws : List F} {y t : G}
    (hlen : bs.length = ws.length) (hcommit : msm bases bs = t) (hwitness : msm bases ws = y) :
    msm bases (respond c bs ws) + (-c) • y = t := by
  rw [respond, msm_zipWith_add_mul c bases hlen, hcommit, hwitness]
  module

/-- The blindings under which the witness `ws'` answers as `ws` does under `bs`. -/
def shiftBlindings (c : F) (ws ws' bs : List F) : List F :=
  List.zipWith (fun b d => b + d * c) bs (List.zipWith (fun w w' => w - w') ws ws')

theorem shiftBlindings_length {c : F} {ws ws' bs : List F} (hws : ws.length = bs.length)
    (hws' : ws'.length = bs.length) : (shiftBlindings c ws ws' bs).length = bs.length := by
  simp [shiftBlindings, hws, hws']

theorem shiftBlindings_append (c : F) {bs bs₂ ws ws₂ ws' ws₂' : List F}
    (hws : ws.length = bs.length) (hws' : ws'.length = bs.length) :
    shiftBlindings c (ws ++ ws₂) (ws' ++ ws₂') (bs ++ bs₂)
      = shiftBlindings c ws ws' bs ++ shiftBlindings c ws₂ ws₂' bs₂ := by
  simp only [shiftBlindings]
  rw [List.zipWith_append (hws.trans hws'.symm), List.zipWith_append (by simp [hws, hws'])]

theorem respond_shiftBlindings (c : F) :
    ∀ {bs ws ws' : List F}, ws.length = bs.length → ws'.length = bs.length →
      respond c (shiftBlindings c ws ws' bs) ws' = respond c bs ws := by
  intro bs
  induction bs with
  | nil =>
    intro ws ws' hws hws'
    simp [respond, shiftBlindings]
  | cons b bs ih =>
    intro ws ws' hws hws'
    obtain ⟨w, ws, rfl⟩ := List.exists_cons_of_length_eq_add_one hws
    obtain ⟨w', ws', rfl⟩ := List.exists_cons_of_length_eq_add_one hws'
    have hrest := ih (by simpa using hws) (by simpa using hws')
    simp only [respond, shiftBlindings] at hrest
    simp only [respond, shiftBlindings, List.zipWith_cons_cons, hrest, List.cons.injEq,
      and_true]
    ring

theorem msm_shiftBlindings {c : F} {bases : List G} {bs ws ws' : List F}
    (hws : ws.length = bs.length) (hws' : ws'.length = bs.length)
    (hsame : msm bases ws = msm bases ws') :
    msm bases (shiftBlindings c ws ws' bs) = msm bases bs := by
  have hdiff : msm bases (List.zipWith (fun w w' => w - w') ws ws') = 0 := by
    have hlin := msm_zipWith_add_mul (-1 : F) bases (hws.trans hws'.symm)
    simp only [mul_neg, mul_one, ← sub_eq_add_neg] at hlin
    rw [hlin, hsame]
    module
  rw [shiftBlindings, msm_zipWith_add_mul c bases (by simp [hws, hws']), hdiff]
  simp

/-- In general the commitment moves by the difference of the witnesses' images. -/
theorem msm_shiftBlindings_eq (c : F) (bases : List G) {bs ws ws' : List F}
    (hws : ws.length = bs.length) (hws' : ws'.length = bs.length) :
    msm bases (shiftBlindings c ws ws' bs)
      = msm bases bs + c • (msm bases ws - msm bases ws') := by
  have hlin := msm_zipWith_add_mul (-1 : F) bases (hws.trans hws'.symm)
  simp only [mul_neg, mul_one, ← sub_eq_add_neg] at hlin
  rw [shiftBlindings, msm_zipWith_add_mul c bases (by simp [hws, hws']), hlin]
  module

/-- Moving back: the shift is undone by the shift the other way. -/
theorem shiftBlindings_shiftBlindings (c : F) :
    ∀ {bs ws ws' : List F}, ws.length = bs.length → ws'.length = bs.length →
      shiftBlindings c ws' ws (shiftBlindings c ws ws' bs) = bs := by
  intro bs
  induction bs with
  | nil => intro ws ws' hws hws'; simp [shiftBlindings]
  | cons b bs ih =>
    intro ws ws' hws hws'
    obtain ⟨w, ws, rfl⟩ := List.exists_cons_of_length_eq_add_one hws
    obtain ⟨w', ws', rfl⟩ := List.exists_cons_of_length_eq_add_one hws'
    have hrest := ih (by simpa using hws) (by simpa using hws')
    simp only [shiftBlindings] at hrest
    simp only [shiftBlindings, List.zipWith_cons_cons, hrest, List.cons.injEq, and_true]
    ring

end PhiCrypto

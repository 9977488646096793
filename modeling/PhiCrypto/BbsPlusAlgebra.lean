import PhiCrypto.BbsPlus
import Mathlib.Algebra.BigOperators.Group.Finset.Basic
import Mathlib.Tactic.Abel
import Mathlib.Tactic.Module

/-!
# Message vectors behind the second relation

The second Schnorr relation speaks of hidden and revealed messages separately,
in two lists that the verifier builds by walking over the generators. Here the
two are put together again: `fillMessages` is the whole message vector, and its
commitment is the sum of the hidden and the revealed part. `revealedSum_eq_sum`
writes the revealed part as a sum over the revealed indices.
-/

namespace PhiCrypto

variable {S : Suite}

/-- The messages with indices `i`, ..., `i + n - 1`: revealed ones from the map,
    hidden ones from `ws` in order. -/
def fillMessages (revealed : OrderedMap S.Fr) : Nat → Nat → List S.Fr → List S.Fr
  | _, 0, _ => []
  | i, n + 1, ws =>
    match revealed.get? i with
    | some m => m :: fillMessages revealed (i + 1) n ws
    | none => ws.headD 0 :: fillMessages revealed (i + 1) n ws.tail

@[simp] theorem fillMessages_length (revealed : OrderedMap S.Fr) (i n : Nat) (ws : List S.Fr) :
    (fillMessages revealed i n ws).length = n := by
  induction n generalizing i ws with
  | zero => rfl
  | succ n ih =>
    unfold fillMessages
    cases revealed.get? i with
    | some m => simp [ih]
    | none => simp [ih]

theorem getElem?_fillMessages {revealed : OrderedMap S.Fr} {m : S.Fr} {n : Nat} :
    ∀ {i k : Nat} (ws : List S.Fr), k < n → revealed.get? (i + k) = some m →
      (fillMessages revealed i n ws)[k]? = some m := by
  induction n with
  | zero => intro i k ws hk; omega
  | succ n ih =>
    intro i k ws hk hget
    cases k with
    | zero =>
      rw [Nat.add_zero] at hget
      simp [fillMessages, hget]
    | succ k =>
      have hnext : revealed.get? (i + 1 + k) = some m := by
        rwa [Nat.add_right_comm]
      unfold fillMessages
      cases revealed.get? i with
      | some m' => simpa using ih ws (by omega) hnext
      | none => simpa using ih ws.tail (by omega) hnext

theorem fillMessages_head {revealed : OrderedMap S.Fr} {n : Nat} {ws : List S.Fr} {w : S.Fr}
    (hhidden : revealed.get? 0 = none) (hw : ws[0]? = some w) (hn : 0 < n) :
    (fillMessages revealed 0 n ws)[0]? = some w := by
  obtain ⟨n, rfl⟩ := Nat.exists_eq_add_of_lt hn
  cases ws with
  | nil => cases hw
  | cons x ws =>
    cases hw
    simp [fillMessages, hhidden]

/-- The commitment to the whole vector is the hidden part plus the revealed part. -/
theorem msm_fillMessages (revealed : OrderedMap S.Fr) (h : List S.G1) :
    ∀ (i : Nat) {ws : List S.Fr}, ws.length = (hiddenPart revealed i h).length →
      msm h (fillMessages revealed i h.length ws)
        = msm (hiddenPart revealed i h) ws
          + msm ((revealedTerms revealed i h).map Prod.fst)
              ((revealedTerms revealed i h).map Prod.snd) := by
  induction h with
  | nil => intro i ws _; simp [fillMessages, hiddenPart, revealedTerms]
  | cons base h ih =>
    intro i ws hlen
    cases hget : revealed.get? i with
    | some m =>
      have hcontains : revealed.contains i = true := by simp [OrderedMap.contains, hget]
      simp only [hiddenPart, hcontains, if_true] at hlen ⊢
      simp only [List.length_cons, fillMessages, revealedTerms, hget, msm_cons, List.map_cons,
        ih (i + 1) hlen]
      abel
    | none =>
      have hcontains : revealed.contains i = false := by simp [OrderedMap.contains, hget]
      simp only [hiddenPart, hcontains, Bool.false_eq_true, if_false, List.length_cons] at hlen ⊢
      obtain ⟨w, ws, rfl⟩ := List.exists_cons_of_length_eq_add_one hlen
      have hws : ws.length = (hiddenPart revealed (i + 1) h).length := by simpa using hlen
      have hrest := ih (i + 1) hws
      simp only [fillMessages, revealedTerms, hget, msm_cons, List.headD_cons, List.tail_cons,
        hrest]
      abel

theorem hiddenPart_zero {V α : Type} {revealed : OrderedMap V} {x : α} {xs : List α}
    (hhidden : revealed.get? 0 = none) :
    hiddenPart revealed 0 (x :: xs) = x :: hiddenPart revealed 1 xs := by
  have hcontains : revealed.contains 0 = false := by simp [OrderedMap.contains, hhidden]
  simp [hiddenPart, hcontains]

theorem length_hiddenPart_eq {V α β : Type} (revealed : OrderedMap V) {xs : List α} :
    ∀ {i : Nat} {ys : List β}, xs.length = ys.length →
      (hiddenPart revealed i xs).length = (hiddenPart revealed i ys).length := by
  induction xs with
  | nil =>
    intro i ys hlen
    obtain rfl := List.length_eq_zero_iff.mp hlen.symm
    rfl
  | cons x xs ih =>
    intro i ys hlen
    obtain ⟨y, ys, rfl⟩ := List.exists_cons_of_length_eq_add_one hlen.symm
    have hys : xs.length = ys.length := by simpa using hlen
    have htail := ih (i := i + 1) hys
    simp only [hiddenPart]
    split
    · exact htail
    · simp [htail]

theorem length_hiddenPart_le {V α : Type} (revealed : OrderedMap V) (xs : List α) :
    ∀ i, (hiddenPart revealed i xs).length ≤ xs.length := by
  induction xs with
  | nil => intro i; rfl
  | cons x xs ih =>
    intro i
    rw [hiddenPart]
    split
    · exact (ih (i + 1)).trans (Nat.le_succ _)
    · exact Nat.succ_le_succ (ih (i + 1))

theorem length_hiddenPart_add_countP {V α : Type} (revealed : OrderedMap V) (xs : List α) :
    ∀ i, (hiddenPart revealed i xs).length + (List.range' i xs.length).countP revealed.contains
      = xs.length := by
  induction xs with
  | nil => intro i; rfl
  | cons x xs ih =>
    intro i
    have hnext := ih (i + 1)
    rw [hiddenPart, List.length_cons, List.range'_succ, List.countP_cons]
    split
    · omega
    · rw [List.length_cons]
      omega

/-- Every index is hidden or revealed. -/
theorem length_hiddenPart_add {V α : Type} {revealed : OrderedMap V} {xs : List α}
    (hkeys : ∀ k ∈ revealed.keys, k < xs.length) :
    (hiddenPart revealed 0 xs).length + revealed.length = xs.length := by
  have hcount := length_hiddenPart_add_countP revealed xs 0
  have hperm : ((List.range' 0 xs.length).filter revealed.contains).Perm revealed.keys := by
    refine (List.perm_ext_iff_of_nodup (List.Nodup.filter _ List.nodup_range')
      revealed.keys_nodup).mpr fun k => ?_
    rw [List.mem_filter, OrderedMap.contains_iff, List.mem_range'_1]
    exact ⟨fun h => h.2, fun h => ⟨⟨Nat.zero_le k, by simpa using hkeys k h⟩, h⟩⟩
  rw [List.countP_eq_length_filter, hperm.length_eq, OrderedMap.length_keys] at hcount
  exact hcount

theorem length_revealedTerms_add_hiddenPart (revealed : OrderedMap S.Fr) (h : List S.G1) :
    ∀ i, (revealedTerms revealed i h).length + (hiddenPart revealed i h).length = h.length := by
  induction h with
  | nil => intro i; rfl
  | cons base h ih =>
    intro i
    have hnext := ih (i + 1)
    cases hget : revealed.get? i with
    | some m =>
      have hcontains : revealed.contains i = true := by simp [OrderedMap.contains, hget]
      simp only [revealedTerms, hget, hiddenPart, hcontains, if_true, List.length_cons]
      omega
    | none =>
      have hcontains : revealed.contains i = false := by simp [OrderedMap.contains, hget]
      simp only [revealedTerms, hget, hiddenPart, hcontains, Bool.false_eq_true, if_false,
        List.length_cons]
      omega

/-- Filling in the hidden part of a vector gives the vector back, if the map holds
    its revealed entries. -/
theorem fillMessages_hiddenPart (revealed : OrderedMap S.Fr) (ms : List S.Fr) :
    ∀ {i : Nat}, (∀ k m, revealed.get? (i + k) = some m → k < ms.length → ms[k]? = some m) →
      fillMessages revealed i ms.length (hiddenPart revealed i ms) = ms := by
  induction ms with
  | nil => intro i _; rfl
  | cons x ms ih =>
    intro i hmap
    have htail : ∀ k m, revealed.get? (i + 1 + k) = some m → k < ms.length →
        ms[k]? = some m := by
      intro k m hget hk
      have h := hmap (k + 1) m (by rwa [← Nat.add_assoc, Nat.add_right_comm]) (by simpa using hk)
      simpa using h
    cases hget : revealed.get? i with
    | some m =>
      have hcontains : revealed.contains i = true := by simp [OrderedMap.contains, hget]
      have hhead : x = m := by simpa using hmap 0 m hget (by simp)
      simp only [hiddenPart, hcontains, if_true, List.length_cons, fillMessages, hget, ih htail,
        hhead]
    | none =>
      have hcontains : revealed.contains i = false := by simp [OrderedMap.contains, hget]
      simp only [hiddenPart, hcontains, Bool.false_eq_true, if_false, List.length_cons,
        fillMessages, hget, List.headD_cons, List.tail_cons, ih htail]

/-- A commitment to all messages, split into hidden and revealed ones. -/
theorem msm_eq_hidden_add_revealed {revealed : OrderedMap S.Fr} {h : List S.G1} {ms : List S.Fr}
    (hlen : ms.length = h.length)
    (hmap : ∀ j m, revealed.get? j = some m → j < ms.length → ms[j]? = some m) :
    msm h ms = msm (hiddenPart revealed 0 h) (hiddenPart revealed 0 ms)
      + msm ((revealedTerms revealed 0 h).map Prod.fst)
          ((revealedTerms revealed 0 h).map Prod.snd) := by
  have hfill := fillMessages_hiddenPart revealed ms (i := 0) (by simpa using hmap)
  have hsum := msm_fillMessages revealed h 0 (length_hiddenPart_eq revealed hlen)
  rwa [← hlen, hfill] at hsum

/-- The first relation in the form of the generalised protocol. -/
theorem PoKOfSignatureG1Proof.Accepts.first_msm {p : PoKOfSignatureG1Proof S}
    {revealed : OrderedMap S.Fr} {c : S.Fr} {pk : S.G2} {params : SignatureParamsG1 S}
    (h : p.Accepts revealed c pk params) :
    msm [p.aPrime, params.h0] [p.scResp1.response1, p.scResp1.response2]
      + (-c) • (p.aBar - p.d) = p.scResp1.t := by
  rw [← h.first, msm_cons, msm_cons, msm_nil_left]
  module

/-! ### The revealed part as a sum over indices -/

theorem msm_revealedTerms_eq_sum (revealed : OrderedMap S.Fr) (h : List S.G1) :
    ∀ i, msm ((revealedTerms revealed i h).map Prod.fst) ((revealedTerms revealed i h).map Prod.snd)
      = ∑ k ∈ Finset.range h.length, ((revealed.get? (i + k)).getD 0) • h.getD k 0 := by
  induction h with
  | nil => intro i; simp [revealedTerms]
  | cons base h ih =>
    intro i
    have hshift : ∀ k, revealed.get? (i + 1 + k) = revealed.get? (i + (k + 1)) := by
      intro k
      rw [Nat.add_right_comm, Nat.add_assoc]
    rw [List.length_cons, Finset.sum_range_succ', ← add_comm]
    simp only [List.getD_cons_succ, List.getD_cons_zero, Nat.add_zero, ← hshift]
    rw [← ih (i + 1)]
    cases hget : revealed.get? i with
    | some m => simp [revealedTerms, hget]
    | none => simp [revealedTerms, hget]

theorem revealedSum_eq_sum {revealed : OrderedMap S.Fr} {h : List S.G1}
    (hkeys : ∀ k ∈ revealed.keys, k < h.length) :
    revealedSum revealed h
      = ∑ k ∈ revealed.keys.toFinset, ((revealed.get? k).getD 0) • h.getD k 0 := by
  rw [revealedSum, msm_revealedTerms_eq_sum revealed h 0]
  simp only [Nat.zero_add]
  symm
  refine Finset.sum_subset ?_ ?_
  · intro k hk
    exact Finset.mem_range.mpr (hkeys k (List.mem_toFinset.mp hk))
  · intro k _ hk
    have hnone : revealed.get? k = none := by
      rw [← Option.not_isSome_iff_eq_none, ← OrderedMap.mem_keys_iff]
      exact fun hmem => hk (List.mem_toFinset.mpr hmem)
    simp [hnone]

/-! ### One body, two sets of messages -/

/-- The generators of the hidden messages depend on the revealed indices only. -/
theorem hiddenPart_congr {V V' α : Type} {revealed : OrderedMap V} {revealed' : OrderedMap V'}
    (hkeys : ∀ k, k ∈ revealed.keys ↔ k ∈ revealed'.keys) (h : List α) :
    ∀ i, hiddenPart revealed i h = hiddenPart revealed' i h := by
  have hcontains : ∀ k, revealed.contains k = revealed'.contains k := by
    intro k
    rw [Bool.eq_iff_iff, OrderedMap.contains_iff, OrderedMap.contains_iff]
    exact hkeys k
  induction h with
  | nil => intro i; rfl
  | cons base h ih =>
    intro i
    rw [hiddenPart, hiddenPart, hcontains i, ih (i + 1)]

/-- The relation `(c - c') g1 + Σ (c m_i - c' m'_i) h_i = 0` among the public
    generators, the sum running over the revealed indices. -/
def GeneratorRelation (params : SignatureParamsG1 S) (indices : List Nat) (c c' : S.Fr)
    (m m' : OrderedMap S.Fr) : Prop :=
  (c - c') • params.g1
    + ∑ i ∈ indices.toFinset,
        (c * (m.get? i).getD 0 - c' * (m'.get? i).getD 0) • params.h.getD i 0 = 0

/-- One proof body that verifies for two message maps over the same indices and
    two challenges yields a relation among the generators. -/
theorem generatorRelation_of_accepts {p : PoKOfSignatureG1Proof S}
    {revealed revealed' : OrderedMap S.Fr} {c c' : S.Fr} {pk pk' : S.G2}
    {params : SignatureParamsG1 S} {indices : List Nat}
    (hindices : ∀ k, k ∈ revealed.keys ↔ k ∈ indices)
    (hindices' : ∀ k, k ∈ revealed'.keys ↔ k ∈ indices)
    (hrange : ∀ k ∈ indices, k < params.h.length)
    (h : p.Accepts revealed c pk params) (h' : p.Accepts revealed' c' pk' params) :
    GeneratorRelation params indices c c' revealed revealed' := by
  rcases h.second with ⟨resp, hresp, -, heq⟩
  rcases h'.second with ⟨resp', hresp', -, heq'⟩
  cases hresp.symm.trans hresp'
  have hbases : p.bases2 revealed' params = p.bases2 revealed params := by
    rw [PoKOfSignatureG1Proof.bases2, PoKOfSignatureG1Proof.bases2,
      hiddenPart_congr fun k => (hindices' k).trans (hindices k).symm]
  rw [hbases] at heq'
  have hpublic := smul_eq_smul_of_same_response heq heq'
  have hset : revealed.keys.toFinset = indices.toFinset := by
    ext k
    simp [hindices k]
  have hset' : revealed'.keys.toFinset = indices.toFinset := by
    ext k
    simp [hindices' k]
  rw [publicPart, publicPart,
    revealedSum_eq_sum fun k hk => hrange k ((hindices k).mp hk),
    revealedSum_eq_sum fun k hk => hrange k ((hindices' k).mp hk), hset, hset'] at hpublic
  have hsum : ∑ i ∈ indices.toFinset,
      (c * (revealed.get? i).getD 0 - c' * (revealed'.get? i).getD 0) • params.h.getD i 0
      = c • (∑ i ∈ indices.toFinset, (revealed.get? i).getD 0 • params.h.getD i 0)
        - c' • (∑ i ∈ indices.toFinset, (revealed'.get? i).getD 0 • params.h.getD i 0) := by
    rw [Finset.smul_sum, Finset.smul_sum, ← Finset.sum_sub_distrib]
    refine Finset.sum_congr rfl fun i _ => ?_
    rw [sub_smul, mul_smul, mul_smul]
  rw [GeneratorRelation, hsum]
  calc _ = -(c • (-∑ i ∈ indices.toFinset, (revealed.get? i).getD 0 • params.h.getD i 0
          - params.g1)
        - c' • (-∑ i ∈ indices.toFinset, (revealed'.get? i).getD 0 • params.h.getD i 0
          - params.g1)) := by module
    _ = 0 := by rw [hpublic, sub_self, neg_zero]

end PhiCrypto

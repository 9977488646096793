import Mathlib.Tactic.Common
import Mathlib.Data.List.Basic
import Mathlib.Data.List.Pairwise
import Mathlib.Data.List.Nodup
import Mathlib.Data.List.Perm.Subperm

/-!
# Ordered maps (`BTreeMap<usize, V>` and `BTreeSet<usize>`)

A map is its list of entries in increasing key order, and the ordering is a
field of the structure, so iteration order and size need no side condition.
A set is a map to `Unit`, as in the Rust standard library.
-/

namespace PhiCrypto

/-- A finite map with natural-number keys, iterated in key order. -/
structure OrderedMap (V : Type) where
  entries : List (Nat × V)
  sorted : entries.Pairwise fun a b => a.1 < b.1
deriving DecidableEq

namespace OrderedMap

variable {V : Type}

/-- Insert into a sorted list of entries, replacing an entry of the same key. -/
def insertEntries (k : Nat) (v : V) : List (Nat × V) → List (Nat × V)
  | [] => [(k, v)]
  | (k', v') :: rest =>
    if k < k' then (k, v) :: (k', v') :: rest
    else if k = k' then (k, v) :: rest
    else (k', v') :: insertEntries k v rest

theorem key_of_mem_insertEntries {k : Nat} {v : V} {l : List (Nat × V)} {p : Nat × V}
    (h : p ∈ insertEntries k v l) : p.1 = k ∨ p ∈ l := by
  induction l with
  | nil =>
    simp only [insertEntries, List.mem_singleton] at h
    exact .inl (by rw [h])
  | cons q rest ih =>
    simp only [insertEntries] at h
    split at h
    · rcases List.mem_cons.mp h with rfl | hmem
      · exact .inl rfl
      · exact .inr hmem
    · split at h
      · rcases List.mem_cons.mp h with rfl | hmem
        · exact .inl rfl
        · exact .inr (List.mem_cons_of_mem _ hmem)
      · rcases List.mem_cons.mp h with rfl | hmem
        · exact .inr List.mem_cons_self
        · rcases ih hmem with hk | hmem'
          · exact .inl hk
          · exact .inr (List.mem_cons_of_mem _ hmem')

theorem insertEntries_sorted {k : Nat} {v : V} {l : List (Nat × V)}
    (h : l.Pairwise fun a b => a.1 < b.1) :
    (insertEntries k v l).Pairwise fun a b => a.1 < b.1 := by
  induction l with
  | nil => simp [insertEntries]
  | cons q rest ih =>
    obtain ⟨hq, hrest⟩ := List.pairwise_cons.mp h
    simp only [insertEntries]
    split
    · next hlt =>
      refine List.pairwise_cons.mpr ⟨?_, h⟩
      intro p hp
      rcases List.mem_cons.mp hp with rfl | hmem
      · exact hlt
      · exact Nat.lt_trans hlt (hq p hmem)
    · split
      · next heq =>
        exact List.pairwise_cons.mpr ⟨fun p hp => heq ▸ hq p hp, hrest⟩
      · next hnlt hne =>
        refine List.pairwise_cons.mpr ⟨?_, ih hrest⟩
        intro p hp
        rcases key_of_mem_insertEntries hp with hk | hmem
        · omega
        · exact hq p hmem

def empty : OrderedMap V := ⟨[], .nil⟩

/-- `BTreeMap::insert`, for its effect on the map. -/
def insert (m : OrderedMap V) (k : Nat) (v : V) : OrderedMap V :=
  ⟨insertEntries k v m.entries, insertEntries_sorted m.sorted⟩

def get? (m : OrderedMap V) (k : Nat) : Option V := m.entries.lookup k

def contains (m : OrderedMap V) (k : Nat) : Bool := (m.get? k).isSome

def keys (m : OrderedMap V) : List Nat := m.entries.map Prod.fst

def length (m : OrderedMap V) : Nat := m.entries.length

/-- `collect::<BTreeMap<_, _>>()`: later entries replace earlier ones. -/
def ofList (l : List (Nat × V)) : OrderedMap V :=
  l.foldl (fun m p => m.insert p.1 p.2) empty

/-- `collect::<BTreeSet<_>>()`. -/
def ofKeys (l : List Nat) : OrderedMap Unit := ofList (l.map fun k => (k, ()))

/-! ### Lookup -/

theorem lookup_insertEntries (k : Nat) (v : V) (l : List (Nat × V)) (j : Nat) :
    (insertEntries k v l).lookup j = if j = k then some v else l.lookup j := by
  induction l with
  | nil =>
    by_cases hj : j = k
    · simp [insertEntries, hj]
    · simp [insertEntries, List.lookup_cons, hj, beq_false_of_ne hj]
  | cons q rest ih =>
    obtain ⟨k', v'⟩ := q
    simp only [insertEntries]
    split
    · by_cases hj : j = k
      · simp [hj]
      · simp [List.lookup_cons, hj, beq_false_of_ne hj]
    · split
      · next heq =>
        subst heq
        by_cases hj : j = k
        · simp [hj]
        · simp [List.lookup_cons, hj, beq_false_of_ne hj]
      · next hnlt hne =>
        by_cases hj : j = k'
        · have hjk : j ≠ k := fun h => hne (h ▸ hj)
          subst hj
          simp [hjk]
        · simp only [List.lookup_cons, beq_false_of_ne hj, ih]

theorem get?_insert (m : OrderedMap V) (k : Nat) (v : V) (j : Nat) :
    (m.insert k v).get? j = if j = k then some v else m.get? j :=
  lookup_insertEntries k v m.entries j

theorem mem_keys_iff {m : OrderedMap V} {k : Nat} : k ∈ m.keys ↔ (m.get? k).isSome := by
  unfold keys get?
  induction m.entries with
  | nil => simp
  | cons q rest ih =>
    obtain ⟨k', v⟩ := q
    rw [List.map_cons, List.mem_cons, ih, List.lookup_cons]
    by_cases hk : k = k'
    · simp [hk]
    · simp [hk, beq_false_of_ne hk]

theorem contains_iff {m : OrderedMap V} {k : Nat} : m.contains k = true ↔ k ∈ m.keys :=
  mem_keys_iff.symm

theorem keys_sorted (m : OrderedMap V) : m.keys.Pairwise (· < ·) :=
  List.pairwise_map.mpr m.sorted

theorem keys_nodup (m : OrderedMap V) : m.keys.Nodup :=
  m.keys_sorted.imp fun h => Nat.ne_of_lt h

@[simp] theorem length_keys (m : OrderedMap V) : m.keys.length = m.length := by
  simp [keys, length]

theorem mem_keys_insert {m : OrderedMap V} {k j : Nat} {v : V} :
    j ∈ (m.insert k v).keys ↔ j = k ∨ j ∈ m.keys := by
  rw [mem_keys_iff, mem_keys_iff, get?_insert]
  by_cases h : j = k
  · simp [h]
  · simp [h]

/-- A loop that inserts keys and stops at one that is out of range or already there:
    the keys behind the first are distinct and new once it is inserted exactly when
    all of them are distinct and new. -/
theorem fresh_cons_iff {m : OrderedMap V} {R : Nat → Prop} {i : Nat} {v : V} {l : List Nat}
    (hR : R i) (hfresh : i ∉ m.keys) :
    ((∀ k ∈ l, R k ∧ k ∉ (m.insert i v).keys) ∧ l.Nodup) ↔
      (∀ k ∈ i :: l, R k ∧ k ∉ m.keys) ∧ (i :: l).Nodup := by
  simp only [mem_keys_insert, not_or, List.nodup_cons]
  constructor
  · rintro ⟨hrest, hnodup⟩
    refine ⟨?_, fun hmem => (hrest i hmem).2.1 rfl, hnodup⟩
    intro k hk
    rcases List.mem_cons.mp hk with rfl | hk
    · exact ⟨hR, hfresh⟩
    · exact ⟨(hrest k hk).1, (hrest k hk).2.2⟩
  · rintro ⟨hall, hnotin, hnodup⟩
    refine ⟨fun k hk => ?_, hnodup⟩
    rcases hall k (List.mem_cons_of_mem i hk) with ⟨hrange, hnew⟩
    exact ⟨hrange, fun heq => hnotin (heq ▸ hk), hnew⟩

/-- At most as many keys below a bound as the bound itself. -/
theorem length_le_of_keys_lt {m : OrderedMap V} {n : Nat} (h : ∀ k ∈ m.keys, k < n) :
    m.length ≤ n := by
  have hsub : m.keys ⊆ List.range n := fun k hk => List.mem_range.mpr (h k hk)
  have hle := (List.Nodup.subperm m.keys_nodup hsub).length_le
  simpa using hle

/-! ### Collecting -/

theorem get?_foldl_insert (l : List (Nat × V)) (m : OrderedMap V) (k : Nat)
    (hk : k ∉ l.map Prod.fst) :
    (l.foldl (fun m p => m.insert p.1 p.2) m).get? k = m.get? k := by
  induction l generalizing m with
  | nil => rfl
  | cons p rest ih =>
    have hne : k ≠ p.1 := fun h => hk (by simp [h])
    rw [List.foldl_cons, ih _ fun h => hk (by simp [h]), get?_insert, if_neg hne]

theorem mem_keys_foldl_insert (l : List (Nat × V)) (m : OrderedMap V) (k : Nat) :
    k ∈ (l.foldl (fun m p => m.insert p.1 p.2) m).keys ↔ k ∈ l.map Prod.fst ∨ k ∈ m.keys := by
  induction l generalizing m with
  | nil => simp
  | cons p rest ih =>
    rw [List.foldl_cons, ih, mem_keys_insert]
    simp only [List.map_cons, List.mem_cons]
    tauto

theorem mem_keys_ofList {l : List (Nat × V)} {k : Nat} :
    k ∈ (ofList l).keys ↔ k ∈ l.map Prod.fst := by
  rw [ofList, mem_keys_foldl_insert]
  simp [empty, keys]

theorem get?_ofList_of_mem {l : List (Nat × V)} (hnodup : (l.map Prod.fst).Nodup) {k : Nat}
    {v : V} (hmem : (k, v) ∈ l) : (ofList l).get? k = some v := by
  have hfold : ∀ (l : List (Nat × V)) (m : OrderedMap V), (l.map Prod.fst).Nodup → (k, v) ∈ l →
      (l.foldl (fun m p => m.insert p.1 p.2) m).get? k = some v := by
    intro l
    induction l with
    | nil => intro m _ hmem; cases hmem
    | cons p rest ih =>
      intro m hnodup hmem
      obtain ⟨hfresh, hrest⟩ := List.nodup_cons.mp hnodup
      rw [List.foldl_cons]
      rcases List.mem_cons.mp hmem with rfl | hmem
      · rw [get?_foldl_insert rest _ k hfresh, get?_insert, if_pos rfl]
      · exact ih _ hrest hmem
  exact hfold l empty hnodup hmem

theorem length_ofList {l : List (Nat × V)} (hnodup : (l.map Prod.fst).Nodup) :
    (ofList l).length = l.length := by
  have hperm : (ofList l).keys.Perm (l.map Prod.fst) :=
    (List.perm_ext_iff_of_nodup (keys_nodup _) hnodup).mpr fun _ => mem_keys_ofList
  simpa using hperm.length_eq

/-- A repeated key is one entry. -/
theorem length_ofList_lt {l : List (Nat × V)} (hdup : ¬ (l.map Prod.fst).Nodup) :
    (ofList l).length < l.length := by
  have hsub : (ofList l).keys.Subperm (l.map Prod.fst) :=
    (keys_nodup _).subperm fun _ hk => mem_keys_ofList.mp hk
  by_contra hge
  have hlen : (l.map Prod.fst).length ≤ (ofList l).keys.length := by simpa using hge
  exact hdup ((hsub.perm_of_length_le hlen).nodup_iff.mp (keys_nodup _))

theorem mem_keys_ofKeys {l : List Nat} {k : Nat} : k ∈ (ofKeys l).keys ↔ k ∈ l := by
  rw [ofKeys, mem_keys_ofList]
  simp

theorem keys_eq_filter {m : OrderedMap V} {n : Nat} (hlt : ∀ k ∈ m.keys, k < n) :
    m.keys = (List.range n).filter m.contains := by
  have hsorted : ((List.range n).filter m.contains).Pairwise (· < ·) :=
    List.pairwise_lt_range.filter _
  refine List.Perm.eq_of_pairwise (fun a b _ _ hab hba => absurd hab (Nat.lt_asymm hba))
    (keys_sorted _) hsorted ?_
  refine (List.perm_ext_iff_of_nodup (keys_nodup _) (List.nodup_range.filter _)).mpr fun k => ?_
  rw [List.mem_filter, List.mem_range, contains_iff]
  exact ⟨fun hk => ⟨hlt k hk, hk⟩, fun hk => hk.2⟩

theorem keys_ofKeys {l : List Nat} {n : Nat} (hlt : ∀ k ∈ l, k < n) :
    (ofKeys l).keys = (List.range n).filter (· ∈ l) := by
  rw [keys_eq_filter fun k hk => hlt k (mem_keys_ofKeys.mp hk)]
  apply List.filter_congr
  intro k _
  rw [Bool.eq_iff_iff, contains_iff, mem_keys_ofKeys, decide_eq_true_iff]

/-! ### Order of insertion -/

theorem perm_insertEntries {k : Nat} {v : V} {l : List (Nat × V)} (hk : k ∉ l.map Prod.fst) :
    (insertEntries k v l).Perm ((k, v) :: l) := by
  induction l with
  | nil => exact .refl _
  | cons q rest ih =>
    have hne : k ≠ q.1 := fun h => hk (by simp [h])
    have hrest : k ∉ rest.map Prod.fst := fun h => hk (by simp [h])
    obtain ⟨k', v'⟩ := q
    by_cases hlt : k < k'
    · rw [insertEntries, if_pos hlt]
    · rw [insertEntries, if_neg hlt, if_neg hne]
      exact ((ih hrest).cons (k', v')).trans (.swap (k, v) (k', v') rest)

theorem perm_foldl_insert (l : List (Nat × V)) :
    ∀ m : OrderedMap V, (l.map Prod.fst).Nodup → (∀ k ∈ l.map Prod.fst, k ∉ m.keys) →
      (l.foldl (fun m p => m.insert p.1 p.2) m).entries.Perm (l ++ m.entries) := by
  induction l with
  | nil => intro m _ _; exact .refl _
  | cons p rest ih =>
    intro m hnodup hnew
    obtain ⟨hfresh, hrest⟩ := List.nodup_cons.mp hnodup
    have hinsert : (m.insert p.1 p.2).entries.Perm (p :: m.entries) :=
      perm_insertEntries (hnew p.1 List.mem_cons_self)
    have hnew' : ∀ k ∈ rest.map Prod.fst, k ∉ (m.insert p.1 p.2).keys := by
      intro k hk hmem
      rcases mem_keys_insert.mp hmem with rfl | hmem
      · exact hfresh hk
      · exact hnew k (List.mem_cons_of_mem _ hk) hmem
    exact (ih _ hrest hnew').trans ((hinsert.append_left rest).trans List.perm_middle)

theorem perm_entries_ofList {l : List (Nat × V)} (hnodup : (l.map Prod.fst).Nodup) :
    (ofList l).entries.Perm l := by
  have h := perm_foldl_insert l empty hnodup (by simp [empty, keys])
  rwa [show (empty : OrderedMap V).entries = [] from rfl, List.append_nil] at h

theorem eq_of_perm {m m' : OrderedMap V} (h : m.entries.Perm m'.entries) : m = m' := by
  have heq : m.entries = m'.entries := by
    refine h.eq_of_pairwise (fun a b _ _ hab hba => ?_) m.sorted m'.sorted
    exact absurd hab (Nat.lt_asymm hba)
  cases m
  cases m'
  cases heq
  rfl

/-- A map with distinct keys does not depend on the order of insertion. -/
theorem ofList_perm {l l' : List (Nat × V)} (h : l.Perm l') (hnodup : (l.map Prod.fst).Nodup) :
    ofList l = ofList l' := by
  have hnodup' : (l'.map Prod.fst).Nodup := (h.map Prod.fst).nodup_iff.mp hnodup
  exact eq_of_perm ((perm_entries_ofList hnodup).trans (h.trans (perm_entries_ofList hnodup').symm))

/-! ### Extensionality -/

theorem mem_entries_of_get? {m : OrderedMap V} {k : Nat} {v : V} (h : m.get? k = some v) :
    (k, v) ∈ m.entries := by
  obtain ⟨before, after, heq, -⟩ := List.lookup_eq_some_iff.mp h
  rw [heq]
  simp

theorem get?_of_mem_entries {m : OrderedMap V} {k : Nat} {v : V} (h : (k, v) ∈ m.entries) :
    m.get? k = some v := by
  have hkey : k ∈ m.keys := List.mem_map.mpr ⟨(k, v), h, rfl⟩
  obtain ⟨w, hw⟩ := Option.isSome_iff_exists.mp (mem_keys_iff.mp hkey)
  have heq : (k, w) = (k, v) := List.inj_on_of_nodup_map (keys_nodup m) (mem_entries_of_get? hw) h rfl
  rw [hw, (Prod.mk.inj heq).2]

/-- A map is determined by what it maps the keys to. -/
theorem ext_get? {m m' : OrderedMap V} (h : ∀ k, m.get? k = m'.get? k) : m = m' := by
  have hsub : ∀ {m m' : OrderedMap V}, (∀ k, m.get? k = m'.get? k) → m.entries ⊆ m'.entries := by
    intro m m' h p hp
    apply mem_entries_of_get?
    rw [← h p.1]
    exact get?_of_mem_entries hp
  apply eq_of_perm
  apply (List.perm_ext_iff_of_nodup (keys_nodup m).of_map (keys_nodup m').of_map).mpr
  intro p
  exact ⟨fun hp => hsub h hp, fun hp => hsub (fun k => (h k).symm) hp⟩

end OrderedMap

end PhiCrypto

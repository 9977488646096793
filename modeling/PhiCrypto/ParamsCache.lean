import PhiCrypto.Interleaving
import PhiCrypto.OrderedMap
import PhiCrypto.BbsPlus

/-!
# The generator cache

`params_for` memoizes the signature parameters in a map behind a mutex. Lookup and
insertion are two critical sections, and the derivation between them runs without the
lock, so calls can miss together and insert one after the other, in any order.
`paramsForStep` is one atomic action of a call; the calls run as in `Interleaving`.

Whatever a call has in hand was derived for its own count (`CallInv`), so an insertion
writes nothing but the derived value, and the order does not matter.
-/

namespace PhiCrypto

open Interleaving

section Cache

variable {ι P : Type}

/-- Where a call of `params_for` is. -/
inductive Phase (P : Type) where
  | start
  /-- Above the bound: derive and return. -/
  | direct
  /-- At the first `lock()`. -/
  | lookup
  /-- The lock is held, the map not read yet. -/
  | reading
  /-- The lock is held, the entry was found and cloned. -/
  | hit (params : P)
  /-- The lock is held, there is no entry. -/
  | miss
  | derive
  /-- At the second `lock()`. -/
  | inserting (params : P)
  /-- The lock is held, nothing is written yet. -/
  | writing (params : P)
  /-- The lock is held, the entry is written. -/
  | written (params : P)
  | returned (params : P)
  /-- The derivation panicked. -/
  | panicked

/-- `params_cache()`: the map, and the call that holds its lock. -/
structure ParamsCache (ι P : Type) where
  map : OrderedMap P
  owner : Option ι

/-- One action of call `i`. `derive` is `none` where `derive_params` panics; `poisoned`
    says whether a `lock()` fails, should this action be one. A call that waits for the
    lock cannot act. -/
def paramsForStep (derive : Nat → Option P) (i : ι) (count : UInt32) (poisoned : Bool)
    (cache : ParamsCache ι P) : Phase P → Option (Phase P × ParamsCache ι P)
  | .start =>
    if count.toNat > maxBbsMessages then some (.direct, cache) else some (.lookup, cache)
  | .direct =>
    match derive count.toNat with
    | some params => some (.returned params, cache)
    | none => some (.panicked, cache)
  | .lookup =>
    if poisoned then some (.derive, cache)
    else if cache.owner.isNone then some (.reading, { cache with owner := some i })
    else none
  | .reading =>
    match cache.map.get? count.toNat with
    | some cached => some (.hit cached, cache)
    | none => some (.miss, cache)
  | .hit cached => some (.returned cached, { cache with owner := none })
  | .miss => some (.derive, { cache with owner := none })
  | .derive =>
    match derive count.toNat with
    | some params => some (.inserting params, cache)
    | none => some (.panicked, cache)
  | .inserting params =>
    if poisoned then some (.returned params, cache)
    else if cache.owner.isNone then some (.writing params, { cache with owner := some i })
    else none
  | .writing params =>
    some (.written params, { cache with map := cache.map.insert count.toNat params })
  | .written params => some (.returned params, { cache with owner := none })
  | .returned _ => none
  | .panicked => none

/-- The calls with these counts, whatever happens at each `lock()`. -/
def paramsForAction (derive : Nat → Option P) (counts : ι → UInt32) :
    Action ι (Phase P) (ParamsCache ι P) := fun i phase cache phase' cache' =>
  ∃ poisoned, paramsForStep derive i (counts i) poisoned cache phase = some (phase', cache')

/-- No call has started and the cache is empty. -/
def initialConfig (ι P : Type) : Config ι (Phase P) (ParamsCache ι P) :=
  ⟨fun _ => .start, ⟨.empty, none⟩⟩

variable {derive : Nat → Option P} {counts : ι → UInt32}

/-! ### What a call has in hand -/

/-- The parameters of a call are those of its count, and a call that uses the cache has
    a count within the bound. -/
def CallInv (derive : Nat → Option P) (count : UInt32) : Phase P → Prop
  | .start => True
  | .direct => True
  | .lookup => count.toNat ≤ maxBbsMessages
  | .reading => count.toNat ≤ maxBbsMessages
  | .hit params => derive count.toNat = some params
  | .miss => count.toNat ≤ maxBbsMessages
  | .derive => count.toNat ≤ maxBbsMessages
  | .inserting params => count.toNat ≤ maxBbsMessages ∧ derive count.toNat = some params
  | .writing params => count.toNat ≤ maxBbsMessages ∧ derive count.toNat = some params
  | .written params => derive count.toNat = some params
  | .returned params => derive count.toNat = some params
  | .panicked => derive count.toNat = none

/-- Every entry is what was derived for its key, and every key is within the bound. -/
def CacheInv (derive : Nat → Option P) (cache : ParamsCache ι P) : Prop :=
  ∀ k params, cache.map.get? k = some params → k ≤ maxBbsMessages ∧ derive k = some params

/-- No entry is lost or changed. -/
def Extends (cache cache' : ParamsCache ι P) : Prop :=
  ∀ k params, cache.map.get? k = some params → cache'.map.get? k = some params

theorem CacheInv.insert {cache : ParamsCache ι P} (h : CacheInv derive cache) {k : Nat} {params : P}
    (hk : k ≤ maxBbsMessages) (hderive : derive k = some params) :
    CacheInv derive { cache with map := cache.map.insert k params } ∧
      Extends cache { cache with map := cache.map.insert k params } := by
  constructor
  · intro j q hget
    rw [OrderedMap.get?_insert] at hget
    split at hget
    · next heq =>
      cases hget
      subst heq
      exact ⟨hk, hderive⟩
    · exact h j q hget
  · intro j q hget
    rw [OrderedMap.get?_insert]
    split
    · next heq =>
      -- an entry that is overwritten was derived for the same key
      subst heq
      exact hderive.symm.trans (h _ q hget).2
    · exact hget

/-- One action of a call, for the call itself and for the cache. -/
theorem paramsForStep_spec {i : ι} {count : UInt32} {poisoned : Bool}
    {cache cache' : ParamsCache ι P} {phase phase' : Phase P}
    (h : paramsForStep derive i count poisoned cache phase = some (phase', cache'))
    (hcache : CacheInv derive cache) (hcall : CallInv derive count phase) :
    (CacheInv derive cache' ∧ CallInv derive count phase') ∧ Extends cache cache' := by
  have hsame : Extends cache cache := fun _ _ hget => hget
  cases phase with
  | start =>
    simp only [paramsForStep] at h
    split at h <;> cases h
    · exact ⟨⟨hcache, trivial⟩, hsame⟩
    · next hle => exact ⟨⟨hcache, not_lt.mp hle⟩, hsame⟩
  | direct =>
    simp only [paramsForStep] at h
    split at h <;> cases h
    · next hderive => exact ⟨⟨hcache, hderive⟩, hsame⟩
    · next hderive => exact ⟨⟨hcache, hderive⟩, hsame⟩
  | lookup =>
    simp only [paramsForStep] at h
    split at h
    · cases h
      exact ⟨⟨hcache, hcall⟩, hsame⟩
    · split at h <;> cases h
      exact ⟨⟨hcache, hcall⟩, hsame⟩
  | reading =>
    simp only [paramsForStep] at h
    split at h <;> cases h
    · next hget => exact ⟨⟨hcache, (hcache _ _ hget).2⟩, hsame⟩
    · exact ⟨⟨hcache, hcall⟩, hsame⟩
  | hit cached =>
    cases h
    exact ⟨⟨hcache, hcall⟩, hsame⟩
  | miss =>
    cases h
    exact ⟨⟨hcache, hcall⟩, hsame⟩
  | derive =>
    simp only [paramsForStep] at h
    split at h <;> cases h
    · next hderive => exact ⟨⟨hcache, hcall, hderive⟩, hsame⟩
    · next hderive => exact ⟨⟨hcache, hderive⟩, hsame⟩
  | inserting params =>
    simp only [paramsForStep] at h
    split at h
    · cases h
      exact ⟨⟨hcache, hcall.2⟩, hsame⟩
    · split at h <;> cases h
      exact ⟨⟨hcache, hcall⟩, hsame⟩
  | writing params =>
    cases h
    obtain ⟨hinv, hextends⟩ := hcache.insert hcall.1 hcall.2
    exact ⟨⟨hinv, hcall.2⟩, hextends⟩
  | written params =>
    cases h
    exact ⟨⟨hcache, hcall⟩, hsame⟩
  | returned params => cases h
  | panicked => cases h

variable {c d : Config ι (Phase P) (ParamsCache ι P)}

abbrev ParamsInv (derive : Nat → Option P) (counts : ι → UInt32)
    (c : Config ι (Phase P) (ParamsCache ι P)) : Prop :=
  Holds (CacheInv derive) (fun i => CallInv derive (counts i)) c

theorem paramsInv_initial : ParamsInv derive counts (initialConfig ι P) :=
  ⟨fun _ _ hget => (by cases hget), fun _ => trivial⟩

theorem paramsInv_of_run [DecidableEq ι]
    (h : Run (paramsForAction derive counts) (initialConfig ι P) c) :
    ParamsInv derive counts c := by
  refine h.holds ?_ paramsInv_initial
  intro i phase cache phase' cache' ha hcache hcall
  obtain ⟨poisoned, hstep⟩ := ha
  exact (paramsForStep_spec hstep hcache hcall).1

theorem extends_of_run [DecidableEq ι] (hc : ParamsInv derive counts c)
    (h : Run (paramsForAction derive counts) c d) : Extends c.shared d.shared := by
  refine h.shared_rel (fun _ _ _ hget => hget) (fun h₁ h₂ k p hget => h₂ k p (h₁ k p hget)) ?_ hc
  intro i phase cache phase' cache' ha hcache hcall
  obtain ⟨poisoned, hstep⟩ := ha
  exact paramsForStep_spec hstep hcache hcall

/-! ### The lock -/

/-- The call is in a critical section. -/
def Phase.holdsLock : Phase P → Bool
  | .reading => true
  | .hit _ => true
  | .miss => true
  | .writing _ => true
  | .written _ => true
  | _ => false

def Phase.finished : Phase P → Bool
  | .returned _ => true
  | .panicked => true
  | _ => false

/-- The lock is held by the call in a critical section, and by no other. -/
def LockInv (c : Config ι (Phase P) (ParamsCache ι P)) : Prop :=
  ∀ i, (c.locals i).holdsLock = true ↔ c.shared.owner = some i

/-- An action enters a critical section when no call is in one, leaves one, or stays
    where it was. -/
theorem paramsForStep_lock {i : ι} {count : UInt32} {poisoned : Bool}
    {cache cache' : ParamsCache ι P} {phase phase' : Phase P}
    (h : paramsForStep derive i count poisoned cache phase = some (phase', cache')) :
    (phase'.holdsLock = true ∧ cache.owner = none ∧ cache'.owner = some i) ∨
    (phase.holdsLock = true ∧ phase'.holdsLock = false ∧ cache'.owner = none) ∨
    (phase'.holdsLock = phase.holdsLock ∧ cache'.owner = cache.owner) := by
  cases phase <;> simp only [paramsForStep] at h
  case lookup | inserting =>
    split at h
    · cases h
      exact .inr (.inr ⟨rfl, rfl⟩)
    · split at h <;> cases h
      next hfree => exact .inl ⟨rfl, Option.isNone_iff_eq_none.mp hfree, rfl⟩
  case hit | miss | written =>
    cases h
    exact .inr (.inl ⟨rfl, rfl, rfl⟩)
  case writing =>
    cases h
    exact .inr (.inr ⟨rfl, rfl⟩)
  case returned | panicked => cases h
  all_goals
    split at h <;> cases h <;> exact .inr (.inr ⟨rfl, rfl⟩)

theorem lockInv_step [DecidableEq ι] (h : Step (paramsForAction derive counts) c d) (hc : LockInv c) :
    LockInv d := by
  cases h with
  | act i ha =>
    obtain ⟨poisoned, hstep⟩ := ha
    intro j
    have hi := hc i
    have hj := hc j
    rcases paramsForStep_lock hstep with ⟨hin, hfree, howner⟩ | ⟨hheld, hout, howner⟩ | ⟨hsame, howner⟩
    · by_cases hji : j = i
      · subst hji
        simp [hin, howner]
      · simp only [Function.update_of_ne hji, howner, hj, hfree]
        simp [Ne.symm hji]
    · have hown := hi.mp hheld
      by_cases hji : j = i
      · subst hji
        simp [hout, howner]
      · simp only [Function.update_of_ne hji, howner, hj, hown]
        simp [Ne.symm hji]
    · by_cases hji : j = i
      · subst hji
        simpa [hsame, howner] using hi
      · simpa [Function.update_of_ne hji, howner] using hj

theorem lockInv_of_run [DecidableEq ι]
    (h : Run (paramsForAction derive counts) (initialConfig ι P) c) :
    LockInv c :=
  h.preserves (fun _ _ => lockInv_step) (fun _ => by simp [initialConfig, Phase.holdsLock])

/-- In a critical section, and anywhere else while the lock is free, a call can act
    without a failing lock. -/
theorem paramsForStep_isSome (derive : Nat → Option P) (i : ι) (count : UInt32)
    {cache : ParamsCache ι P} {phase : Phase P}
    (hready : phase.holdsLock = true ∨ cache.owner = none ∧ phase.finished = false) :
    (paramsForStep derive i count false cache phase).isSome = true := by
  cases phase <;> simp only [paramsForStep]
  case lookup | inserting =>
    rcases hready with hheld | ⟨hfree, -⟩
    · cases hheld
    · simp [hfree]
  case returned | panicked =>
    rcases hready with hheld | ⟨-, hunfinished⟩
    · cases hheld
    · cases hunfinished
  case hit | miss | writing | written => rfl
  all_goals split <;> rfl

/-- While a call is not finished, some call can act without a failing lock. -/
theorem exists_ready (derive : Nat → Option P) (counts : ι → UInt32) (hlock : LockInv c) {i : ι}
    (hi : (c.locals i).finished = false) :
    ∃ j phase cache, paramsForStep derive j (counts j) false c.shared (c.locals j)
      = some (phase, cache) := by
  have hready : ∃ j, (c.locals j).holdsLock = true ∨
      c.shared.owner = none ∧ (c.locals j).finished = false := by
    cases howner : c.shared.owner with
    | none => exact ⟨i, .inr ⟨rfl, hi⟩⟩
    | some j => exact ⟨j, .inl ((hlock j).mpr howner)⟩
  obtain ⟨j, hj⟩ := hready
  obtain ⟨⟨phase, cache⟩, hstep⟩ :=
    Option.isSome_iff_exists.mp (paramsForStep_isSome derive j (counts j) hj)
  exact ⟨j, phase, cache, hstep⟩

/-! ### Every call returns -/

/-- How many actions a call is away from its end, at most. -/
def Phase.remaining : Phase P → Nat
  | .start => 8
  | .direct => 1
  | .lookup => 7
  | .reading => 6
  | .hit _ => 1
  | .miss => 5
  | .derive => 4
  | .inserting _ => 3
  | .writing _ => 2
  | .written _ => 1
  | .returned _ => 0
  | .panicked => 0

theorem remaining_lt {i : ι} {count : UInt32} {poisoned : Bool}
    {cache cache' : ParamsCache ι P} {phase phase' : Phase P}
    (h : paramsForStep derive i count poisoned cache phase = some (phase', cache')) :
    phase'.remaining < phase.remaining := by
  cases phase <;> simp only [paramsForStep] at h
  case hit | miss | writing | written =>
    cases h
    simp [Phase.remaining]
  case returned | panicked => cases h
  case lookup | inserting =>
    split at h
    · cases h
      simp [Phase.remaining]
    · split at h <;> cases h
      simp [Phase.remaining]
  all_goals
    split at h <;> cases h <;> simp [Phase.remaining]

theorem wellFounded_paramsFor [DecidableEq ι] [Fintype ι] (derive : Nat → Option P) (counts : ι → UInt32) :
    WellFounded (flip (Step (paramsForAction derive counts))) :=
  wellFounded_step (μ := Phase.remaining) fun _ _ _ _ _ ⟨_, hstep⟩ => remaining_lt hstep

/-- When no call can act, every call has returned what is derived for its count, or its
    derivation has panicked. -/
theorem finished_of_terminal [DecidableEq ι] (hinv : ParamsInv derive counts c) (hlock : LockInv c)
    (hterm : Terminal (paramsForAction derive counts) c) (i : ι) :
    (∃ params, c.locals i = .returned params ∧ derive (counts i).toNat = some params) ∨
      (c.locals i = .panicked ∧ derive (counts i).toNat = none) := by
  have hcall := hinv.locals i
  have hfinished : (c.locals i).finished = true := by
    by_contra hunfinished
    obtain ⟨j, phase, cache, hstep⟩ :=
      exists_ready derive counts hlock (Bool.eq_false_iff.mpr hunfinished)
    exact hterm _ (.act c j ⟨false, hstep⟩)
  revert hcall hfinished
  cases c.locals i with
  | returned params => exact fun hcall _ => .inl ⟨params, rfl, hcall⟩
  | panicked => exact fun hcall _ => .inr ⟨rfl, hcall⟩
  | _ =>
    intro _ hfinished
    cases hfinished

end Cache

/-! ### `params_for` -/

/-- `derive_params`, with `none` for its panic. -/
def deriveParams (S : Suite) (count : Nat) : Option (SignatureParamsG1 S) :=
  (SignatureParamsG1.new S paramsLabel count).value

theorem deriveParams_eq (S : Suite) (count : Nat) :
    deriveParams S count = if count = 0 then none else some (paramsOf S count) := by
  by_cases hcount : count = 0
  · subst hcount
    rfl
  · have hassert : (rustAssert (count != 0) : Exec Event Unit) = pure () := by
      simp [rustAssert, hcount]
    rw [if_neg hcount, deriveParams, SignatureParamsG1.new, hassert]
    rfl

/-- **The generator cache is invisible.** In every interleaving of any number of calls,
    with any of their lock acquisitions failing: a call that has returned has returned
    what `derive_params` gives for its count; the cache holds nothing but
    derived parameters under their own counts, up to 64; and an entry stays as it is for
    the rest of the run. There is no deadlock, finitely many calls have no infinite run,
    and at the end every call with a count other than 0 has returned the derived
    parameters. -/
theorem paramsFor_cache_invisible (S : Suite) (ι : Type) [DecidableEq ι] (counts : ι → UInt32) :
    (∀ c, Run (paramsForAction (deriveParams S) counts) (initialConfig ι _) c →
      (∀ i params, c.locals i = .returned params →
        deriveParams S (counts i).toNat = some params ∧ params = paramsOf S (counts i).toNat) ∧
      (∀ k params, c.shared.map.get? k = some params →
        k ≤ 64 ∧ deriveParams S k = some params) ∧
      (∀ d, Run (paramsForAction (deriveParams S) counts) c d →
        ∀ k params, c.shared.map.get? k = some params → d.shared.map.get? k = some params) ∧
      (∀ i, (c.locals i).finished = false → ∃ j phase cache,
        paramsForStep (deriveParams S) j (counts j) false c.shared (c.locals j)
          = some (phase, cache)) ∧
      (Terminal (paramsForAction (deriveParams S) counts) c →
        ∀ i, counts i ≠ 0 → c.locals i = .returned (paramsOf S (counts i).toNat))) ∧
    (Finite ι → WellFounded (flip (Step (paramsForAction (deriveParams S) counts))) ∧
      ∀ c, ∃ d, Run (paramsForAction (deriveParams S) counts) c d ∧
        Terminal (paramsForAction (deriveParams S) counts) d) := by
  have hderived : ∀ {k : Nat} {params : SignatureParamsG1 S}, deriveParams S k = some params →
      params = paramsOf S k := by
    intro k params h
    rw [deriveParams_eq] at h
    split at h
    · cases h
    · exact (Option.some.inj h).symm
  constructor
  · intro c hrun
    have hinv := paramsInv_of_run hrun
    have hlock := lockInv_of_run hrun
    refine ⟨?_, fun k params hget => hinv.shared k params hget,
      fun d hd => extends_of_run hinv hd, fun i hi => exists_ready _ counts hlock hi, ?_⟩
    · intro i params hreturned
      have hcall := hinv.locals i
      rw [hreturned] at hcall
      exact ⟨hcall, hderived hcall⟩
    · intro hterm i hcount
      rcases finished_of_terminal hinv hlock hterm i with ⟨params, hreturned, h⟩ | ⟨-, h⟩
      · rw [hreturned, hderived h]
      · have hnonzero : (counts i).toNat ≠ 0 := fun hzero => hcount (UInt32.toNat_inj.mp hzero)
        rw [deriveParams_eq, if_neg hnonzero] at h
        cases h
  · intro hfinite
    have := Fintype.ofFinite ι
    have hwf := wellFounded_paramsFor (deriveParams S) counts
    exact ⟨hwf, exists_terminal hwf⟩

end PhiCrypto

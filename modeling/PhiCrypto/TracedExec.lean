import Mathlib.Tactic.Ring
import Mathlib.Data.List.Basic

/-!
# Executions with a call trace and panics

Rust code can stop in a way that no return value reports: an index out of
bounds, a failed `assert!`, an arithmetic underflow, an `unwrap` of `None`.
`Exec ε α` is the outcome of running such code. It either returns a value or
panics, and it records the events (calls and allocations worth observing) that
happened on the way.

`Exec.Meets P Q x` is the total-correctness judgement for it: `x` does not
panic, every recorded event satisfies `P`, and the returned value satisfies
`Q`. The rules below follow the structure of the program; a function that
returns a `Result` lives in `ExceptT`, and has rules of its own for `?`. A run
for which no such judgement holds may panic; `Exec.Panics` has rules to show that
it does.
-/

namespace PhiCrypto

/-- The panicking operations that occur in the modelled code. -/
inductive Panic where
  | sliceOutOfRange
  | indexOutOfBounds
  | subtractWithOverflow
  | assertionFailed
  | unwrapOnNone
  | lengthMismatch
deriving DecidableEq, Repr

/-- The outcome of running a Rust function: a value or a panic, with the events
    recorded up to that point. -/
inductive Exec (ε α : Type) where
  | done (log : List ε) (value : α)
  | panic (log : List ε) (cause : Panic)
deriving DecidableEq, Repr

namespace Exec

variable {ε α β : Type}

/-- Put the events of an earlier part of the run in front. -/
def prepend (earlier : List ε) : Exec ε α → Exec ε α
  | .done log value => .done (earlier ++ log) value
  | .panic log cause => .panic (earlier ++ log) cause

protected def bind (x : Exec ε α) (f : α → Exec ε β) : Exec ε β :=
  match x with
  | .done log value => prepend log (f value)
  | .panic log cause => .panic log cause

instance : Monad (Exec ε) where
  pure := .done []
  bind := Exec.bind

@[simp] theorem done_bind (log : List ε) (a : α) (f : α → Exec ε β) :
    (Exec.done log a >>= f) = prepend log (f a) := rfl

@[simp] theorem panic_bind (log : List ε) (cause : Panic) (f : α → Exec ε β) :
    (Exec.panic log cause >>= f) = .panic log cause := rfl

@[simp] theorem prepend_nil (x : Exec ε α) : prepend [] x = x := by
  cases x <;> rfl

theorem prepend_append (l l' : List ε) (x : Exec ε α) :
    prepend (l ++ l') x = prepend l (prepend l' x) := by
  cases x <;> simp [prepend]

instance : LawfulMonad (Exec ε) := LawfulMonad.mk' _
  (by
    intro α x
    cases x <;> simp [Functor.map, Exec.bind, prepend])
  (by
    intro α β a f
    exact prepend_nil (f a))
  (by
    intro α β γ x f g
    cases x with
    | panic log cause => rfl
    | done log a =>
      change prepend log (f a) >>= g = prepend log (f a >>= g)
      cases f a with
      | panic log' cause => rfl
      | done log' b => exact prepend_append log log' (g b))

def emit (e : ε) : Exec ε Unit := .done [e] ()

def abort (cause : Panic) : Exec ε α := .panic [] cause

def value : Exec ε α → Option α
  | .done _ a => some a
  | .panic _ _ => none

def trace : Exec ε α → List ε
  | .done log _ => log
  | .panic log _ => log

/-- The run returns `a` (it does not panic). -/
def Returns (x : Exec ε α) (a : α) : Prop := x.value = some a

instance [DecidableEq α] (x : Exec ε α) (a : α) : Decidable (x.Returns a) :=
  inferInstanceAs (Decidable (x.value = some a))

theorem Returns.unique {x : Exec ε α} {a b : α} (ha : x.Returns a) (hb : x.Returns b) :
    a = b :=
  Option.some.inj (ha.symm.trans hb)

@[simp] theorem value_prepend (l : List ε) (x : Exec ε α) : (prepend l x).value = x.value := by
  cases x <;> rfl

/-- The inversion of a sequence: both parts return. -/
theorem returns_bind_iff {x : Exec ε α} {f : α → Exec ε β} {b : β} :
    (x >>= f).Returns b ↔ ∃ a, x.Returns a ∧ (f a).Returns b := by
  cases x with
  | panic log cause =>
    apply iff_of_false (by simp [Returns, value])
    rintro ⟨a, ha, -⟩
    cases ha
  | done log a =>
    rw [done_bind, Returns, value_prepend]
    refine ⟨fun h => ⟨a, rfl, h⟩, ?_⟩
    rintro ⟨_, ⟨⟩, h⟩
    exact h

/-! ### The total-correctness judgement -/

/-- `x` runs without a panic, records only events that satisfy `P`, and returns
    a value that satisfies `Q`. -/
def Meets (P : ε → Prop) (Q : α → Prop) : Exec ε α → Prop
  | .done log a => (∀ e ∈ log, P e) ∧ Q a
  | .panic _ _ => False

variable {P : ε → Prop} {Q : α → Prop} {R : β → Prop}

theorem Meets.exists_returns {x : Exec ε α} (h : x.Meets P Q) : ∃ a, x.Returns a ∧ Q a := by
  cases x with
  | done log a => exact ⟨a, rfl, h.2⟩
  | panic log cause => exact h.elim

theorem Meets.of_returns {x : Exec ε α} (h : x.Meets P Q) {a : α} (ha : x.Returns a) : Q a := by
  rcases h.exists_returns with ⟨b, hb, hQ⟩
  exact ha.unique hb ▸ hQ

theorem Meets.returns_true_iff {x : Exec ε Bool} {cond : Prop}
    (h : x.Meets P (fun verdict => verdict = true ↔ cond)) : x.Returns true ↔ cond := by
  rcases h.exists_returns with ⟨verdict, hret, hcond⟩
  rw [← hcond]
  exact ⟨fun htrue => hret.unique htrue, fun htrue => htrue ▸ hret⟩

/-- A run that does not panic returns one of the two verdicts. -/
theorem returns_false_iff_not_true {x : Exec ε Bool} {Q : Bool → Prop} (h : x.Meets P Q) :
    x.Returns false ↔ ¬ x.Returns true := by
  rcases h.exists_returns with ⟨verdict, hret, -⟩
  cases verdict with
  | false => exact iff_of_true hret (fun htrue => by cases hret.unique htrue)
  | true => exact iff_of_false (fun hfalse => by cases hret.unique hfalse) (not_not.mpr hret)

theorem Meets.mono {P' : ε → Prop} {Q' : α → Prop} {x : Exec ε α} (h : x.Meets P Q)
    (hP : ∀ e, P e → P' e) (hQ : ∀ a, Q a → Q' a) : x.Meets P' Q' := by
  cases x with
  | done log a => exact ⟨fun e he => hP e (h.1 e he), hQ a h.2⟩
  | panic log cause => exact h.elim

theorem Meets.post {Q' : α → Prop} {x : Exec ε α} (h : x.Meets P Q)
    (hQ : ∀ a, Q a → Q' a) : x.Meets P Q' :=
  h.mono (fun _ he => he) hQ

/-- The postcondition may speak of the run itself. -/
theorem Meets.and_returns {x : Exec ε α} (h : x.Meets P Q) :
    x.Meets P (fun a => Q a ∧ x.Returns a) := by
  cases x with
  | done log a => exact ⟨h.1, h.2, rfl⟩
  | panic log cause => exact h.elim

theorem meets_pure {a : α} (h : Q a) : (pure a : Exec ε α).Meets P Q :=
  ⟨fun _ he => absurd he List.not_mem_nil, h⟩

theorem meets_emit {e : ε} {Q : Unit → Prop} (he : P e) (h : Q ()) : (emit e).Meets P Q :=
  ⟨fun _ hmem => List.mem_singleton.mp hmem ▸ he, h⟩

theorem Meets.prepend {l : List ε} {x : Exec ε α} (hl : ∀ e ∈ l, P e) (h : x.Meets P Q) :
    (Exec.prepend l x).Meets P Q := by
  cases x with
  | panic log cause => exact h.elim
  | done log a =>
    refine ⟨fun e he => ?_, h.2⟩
    rcases List.mem_append.mp he with hmem | hmem
    · exact hl e hmem
    · exact h.1 e hmem

theorem Meets.bind {x : Exec ε α} {f : α → Exec ε β} (hx : x.Meets P Q)
    (hf : ∀ a, Q a → (f a).Meets P R) : (x >>= f).Meets P R := by
  cases x with
  | panic log cause => exact hx.elim
  | done log a => exact (hf a hx.2).prepend hx.1

/-! ### Functions that return a `Result` -/

variable {κ : Type} {S : Except κ α → Prop} {T : Except κ β → Prop}

/-- The judgement for a function that returns a `Result`. -/
def MeetsResult (P : ε → Prop) (S : Except κ α → Prop) (x : ExceptT κ (Exec ε) α) : Prop :=
  Meets P S x.run

/-- The `?` operator: an error leaves the function, a value goes on. -/
theorem MeetsResult.bind {x : ExceptT κ (Exec ε) α} {f : α → ExceptT κ (Exec ε) β}
    (hx : MeetsResult P S x) (hok : ∀ a, S (.ok a) → MeetsResult P T (f a))
    (herr : ∀ k, S (.error k) → T (.error k)) :
    MeetsResult P T (x >>= f) := by
  apply Meets.bind (Q := S) (show Meets P S x.run from hx)
  intro r hr
  cases r with
  | ok a => exact hok a hr
  | error k => exact meets_pure (herr k hr)

theorem MeetsResult.returns_ok_iff {x : ExceptT κ (Exec ε) Unit} {cond : Prop}
    (h : MeetsResult P (fun res => res = .ok () ↔ cond) x) : x.run.Returns (.ok ()) ↔ cond := by
  obtain ⟨res, hret, hcond⟩ := Meets.exists_returns h
  rw [← hcond]
  exact ⟨fun hok => hret.unique hok, fun hok => hok ▸ hret⟩

theorem meetsResult_pure {a : α} (h : S (.ok a)) :
    MeetsResult P S (pure a : ExceptT κ (Exec ε) α) :=
  meets_pure (Q := S) h

theorem meetsResult_throw {k : κ} (h : S (.error k)) :
    MeetsResult P S (throw k : ExceptT κ (Exec ε) α) :=
  meets_pure (Q := S) h

theorem Meets.liftResult {x : Exec ε α} (hx : x.Meets P fun a => S (.ok a)) :
    MeetsResult P S (liftM x : ExceptT κ (Exec ε) α) := by
  cases x with
  | panic log cause => exact hx.elim
  | done log a =>
    refine ⟨fun e he => hx.1 e ?_, hx.2⟩
    simpa using he

theorem MeetsResult.lift_bind {x : Exec ε α} {f : α → ExceptT κ (Exec ε) β}
    (hx : x.Meets P Q) (hf : ∀ a, Q a → MeetsResult P T (f a)) :
    MeetsResult P T ((liftM x : ExceptT κ (Exec ε) α) >>= f) := by
  refine MeetsResult.bind (S := fun res => ∃ a, res = .ok a ∧ Q a)
    (Meets.liftResult (hx.post fun a ha => ⟨a, rfl, ha⟩)) ?_ ?_
  · rintro a ⟨_, ⟨⟩, ha⟩
    exact hf a ha
  · rintro k ⟨_, ⟨⟩, _⟩

theorem MeetsResult.emit_bind {e : ε} {f : Unit → ExceptT κ (Exec ε) β} (he : P e)
    (hf : MeetsResult P T (f ())) :
    MeetsResult P T ((liftM (emit e) : ExceptT κ (Exec ε) Unit) >>= f) :=
  MeetsResult.lift_bind (Q := fun _ => True) (meets_emit he trivial) fun _ _ => hf

/-- `map_err(|_| k)`. -/
def mapErr {κ' : Type} (k : κ') (x : ExceptT κ (Exec ε) α) : ExceptT κ' (Exec ε) α :=
  ExceptT.mk do
    match ← x.run with
    | .ok a => pure (.ok a)
    | .error _ => pure (.error k)

theorem MeetsResult.mapErr {κ' : Type} {k : κ'} {T : Except κ' α → Prop}
    {x : ExceptT κ (Exec ε) α} (hx : MeetsResult P S x) (hok : ∀ a, S (.ok a) → T (.ok a))
    (herr : ∀ e, S (.error e) → T (.error k)) : MeetsResult P T (Exec.mapErr k x) := by
  apply Meets.bind (Q := S) (show Meets P S x.run from hx)
  rintro (e | a) hres
  · exact meets_pure (herr e hres)
  · exact meets_pure (hok a hres)

theorem meetsResult_ofExcept {x : Except κ α} (h : S x) :
    MeetsResult P S (ExceptT.mk (pure x) : ExceptT κ (Exec ε) α) :=
  meets_pure (Q := S) h

/-- Decode, then decide: the verdict is true exactly when a value is decoded and
    accepted. -/
theorem MeetsResult.decode_then {Q : α → Bool → Prop} {x : ExceptT κ (Exec ε) α}
    {f : α → Exec ε Bool} {g : Except κ α → Exec ε Bool} (hx : MeetsResult P S x)
    (hf : ∀ a, (f a).Meets P (Q a)) (hok : ∀ a, g (.ok a) = f a)
    (herr : ∀ k, g (.error k) = pure false) :
    (x.run >>= g).Meets P
      (fun verdict => verdict = true ↔ ∃ a, x.run.Returns (.ok a) ∧ (f a).Returns true) := by
  refine (Meets.and_returns hx).bind ?_
  rintro (k | a) ⟨-, hret⟩
  · rw [herr]
    refine meets_pure (iff_of_false (by simp) ?_)
    rintro ⟨a, ha, -⟩
    cases hret.unique ha
  · rw [hok]
    apply (hf a).and_returns.post
    rintro verdict ⟨-, hverdict⟩
    constructor
    · rintro rfl
      exact ⟨a, hret, hverdict⟩
    · rintro ⟨a', ha', htrue⟩
      cases hret.unique ha'
      exact hverdict.unique htrue

/-! ### Runs that panic -/

/-- The run ends in a panic: it returns nothing. -/
def Panics (x : Exec ε α) : Prop := x.value = none

theorem Panics.not_returns {x : Exec ε α} (h : x.Panics) (a : α) : ¬ x.Returns a := by
  intro ha
  cases ha.symm.trans h

theorem Returns.meets {x : Exec ε α} {a : α} (h : x.Returns a) :
    x.Meets (fun _ => True) (· = a) := by
  cases x with
  | done log b => exact ⟨fun _ _ => trivial, Option.some.inj h⟩
  | panic log cause => cases h

theorem Panics.bind {x : Exec ε α} (h : x.Panics) (f : α → Exec ε β) : (x >>= f).Panics := by
  cases x with
  | done log a => cases h
  | panic log cause => rfl

/-- What follows a run that returns decides whether the sequence panics. -/
theorem Meets.bind_panics {x : Exec ε α} {f : α → Exec ε β} (hx : x.Meets P Q)
    (hf : ∀ a, Q a → (f a).Panics) : (x >>= f).Panics := by
  cases x with
  | panic log cause => exact hx.elim
  | done log a =>
    rw [Panics, done_bind, value_prepend]
    exact hf a hx.2

theorem MeetsResult.bind_panics {x : ExceptT κ (Exec ε) α} {f : α → ExceptT κ (Exec ε) β}
    (hx : MeetsResult P S x) (hok : ∀ a, S (.ok a) → (f a).run.Panics)
    (herr : ∀ k, ¬ S (.error k)) : (x >>= f).run.Panics := by
  apply Meets.bind_panics (Q := S) (show Meets P S x.run from hx)
  intro r hr
  cases r with
  | ok a => exact hok a hr
  | error k => exact absurd hr (herr k)

theorem MeetsResult.lift_bind_panics {x : Exec ε α} {f : α → ExceptT κ (Exec ε) β}
    (hx : x.Meets P Q) (hf : ∀ a, Q a → (f a).run.Panics) :
    ((liftM x : ExceptT κ (Exec ε) α) >>= f).run.Panics := by
  refine MeetsResult.bind_panics (S := fun res => ∃ a, res = .ok a ∧ Q a)
    (Meets.liftResult (hx.post fun a ha => ⟨a, rfl, ha⟩)) ?_ ?_
  · rintro a ⟨_, ⟨⟩, ha⟩
    exact hf a ha
  · rintro k ⟨_, ⟨⟩, _⟩

theorem Panics.emit_bind {e : ε} {f : Unit → ExceptT κ (Exec ε) β} (hf : (f ()).run.Panics) :
    ((liftM (emit e) : ExceptT κ (Exec ε) Unit) >>= f).run.Panics :=
  MeetsResult.lift_bind_panics (P := fun _ => True) (Q := fun _ => True)
    (meets_emit trivial trivial) fun _ _ => hf

theorem Panics.lift_bind {x : Exec ε α} (h : x.Panics) (f : α → ExceptT κ (Exec ε) β) :
    ((liftM x : ExceptT κ (Exec ε) α) >>= f).run.Panics := by
  cases x with
  | done log a => cases h
  | panic log cause => rfl

end Exec

/-! ### Runs that return a value -/

section Inversion

variable {ε κ α β : Type} {b : β}

/-- The `?` operator goes on with the value that was returned. -/
theorem Exec.returns_ok_bind {x : ExceptT κ (Exec ε) α} {f : α → ExceptT κ (Exec ε) β}
    (h : (x >>= f).run.Returns (.ok b)) :
    ∃ a, x.run.Returns (.ok a) ∧ (f a).run.Returns (.ok b) := by
  rcases returns_bind_iff.mp h with ⟨res, hres, h⟩
  cases res with
  | error k => cases h
  | ok a => exact ⟨a, hres, h⟩

theorem Exec.returns_ok_lift_bind {x : Exec ε α} {f : α → ExceptT κ (Exec ε) β}
    (h : ((liftM x : ExceptT κ (Exec ε) α) >>= f).run.Returns (.ok b)) :
    ∃ a, x.Returns a ∧ (f a).run.Returns (.ok b) := by
  cases x with
  | panic log cause => cases h
  | done log a =>
    rcases returns_ok_bind h with ⟨a', ha, h⟩
    cases ha
    exact ⟨a, rfl, h⟩

theorem Exec.returns_ok_bind_iff {x : ExceptT κ (Exec ε) α} {f : α → ExceptT κ (Exec ε) β} :
    (x >>= f).run.Returns (.ok b) ↔ ∃ a, x.run.Returns (.ok a) ∧ (f a).run.Returns (.ok b) := by
  refine ⟨returns_ok_bind, ?_⟩
  rintro ⟨a, ha, hb⟩
  exact returns_bind_iff.mpr ⟨.ok a, ha, hb⟩

theorem Exec.returns_ok_lift_bind_iff {x : Exec ε α} {f : α → ExceptT κ (Exec ε) β} :
    ((liftM x : ExceptT κ (Exec ε) α) >>= f).run.Returns (.ok b) ↔
      ∃ a, x.Returns a ∧ (f a).run.Returns (.ok b) := by
  refine ⟨returns_ok_lift_bind, ?_⟩
  rintro ⟨a, ha, hb⟩
  refine returns_ok_bind_iff.mpr ⟨a, ?_, hb⟩
  exact returns_bind_iff.mpr ⟨a, ha, rfl⟩

end Inversion

/-- The `?` operator on a `Result` that records nothing. -/
theorem except_bind_eq_ok_iff {κ α β : Type} {x : Except κ α} {f : α → Except κ β} {b : β} :
    (x >>= f) = .ok b ↔ ∃ a, x = .ok a ∧ f a = .ok b := by
  cases x with
  | error k => exact iff_of_false (fun h => by cases h) (fun ⟨_, h, _⟩ => by cases h)
  | ok a => exact ⟨fun h => ⟨a, rfl, h⟩, fun ⟨_, ha, h⟩ => by cases ha; exact h⟩

/-- `map_err` in front of the `?` operator. -/
theorem mapError_eq_ok_iff {κ κ' α : Type} {f : κ → κ'} {x : Except κ α} {a : α} :
    x.mapError f = .ok a ↔ x = .ok a := by
  cases x with
  | error k => exact iff_of_false (fun h => by cases h) (fun h => by cases h)
  | ok b => exact ⟨fun h => by cases h; rfl, fun h => by cases h; rfl⟩

/-! ### Early returns -/

/-- `if bad { return Err(k) }`. -/
def rejectIf {m : Type → Type} {κ : Type} [Monad m] [MonadExceptOf κ m] (bad : Prop)
    [Decidable bad] (k : κ) : m Unit :=
  if bad then throw k else pure ()

theorem rejectIf_eq_ok_iff {κ : Type} {bad : Prop} [Decidable bad] {k : κ} :
    (rejectIf bad k : Except κ Unit) = .ok () ↔ ¬ bad := by
  unfold rejectIf
  by_cases h : bad
  · rw [if_pos h]
    exact iff_of_false (by simp [throw, throwThe, MonadExceptOf.throw]) (by simpa using h)
  · rw [if_neg h]
    exact iff_of_true rfl h

theorem rejectIf_bind_eq_ok_iff {κ β : Type} {bad : Prop} [Decidable bad] {k : κ}
    {f : Unit → Except κ β} {b : β} :
    (rejectIf bad k >>= f) = .ok b ↔ ¬ bad ∧ f () = .ok b := by
  by_cases h : bad
  · rw [rejectIf, if_pos h]
    exact iff_of_false (by simp [throw, throwThe, MonadExceptOf.throw, bind, Except.bind])
      (fun hb => hb.1 h)
  · rw [rejectIf, if_neg h, pure_bind]
    exact (and_iff_right h).symm

theorem Exec.meetsResult_rejectIf {ε κ : Type} {P : ε → Prop} {T : Except κ Unit → Prop}
    {bad : Prop} [Decidable bad] {k : κ} (hbad : bad → T (.error k)) (hok : ¬ bad → T (.ok ())) :
    MeetsResult P T (rejectIf bad k : ExceptT κ (Exec ε) Unit) := by
  by_cases h : bad
  · rw [rejectIf, if_pos h]
    exact meetsResult_throw (hbad h)
  · rw [rejectIf, if_neg h]
    exact meetsResult_pure (hok h)

theorem Exec.MeetsResult.rejectIf_bind {ε κ β : Type} {P : ε → Prop} {T : Except κ β → Prop}
    {bad : Prop} [Decidable bad] {k : κ} {f : Unit → ExceptT κ (Exec ε) β}
    (hbad : bad → T (.error k)) (hok : ¬ bad → MeetsResult P T (f ())) :
    MeetsResult P T (rejectIf bad k >>= f) := by
  refine MeetsResult.bind (S := fun res => (bad ∧ res = .error k) ∨ (¬ bad ∧ res = .ok ()))
    (meetsResult_rejectIf (fun h => .inl ⟨h, rfl⟩) (fun h => .inr ⟨h, rfl⟩)) ?_ ?_
  · rintro ⟨⟩ (⟨_, ⟨⟩⟩ | ⟨h, _⟩)
    exact hok h
  · rintro k' (⟨h, ⟨⟩⟩ | ⟨_, ⟨⟩⟩)
    exact hbad h

theorem Exec.returns_ok_rejectIf_bind {ε κ β : Type} {b : β} {bad : Prop} [Decidable bad] {k : κ}
    {f : Unit → ExceptT κ (Exec ε) β} (h : (rejectIf bad k >>= f).run.Returns (.ok b)) :
    ¬ bad ∧ (f ()).run.Returns (.ok b) := by
  by_cases hbad : bad
  · rw [rejectIf, if_pos hbad] at h
    cases h
  · rw [rejectIf, if_neg hbad, pure_bind] at h
    exact ⟨hbad, h⟩

theorem Exec.returns_ok_rejectIf_bind_iff {ε κ β : Type} {b : β} {bad : Prop} [Decidable bad]
    {k : κ} {f : Unit → ExceptT κ (Exec ε) β} :
    (rejectIf bad k >>= f).run.Returns (.ok b) ↔ ¬ bad ∧ (f ()).run.Returns (.ok b) := by
  refine ⟨returns_ok_rejectIf_bind, ?_⟩
  rintro ⟨hbad, h⟩
  rwa [rejectIf, if_neg hbad, pure_bind]

/-! ### Panicking primitives -/

variable {ε : Type}

/-- `&b[lo..hi]`. -/
def sliceAt (b : List α) (lo hi : Nat) : Exec ε (List α) :=
  if lo ≤ hi ∧ hi ≤ b.length then pure ((b.take hi).drop lo)
  else Exec.abort .sliceOutOfRange

def indexAt (b : List α) (i : Nat) : Exec ε α :=
  match b[i]? with
  | some x => pure x
  | none => Exec.abort .indexOutOfBounds

/-- `a - b` on `usize`. -/
def usizeSub (a b : Nat) : Exec ε Nat :=
  if b ≤ a then pure (a - b) else Exec.abort .subtractWithOverflow

/-- `assert!(cond)`. -/
def rustAssert (cond : Bool) : Exec ε Unit :=
  if cond then pure () else Exec.abort .assertionFailed

def unwrap (x : Option α) : Exec ε α :=
  match x with
  | some a => pure a
  | none => Exec.abort .unwrapOnNone

/-- `usize::checked_add` on a 64-bit target. -/
def checkedAdd (a b : Nat) : Option Nat :=
  if a + b < 2 ^ 64 then some (a + b) else none

variable {α : Type} {P : ε → Prop}

theorem meets_sliceAt {b : List α} {lo hi : Nat} (h : lo ≤ hi ∧ hi ≤ b.length) :
    (sliceAt b lo hi : Exec ε (List α)).Meets P (· = (b.take hi).drop lo) := by
  rw [sliceAt, if_pos h]
  exact Exec.meets_pure rfl

theorem of_returns_sliceAt {b s : List α} {lo hi : Nat}
    (h : (sliceAt b lo hi : Exec ε (List α)).Returns s) : s = (b.take hi).drop lo := by
  unfold sliceAt at h
  split at h
  · exact (Option.some.inj h).symm
  · cases h

theorem meets_indexAt {b : List α} {i : Nat} {x : α} (h : b[i]? = some x) :
    (indexAt b i : Exec ε α).Meets P (· = x) := by
  rw [indexAt, h]
  exact Exec.meets_pure rfl

theorem meets_usizeSub {a b : Nat} (h : b ≤ a) :
    (usizeSub a b : Exec ε Nat).Meets P (· = a - b) := by
  rw [usizeSub, if_pos h]
  exact Exec.meets_pure rfl

end PhiCrypto

import Mathlib.Logic.Relation
import Mathlib.Algebra.BigOperators.Group.Finset.Basic
import Mathlib.Data.Fintype.BigOperators
import Mathlib.Algebra.Order.BigOperators.Group.Finset

/-!
# Interleaved threads over a shared state

A family of threads, each with a local state, over one shared state. A step is an
atomic action of one thread; a run is any interleaving of such steps. The rules
below reduce what holds along every run to what one action of one thread does: an
invariant of the shared state with one of each thread, a relation between the shared
states of a run, and a measure that bounds every run.
-/

namespace PhiCrypto

namespace Interleaving

variable {ι L G : Type} [DecidableEq ι]

structure Config (ι L G : Type) where
  locals : ι → L
  shared : G

/-- What an action of a thread may do to its local state and the shared one. -/
abbrev Action (ι L G : Type) := ι → L → G → L → G → Prop

/-- One thread acts, the others wait. -/
inductive Step (A : Action ι L G) : Config ι L G → Config ι L G → Prop
  | act (c : Config ι L G) (i : ι) {l : L} {g : G} (h : A i (c.locals i) c.shared l g) :
      Step A c ⟨Function.update c.locals i l, g⟩

/-- Any interleaving. -/
abbrev Run (A : Action ι L G) := Relation.ReflTransGen (Step A)

/-- No thread can act. -/
def Terminal (A : Action ι L G) (c : Config ι L G) : Prop := ∀ d, ¬ Step A c d

variable {A : Action ι L G} {c d : Config ι L G}

/-- What every step preserves, every run preserves. -/
theorem Run.preserves {Inv : Config ι L G → Prop} (hstep : ∀ c d, Step A c d → Inv c → Inv d)
    (h : Run A c d) (hc : Inv c) : Inv d := by
  induction h with
  | refl => exact hc
  | tail _ hlast ih => exact hstep _ _ hlast ih

section Modular

variable {J : G → Prop} {I : ι → L → Prop}

/-- An invariant of the shared state, with an invariant of each thread. -/
structure Holds (J : G → Prop) (I : ι → L → Prop) (c : Config ι L G) : Prop where
  shared : J c.shared
  locals : ∀ i, I i (c.locals i)

/-- It is enough that an action preserves both for the thread that acts. -/
theorem Step.holds (hact : ∀ i l g l' g', A i l g l' g' → J g → I i l → J g' ∧ I i l')
    (h : Step A c d) (hc : Holds J I c) : Holds J I d := by
  cases h with
  | act i ha =>
    obtain ⟨hshared, hlocal⟩ := hact _ _ _ _ _ ha hc.shared (hc.locals i)
    refine ⟨hshared, ?_⟩
    intro j
    by_cases hj : j = i
    · subst hj
      simpa using hlocal
    · simpa [Function.update_of_ne hj] using hc.locals j

theorem Run.holds (hact : ∀ i l g l' g', A i l g l' g' → J g → I i l → J g' ∧ I i l')
    (h : Run A c d) (hc : Holds J I c) : Holds J I d :=
  h.preserves (fun _ _ => Step.holds hact) hc

/-- The shared states of a run are related as those of every action are. -/
theorem Run.shared_rel {R : G → G → Prop} (hrefl : ∀ g, R g g)
    (htrans : ∀ {g g' g''}, R g g' → R g' g'' → R g g'')
    (hact : ∀ i l g l' g', A i l g l' g' → J g → I i l → (J g' ∧ I i l') ∧ R g g')
    (h : Run A c d) (hc : Holds J I c) : R c.shared d.shared := by
  have hkeep : ∀ i l g l' g', A i l g l' g' → J g → I i l → J g' ∧ I i l' :=
    fun i l g l' g' ha hg hl => (hact i l g l' g' ha hg hl).1
  induction h with
  | refl => exact hrefl _
  | tail hrun hlast ih =>
    have hmid := Run.holds hkeep hrun hc
    cases hlast with
    | act i ha => exact htrans ih (hact _ _ _ _ _ ha hmid.shared (hmid.locals i)).2

end Modular

section Termination

variable {μ : L → Nat}

/-- Where every action lowers a measure of its thread, there is no infinite run. -/
theorem wellFounded_step [Fintype ι] (hact : ∀ i l g l' g', A i l g l' g' → μ l' < μ l) :
    WellFounded (flip (Step A)) := by
  have hsum : ∀ {c d : Config ι L G}, Step A c d →
      ∑ i, μ (d.locals i) < ∑ i, μ (c.locals i) := by
    intro c d h
    cases h with
    | act i ha =>
      refine Finset.sum_lt_sum ?_ ⟨i, Finset.mem_univ i, ?_⟩
      · intro j _
        by_cases hj : j = i
        · subst hj
          simpa using (hact _ _ _ _ _ ha).le
        · simp [Function.update_of_ne hj]
      · simpa using hact _ _ _ _ _ ha
  exact Subrelation.wf hsum (InvImage.wf (fun c : Config ι L G => ∑ i, μ (c.locals i))
    Nat.lt_wfRel.wf)

/-- Every run can then be continued until no thread can act. -/
theorem exists_terminal (hwf : WellFounded (flip (Step A))) (c : Config ι L G) :
    ∃ d, Run A c d ∧ Terminal A d := by
  induction c using hwf.induction with
  | h c ih =>
    by_cases hterm : Terminal A c
    · exact ⟨c, .refl, hterm⟩
    · simp only [Terminal, not_forall, not_not] at hterm
      obtain ⟨d, hstep⟩ := hterm
      obtain ⟨e, hrun, he⟩ := ih d hstep
      exact ⟨e, .head hstep hrun, he⟩

end Termination

end Interleaving

end PhiCrypto

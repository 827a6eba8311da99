import Mathlib.Data.Option.Basic

/-!
# Transition systems

Runs of a system that takes one action after the other. An action that is not enabled has no
successor. Safety is proved by the invariant rule (`System.Reachable.invariant`), and a state is
shown to be reached by running a list of actions.
-/

namespace MbmsTx.Transition

/-- A transition system: its initial states, and the successor under an action. -/
structure System (State Action : Type*) where
  Init : State → Prop
  step : State → Action → Option State

namespace System

variable {State Action : Type*} {sys : System State Action}

/-- The states that the runs of the system reach. -/
inductive Reachable (sys : System State Action) : State → Prop
  | init {s : State} : sys.Init s → Reachable sys s
  | step {s s' : State} {a : Action} : Reachable sys s → sys.step s a = some s' → Reachable sys s'

variable {s : State}

theorem Reachable.invariant (Inv : State → Prop) (hinit : ∀ s, sys.Init s → Inv s)
    (hstep : ∀ s a s', Inv s → sys.step s a = some s' → Inv s') (hs : sys.Reachable s) : Inv s := by
  induction hs with
  | init h => exact hinit _ h
  | step _ h ih => exact hstep _ _ _ ih h

/-- The runs in which every step meets a condition on the state and the action. -/
def restrict (sys : System State Action) (guard : State → Action → Prop)
    [∀ s a, Decidable (guard s a)] : System State Action :=
  { Init := sys.Init
    step := fun s a => if guard s a then sys.step s a else none }

variable {s' : State}

theorem step_restrict_eq_some {guard : State → Action → Prop} [∀ s a, Decidable (guard s a)]
    {a : Action} :
    (sys.restrict guard).step s a = some s' ↔ guard s a ∧ sys.step s a = some s' := by
  simp [restrict]

/-- The invariant rule for runs in which every step meets a condition. -/
theorem Reachable.restrict_invariant {guard : State → Action → Prop}
    [∀ s a, Decidable (guard s a)] (Inv : State → Prop) (hinit : ∀ s, sys.Init s → Inv s)
    (hstep : ∀ s a s', Inv s → guard s a → sys.step s a = some s' → Inv s')
    (hs : (sys.restrict guard).Reachable s) : Inv s := by
  refine hs.invariant Inv ?_ ?_
  · exact hinit
  · intro s a s' h hnext
    obtain ⟨hguard, hnext⟩ := step_restrict_eq_some.mp hnext
    exact hstep s a s' h hguard hnext

/-- The state after a list of actions, if they are all enabled. -/
def run (sys : System State Action) : State → List Action → Option State
  | s, [] => some s
  | s, a :: as => (sys.step s a).bind fun s' => sys.run s' as

theorem run_cons {t : State} {a : Action} (h : sys.step s a = some t) (as : List Action) :
    sys.run s (a :: as) = sys.run t as := by
  rw [run, h, Option.bind_some]

theorem Reachable.run (hs : sys.Reachable s) {as : List Action}
    (hrun : sys.run s as = some s') : sys.Reachable s' := by
  induction as generalizing s with
  | nil =>
    cases hrun
    exact hs
  | cons a as ih =>
    obtain ⟨t, ht, hrun⟩ := Option.bind_eq_some_iff.mp hrun
    exact ih (hs.step ht) hrun

theorem reachable_of_run (hs : sys.Init s) {as : List Action}
    (hrun : sys.run s as = some s') : sys.Reachable s' :=
  (Reachable.init hs).run hrun

theorem exists_reachable_of_run (hs : sys.Init s) (as : List Action)
    {p : State → Prop} [DecidablePred p] (h : (sys.run s as).any (fun s' => decide (p s'))) :
    ∃ s', sys.Reachable s' ∧ p s' := by
  obtain ⟨s', hrun, hp⟩ := (Option.any_eq_true _ _).mp h
  exact ⟨s', reachable_of_run hs hrun, of_decide_eq_true hp⟩

/-- A run to a state with `p`, and what then holds in it. -/
theorem exists_reachable_and (hs : sys.Init s) (as : List Action) {p q : State → Prop}
    [DecidablePred p] (h : (sys.run s as).any (fun s' => decide (p s')))
    (hq : ∀ s', sys.Reachable s' → p s' → q s') : ∃ s', sys.Reachable s' ∧ p s' ∧ q s' := by
  obtain ⟨s', hreach, hp⟩ := exists_reachable_of_run hs as h
  exact ⟨s', hreach, hp, hq s' hreach hp⟩

end System

end MbmsTx.Transition

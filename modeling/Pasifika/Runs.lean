import Mathlib

/-! # Runs of a transition system

A system is a step relation `S → Op → S → Prop`. `ReachedBy step guard s₀ s`
says that `s` is reached from `s₀` by finitely many steps, each of which met
`guard` in the state it started from; a plain reachable state is the case of
no guard. An executable system runs a list of operations with `run`. -/

namespace Runs

variable {S Op : Type}

/-- States reached by steps that all meet the guard. -/
inductive ReachedBy (step : S → Op → S → Prop) (guard : S → Op → Prop) (init : S) : S → Prop
  | init : ReachedBy step guard init init
  | step {s s' : S} {op : Op} (h : ReachedBy step guard init s) (hguard : guard s op)
      (hstep : step s op s') : ReachedBy step guard init s'

/-- States reached by any steps. -/
abbrev Reachable (step : S → Op → S → Prop) (init : S) : S → Prop :=
  ReachedBy step (fun _ _ => True) init

namespace ReachedBy

variable {step : S → Op → S → Prop} {guard : S → Op → Prop} {init s : S}

theorem reachable (h : ReachedBy step guard init s) : Reachable step init s := by
  induction h with
  | init => exact .init
  | step _ _ hstep ih => exact ih.step trivial hstep

/-- **INVARIANT RULE**: what holds at first and is kept by guarded steps of reachable states always
    holds. -/
theorem invariant {I : S → Prop} (hinit : I init)
    (hstep : ∀ s op s', Reachable step init s → I s → guard s op → step s op s' → I s')
    (h : ReachedBy step guard init s) : I s := by
  induction h with
  | init => exact hinit
  | step hr hguard hs ih => exact hstep _ _ _ hr.reachable ih hguard hs

end ReachedBy

/-! ## Executable systems -/

/-- Run operations that all meet the guard. -/
def run (next : S → Op → Option S) (guard : S → Op → Bool) : List Op → S → Option S
  | [], s => some s
  | op :: ops, s => if guard s op then (next s op).bind (run next guard ops) else none

section

variable {next : S → Op → Option S} {guard : S → Op → Bool} {step : S → Op → S → Prop} {init : S}

theorem ReachedBy.of_run (hnext : ∀ s op s', next s op = some s' → step s op s') :
    ∀ ops {s s'}, ReachedBy step (guard · · = true) init s →
      run next guard ops s = some s' → ReachedBy step (guard · · = true) init s' := by
  intro ops
  induction ops with
  | nil =>
    intro s s' h heq
    cases heq
    exact h
  | cons op ops ih =>
    intro s s' h heq
    rw [run] at heq
    by_cases hg : guard s op = true
    · rw [if_pos hg] at heq
      obtain ⟨s1, hop, hrest⟩ := Option.bind_eq_some_iff.mp heq
      exact ih (h.step hg (hnext s op s1 hop)) hrest
    · rw [if_neg hg] at heq
      nomatch heq

/-- A state found by running operations. -/
theorem exists_of_run (hnext : ∀ s op s', next s op = some s' → step s op s') {ops : List Op}
    (check : S → Bool) (h : (run next guard ops init).any check = true) :
    ∃ s, ReachedBy step (guard · · = true) init s ∧ check s = true := by
  obtain ⟨s, hrun, hcheck⟩ := (Option.any_eq_true check _).mp h
  exact ⟨s, .of_run hnext ops .init hrun, hcheck⟩

end

theorem exists_of_next (next : S → Op → Option S) (guard : S → Op → Bool) (ops : List Op)
    (init : S) (check : S → Bool) (h : (run next guard ops init).any check = true) :
    ∃ s, ReachedBy (next · · = some ·) (guard · · = true) init s ∧ check s = true :=
  exists_of_run (fun _ _ _ h => h) check h

/-- A system whose steps take some fuel. -/
theorem exists_of_apply (apply : Nat → S → Op → Option S) (guard : S → Op → Bool) (fuel : Nat)
    (ops : List Op) (init : S) (check : S → Bool)
    (h : (run (apply fuel) guard ops init).any check = true) :
    ∃ s, ReachedBy (fun s op s' => ∃ fuel, apply fuel s op = some s') (guard · · = true) init s ∧
      check s = true :=
  exists_of_run (fun _ _ _ h => ⟨fuel, h⟩) check h

end Runs

import Mathlib.Data.Option.Basic

/-!
# Runs that stop at the first failure

A step returns a flag beside its new state, and may have no result at all. A run takes steps until
one fails and keeps the flags. When each step of one system is seen as a step of another, so is each
run, with the same flags.
-/

namespace Attempts

variable {σ τ ι : Type*}

/-- The flags up to the first failure, and the last state when there is none. -/
def run (step : σ → ι → Option (σ × Bool)) : List ι → σ → Option (List Bool × Option σ)
  | [], s => some ([], some s)
  | i :: is, s => do
    let (s, ok) ← step s i
    if ok then
      let (flags, last) ← run step is s
      some (true :: flags, last)
    else some ([false], none)

/-- One step, seen from outside: its state counts when it succeeds. -/
def seen (view : σ → Option τ) : Option (σ × Bool) → Option (Option τ)
  | none => none
  | some (_, false) => some none
  | some (s, true) => (view s).map some

/-- A run, seen from outside. -/
def seenRun (view : σ → Option τ) :
    Option (List Bool × Option σ) → Option (List Bool × Option τ)
  | none => none
  | some (flags, none) => some (flags, none)
  | some (flags, some s) => (view s).map fun t ↦ (flags, some t)

/-- The flag of a step goes in front. -/
def consFlag (result : Option (List Bool × Option τ)) : Option (List Bool × Option τ) :=
  result.map fun r ↦ (true :: r.1, r.2)

variable {step : σ → ι → Option (σ × Bool)} {step' : τ → ι → Option (τ × Bool)}
  {view : σ → Option τ} {P : ι → Prop} {s s' : σ} {i : ι} {is : List ι}

theorem run_cons_of_success (h : step s i = some (s', true)) :
    run step (i :: is) s = consFlag (run step is s') := by
  rw [run, h, Option.bind_eq_bind, Option.bind_some]
  dsimp only
  rw [if_pos rfl, consFlag, Option.map_eq_bind]
  rfl

theorem run_cons_of_failure (h : step s i = some (s', false)) :
    run step (i :: is) s = some ([false], none) := by
  rw [run, h, Option.bind_eq_bind, Option.bind_some]
  rfl

theorem run_cons_of_none (h : step s i = none) : run step (i :: is) s = none := by
  rw [run, h]
  rfl

/-- Where each step has a result and keeps `Q` when it succeeds, a run has a result. -/
theorem exists_run {Q : σ → Prop}
    (h : ∀ s i, Q s → P i → ∃ s' ok, step s i = some (s', ok) ∧ (ok = true → Q s'))
    (his : ∀ i ∈ is, P i) (hs : Q s) : ∃ result, run step is s = some result := by
  induction is generalizing s with
  | nil => exact ⟨_, rfl⟩
  | cons i is ih =>
    obtain ⟨s', ok, hstep, hnext⟩ := h s i hs (his i List.mem_cons_self)
    cases ok with
    | false => exact ⟨_, run_cons_of_failure hstep⟩
    | true =>
      obtain ⟨result, hrun⟩ := ih (fun i' hi' ↦ his i' (List.mem_cons_of_mem _ hi')) (hnext rfl)
      rw [run_cons_of_success hstep, hrun]
      exact ⟨_, rfl⟩

theorem seenRun_consFlag (result : Option (List Bool × Option σ)) :
    seenRun view (consFlag result) = consFlag (seenRun view result) := by
  match result with
  | none => rfl
  | some (_, none) => rfl
  | some (flags, some s) =>
    change (view s).map _ = ((view s).map _).map _
    rw [Option.map_map]
    rfl

/-- The run lemma: when each step commutes with the view, so does each run, flags included. -/
theorem seenRun_run
    (h : ∀ s i, P i → seen view (step s i) = (view s).bind fun t ↦ seen some (step' t i))
    (his : ∀ i ∈ is, P i) (s : σ) :
    seenRun view (run step is s) = (view s).bind (run step' is) := by
  induction is generalizing s with
  | nil => exact Option.map_eq_bind ..
  | cons i is ih =>
    have hstep := h s i (his i List.mem_cons_self)
    have ih := ih fun i' hi' ↦ his i' (List.mem_cons_of_mem _ hi')
    cases hview : view s with
    | none =>
      rw [hview] at hstep
      match hresult : step s i with
      | none => rw [run_cons_of_none hresult]; rfl
      | some (s', false) => rw [hresult] at hstep; cases hstep
      | some (s', true) =>
        -- the run goes on without a view of its state
        rw [hresult] at hstep
        have hnone : view s' = none := Option.map_eq_none_iff.mp hstep
        rw [run_cons_of_success hresult, seenRun_consFlag, ih s', hnone]
        rfl
    | some t =>
      rw [hview] at hstep
      change _ = run step' (i :: is) t
      change _ = seen some (step' t i) at hstep
      match hresult : step s i, hresult' : step' t i with
      | none, none => rw [run_cons_of_none hresult, run_cons_of_none hresult']; rfl
      | some (s', false), some (t', false) =>
        rw [run_cons_of_failure hresult, run_cons_of_failure hresult']
        rfl
      | some (s', true), some (t', true) =>
        rw [hresult, hresult'] at hstep
        obtain ⟨t₁, hview', ht⟩ := Option.map_eq_some_iff.mp hstep
        obtain rfl := Option.some.inj ht
        rw [run_cons_of_success hresult, run_cons_of_success hresult', seenRun_consFlag, ih s',
          hview']
        rfl
      | some (s', true), none =>
        rw [hresult, hresult'] at hstep
        have hnone : view s' = none := Option.map_eq_none_iff.mp hstep
        rw [run_cons_of_success hresult, run_cons_of_none hresult', seenRun_consFlag, ih s', hnone]
        rfl
      | none, some (t', true) => rw [hresult, hresult'] at hstep; cases hstep
      | none, some (t', false) => rw [hresult, hresult'] at hstep; cases hstep
      | some (s', false), none => rw [hresult, hresult'] at hstep; cases hstep
      | some (s', false), some (t', true) => rw [hresult, hresult'] at hstep; cases hstep
      | some (s', true), some (t', false) =>
        rw [hresult, hresult'] at hstep
        obtain ⟨t₁, -, ht⟩ := Option.map_eq_some_iff.mp hstep
        cases ht

end Attempts

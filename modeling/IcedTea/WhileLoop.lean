import Mathlib

namespace IcedTea.WhileLoop
variable {σ : Type} {cond : σ → Prop} {body : σ → σ → Prop}

-- The turns of a loop from one state to the state it stops in.
inductive Turns (cond : σ → Prop) (body : σ → σ → Prop) : Nat → σ → σ → Prop where
  | stop (done : ¬ cond s) : Turns cond body 0 s s
  | turn (goes_on : cond s) (one : body s t) (rest : Turns cond body n t u) : Turns cond body (n+1) s u

def StopsWithin (cond : σ → Prop) (body : σ → σ → Prop) (limit : Nat) (s : σ) : Prop :=
  ∃ n ≤ limit, ∃ u, Turns cond body n s u

theorem StopsWithin.mono (stops : StopsWithin cond body limit s) (more : limit ≤ limit') : StopsWithin cond body limit' s := by
  obtain ⟨n,few,u,turns⟩ := stops
  exact ⟨n,Nat.le_trans few more,u,turns⟩

-- A variant that every turn decreases bounds the number of turns.
theorem stops_of_variant (variant : σ → Nat) (total : ∀ s, cond s → ∃ t, body s t)
    (decreases : ∀ s t, cond s → body s t → variant t < variant s) (s : σ) : StopsWithin cond body (variant s) s := by
  induction measure : variant s using Nat.strong_induction_on generalizing s with
  | _ limit ih =>
    by_cases goes_on : cond s
    · obtain ⟨t,one⟩ := total s goes_on
      have less := decreases s t goes_on one
      rw [measure] at less
      obtain ⟨n,few,u,rest⟩ := ih (variant t) less t rfl
      exact ⟨n+1,by omega,u,.turn goes_on one rest⟩
    · exact ⟨0,Nat.zero_le _,s,.stop goes_on⟩

-- What every turn preserves holds where the loop stops.
theorem Turns.preserves (inv : σ → Prop) (preserved : ∀ s t, cond s → body s t → inv s → inv t)
    (turns : Turns cond body n s u) (start : inv s) : inv u := by
  induction turns with
  | stop _ => exact start
  | turn goes_on one _ ih => exact ih (preserved _ _ goes_on one start)

-- A loop does not stop in states it cannot leave.
theorem never_stops (inside : σ → Prop) (goes_on : ∀ s, inside s → cond s) (closed : ∀ s t, inside s → body s t → inside t)
    (start : inside s) : ¬ Turns cond body n s u := by
  intro turns
  induction turns with
  | stop done => exact done (goes_on _ start)
  | turn _ one _ ih => exact ih (closed _ _ start one)

end IcedTea.WhileLoop

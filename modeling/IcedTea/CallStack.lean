import Mathlib.Logic.Relation

namespace IcedTea.CallStack
open Relation

-- What can happen on a stack of calls, innermost first: the innermost works, it
-- calls and waits, it returns to its caller, or the last of them leaves.
structure Calls (α : Type u) where
  work : α → α → Prop
  call : α → α → α → Prop
  return_ : α → α → α → Prop
  leave : α → Prop

inductive Step (calls : Calls α) : List α → List α → Prop where
  | work (rest : List α) (worked : calls.work a a') : Step calls (a :: rest) (a' :: rest)
  | call (rest : List α) (called : calls.call b b' a) : Step calls (b :: rest) (a :: b' :: rest)
  | return_ (rest : List α) (returned : calls.return_ a b b') : Step calls (a :: b :: rest) (b' :: rest)
  | leave (left : calls.leave a) : Step calls [a] []

variable {calls : Calls α}

-- What a call keeps of itself, while it works and waits.
structure Calls.Keeps (calls : Calls α) (kept : α → Prop) : Prop where
  work : calls.work a a' → kept a → kept a'
  call : calls.call b b' a → kept b → kept b'
  return_ : calls.return_ a b b' → kept b → kept b'

-- The call directly above `below` has not returned.
def Inside (kept : α → Prop) (below stack : List α) : Prop := ∃ above a, stack = above ++ a :: below ∧ kept a

-- A step leaves what is below a call alone, or the call returns to it.
theorem inside_step {kept : α → Prop} (keeps : calls.Keeps kept) (next : Step calls stack stack') (inside : Inside kept below stack) :
    Inside kept below stack' ∨ ∃ a, stack = a :: below ∧ kept a ∧
      ((∃ b rest b', below = b :: rest ∧ calls.return_ a b b' ∧ stack' = b' :: rest) ∨ below = [] ∧ stack' = []) := by
  obtain ⟨above,a,place,here⟩ := inside
  cases next with
  | work rest worked =>
    cases above with
    | nil =>
      obtain ⟨rfl,rfl⟩ := List.cons.inj place
      exact .inl ⟨[],_,rfl,keeps.work worked here⟩
    | cons x above =>
      obtain ⟨rfl,rfl⟩ := List.cons.inj place
      exact .inl ⟨_ :: above,a,rfl,here⟩
  | call rest called =>
    cases above with
    | nil =>
      obtain ⟨rfl,rfl⟩ := List.cons.inj place
      exact .inl ⟨[_],_,rfl,keeps.call called here⟩
    | cons x above =>
      obtain ⟨rfl,rfl⟩ := List.cons.inj place
      exact .inl ⟨_ :: _ :: above,a,rfl,here⟩
  | return_ rest returned =>
    cases above with
    | nil =>
      obtain ⟨rfl,beneath⟩ := List.cons.inj place
      exact .inr ⟨_,by rw [beneath],here,.inl ⟨_,_,_,beneath.symm,returned,rfl⟩⟩
    | cons x above =>
      obtain ⟨rfl,beneath⟩ := List.cons.inj place
      cases above with
      | nil =>
        obtain ⟨rfl,rfl⟩ := List.cons.inj beneath
        exact .inl ⟨[],_,rfl,keeps.return_ returned here⟩
      | cons y above =>
        obtain ⟨rfl,rfl⟩ := List.cons.inj beneath
        exact .inl ⟨_ :: above,a,rfl,here⟩
  | leave left =>
    cases above with
    | nil =>
      obtain ⟨rfl,rfl⟩ := List.cons.inj place
      exact .inr ⟨_,rfl,here,.inr ⟨rfl,rfl⟩⟩
    | cons x above =>
      obtain ⟨rfl,beneath⟩ := List.cons.inj place
      cases above <;> cases beneath

-- A system whose states show a stack of calls: a step of it is a step of the
-- stack, or leaves the stack as it is.
structure Shows (calls : Calls α) (step : σ → σ → Prop) (good : σ → Prop) (view : σ → List α) : Prop where
  keeps : good s → step s s' → good s'
  steps : good s → step s s' → view s' = view s ∨ Step calls (view s) (view s')

variable {step : σ → σ → Prop} {good : σ → Prop} {view : σ → List α}

theorem Shows.run_good (shows_ : Shows calls step good view) (start : good s) (run : ReflTransGen step s s') : good s' := by
  induction run with
  | refl => exact start
  | tail _ last ih => exact shows_.keeps ih last

-- Once a call has been made the run is inside it, with everything below as it
-- was, until one step returns to the caller as it was when it began to wait.
theorem Shows.returns (shows_ : Shows calls step good view) {kept : α → Prop} (keeps : calls.Keeps kept) (start : good s)
    (run : ReflTransGen step s s') (called : view s = a :: b :: rest) (own : kept a) :
    Inside kept (b :: rest) (view s') ∨
      ∃ s₁ s₂ a' b', ReflTransGen step s s₁ ∧ view s₁ = a' :: b :: rest ∧ kept a' ∧ step s₁ s₂ ∧ calls.return_ a' b b' ∧
        view s₂ = b' :: rest ∧ ReflTransGen step s₂ s' := by
  induction run with
  | refl => exact .inl ⟨[],a,called,own⟩
  | tail before last ih =>
    rcases ih with inside|⟨s₁,s₂,a',b',run₁,view₁,own₁,step₁,returned,view₂,run₂⟩
    · rcases shows_.steps (shows_.run_good start before) last with same|next
      · rw [← same] at inside
        exact .inl inside
      · rcases inside_step keeps next inside with still|⟨a',stack,own',⟨b₁,rest₁,b',below,returned,stack'⟩|⟨below,-⟩⟩
        · exact .inl still
        · obtain ⟨rfl,rfl⟩ := List.cons.inj below
          exact .inr ⟨_,_,a',b',before,stack,own',last,returned,stack',.refl⟩
        · cases below
    · exact .inr ⟨s₁,s₂,a',b',run₁,view₁,own₁,step₁,returned,view₂,run₂.tail last⟩

end IcedTea.CallStack

import Mathlib

namespace IcedTea

-- How one state of any machine differs from another: the last assignment to a
-- place is its new value, and a place without one keeps its old value. Nothing
-- is said of the scratch places.
variable {σ π ν α : Type} [DecidableEq π]

def Writes (get : σ → π → ν) (scratch : π → Prop) (assigned : List (π × ν)) (s s' : σ) : Prop :=
  ∀ q, ¬ scratch q → get s' q = (assigned.lookup q).getD (get s q)

namespace Writes
variable {get : σ → π → ν} {scratch : π → Prop}

theorem refl (s : σ) : Writes get scratch [] s s := fun _ _ => rfl

theorem trans (one : Writes get scratch w s s₁) (two : Writes get scratch w' s₁ s₂) :
    Writes get scratch (w' ++ w) s s₂ := by
  intro q plain
  rw [two q plain,one q plain,List.lookup_append]
  cases w'.lookup q <;> rfl

theorem kept (writes : Writes get scratch w s s') (plain : ¬ scratch q) (absent : q ∉ w.map Prod.fst) :
    get s' q = get s q := by
  rw [writes q plain,List.lookup_eq_none_iff.mpr]
  · rfl
  · intro pair member
    have other : q ≠ pair.1 := fun same => absent (List.mem_map.mpr ⟨pair,member,same.symm⟩)
    simpa using other

-- A place assigned once holds that value.
theorem once (writes : Writes get scratch w s s') (plain : ¬ scratch q) (distinct : (w.map Prod.fst).Nodup)
    (member : (q,v) ∈ w) : get s' q = v := by
  have found : w.lookup q = some v := by
    clear writes
    induction w with
    | nil => cases member
    | cons pair rest ih =>
      rw [List.map_cons,List.nodup_cons] at distinct
      rcases List.mem_cons.mp member with rfl | later
      · simp
      · have other : q ≠ pair.1 := fun same => distinct.1 (same ▸ List.mem_map_of_mem (f := Prod.fst) later)
        rw [List.lookup_cons,beq_false_of_ne other]
        exact ih distinct.2 later
  rw [writes q plain,found]
  rfl

-- A place that had the value keeps it when nothing else is assigned to it.
theorem constant (writes : Writes get scratch w s s') (plain : ¬ scratch q) (before : get s q = v)
    (only : ∀ u, (q,u) ∈ w → u = v) : get s' q = v := by
  rw [writes q plain]
  cases found : w.lookup q with
  | none => exact before
  | some u =>
    obtain ⟨_,_,same,_⟩ := List.lookup_eq_some_iff.mp found
    exact only u (same ▸ by simp)

-- A loop of assignments whose values depend only on what the loop preserves.
theorem fold {P : σ → Prop} (run : σ → α → σ) (assigned : α → List (π × ν)) (l : List α) (s : σ) (start : P s)
    (each : ∀ a ∈ l, ∀ s, P s → Writes get scratch (assigned a) s (run s a) ∧ P (run s a)) :
    Writes get scratch (l.reverse.flatMap assigned) s (l.foldl run s) ∧ P (l.foldl run s) := by
  induction l generalizing s with
  | nil => exact ⟨refl s,start⟩
  | cons a rest ih =>
    obtain ⟨first,holds⟩ := each a (by simp) s start
    obtain ⟨later,ends⟩ := ih (run s a) holds fun b member => each b (by simp [member])
    refine ⟨?_,ends⟩
    rw [List.reverse_cons,List.flatMap_append,List.flatMap_singleton]
    exact first.trans later

end Writes
end IcedTea

import Mathlib

namespace IcedTea.CopyLoop
variable {A V : Type} [DecidableEq A]

-- Values copied one by one, each read when it is its turn.
def copy (src dst : Nat → A) (mem : A → V) : Nat → A → V
  | 0 => mem
  | k+1 => Function.update (copy src dst mem k) (dst k) (copy src dst mem k (src k))

variable {src dst : Nat → A} {mem : A → V}

def InjectiveBelow (n : Nat) (f : Nat → A) : Prop := ∀ i j, i < n → j < n → f i = f j → i = j

theorem copy_outside {a : A} (k : Nat) (outside : ∀ i < k, a ≠ dst i) : copy src dst mem k a = mem a := by
  induction k with
  | zero => rfl
  | succ k ih =>
    rw [copy,Function.update_of_ne (outside k (Nat.lt_succ_self k))]
    exact ih fun i low => outside i (Nat.lt_succ_of_lt low)

-- What is read has not been written before when no destination is a later source.
theorem copy_done {n : Nat} (distinct : InjectiveBelow n dst) (apart : ∀ i j, i < j → j < n → dst i ≠ src j)
    (k : Nat) (low : k ≤ n) {i : Nat} (done : i < k) : copy src dst mem k (dst i) = mem (src i) := by
  induction k with
  | zero => exact absurd done (Nat.not_lt_zero i)
  | succ k ih =>
    rw [copy]
    rcases Nat.lt_succ_iff_lt_or_eq.mp done with before|rfl
    · rw [Function.update_of_ne]
      · exact ih (Nat.le_of_succ_le low) before
      · intro same
        exact absurd (distinct i k (by omega) low same) (Nat.ne_of_lt before)
    · rw [Function.update_self]
      apply copy_outside
      intro j earlier same
      exact apart j i earlier low same.symm

-- A first destination that is a later source is read after it was written.
theorem copy_stale {n k : Nat} (distinct : InjectiveBelow n dst) (sources : InjectiveBelow n src) (later : 0 < k) (low : k < n)
    (met : dst 0 = src k) (v w : V) :
    copy src dst (fun a => if a = src 0 then v else w) n (dst k) = v ∧
      (fun a => if a = src 0 then v else w) (src k) = w := by
  have first : ∀ j, 0 < j → j ≤ k → copy src dst (fun a => if a = src 0 then v else w) j (dst 0) = v := by
    intro j
    induction j with
    | zero => exact fun positive => absurd positive (Nat.lt_irrefl 0)
    | succ j ih =>
      intro _ most
      rw [copy]
      rcases Nat.eq_zero_or_pos j with rfl|positive
      · rw [Function.update_self]
        exact if_pos rfl
      · rw [Function.update_of_ne]
        · exact ih positive (Nat.le_of_succ_le most)
        · intro same
          exact absurd (distinct 0 j (by omega) (by omega) same) (Nat.ne_of_lt positive)
  have kept : ∀ j, k < j → j ≤ n → copy src dst (fun a => if a = src 0 then v else w) j (dst k) = v := by
    intro j
    induction j with
    | zero => exact fun positive => absurd positive (Nat.not_lt_zero k)
    | succ j ih =>
      intro after most
      rw [copy]
      rcases Nat.lt_succ_iff_lt_or_eq.mp after with before|rfl
      · rw [Function.update_of_ne]
        · exact ih before (Nat.le_of_succ_le most)
        · intro same
          exact absurd (distinct k j low (by omega) same) (Nat.ne_of_lt before)
      · rw [Function.update_self,← met]
        exact first k later (Nat.le_refl k)
  refine ⟨kept n low (Nat.le_refl n),if_neg ?_⟩
  intro same
  exact absurd (sources k 0 low (by omega) same) (Nat.ne_of_gt later)

end IcedTea.CopyLoop

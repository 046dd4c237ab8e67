import Mathlib.Data.Int.Basic
import Mathlib.Data.List.Basic
import Mathlib.Tactic.Ring

namespace IcedTea

-- Address ranges, each a start and a length in bytes.
abbrev Range := Int × Int

namespace Range

def Disjoint (v w : Range) : Prop := v.1 + v.2 ≤ w.1 ∨ w.1 + w.2 ≤ v.1
def Within (low high : Int) (w : Range) : Prop := low ≤ w.1 ∧ w.1 + w.2 ≤ high

instance (v w : Range) : Decidable (Disjoint v w) := inferInstanceAs (Decidable (_ ∨ _))
instance (low high : Int) (w : Range) : Decidable (Within low high w) := inferInstanceAs (Decidable (_ ∧ _))

-- Ranges laid out upwards, each ending before the next begins.
def Ascending (low high : Int) : List Range → Prop
  | [] => low ≤ high
  | w :: rest => low ≤ w.1 ∧ 0 ≤ w.2 ∧ Ascending (w.1 + w.2) high rest

theorem Ascending.le (sorted : Ascending low high l) : low ≤ high := by
  induction l generalizing low with
  | nil => exact sorted
  | cons w rest ih =>
    obtain ⟨start,size,tail⟩ := sorted
    have := ih tail
    omega

theorem Ascending.lower (sorted : Ascending low high l) (below : low' ≤ low) : Ascending low' high l := by
  cases l with
  | nil => exact Int.le_trans below sorted
  | cons w rest => exact ⟨Int.le_trans below sorted.1,sorted.2⟩

theorem Ascending.raise (sorted : Ascending low high l) (above : high ≤ high') : Ascending low high' l := by
  induction l generalizing low with
  | nil => exact Int.le_trans sorted above
  | cons w rest ih => exact ⟨sorted.1,sorted.2.1,ih sorted.2.2⟩

theorem Ascending.append (one : Ascending low middle l) (two : Ascending middle high l') :
    Ascending low high (l ++ l') := by
  induction l generalizing low with
  | nil => exact two.lower one
  | cons w rest ih => exact ⟨one.1,one.2.1,ih one.2.2⟩

theorem Ascending.within (sorted : Ascending low high l) : ∀ w ∈ l, Within low high w := by
  induction l generalizing low with
  | nil => simp
  | cons w rest ih =>
    obtain ⟨start,size,tail⟩ := sorted
    have room := tail.le
    intro v member
    rcases List.mem_cons.mp member with rfl | later
    · exact ⟨start,room⟩
    · have inside := ih tail v later
      exact ⟨by have := inside.1; omega,inside.2⟩

theorem Ascending.disjoint (sorted : Ascending low high l) : l.Pairwise Disjoint := by
  induction l generalizing low with
  | nil => exact .nil
  | cons w rest ih =>
    refine .cons (fun v member => ?_) (ih sorted.2.2)
    exact .inl (sorted.2.2.within v member).1

-- Ranges that fill the space between two addresses, one beginning where the
-- last ends.
def Tiles (low high : Int) : List Range → Prop
  | [] => low = high
  | w :: rest => w.1 = low ∧ 0 ≤ w.2 ∧ Tiles (w.1 + w.2) high rest

theorem Tiles.ascending (tiles : Tiles low high l) : Ascending low high l := by
  induction l generalizing low with
  | nil => exact Int.le_of_eq tiles
  | cons w rest ih => exact ⟨Int.le_of_eq tiles.1.symm,tiles.2.1,ih tiles.2.2⟩

theorem Tiles.append (one : Tiles low middle l) (two : Tiles middle high l') : Tiles low high (l ++ l') := by
  induction l generalizing low with
  | nil => rw [show low = middle from one]; exact two
  | cons w rest ih => exact ⟨one.1,one.2.1,ih one.2.2⟩

-- Equal steps upwards.
theorem tiles_steps (low size : Int) (n : Nat) (nonneg : 0 ≤ size) :
    Tiles low (low + n*size) ((List.range n).map fun (i : Nat) => (low + i*size,size)) := by
  induction n with
  | zero => simp [Tiles]
  | succ n ih =>
    rw [List.range_succ,List.map_append]
    refine ih.append ⟨rfl,nonneg,?_⟩
    change low + n*size + size = low + ((n+1 : Nat) : Int)*size
    push_cast
    ring

end Range
end IcedTea

import Mathlib

namespace IcedTea.BitFields

-- A number made of fields of so many bits, the highest first.
abbrev BitField := Nat × Nat

def width (fields : List BitField) : Nat := (fields.map Prod.fst).sum
def pack : List BitField → Nat
  | [] => 0
  | (_,value) :: rest => value * 2^(width rest) + pack rest

-- The values of the fields of these widths, and each field in its place.
def unpack : List Nat → Nat → List Nat
  | [],_ => []
  | bits :: rest,n => n / 2^rest.sum % 2^bits :: unpack rest n
def placed : List BitField → List Nat
  | [] => []
  | (_,value) :: rest => value <<< width rest :: placed rest

def Fit (fields : List BitField) : Prop := ∀ f ∈ fields, f.2 < 2^f.1

variable {bits value : Nat} {fields rest : List BitField}

theorem width_cons : width ((bits,value) :: rest) = bits + width rest := by
  rw [width,List.map_cons,List.sum_cons]
  rfl

theorem Fit.head (fit : Fit ((bits,value) :: rest)) : value < 2^bits := fit (bits,value) List.mem_cons_self
theorem Fit.tail (fit : Fit ((bits,value) :: rest)) : Fit rest := fun f inside => fit f (List.mem_cons_of_mem _ inside)

theorem Fit.nil : Fit [] := fun _ inside => absurd inside List.not_mem_nil
theorem Fit.cons (low : value < 2^bits) (fit : Fit rest) : Fit ((bits,value) :: rest) := by
  intro f inside
  rcases List.mem_cons.mp inside with rfl | later
  · exact low
  · exact fit f later

theorem pack_lt (fit : Fit fields) : pack fields < 2^width fields := by
  induction fields with
  | nil => exact Nat.one_pos
  | cons f rest ih =>
    obtain ⟨bits,value⟩ := f
    have low := ih fit.tail
    rw [width_cons,Nat.pow_add]
    calc value * 2^width rest + pack rest < value * 2^width rest + 2^width rest := Nat.add_lt_add_left low _
      _ = (value+1) * 2^width rest := (Nat.succ_mul _ _).symm
      _ ≤ 2^bits * 2^width rest := Nat.mul_le_mul_right _ fit.head

theorem unpack_congr (widths : List Nat) (m n : Nat) (same : m % 2^widths.sum = n % 2^widths.sum) : unpack widths m = unpack widths n := by
  induction widths with
  | nil => rfl
  | cons bits rest ih =>
    rw [List.sum_cons,Nat.add_comm,Nat.pow_add] at same
    have low : m % 2^rest.sum = n % 2^rest.sum := by
      have halves := congrArg (· % 2^rest.sum) same
      simpa only [Nat.mod_mul_right_mod] using halves
    have high : m / 2^rest.sum % 2^bits = n / 2^rest.sum % 2^bits := by
      have halves := congrArg (· / 2^rest.sum) same
      simpa only [Nat.mod_mul_right_div_self] using halves
    rw [unpack,unpack,ih low,high]

-- What was packed is found again.
theorem unpack_packed (fit : Fit fields) : unpack (fields.map Prod.fst) (pack fields) = fields.map Prod.snd := by
  induction fields with
  | nil => rfl
  | cons f rest ih =>
    obtain ⟨bits,value⟩ := f
    have low := pack_lt fit.tail
    have positive : 0 < 2^width rest := Nat.two_pow_pos _
    have head : pack ((bits,value) :: rest) / 2^width rest % 2^bits = value := by
      rw [pack,Nat.mul_comm,Nat.mul_add_div positive,Nat.div_eq_of_lt low,Nat.add_zero,Nat.mod_eq_of_lt fit.head]
    have others : unpack (rest.map Prod.fst) (pack ((bits,value) :: rest)) = unpack (rest.map Prod.fst) (pack rest) := by
      apply unpack_congr
      change (value * 2^width rest + pack rest) % 2^width rest = pack rest % 2^width rest
      rw [Nat.mul_add_mod_self_right]
    rw [List.map_cons,List.map_cons,unpack,others,ih fit.tail]
    exact congrArg (· :: _) head

-- The fields in their places make the number, whether they are added or joined with or.
theorem foldr_placed (fit : Fit fields) : (placed fields).foldr (· ||| ·) 0 = pack fields := by
  induction fields with
  | nil => rfl
  | cons f rest ih =>
    obtain ⟨bits,value⟩ := f
    rw [placed,List.foldr_cons,ih fit.tail,pack,← Nat.shiftLeft_eq]
    exact (Nat.shiftLeft_add_eq_or_of_lt (pack_lt fit.tail) value).symm

theorem placed_lt (fit : Fit fields) : ∀ x ∈ placed fields, x < 2^width fields := by
  induction fields with
  | nil => exact fun x inside => absurd inside List.not_mem_nil
  | cons f rest ih =>
    obtain ⟨bits,value⟩ := f
    rw [width_cons,Nat.pow_add]
    intro x inside
    rcases List.mem_cons.mp inside with rfl | later
    · rw [Nat.shiftLeft_eq]
      exact Nat.mul_lt_mul_of_pos_right fit.head (Nat.two_pow_pos _)
    · exact Nat.lt_of_lt_of_le (ih fit.tail x later) (Nat.le_mul_of_pos_left _ (Nat.two_pow_pos _))

theorem and_low {x y i : Nat} (low : y < 2^i) : x <<< i &&& y = 0 := by
  apply Nat.eq_of_testBit_eq
  intro j
  rw [Nat.testBit_and,Nat.testBit_shiftLeft,Nat.zero_testBit]
  by_cases above : i ≤ j
  · rw [Nat.testBit_lt_two_pow (Nat.lt_of_lt_of_le low (Nat.pow_le_pow_right (by decide) above)),Bool.and_false]
  · simp [above]

-- No two fields have a bit in common.
theorem placed_disjoint (fit : Fit fields) : (placed fields).Pairwise fun x y => x &&& y = 0 := by
  induction fields with
  | nil => exact .nil
  | cons f rest ih =>
    obtain ⟨bits,value⟩ := f
    exact .cons (fun y inside => and_low (placed_lt fit.tail y inside)) (ih fit.tail)

end IcedTea.BitFields

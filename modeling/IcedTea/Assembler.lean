import IcedTea.Machine

namespace IcedTea.Assembler
open Target

variable [Target]

def register_bits : Nat := match cpu with | .ppc32 => 32 | .ppc64 => 64

abbrev Address := BitVec register_bits

-- Instruction words are the numbers below 2^32. An operand is accepted when it
-- has no bit above its field.
def operand (bits : Nat) (x : Int) : Option Nat := if 0 ≤ x ∧ x < 2^bits then some x.toNat else none

def emit_I (opcode li : Int) (aa lk : Bool) : Option Nat := do
  let opcode ← operand 6 opcode
  let li ← operand 24 li
  some (opcode <<< 26 ||| li <<< 2 ||| aa.toNat <<< 1 ||| lk.toNat)

def emit_B (opcode bo bi bd : Int) (aa lk : Bool) : Option Nat := do
  let opcode ← operand 6 opcode
  let bo ← operand 5 bo
  let bi ← operand 5 bi
  let bd ← operand 14 bd
  some (opcode <<< 26 ||| bo <<< 21 ||| bi <<< 16 ||| bd <<< 2 ||| aa.toNat <<< 1 ||| lk.toNat)

-- The displacement field of a branch, in words.
def branch_target (branch target : Address) (bits : Nat) : Option Address :=
  if branch &&& 3 ≠ 0 then none else
  if target &&& 3 ≠ 0 then none else
  let disp := (target - branch).sshiftRight 2
  let mask := (1 : Address) <<< bits - 1
  let msb := (1 : Address) <<< (bits - 1)
  if disp &&& msb ≠ 0 then
    if disp &&& ~~~mask = ~~~mask then some (disp &&& mask) else none
  else
    if disp &&& ~~~mask = 0 then some disp else none

-- The fields of an emitted word do not overlap.
omit [Target] in
theorem or_low (x y i : Nat) (clear : x % 2^i = 0) (low : y < 2^i) : x ||| y = x + y := by
  have shifted : x = (x / 2^i) <<< i := by
    rw [Nat.shiftLeft_eq]
    exact (Nat.div_mul_cancel (Nat.dvd_of_mod_eq_zero clear)).symm
  rw [shifted]
  exact (Nat.shiftLeft_add_eq_or_of_lt low _).symm

omit [Target] in
@[simp] theorem toNat_lt (b : Bool) : b.toNat < 2 := by cases b <;> decide

omit [Target] in
theorem word_I (opcode li : Nat) (aa lk : Bool) (li_low : li < 2^24) :
    opcode <<< 26 ||| li <<< 2 ||| aa.toNat <<< 1 ||| lk.toNat =
      opcode*2^26 + li*2^2 + aa.toNat*2 + lk.toNat := by
  have aa_low := toNat_lt aa
  have lk_low := toNat_lt lk
  simp only [Nat.shiftLeft_eq]
  rw [or_low (opcode*2^26) (li*2^2) 26 (by omega) (by omega),or_low _ (aa.toNat*2^1) 2 (by omega) (by omega),
    or_low _ lk.toNat 1 (by omega) (by omega)]

omit [Target] in
theorem word_B (opcode bo bi bd : Nat) (aa lk : Bool) (bo_low : bo < 2^5) (bi_low : bi < 2^5) (bd_low : bd < 2^14) :
    opcode <<< 26 ||| bo <<< 21 ||| bi <<< 16 ||| bd <<< 2 ||| aa.toNat <<< 1 ||| lk.toNat =
      opcode*2^26 + bo*2^21 + bi*2^16 + bd*2^2 + aa.toNat*2 + lk.toNat := by
  have aa_low := toNat_lt aa
  have lk_low := toNat_lt lk
  simp only [Nat.shiftLeft_eq]
  rw [or_low (opcode*2^26) (bo*2^21) 26 (by omega) (by omega),or_low _ (bi*2^16) 21 (by omega) (by omega),
    or_low _ (bd*2^2) 16 (by omega) (by omega),or_low _ (aa.toNat*2^1) 2 (by omega) (by omega),
    or_low _ lk.toNat 1 (by omega) (by omega)]

-- The displacements a signed field of so many bits can hold.
def Fits (bits : Nat) (disp : Int) : Prop := -2^(bits-1) ≤ disp ∧ disp < 2^(bits-1)

instance (bits : Nat) (disp : Int) : Decidable (Fits bits disp) := inferInstanceAs (Decidable (_ ∧ _))

def Aligned (a : Address) : Prop := a.toNat % 4 = 0

instance (a : Address) : Decidable (Aligned a) := inferInstanceAs (Decidable (_ = _))

theorem aligned_iff (a : Address) : a &&& 3 = 0 ↔ Aligned a := by
  have wide : (3 : Address).toNat = 2^2 - 1 := by
    unfold Address register_bits
    cases cpu <;> rfl
  rw [Aligned,← Nat.and_two_pow_sub_one_eq_mod a.toNat 2,← wide,← BitVec.toNat_and]
  constructor
  · intro zero
    rw [zero]
    rfl
  · intro zero
    exact BitVec.eq_of_toNat_eq zero

section Masks
variable {w : Nat} (x : BitVec w) (bits : Nat)

omit [Target] in
theorem mask_toNat (low : bits < w) : ((1 : BitVec w) <<< bits - 1).toNat = 2^bits - 1 := by
  have bound : 2^bits < 2^w := Nat.pow_lt_pow_right (by decide) low
  have positive : 0 < 2^bits := Nat.two_pow_pos bits
  have one : (1 : BitVec w).toNat = 1 := by
    change (1#w).toNat = 1
    rw [BitVec.toNat_ofNat]
    exact Nat.mod_eq_of_lt (by omega)
  have carry : 2^w - 1 + 2^bits = 2^w + (2^bits - 1) := by omega
  rw [BitVec.toNat_sub,BitVec.toNat_shiftLeft,one,Nat.shiftLeft_eq,Nat.one_mul,Nat.mod_eq_of_lt bound,carry,
    Nat.add_mod_left]
  exact Nat.mod_eq_of_lt (by omega)

omit [Target] in
theorem and_mask (low : bits < w) : (x &&& ((1 : BitVec w) <<< bits - 1)).toNat = x.toNat % 2^bits := by
  rw [BitVec.toNat_and,mask_toNat bits low,Nat.and_two_pow_sub_one_eq_mod]

omit [Target] in
theorem and_msb (low : bits < w) : x &&& (1 : BitVec w) <<< bits ≠ 0 ↔ x.toNat / 2^bits % 2 = 1 := by
  have bit : x &&& (1 : BitVec w) <<< bits = if x.getLsbD bits then BitVec.twoPow w bits else 0#w := by
    rw [← BitVec.and_twoPow]
    rfl
  have power : BitVec.twoPow w bits ≠ 0#w := by
    intro zero
    have same := congrArg BitVec.toNat zero
    rw [BitVec.toNat_twoPow,Nat.mod_eq_of_lt (Nat.pow_lt_pow_right (by decide) low)] at same
    exact absurd same (by simp)
  rw [bit,← BitVec.testBit_toNat,Nat.testBit_eq_decide_div_mod_eq]
  by_cases set : x.toNat / 2^bits % 2 = 1
  · simp only [set,decide_true,if_true,iff_true]
    exact power
  · simp [set]

-- The bits above a mask.
omit [Target] in
theorem and_not_mask (low : bits < w) :
    (x &&& ~~~((1 : BitVec w) <<< bits - 1)).toNat = x.toNat / 2^bits * 2^bits := by
  generalize mask_eq : (1 : BitVec w) <<< bits - 1 = mask
  have apart : (x &&& ~~~mask) &&& (x &&& mask) = 0#w := by
    ext i
    simp only [BitVec.getElem_and,BitVec.getElem_not,BitVec.getElem_zero]
    cases mask[i] <;> simp
  have joined : (x &&& ~~~mask) ||| (x &&& mask) = x := by
    ext i
    simp only [BitVec.getElem_or,BitVec.getElem_and,BitVec.getElem_not]
    cases mask[i] <;> simp
  have parts := BitVec.toNat_add_of_and_eq_zero apart
  rw [BitVec.add_eq_or_of_and_eq_zero _ _ apart,joined,← mask_eq,and_mask x bits low] at parts
  have whole := Nat.div_add_mod' x.toNat (2^bits)
  rw [← mask_eq]
  omega

omit [Target] in
theorem not_mask_toNat (low : bits < w) : (~~~((1 : BitVec w) <<< bits - 1)).toNat = 2^w - 2^bits := by
  rw [BitVec.toNat_not,mask_toNat bits low]
  have positive : 0 < 2^bits := Nat.two_pow_pos bits
  omega

end Masks

-- What the tests on the sign bit and on the bits above the mask say of the
-- signed value: all of them agree exactly when the field holds it.
section SignedField
variable {w : Nat} (x : BitVec w) (bits : Nat)

omit [Target] in
theorem high_bit (some_bits : 0 < bits) : x.toNat / 2^(bits-1) % 2 = 1 ↔ 2^(bits-1) ≤ x.toNat % 2^bits := by
  have doubled : 2^bits = 2^(bits-1) * 2 := by
    rw [← Nat.pow_succ]
    congr 1
    omega
  have positive : 0 < 2^(bits-1) := Nat.two_pow_pos _
  rw [doubled,← Nat.mod_mul_right_div_self]
  have low := Nat.mod_lt x.toNat (Nat.mul_pos positive (by decide : 0 < 2))
  generalize x.toNat % (2^(bits-1) * 2) = r at low
  constructor
  · intro one
    have most := Nat.div_mul_le_self r (2^(bits-1))
    rwa [one,Nat.one_mul] at most
  · intro least
    apply Nat.div_eq_of_lt_le <;> omega

omit [Target] in
theorem fits_iff (some_bits : 0 < bits) (low : bits < w) :
    Fits bits x.toInt ↔
      if 2^(bits-1) ≤ x.toNat % 2^bits then x.toNat / 2^bits * 2^bits = 2^w - 2^bits
      else x.toNat / 2^bits * 2^bits = 0 := by
  have doubled : 2^bits = 2 * 2^(bits-1) := by
    rw [← Nat.pow_succ']
    congr 1
    omega
  have positive : 0 < 2^(bits-1) := Nat.two_pow_pos _
  have field : 0 < 2^bits := Nat.two_pow_pos bits
  have multiple : 2^w = 2^bits * 2^(w-bits) := by
    rw [← Nat.pow_add]
    congr 1
    omega
  have several : 2 ≤ 2^(w-bits) := Nat.le_self_pow (by omega) 2
  have wide : 2^bits * 2 ≤ 2^w := by
    rw [multiple]
    exact Nat.mul_le_mul_left _ several
  have parts := Nat.div_add_mod' x.toNat (2^bits)
  have rest := Nat.mod_lt x.toNat field
  have bound := x.isLt
  have powers : ((2:Int)^(bits-1)) = ((2^(bits-1) : Nat) : Int) := by norm_cast
  rw [Fits,BitVec.toInt_eq_toNat_cond,powers]
  constructor
  · intro fits
    by_cases nonnegative : 2 * x.toNat < 2^w
    · rw [if_pos nonnegative] at fits
      have none_above : x.toNat / 2^bits = 0 := Nat.div_eq_of_lt (by omega)
      rw [none_above] at parts ⊢
      rw [if_neg (by omega),Nat.zero_mul]
    · rw [if_neg nonnegative] at fits
      have last : 2^w - 2^bits = (2^(w-bits) - 1) * 2^bits := by
        rw [Nat.sub_mul,multiple,Nat.one_mul,Nat.mul_comm]
      have all_above : x.toNat / 2^bits = 2^(w-bits) - 1 := by
        apply Nat.div_eq_of_lt_le
        · omega
        · rw [Nat.sub_add_cancel (by omega),Nat.mul_comm,← multiple]
          exact bound
      rw [all_above] at parts ⊢
      rw [if_pos (by omega),last]
  · intro above
    split at above
    · rw [if_neg (by omega)]
      omega
    · rw [if_pos (by omega)]
      omega

omit [Target] in
theorem toInt_emod (low : bits < w) : x.toInt % 2^bits = ((x.toNat % 2^bits : Nat) : Int) := by
  have multiple : ((2^w : Nat) : Int) = 2^bits * 2^(w-bits) := by
    rw [← Int.pow_add]
    have exponent : bits + (w-bits) = w := by omega
    rw [exponent]
    norm_cast
  rw [BitVec.toInt_eq_toNat_cond]
  push_cast at multiple ⊢
  split
  · rfl
  · rw [multiple,Int.sub_mul_emod_self_left]

end SignedField

-- A displacement is accepted exactly when the signed field holds it.
theorem branch_target_some (branch target : Address) (bits : Nat) (some_bits : 0 < bits) (low : bits < register_bits)
    (branch_aligned : Aligned branch) (target_aligned : Aligned target) :
    branch_target branch target bits =
      if Fits bits ((target - branch).toInt / 4) then
        some (BitVec.ofNat register_bits ((target - branch).toInt / 4 % 2^bits).toNat) else none := by
  have value : (target - branch).toInt / 4 = ((target - branch).sshiftRight 2).toInt := by
    rw [BitVec.toInt_sshiftRight,Int.shiftRight_eq_div_pow]
    rfl
  unfold branch_target
  rw [if_neg (by simpa using (aligned_iff branch).mpr branch_aligned),
    if_neg (by simpa using (aligned_iff target).mpr target_aligned),value]
  generalize (target - branch).sshiftRight 2 = disp
  have ones : disp &&& ~~~((1 : Address) <<< bits - 1) = ~~~((1 : Address) <<< bits - 1) ↔
      disp.toNat / 2^bits * 2^bits = 2^register_bits - 2^bits := by
    rw [← BitVec.toNat_inj,and_not_mask disp bits low,not_mask_toNat bits low]
  have zeros : disp &&& ~~~((1 : Address) <<< bits - 1) = 0 ↔ disp.toNat / 2^bits * 2^bits = 0 := by
    rw [← BitVec.toNat_inj,and_not_mask disp bits low]
    rfl
  have msb := (and_msb disp (bits-1) (by omega)).trans (high_bit disp bits some_bits)
  simp only [fits_iff disp bits some_bits low,toInt_emod disp bits low,Int.toNat_natCast,msb,ones,zeros]
  by_cases negative : 2^(bits-1) ≤ disp.toNat % 2^bits
  · simp only [negative,if_true]
    congr 2
    rw [← BitVec.toNat_inj,and_mask disp bits low,BitVec.toNat_ofNat]
    exact (Nat.mod_eq_of_lt (Nat.lt_of_le_of_lt (Nat.mod_le _ _) disp.isLt)).symm
  · simp only [negative,if_false]
    split
    · rename_i none_above
      have parts := Nat.div_add_mod' disp.toNat (2^bits)
      rw [none_above,Nat.zero_add] at parts
      rw [parts,BitVec.ofNat_toNat,BitVec.setWidth_eq]
    · rfl

end IcedTea.Assembler

import IcedTea.InstructionForms

namespace IcedTea.ShiftMacros
open Target
open Assembler (register_bits operand operand_nat)
open Disassembler

-- MASK of the architecture: ones from bit mb to bit me, counted from the high end.
def mask (w mb me : Nat) : BitVec w :=
  let from_mb := BitVec.allOnes w >>> mb
  let to_me := BitVec.allOnes w <<< (w-1-me)
  if mb ≤ me then from_mb &&& to_me else from_mb ||| to_me

section Values
variable {w : Nat} (x : BitVec w)

-- The low word is rotated, and in a longer register both halves hold the result.
def rlwinm_value (sh mb me : Nat) : BitVec w :=
  let r := (x.setWidth 32).rotateLeft sh
  (r ++ r).setWidth w &&& mask w (mb+(w-32)) (me+(w-32))

def rldicl_value (sh mb : Nat) : BitVec w := x.rotateLeft sh &&& mask w mb (w-1)
def rldicr_value (sh me : Nat) : BitVec w := x.rotateLeft sh &&& mask w 0 me

def left_value (bits b : Nat) : BitVec w := BitVec.ofNat w (x.toNat <<< b % 2^bits)
def right_value (bits b : Nat) : BitVec w := BitVec.ofNat w ((x.toNat % 2^bits) >>> b)

end Values

variable [Target]

-- What the processor does with the word of a rotate-and-mask instruction. Those on
-- doublewords are not there in 32-bit implementations.
def rotate_and_mask (word : Nat) (gpr : Nat → BitVec register_bits) : Option (Nat → BitVec register_bits) :=
  let RS := word / 2^21 % 2^5
  let RA := word / 2^16 % 2^5
  let sh := word / 2^11 % 2^5
  let m := word / 2^6 % 2^5
  if word % 2 ≠ 0 then none else
  match word / 2^26 % 2^6 with
  | 21 => some (Function.update gpr RA (rlwinm_value (gpr RS) sh m (word / 2 % 2^5)))
  | 30 =>
    if cpu = .ppc32 then none else
    let sh := word / 2 % 2 * 2^5 + sh
    let m := word / 2^5 % 2 * 2^5 + m
    match word / 2^2 % 2^3 with
    | 0 => some (Function.update gpr RA (rldicl_value (gpr RS) sh m))
    | 1 => some (Function.update gpr RA (rldicr_value (gpr RS) sh m))
    | _ => none
  | _ => none

section Calls
omit [Target]
variable (dst a : Register) (b : Int)
def slwi : Call := .rlwinm dst a b 0 (31-b)
def srwi : Call := .rlwinm dst a (32-b) b 31
def sldi : Call := .rldicr dst a b (63-b)
def srdi : Call := .rldicl dst a (64-b) b
end Calls

def shift_left (dst a : Register) (b : Int) : Call := match cpu with | .ppc32 => slwi dst a b | .ppc64 => sldi dst a b
def shift_right (dst a : Register) (b : Int) : Call := match cpu with | .ppc32 => srwi dst a b | .ppc64 => srdi dst a b

inductive Macro where
  | slwi | srwi | sldi | srdi | shift_left | shift_right
  deriving DecidableEq, Repr

namespace Macro
def call : Macro → Register → Register → Int → Call
  | slwi => ShiftMacros.slwi
  | srwi => ShiftMacros.srwi
  | sldi => ShiftMacros.sldi
  | srdi => ShiftMacros.srdi
  | shift_left => ShiftMacros.shift_left
  | shift_right => ShiftMacros.shift_right

def word_size : Macro → Nat
  | slwi | srwi => 32
  | sldi | srdi => 64
  | shift_left | shift_right => register_bits

def available : Macro → Prop
  | sldi | srdi => cpu = .ppc64
  | _ => True

def left : Macro → Prop
  | slwi | sldi | shift_left => True
  | srwi | srdi | shift_right => False

def value (m : Macro) (x : BitVec register_bits) (b : Nat) : BitVec register_bits :=
  match m with
  | slwi | sldi | shift_left => left_value x m.word_size b
  | srwi | srdi | shift_right => right_value x m.word_size b

-- One instruction is emitted, and it leaves the shifted source in the destination.
def Shifts (m : Macro) (dst a : Fin 32) (b : Nat) : Prop := ∀ pc, ∃ word, emit pc (m.call dst.val a.val b) = some word ∧
  ∀ gpr, rotate_and_mask word gpr = some (Function.update gpr dst.val (m.value (gpr a.val) b))
end Macro

section Bits
omit [Target]
variable {w : Nat} (x : BitVec w) {b : Nat}

theorem getLsbD_mask {mb me : Nat} (order : mb ≤ me) (inside : me < w) (i : Nat) :
    (mask w mb me).getLsbD i = decide (w-1-me ≤ i ∧ i+mb < w) := by
  unfold mask
  rw [if_pos order,BitVec.getLsbD_and,BitVec.getLsbD_ushiftRight,BitVec.getLsbD_shiftLeft,BitVec.getLsbD_allOnes,
    BitVec.getLsbD_allOnes,Bool.eq_iff_iff]
  simp only [Bool.and_eq_true,decide_eq_true_eq,Bool.not_eq_true',decide_eq_false_iff_not]
  omega

-- A rotation under the mask of the bits that do not wrap around is a shift.
theorem rotate_left_masked (small : b < w) : x.rotateLeft b &&& mask w 0 (w-1-b) = x <<< b := by
  apply BitVec.eq_of_getLsbD_eq
  intro i inside
  rw [BitVec.getLsbD_and,getLsbD_mask (by omega) (by omega),BitVec.getLsbD_rotateLeft_of_le small,BitVec.getLsbD_shiftLeft]
  by_cases low : i < b
  · have masked : ¬ (w-1-(w-1-b) ≤ i ∧ i+0 < w) := by omega
    simp only [low,masked,decide_true,decide_false,Bool.and_false,Bool.not_true,Bool.false_and]
  · have kept : w-1-(w-1-b) ≤ i ∧ i+0 < w := by omega
    simp only [low,inside,kept,and_self,decide_true,decide_false,cond_false,Bool.and_true,Bool.not_false,Bool.true_and]

theorem rotate_right_masked (some_bits : b ≠ 0) (small : b < w) : x.rotateLeft (w-b) &&& mask w b (w-1) = x >>> b := by
  apply BitVec.eq_of_getLsbD_eq
  intro i inside
  rw [BitVec.getLsbD_and,getLsbD_mask (by omega) (by omega),BitVec.getLsbD_rotateLeft_of_le (by omega),BitVec.getLsbD_ushiftRight]
  by_cases low : i+b < w
  · have before : i < w-b := by omega
    have place : w-(w-b)+i = b+i := by omega
    have kept : w-1-(w-1) ≤ i ∧ i+b < w := by omega
    simp only [before,place,kept,and_self,decide_true,cond_true,Bool.and_true]
  · have masked : ¬ (w-1-(w-1) ≤ i ∧ i+b < w) := by omega
    rw [BitVec.getLsbD_of_ge x (b+i) (by omega)]
    simp only [masked,decide_false,Bool.and_false]

-- Under a mask in the low word only the low half of the register counts.
theorem low_word_masked (r : BitVec 32) {mb me : Nat} (order : mb ≤ me) (inside : me < 32) (wide : 32 ≤ w) :
    (r ++ r).setWidth w &&& mask w (mb+(w-32)) (me+(w-32)) = (r &&& mask 32 mb me).setWidth w := by
  apply BitVec.eq_of_getLsbD_eq
  intro i low
  rw [BitVec.getLsbD_and,BitVec.getLsbD_setWidth,BitVec.getLsbD_setWidth,BitVec.getLsbD_and,
    getLsbD_mask (by omega) (by omega),getLsbD_mask order inside,BitVec.getLsbD_append]
  have same : (w-1-(me+(w-32)) ≤ i ∧ i+(mb+(w-32)) < w) ↔ 32-1-me ≤ i ∧ i+mb < 32 := by omega
  by_cases word : i < 32
  · simp only [same,word,if_true,low,decide_true,Bool.true_and]
  · have masked : ¬ (32-1-me ≤ i ∧ i+mb < 32) := by omega
    simp only [same,masked,decide_false,Bool.and_false]

theorem left_value_low (bits : Nat) : left_value x bits b = ((x.setWidth bits) <<< b).setWidth w := by
  apply BitVec.eq_of_toNat_eq
  rw [left_value,BitVec.toNat_ofNat,BitVec.toNat_setWidth,BitVec.toNat_shiftLeft,BitVec.toNat_setWidth,Nat.shiftLeft_eq,
    Nat.shiftLeft_eq,Nat.mod_mul_mod]

theorem right_value_low (bits : Nat) : right_value x bits b = ((x.setWidth bits) >>> b).setWidth w := by
  apply BitVec.eq_of_toNat_eq
  rw [right_value,BitVec.toNat_ofNat,BitVec.toNat_setWidth,BitVec.toNat_ushiftRight,BitVec.toNat_setWidth]

theorem slwi_value (wide : 32 ≤ w) (small : b < 32) : rlwinm_value x b 0 (31-b) = left_value x 32 b := by
  have word := rotate_left_masked (x.setWidth 32) small
  rw [left_value_low,← word]
  exact low_word_masked _ (Nat.zero_le _) (by omega) wide

theorem srwi_value (wide : 32 ≤ w) (some_bits : b ≠ 0) (small : b < 32) : rlwinm_value x (32-b) b 31 = right_value x 32 b := by
  have word := rotate_right_masked (x.setWidth 32) some_bits small
  rw [right_value_low,← word]
  exact low_word_masked _ (by omega) (by decide) wide

theorem sldi_value (size : w = 64) (small : b < 64) : rldicr_value x b (63-b) = left_value x 64 b := by
  subst size
  rw [left_value_low,BitVec.setWidth_eq,BitVec.setWidth_eq]
  exact rotate_left_masked x small

theorem srdi_value (size : w = 64) (some_bits : b ≠ 0) (small : b < 64) : rldicl_value x (64-b) b = right_value x 64 b := by
  subst size
  rw [right_value_low,BitVec.setWidth_eq,BitVec.setWidth_eq]
  exact rotate_right_masked x some_bits small

theorem accepted_M {a b c d e : Nat} (a_low : a < 32) (b_low : b < 32) (c_low : c < 32) (d_low : d < 32) (e_low : e < 32)
    (rc : Bool) : ∃ word, emit_M 21 a b c d e rc = some word := by
  unfold emit_M
  simp only [operand_nat 5 _ a_low,operand_nat 5 _ b_low,operand_nat 5 _ c_low,
    operand_nat 5 _ d_low,operand_nat 5 _ e_low,Option.bind_eq_bind,Option.bind_some]
  exact ⟨_,rfl⟩

theorem accepted_MD {a b c d e : Nat} (a_low : a < 32) (b_low : b < 32) (c_low : c < 64) (d_low : d < 64) (e_low : e < 8)
    (rc : Bool) : ∃ word, emit_M 30 a b c d e rc = some word := by
  unfold emit_M
  simp only [operand_nat 5 _ a_low,operand_nat 5 _ b_low,operand_nat 6 _ c_low,operand_nat 6 _ d_low,
    operand_nat 3 _ e_low,Option.bind_eq_bind,Option.bind_some]
  exact ⟨_,rfl⟩

-- A rotation by the whole width has no field.
theorem rejected_M {a b d e : Int} {rc : Bool} {word : Nat} (emits : emit_M 21 a b 32 d e rc = some word) : False := by
  obtain ⟨a,rfl,-,emits⟩ := operand_inv emits
  obtain ⟨b,rfl,-,emits⟩ := operand_inv emits
  obtain ⟨c,same,low,-⟩ := operand_inv emits
  omega

theorem rejected_MD {a b d e : Int} {rc : Bool} {word : Nat} (emits : emit_M 30 a b 64 d e rc = some word) : False := by
  obtain ⟨a,rfl,-,emits⟩ := operand_inv emits
  obtain ⟨b,rfl,-,emits⟩ := operand_inv emits
  obtain ⟨c,same,low,-⟩ := operand_inv emits
  omega

end Bits

-- The processor sees the operands that were given.
theorem executes_M {a b c d e : Nat} {word : Nat} (emits : emit_M 21 a b c d e false = some word)
    (gpr : Nat → BitVec register_bits) :
    rotate_and_mask word gpr = some (Function.update gpr b (rlwinm_value (gpr a) c d e)) := by
  have parts : [word / 2^26 % 2^6,word / 2^21 % 2^5,word / 2^16 % 2^5,word / 2^11 % 2^5,word / 2^6 % 2^5,word / 2^1 % 2^5,
      word / 2^0 % 2^1] = [21,a,b,c,d,e,0] := (emitted_M emits).parts
  simp only [List.cons.injEq,Nat.pow_one,Nat.pow_zero,Nat.div_one,and_true] at parts
  obtain ⟨op,RS,RA,SH,MB,ME,Rc⟩ := parts
  unfold rotate_and_mask
  simp only [op,RS,RA,SH,MB,ME,Rc,ne_eq,not_true_eq_false,if_false]

theorem executes_MD {a b c d e : Nat} {word : Nat} (emits : emit_M 30 a b c d e false = some word) (wide : cpu = .ppc64)
    (gpr : Nat → BitVec register_bits) :
    (e = 0 → rotate_and_mask word gpr = some (Function.update gpr b (rldicl_value (gpr a) c d))) ∧
    (e = 1 → rotate_and_mask word gpr = some (Function.update gpr b (rldicr_value (gpr a) c d))) := by
  have parts : [word / 2^26 % 2^6,word / 2^21 % 2^5,word / 2^16 % 2^5,word / 2^11 % 2^5,word / 2^6 % 2^5,word / 2^5 % 2^1,
      word / 2^2 % 2^3,word / 2^1 % 2^1,word / 2^0 % 2^1] = [30,a,b,c % 2^5,d % 2^5,d / 2^5,e,c / 2^5,0] :=
    (emitted_MD emits).parts
  simp only [List.cons.injEq,Nat.pow_one,Nat.pow_zero,Nat.div_one,and_true] at parts
  obtain ⟨op,RS,RA,shl,mel,meh,xo,shh,Rc⟩ := parts
  unfold rotate_and_mask
  refine ⟨?_,?_⟩
  all_goals
    rintro rfl
    simp only [op,RS,RA,shl,mel,meh,xo,shh,Rc,wide,ne_eq,not_true_eq_false,if_false,reduceCtorEq,Nat.div_add_mod']

theorem narrow_register (narrow : cpu = .ppc32) : register_bits = 32 := by rw [register_bits,narrow]
theorem wide_register (wide : cpu = .ppc64) : register_bits = 64 := by rw [register_bits,wide]
theorem word_register : 32 ≤ register_bits := by
  unfold register_bits
  split <;> decide

section Macros
variable {dst a : Fin 32} {b : Nat}

theorem slwi_shifts (small : b < 32) : Macro.slwi.Shifts dst a b := by
  intro pc
  obtain ⟨word,emits⟩ := accepted_M a.isLt dst.isLt small (show 0 < 32 by decide) (show 31-b < 32 by omega) false
  refine ⟨word,?_,fun gpr => ?_⟩
  · rw [Int.ofNat_sub (by omega)] at emits
    exact emits
  · rw [executes_M emits,slwi_value _ word_register small]
    rfl

theorem srwi_shifts (some_bits : b ≠ 0) (small : b < 32) : Macro.srwi.Shifts dst a b := by
  intro pc
  obtain ⟨word,emits⟩ := accepted_M a.isLt dst.isLt (show 32-b < 32 by omega) small (show 31 < 32 by decide) false
  refine ⟨word,?_,fun gpr => ?_⟩
  · rw [Int.ofNat_sub (by omega)] at emits
    exact emits
  · rw [executes_M emits,srwi_value _ word_register some_bits small]
    rfl

theorem sldi_shifts (wide : cpu = .ppc64) (small : b < 64) : Macro.sldi.Shifts dst a b := by
  intro pc
  obtain ⟨word,emits⟩ := accepted_MD a.isLt dst.isLt small (show 63-b < 64 by omega) (show 1 < 8 by decide) false
  refine ⟨word,?_,fun gpr => ?_⟩
  · rw [Int.ofNat_sub (by omega)] at emits
    exact emits
  · rw [(executes_MD emits wide gpr).2 rfl,sldi_value _ (wide_register wide) small]
    rfl

theorem srdi_shifts (wide : cpu = .ppc64) (some_bits : b ≠ 0) (small : b < 64) : Macro.srdi.Shifts dst a b := by
  intro pc
  obtain ⟨word,emits⟩ := accepted_MD a.isLt dst.isLt (show 64-b < 64 by omega) small (show 0 < 8 by decide) false
  refine ⟨word,?_,fun gpr => ?_⟩
  · rw [Int.ofNat_sub (by omega)] at emits
    exact emits
  · rw [(executes_MD emits wide gpr).1 rfl,srdi_value _ (wide_register wide) some_bits small]
    rfl

theorem srwi_zero : ¬ Macro.srwi.Shifts dst a 0 := by
  intro shifts
  obtain ⟨word,emits,-⟩ := shifts 0
  exact rejected_M emits

theorem srdi_zero : ¬ Macro.srdi.Shifts dst a 0 := by
  intro shifts
  obtain ⟨word,emits,-⟩ := shifts 0
  exact rejected_MD emits

-- The general macros are those of the register's size.
theorem shifts_congr {m m' : Macro} (call : ∀ dst a b, m.call dst a b = m'.call dst a b)
    (value : ∀ x b, m.value x b = m'.value x b) : m.Shifts dst a b ↔ m'.Shifts dst a b := by
  unfold Macro.Shifts
  simp only [call,value]

theorem shift_left_narrow (narrow : cpu = .ppc32) : Macro.shift_left.Shifts dst a b ↔ Macro.slwi.Shifts dst a b := by
  have size : Macro.shift_left.word_size = 32 := narrow_register narrow
  refine shifts_congr (fun dst a b => ?_) fun x b => ?_
  · change shift_left dst a b = slwi dst a b
    rw [shift_left,narrow]
  · change left_value x Macro.shift_left.word_size b = left_value x 32 b
    rw [size]

theorem shift_left_wide (wide : cpu = .ppc64) : Macro.shift_left.Shifts dst a b ↔ Macro.sldi.Shifts dst a b := by
  have size : Macro.shift_left.word_size = 64 := wide_register wide
  refine shifts_congr (fun dst a b => ?_) fun x b => ?_
  · change shift_left dst a b = sldi dst a b
    rw [shift_left,wide]
  · change left_value x Macro.shift_left.word_size b = left_value x 64 b
    rw [size]

theorem shift_right_narrow (narrow : cpu = .ppc32) : Macro.shift_right.Shifts dst a b ↔ Macro.srwi.Shifts dst a b := by
  have size : Macro.shift_right.word_size = 32 := narrow_register narrow
  refine shifts_congr (fun dst a b => ?_) fun x b => ?_
  · change shift_right dst a b = srwi dst a b
    rw [shift_right,narrow]
  · change right_value x Macro.shift_right.word_size b = right_value x 32 b
    rw [size]

theorem shift_right_wide (wide : cpu = .ppc64) : Macro.shift_right.Shifts dst a b ↔ Macro.srdi.Shifts dst a b := by
  have size : Macro.shift_right.word_size = 64 := wide_register wide
  refine shifts_congr (fun dst a b => ?_) fun x b => ?_
  · change shift_right dst a b = srdi dst a b
    rw [shift_right,wide]
  · change right_value x Macro.shift_right.word_size b = right_value x 64 b
    rw [size]

theorem srwi_iff (small : b < 32) : Macro.srwi.Shifts dst a b ↔ b ≠ 0 := by
  refine ⟨?_,fun some_bits => srwi_shifts some_bits small⟩
  rintro shifts rfl
  exact srwi_zero shifts

theorem srdi_iff (wide : cpu = .ppc64) (small : b < 64) : Macro.srdi.Shifts dst a b ↔ b ≠ 0 := by
  refine ⟨?_,fun some_bits => srdi_shifts wide some_bits small⟩
  rintro shifts rfl
  exact srdi_zero shifts

end Macros

-- All the macros shift as they are named, but for a shift to the right by nothing.
theorem shifts_iff (m : Macro) (available : m.available) (dst a : Fin 32) (b : Nat) (small : b < m.word_size) :
    m.Shifts dst a b ↔ m.left ∨ b ≠ 0 := by
  cases m with
  | slwi => exact iff_of_true (slwi_shifts small) (.inl trivial)
  | sldi => exact iff_of_true (sldi_shifts available small) (.inl trivial)
  | srwi => exact (srwi_iff small).trans (iff_of_eq (false_or _)).symm
  | srdi => exact (srdi_iff available small).trans (iff_of_eq (false_or _)).symm
  | shift_left =>
    refine iff_of_true ?_ (.inl trivial)
    change b < register_bits at small
    cases size : cpu with
    | ppc32 =>
      rw [narrow_register size] at small
      exact (shift_left_narrow size).mpr (slwi_shifts small)
    | ppc64 =>
      rw [wide_register size] at small
      exact (shift_left_wide size).mpr (sldi_shifts size small)
  | shift_right =>
    refine Iff.trans ?_ (iff_of_eq (false_or _)).symm
    change b < register_bits at small
    cases size : cpu with
    | ppc32 =>
      rw [narrow_register size] at small
      exact (shift_right_narrow size).trans (srwi_iff small)
    | ppc64 =>
      rw [wide_register size] at small
      exact (shift_right_wide size).trans (srdi_iff size small)

omit [Target] in
theorem not_always_shifts : ¬ ∀ (_ : Target) (m : Macro) (_ : m.available) (dst a : Fin 32) (b : Nat) (_ : b < m.word_size),
    m.Shifts dst a b :=
  fun all => letI := ppc64; srwi_zero (all ppc64 .srwi trivial 3 4 0 (by decide))

omit [Target] in
theorem shifts_by_three : letI := ppc64
    Macro.shift_right.Shifts 3 4 3 :=
  letI := ppc64; (shifts_iff .shift_right trivial 3 4 3 (by decide)).mpr (.inr (by decide))

end IcedTea.ShiftMacros

import Mathlib

namespace IcedTea.BytecodeInterpreter

abbrev jint := BitVec 32
abbrev jlong := BitVec 64

-- C leaves a shift by the width or more, and a quotient that does not fit, undefined.
section C
variable {w : Nat} (x y : BitVec w) (distance : Int)

def shift_left : Option (BitVec w) := if 0 ≤ distance ∧ distance < w then some (x <<< distance.toNat) else none
def shift_right : Option (BitVec w) := if 0 ≤ distance ∧ distance < w then some (x.sshiftRight distance.toNat) else none
def unsigned_shift_right : Option (BitVec w) := if 0 ≤ distance ∧ distance < w then some (x >>> distance.toNat) else none

def divide : Option (BitVec w) := if y = 0 ∨ x = BitVec.intMin w ∧ y = -1#w then none else some (x.sdiv y)
def remainder : Option (BitVec w) := if y = 0 ∨ x = BitVec.intMin w ∧ y = -1#w then none else some (x.srem y)

end C

-- What a comparison yields.
def int32_of (b : Bool) : jint := if b then 1 else 0

section Long
variable (op1 op2 : jlong) (distance : jint)

def VMlongAdd : jlong := op1 + op2
def VMlongAnd : jlong := op1 &&& op2
def VMlongDiv : Option jlong := divide op1 op2
def VMlongMul : jlong := op1 * op2
def VMlongOr : jlong := op1 ||| op2
def VMlongSub : jlong := op1 - op2
def VMlongXor : jlong := op1 ^^^ op2
def VMlongRem : Option jlong := remainder op1 op2
def VMlongUshr : Option jlong := unsigned_shift_right op1 (distance &&& 0x3f).toInt
def VMlongShr : Option jlong := shift_right op1 (distance &&& 0x3f).toInt
def VMlongShl : Option jlong := shift_left op1 (distance &&& 0x3f).toInt
def VMlongNeg : jlong := -op1
def VMlongNot : jlong := ~~~op1
def VMlongLtz : jint := int32_of (op1.sle 0)
def VMlongGez : jint := int32_of ((0 : jlong).sle op1)
def VMlongEqz : jint := int32_of (op1 = 0)
def VMlongEq : jint := int32_of (op1 = op2)
def VMlongNe : jint := int32_of (op1 ≠ op2)
def VMlongGe : jint := int32_of (op2.sle op1)
def VMlongLe : jint := int32_of (op1.sle op2)
def VMlongLt : jint := int32_of (op1.slt op2)
def VMlongGt : jint := int32_of (op2.slt op1)
def VMlongCompare : jint := if VMlongLt op1 op2 ≠ 0 then -1 else if VMlongGt op1 op2 ≠ 0 then 1 else 0
def VMlong2Int : jint := op1.setWidth 32

end Long

section Int
variable (op1 op2 : jint)

def VMintAdd : jint := op1 + op2
def VMintAnd : jint := op1 &&& op2
def VMintDiv : Option jint := if op1 = 0x80000000 ∧ op2 = -1 then some op1 else divide op1 op2
def VMintMul : jint := op1 * op2
def VMintNeg : jint := -op1
def VMintOr : jint := op1 ||| op2
def VMintRem : Option jint := if op1 = 0x80000000 ∧ op2 = -1 then some 0 else remainder op1 op2
def VMintShl : Option jint := shift_left op1 op2.toInt
def VMintShr : Option jint := shift_right op1 op2.toInt
def VMintSub : jint := op1 - op2
def VMintUshr : Option jint := unsigned_shift_right op1 op2.toInt
def VMintXor : jint := op1 ^^^ op2

end Int

-- What the instructions of the virtual machine require of a result, at either width.
section Required
variable {w : Nat} (x y : BitVec w)

def Wraps (result : BitVec w) (exact : Int) : Prop := result.toInt = exact.bmod (2^w)

def Bitwise (f : Bool → Bool → Bool) (result : BitVec w) : Prop :=
  ∀ i < w, result.getLsbD i = f (x.getLsbD i) (y.getLsbD i)

-- The minimum divided by minus one is itself; other quotients are truncated.
def Quotient (result : Option (BitVec w)) : Prop :=
  ∃ q, result = some q ∧ (x = BitVec.intMin w → y = -1#w → q = BitVec.intMin w) ∧
    (¬ (x = BitVec.intMin w ∧ y = -1#w) → q.toInt = x.toInt.tdiv y.toInt)

def Remainder (result : Option (BitVec w)) : Prop :=
  ∃ r, result = some r ∧ (x = BitVec.intMin w → y = -1#w → r = 0) ∧
    x.toInt = x.toInt.tdiv y.toInt * y.toInt + r.toInt

-- The distance is what its low bits say, 5 of them or 6.
def ShiftedLeft (distance : jint) (result : Option (BitVec w)) : Prop :=
  ∃ r, result = some r ∧ Wraps r (x.toInt * 2^(distance.toNat % w))

def ShiftedRight (distance : jint) (result : Option (BitVec w)) : Prop :=
  ∃ r, result = some r ∧ r.toInt = x.toInt / 2^(distance.toNat % w)

def UnsignedShiftedRight (distance : jint) (result : Option (BitVec w)) : Prop :=
  ∃ r, result = some r ∧ r.toNat = x.toNat / 2^(distance.toNat % w)

def Holds (result : jint) (p : Prop) : Prop := (result = 1 ∨ result = 0) ∧ (result ≠ 0 ↔ p)

end Required

inductive IntHelper where
  | Add | And | Div | Mul | Neg | Or | Rem | Shl | Shr | Sub | Ushr | Xor
  deriving DecidableEq, Repr

inductive LongHelper where
  | Add | And | Div | Mul | Or | Sub | Xor | Rem | Ushr | Shr | Shl | Neg | Not
  | Ltz | Gez | Eqz | Eq | Ne | Ge | Le | Lt | Gt | Compare | ToInt
  deriving DecidableEq, Repr

def IntHelper.Correct (helper : IntHelper) (op1 op2 : jint) : Prop :=
  match helper with
  | Add => Wraps (VMintAdd op1 op2) (op1.toInt + op2.toInt)
  | And => Bitwise op1 op2 (· && ·) (VMintAnd op1 op2)
  | Div => op2 ≠ 0 → Quotient op1 op2 (VMintDiv op1 op2)
  | Mul => Wraps (VMintMul op1 op2) (op1.toInt * op2.toInt)
  | Neg => Wraps (VMintNeg op1) (-op1.toInt)
  | Or => Bitwise op1 op2 (· || ·) (VMintOr op1 op2)
  | Rem => op2 ≠ 0 → Remainder op1 op2 (VMintRem op1 op2)
  | Shl => ShiftedLeft op1 op2 (VMintShl op1 op2)
  | Shr => ShiftedRight op1 op2 (VMintShr op1 op2)
  | Sub => Wraps (VMintSub op1 op2) (op1.toInt - op2.toInt)
  | Ushr => UnsignedShiftedRight op1 op2 (VMintUshr op1 op2)
  | Xor => Bitwise op1 op2 (· ^^ ·) (VMintXor op1 op2)

-- A test of one operand is coherent with the comparison it stands for.
def LongHelper.Correct (helper : LongHelper) (op1 op2 : jlong) (distance : jint) : Prop :=
  match helper with
  | Add => Wraps (VMlongAdd op1 op2) (op1.toInt + op2.toInt)
  | And => Bitwise op1 op2 (· && ·) (VMlongAnd op1 op2)
  | Div => op2 ≠ 0 → Quotient op1 op2 (VMlongDiv op1 op2)
  | Mul => Wraps (VMlongMul op1 op2) (op1.toInt * op2.toInt)
  | Or => Bitwise op1 op2 (· || ·) (VMlongOr op1 op2)
  | Sub => Wraps (VMlongSub op1 op2) (op1.toInt - op2.toInt)
  | Xor => Bitwise op1 op2 (· ^^ ·) (VMlongXor op1 op2)
  | Rem => op2 ≠ 0 → Remainder op1 op2 (VMlongRem op1 op2)
  | Ushr => UnsignedShiftedRight op1 distance (VMlongUshr op1 distance)
  | Shr => ShiftedRight op1 distance (VMlongShr op1 distance)
  | Shl => ShiftedLeft op1 distance (VMlongShl op1 distance)
  | Neg => Wraps (VMlongNeg op1) (-op1.toInt)
  | Not => Bitwise op1 op1 (fun b _ => !b) (VMlongNot op1)
  | Ltz => Holds (VMlongLtz op1) (VMlongLt op1 0 ≠ 0)
  | Gez => Holds (VMlongGez op1) (VMlongLtz op1 = 0)
  | Eqz => Holds (VMlongEqz op1) (VMlongEq op1 0 ≠ 0)
  | Eq => Holds (VMlongEq op1 op2) (op1.toInt = op2.toInt)
  | Ne => Holds (VMlongNe op1 op2) (op1.toInt ≠ op2.toInt)
  | Ge => Holds (VMlongGe op1 op2) (op1.toInt ≥ op2.toInt)
  | Le => Holds (VMlongLe op1 op2) (op1.toInt ≤ op2.toInt)
  | Lt => Holds (VMlongLt op1 op2) (op1.toInt < op2.toInt)
  | Gt => Holds (VMlongGt op1 op2) (op1.toInt > op2.toInt)
  | Compare => (VMlongCompare op1 op2).toInt = (op1.toInt - op2.toInt).sign
  | ToInt => Wraps (VMlong2Int op1) op1.toInt

-- The shifts of ints do not mask their distance, the quotients of longs do not
-- look for the minimum, and the test for a negative long is one for zero as well.
def IntHelper.Guarded (helper : IntHelper) (op2 : jint) : Prop :=
  match helper with
  | Shl | Shr | Ushr => op2.toNat < 32
  | _ => True

def LongHelper.Guarded (helper : LongHelper) (op1 op2 : jlong) : Prop :=
  match helper with
  | Div | Rem => ¬ (op1 = BitVec.intMin 64 ∧ op2 = -1)
  | Ltz | Gez => op1 ≠ 0
  | _ => True

section Lemmas
variable {w : Nat} {x y : BitVec w}

theorem shifts_defined (distance : Nat) (low : distance < w) :
    shift_left x distance = some (x <<< distance) ∧ shift_right x distance = some (x.sshiftRight distance) ∧
      unsigned_shift_right x distance = some (x >>> distance) := by
  have bounds : (0 : Int) ≤ distance ∧ (distance : Int) < w := by omega
  unfold shift_left shift_right unsigned_shift_right
  rw [if_pos bounds,if_pos bounds,if_pos bounds,Int.toNat_natCast]
  exact ⟨rfl,rfl,rfl⟩

theorem shifts_undefined (distance : Int) (high : ¬ (0 ≤ distance ∧ distance < w)) :
    shift_left x distance = none ∧ shift_right x distance = none ∧ unsigned_shift_right x distance = none := by
  unfold shift_left shift_right unsigned_shift_right
  rw [if_neg high,if_neg high,if_neg high]
  exact ⟨rfl,rfl,rfl⟩

theorem shifted_left (x : BitVec w) (distance : jint) :
    ShiftedLeft x distance (some (x <<< (distance.toNat % w))) := by
  refine ⟨_,rfl,?_⟩
  unfold Wraps
  rw [BitVec.toInt_shiftLeft,BitVec.toInt_eq_toNat_bmod,Int.bmod_mul_bmod]
  congr 1
  norm_cast
  exact Nat.shiftLeft_eq _ _

theorem shifted_right (x : BitVec w) (distance : jint) :
    ShiftedRight x distance (some (x.sshiftRight (distance.toNat % w))) := by
  refine ⟨_,rfl,?_⟩
  rw [BitVec.toInt_sshiftRight,Int.shiftRight_eq_div_pow]
  norm_cast

theorem unsigned_shifted_right (x : BitVec w) (distance : jint) :
    UnsignedShiftedRight x distance (some (x >>> (distance.toNat % w))) := by
  refine ⟨_,rfl,?_⟩
  rw [BitVec.toNat_ushiftRight,Nat.shiftRight_eq_div_pow]

theorem quotient_divide (x y : BitVec w) (nonzero : y ≠ 0) (fits : ¬ (x = BitVec.intMin w ∧ y = -1#w)) :
    Quotient x y (divide x y) := by
  unfold divide
  rw [if_neg (by simp only [nonzero,false_or]; exact fits)]
  refine ⟨_,rfl,?_,?_⟩
  · intro minimum minus_one
    exact absurd ⟨minimum,minus_one⟩ fits
  · intro _
    apply BitVec.toInt_sdiv_of_ne_or_ne
    exact not_and_or.mp fits

theorem remainder_remainder (x y : BitVec w) (nonzero : y ≠ 0) (fits : ¬ (x = BitVec.intMin w ∧ y = -1#w)) :
    Remainder x y (remainder x y) := by
  unfold remainder
  rw [if_neg (by simp only [nonzero,false_or]; exact fits)]
  refine ⟨_,rfl,?_,?_⟩
  · intro minimum minus_one
    exact absurd ⟨minimum,minus_one⟩ fits
  · rw [BitVec.toInt_srem,Int.mul_comm]
    exact (Int.mul_tdiv_add_tmod _ _).symm

theorem not_quotient_none : ¬ Quotient x y none := fun ⟨_,same,_⟩ => nomatch same
theorem not_remainder_none : ¬ Remainder x y none := fun ⟨_,same,_⟩ => nomatch same

theorem holds_int32 (b : Bool) (p : Prop) (same : b = true ↔ p) : Holds (int32_of b) p := by
  constructor
  · cases b
    · exact Or.inr rfl
    · exact Or.inl rfl
  · rw [← same]
    cases b <;> simp [int32_of]

theorem int32_ne_zero (b : Bool) : int32_of b ≠ 0 ↔ b = true := by cases b <;> simp [int32_of]
theorem int32_eq_zero (b : Bool) : int32_of b = 0 ↔ b = false := by cases b <;> simp [int32_of]

end Lemmas

theorem int_distance (op2 : jint) : 0 ≤ op2.toInt ∧ op2.toInt < (32 : Nat) ↔ op2.toNat < 32 := by
  have bound := op2.isLt
  rw [BitVec.toInt_eq_toNat_cond]
  split <;> omega

theorem long_distance (distance : jint) : (distance &&& 0x3f).toInt = ((distance.toNat % 64 : Nat) : Int) := by
  have low : (distance &&& 0x3f).toNat = distance.toNat % 64 := by
    rw [BitVec.toNat_and]
    exact Nat.and_two_pow_sub_one_eq_mod distance.toNat 6
  rw [BitVec.toInt_eq_toNat_cond,low]
  split <;> omega

theorem int_helpers (helper : IntHelper) (op1 op2 : jint) : helper.Correct op1 op2 ↔ helper.Guarded op2 := by
  have defined : op2.toNat < 32 → op2.toInt = (op2.toNat % 32 : Nat) := by
    intro low
    have bound := op2.isLt
    rw [BitVec.toInt_eq_toNat_cond]
    split <;> omega
  have low := Nat.mod_lt op2.toNat (by decide : 0 < 32)
  have undefined : ¬ op2.toNat < 32 → ¬ (0 ≤ op2.toInt ∧ op2.toInt < (32 : Nat)) := (int_distance op2).not.mpr
  cases helper with
  | Add => exact iff_of_true (BitVec.toInt_add _ _) trivial
  | And => exact iff_of_true (fun i _ => BitVec.getLsbD_and) trivial
  | Mul => exact iff_of_true (BitVec.toInt_mul _ _) trivial
  | Neg => exact iff_of_true BitVec.toInt_neg trivial
  | Or => exact iff_of_true (fun i _ => BitVec.getLsbD_or) trivial
  | Sub => exact iff_of_true BitVec.toInt_sub trivial
  | Xor => exact iff_of_true (fun i _ => BitVec.getLsbD_xor) trivial
  | Div =>
    apply iff_of_true _ trivial
    intro nonzero
    unfold VMintDiv
    by_cases special : op1 = 0x80000000 ∧ op2 = -1
    · rw [if_pos special]
      exact ⟨op1,rfl,fun minimum _ => minimum,fun fits => absurd special fits⟩
    · rw [if_neg special]
      exact quotient_divide op1 op2 nonzero special
  | Rem =>
    apply iff_of_true _ trivial
    intro nonzero
    unfold VMintRem
    by_cases special : op1 = 0x80000000 ∧ op2 = -1
    · rw [if_pos special]
      refine ⟨0,rfl,fun _ _ => rfl,?_⟩
      rw [special.1,special.2]
      decide
    · rw [if_neg special]
      exact remainder_remainder op1 op2 nonzero special
  | Shl =>
    by_cases guarded : op2.toNat < 32
    · apply iff_of_true _ guarded
      unfold IntHelper.Correct VMintShl
      rw [defined guarded,(shifts_defined _ low).1]
      exact shifted_left op1 op2
    · apply iff_of_false _ guarded
      unfold IntHelper.Correct VMintShl
      rw [(shifts_undefined _ (undefined guarded)).1]
      exact fun ⟨_,same,_⟩ => nomatch same
  | Shr =>
    by_cases guarded : op2.toNat < 32
    · apply iff_of_true _ guarded
      unfold IntHelper.Correct VMintShr
      rw [defined guarded,(shifts_defined _ low).2.1]
      exact shifted_right op1 op2
    · apply iff_of_false _ guarded
      unfold IntHelper.Correct VMintShr
      rw [(shifts_undefined _ (undefined guarded)).2.1]
      exact fun ⟨_,same,_⟩ => nomatch same
  | Ushr =>
    by_cases guarded : op2.toNat < 32
    · apply iff_of_true _ guarded
      unfold IntHelper.Correct VMintUshr
      rw [defined guarded,(shifts_defined _ low).2.2]
      exact unsigned_shifted_right op1 op2
    · apply iff_of_false _ guarded
      unfold IntHelper.Correct VMintUshr
      rw [(shifts_undefined _ (undefined guarded)).2.2]
      exact fun ⟨_,same,_⟩ => nomatch same

theorem compare_sign (op1 op2 : jlong) : (VMlongCompare op1 op2).toInt = (op1.toInt - op2.toInt).sign := by
  unfold VMlongCompare VMlongLt VMlongGt
  simp only [int32_ne_zero,BitVec.slt_iff_toInt_lt]
  by_cases less : op1.toInt < op2.toInt
  · rw [if_pos less,Int.sign_eq_neg_one_of_neg (by omega)]
    rfl
  · rw [if_neg less]
    by_cases greater : op2.toInt < op1.toInt
    · rw [if_pos greater,Int.sign_eq_one_of_pos (by omega)]
      rfl
    · rw [if_neg greater,show op1.toInt - op2.toInt = 0 by omega]
      rfl

theorem long_helpers (helper : LongHelper) (op1 op2 : jlong) (distance : jint) :
    helper.Correct op1 op2 distance ↔ helper.Guarded op1 op2 := by
  have low := Nat.mod_lt distance.toNat (by decide : 0 < 64)
  have zero : (0 : jlong).toInt = 0 := rfl
  cases helper with
  | Add => exact iff_of_true (BitVec.toInt_add _ _) trivial
  | And => exact iff_of_true (fun i _ => BitVec.getLsbD_and) trivial
  | Mul => exact iff_of_true (BitVec.toInt_mul _ _) trivial
  | Or => exact iff_of_true (fun i _ => BitVec.getLsbD_or) trivial
  | Sub => exact iff_of_true BitVec.toInt_sub trivial
  | Xor => exact iff_of_true (fun i _ => BitVec.getLsbD_xor) trivial
  | Neg => exact iff_of_true BitVec.toInt_neg trivial
  | Not => exact iff_of_true (fun i inside => by simp [VMlongNot,inside]) trivial
  | ToInt =>
    apply iff_of_true _ trivial
    change (op1.setWidth 32).toInt = op1.toInt.bmod (2^32)
    have narrower : 2^32 ∣ 2^64 := Nat.pow_dvd_pow 2 (by decide)
    rw [BitVec.toInt_setWidth,BitVec.toInt_eq_toNat_bmod,Int.bmod_bmod_of_dvd narrower]
  | Div =>
    by_cases guarded : op1 = BitVec.intMin 64 ∧ op2 = -1
    · apply iff_of_false _ (not_not_intro guarded)
      intro correct
      have undefined : VMlongDiv op1 op2 = none := if_pos (Or.inr guarded)
      unfold LongHelper.Correct at correct
      rw [undefined] at correct
      exact not_quotient_none (correct (by rw [guarded.2]; decide))
    · exact iff_of_true (fun nonzero => quotient_divide op1 op2 nonzero guarded) guarded
  | Rem =>
    by_cases guarded : op1 = BitVec.intMin 64 ∧ op2 = -1
    · apply iff_of_false _ (not_not_intro guarded)
      intro correct
      have undefined : VMlongRem op1 op2 = none := if_pos (Or.inr guarded)
      unfold LongHelper.Correct at correct
      rw [undefined] at correct
      exact not_remainder_none (correct (by rw [guarded.2]; decide))
    · exact iff_of_true (fun nonzero => remainder_remainder op1 op2 nonzero guarded) guarded
  | Ushr =>
    apply iff_of_true _ trivial
    unfold LongHelper.Correct VMlongUshr
    rw [long_distance,(shifts_defined _ low).2.2]
    exact unsigned_shifted_right op1 distance
  | Shr =>
    apply iff_of_true _ trivial
    unfold LongHelper.Correct VMlongShr
    rw [long_distance,(shifts_defined _ low).2.1]
    exact shifted_right op1 distance
  | Shl =>
    apply iff_of_true _ trivial
    unfold LongHelper.Correct VMlongShl
    rw [long_distance,(shifts_defined _ low).1]
    exact shifted_left op1 distance
  | Ltz =>
    have wrong : VMlongLtz op1 ≠ 0 ↔ op1.toInt ≤ 0 := by
      unfold VMlongLtz
      rw [int32_ne_zero,BitVec.sle_iff_toInt_le,zero]
    have right : VMlongLt op1 0 ≠ 0 ↔ op1.toInt < 0 := by
      unfold VMlongLt
      rw [int32_ne_zero,BitVec.slt_iff_toInt_lt,zero]
    have here : op1 = 0 ↔ op1.toInt = 0 := by rw [← BitVec.toInt_inj,zero]
    have either := (holds_int32 (op1.sle 0) _ Iff.rfl).1
    constructor
    · intro correct is_zero
      have same := correct.2
      rw [wrong,right] at same
      have := here.mp is_zero
      omega
    · intro nonzero
      refine ⟨either,?_⟩
      rw [wrong,right]
      have := here.not.mp nonzero
      omega
  | Gez =>
    have wrong : VMlongLtz op1 = 0 ↔ ¬ op1.toInt ≤ 0 := by
      unfold VMlongLtz
      rw [int32_eq_zero,← Bool.not_eq_true,BitVec.sle_iff_toInt_le,zero]
    have right : VMlongGez op1 ≠ 0 ↔ 0 ≤ op1.toInt := by
      unfold VMlongGez
      rw [int32_ne_zero,BitVec.sle_iff_toInt_le,zero]
    have here : op1 = 0 ↔ op1.toInt = 0 := by rw [← BitVec.toInt_inj,zero]
    have either := (holds_int32 ((0 : jlong).sle op1) _ Iff.rfl).1
    constructor
    · intro correct is_zero
      have same := correct.2
      rw [wrong,right] at same
      have := here.mp is_zero
      omega
    · intro nonzero
      refine ⟨either,?_⟩
      rw [wrong,right]
      have := here.not.mp nonzero
      omega
  | Eqz =>
    apply iff_of_true _ trivial
    apply holds_int32
    unfold VMlongEq
    rw [int32_ne_zero]
  | Eq =>
    apply iff_of_true _ trivial
    apply holds_int32
    rw [decide_eq_true_eq,BitVec.toInt_inj]
  | Ne =>
    apply iff_of_true _ trivial
    apply holds_int32
    rw [decide_eq_true_eq,ne_eq,ne_eq,BitVec.toInt_inj]
  | Ge => exact iff_of_true (holds_int32 _ _ BitVec.sle_iff_toInt_le) trivial
  | Le => exact iff_of_true (holds_int32 _ _ BitVec.sle_iff_toInt_le) trivial
  | Lt => exact iff_of_true (holds_int32 _ _ BitVec.slt_iff_toInt_lt) trivial
  | Gt => exact iff_of_true (holds_int32 _ _ BitVec.slt_iff_toInt_lt) trivial
  | Compare => exact iff_of_true (compare_sign op1 op2) trivial

-- Each helper computes what the virtual machine requires exactly where it is guarded.
theorem helpers_correct (int_helper : IntHelper) (int1 int2 : jint) (long_helper : LongHelper) (long1 long2 : jlong)
    (distance : jint) : (int_helper.Correct int1 int2 ↔ int_helper.Guarded int2) ∧
      (long_helper.Correct long1 long2 distance ↔ long_helper.Guarded long1 long2) :=
  ⟨int_helpers int_helper int1 int2,long_helpers long_helper long1 long2 distance⟩

-- Zero is not negative, an int is shifted by 32 as by 0, and the least long has a
-- quotient by minus one.
theorem helpers_incorrect : ¬ LongHelper.Ltz.Correct 0 0 0 ∧ ¬ IntHelper.Shl.Correct 1 32 ∧
    ¬ LongHelper.Div.Correct (BitVec.intMin 64) (-1) 0 := by
  refine ⟨?_,?_,?_⟩
  · exact fun correct => (long_helpers _ _ _ _).mp correct rfl
  · intro correct
    have low : (32 : jint).toNat < 32 := (int_helpers _ _ _).mp correct
    revert low
    decide
  · exact fun correct => (long_helpers _ _ _ _).mp correct ⟨rfl,rfl⟩

end IcedTea.BytecodeInterpreter

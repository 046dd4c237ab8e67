import IcedTea.Cells
import IcedTea.Ranges
import Mathlib.Logic.Function.Basic
import Mathlib.Data.Fin.Basic
import Mathlib.Data.Fintype.Basic
import Mathlib.Tactic.FinCases

namespace IcedTea

inductive Cpu where
  | ppc32 | ppc64
  deriving DecidableEq, Repr

-- Registers are numbered as their encodings. The source's own names stand for
-- the numbers, the interpreter's included.
abbrev Register := Nat
abbrev FloatRegister := Nat
abbrev ConditionRegister := Fin 8

instance ConditionRegister.ne_zero : NeZero 8 := ⟨by decide⟩

@[simp] abbrev r0 : Register := 0
@[simp] abbrev r1 : Register := 1
@[simp] abbrev r2 : Register := 2
@[simp] abbrev r3 : Register := 3
@[simp] abbrev r4 : Register := 4
@[simp] abbrev r5 : Register := 5
@[simp] abbrev r6 : Register := 6
@[simp] abbrev r7 : Register := 7
@[simp] abbrev r8 : Register := 8
@[simp] abbrev r9 : Register := 9
@[simp] abbrev r10 : Register := 10
@[simp] abbrev r11 : Register := 11
@[simp] abbrev r12 : Register := 12
@[simp] abbrev r14 : Register := 14
@[simp] abbrev r15 : Register := 15
@[simp] abbrev r16 : Register := 16
@[simp] abbrev r17 : Register := 17
@[simp] abbrev f0 : FloatRegister := 0
@[simp] abbrev f1 : FloatRegister := 1
@[simp] abbrev f14 : FloatRegister := 14
@[simp] abbrev cr0 : ConditionRegister := 0
@[simp] abbrev Rmonitor : Register := 27
@[simp] abbrev Rstate : Register := 28
@[simp] abbrev Rlocals : Register := 29
@[simp] abbrev Rmethod : Register := 30
@[simp] abbrev Rthread : Register := 31
@[simp] abbrev CRsync : ConditionRegister := 2
@[simp] abbrev CRstatic : ConditionRegister := 3

-- A condition field holds, from the high bit, less, greater, equal and overflow.
abbrev Field := Fin 16
namespace Field
instance ne_zero : NeZero 16 := ⟨by decide⟩

def of (a b : Int) : Field := if a < b then 8 else if b < a then 4 else 2
def lt (f : Field) : Prop := f.val / 8 % 2 = 1
def gt (f : Field) : Prop := f.val / 4 % 2 = 1
def eq (f : Field) : Prop := f.val / 2 % 2 = 1
instance (f : Field) : Decidable f.lt := inferInstanceAs (Decidable (_ = _))
instance (f : Field) : Decidable f.gt := inferInstanceAs (Decidable (_ = _))
instance (f : Field) : Decidable f.eq := inferInstanceAs (Decidable (_ = _))

@[simp] theorem of_lt : (of a b).lt ↔ a < b := by
  unfold of lt; split
  · simp_all
  · split <;> simp_all
@[simp] theorem of_gt : (of a b).gt ↔ b < a := by
  unfold of gt; split
  · simp; omega
  · split <;> simp_all
@[simp] theorem of_eq : (of a b).eq ↔ a = b := by
  unfold of eq; split
  · simp; omega
  · split
    · simp; omega
    · simp; omega
end Field

-- The condition register as one number, field 0 in the four high bits.
def packFields (cr : ConditionRegister → Field) : Int :=
  (cr 0).val*16^7 + (cr 1).val*16^6 + (cr 2).val*16^5 + (cr 3).val*16^4 +
    (cr 4).val*16^3 + (cr 5).val*16^2 + (cr 6).val*16 + (cr 7).val
def unpackFields (x : Int) : ConditionRegister → Field :=
  fun k => ⟨(x / 16^(7-k.val) % 16).toNat,by omega⟩

@[simp] theorem unpack_pack (cr : ConditionRegister → Field) : unpackFields (packFields cr) = cr := by
  funext k
  apply Fin.ext
  have b0 := (cr 0).isLt; have b1 := (cr 1).isLt; have b2 := (cr 2).isLt; have b3 := (cr 3).isLt
  have b4 := (cr 4).isLt; have b5 := (cr 5).isLt; have b6 := (cr 6).isLt; have b7 := (cr 7).isLt
  fin_cases k <;> simp [unpackFields,packFields] <;> omega

-- A base register and a displacement.
structure Address where
  base : Register
  displacement : Int
  deriving DecidableEq, Repr

-- Registers hold the signed value of their bit pattern. Addresses are exact
-- sums: the stack is taken not to wrap round the address space.
structure Machine where
  gpr : Register → Int
  fpr : FloatRegister → Int
  cr : ConditionRegister → Field
  lr : Int
  ctr : Int
  mem : Cells

-- The processor the templates are expanded for, and the hardware's conversions
-- between a single-precision word and the 64 bits of a floating register.
class Target where
  cpu : Cpu
  single_to_double : Int → Int
  double_to_single : Int → Int

@[reducible] def ppc32 : Target := ⟨.ppc32,id,id⟩
@[reducible] def ppc64 : Target := ⟨.ppc64,id,id⟩

variable [Target]

def wide : Bool := match Target.cpu with | .ppc32 => false | .ppc64 => true
def wordSize : Int := Cells.width wide

theorem wordSize_ppc32 (cpu : Target.cpu = .ppc32) : wordSize = 4 := by simp [wordSize,wide,cpu,Cells.width]
theorem wordSize_ppc64 (cpu : Target.cpu = .ppc64) : wordSize = 8 := by simp [wordSize,wide,cpu,Cells.width]
theorem wordSize_pos : 0 < wordSize := Cells.width_pos wide
theorem wordSize_le : wordSize ≤ 8 := by unfold wordSize Cells.width; split <;> decide

namespace Machine
def ea (m : Machine) (a : Address) : Int := m.gpr a.base + a.displacement
def set (m : Machine) (r : Register) (v : Int) : Machine := {m with gpr := Function.update m.gpr r v}
def setField (m : Machine) (c : ConditionRegister) (f : Field) : Machine :=
  {m with cr := Function.update m.cr c f}
def read (m : Machine) (a : Int) : Int := m.mem.word wide a
def write (m : Machine) (a v : Int) : Machine := {m with mem := m.mem.putWord wide a v}
def read64 (m : Machine) (a : Int) : Int := m.mem.word true a
def write64 (m : Machine) (a v : Int) : Machine := {m with mem := m.mem.putWord true a v}
-- A 32-bit load is a whole register on the small processor and is extended with
-- zeros on the large one; a halfword is one half of its cell.
def read32 (m : Machine) (a : Int) : Int := if wide then m.mem a % 2^32 else m.mem a
def write32 (m : Machine) (a v : Int) : Machine := {m with mem := m.mem.put a v}
def read16 (m : Machine) (a : Int) : Int :=
  if a % 4 = 0 then m.mem a / 2^16 % 2^16 else m.mem (a-2) % 2^16

section
omit [Target]
@[simp] theorem set_gpr (m : Machine) (r s : Register) (v : Int) :
    (m.set r v).gpr s = if s = r then v else m.gpr s := Function.update_apply ..
@[simp] theorem set_fpr (m : Machine) (r : Register) (v : Int) : (m.set r v).fpr = m.fpr := rfl
@[simp] theorem set_cr (m : Machine) (r : Register) (v : Int) : (m.set r v).cr = m.cr := rfl
@[simp] theorem set_lr (m : Machine) (r : Register) (v : Int) : (m.set r v).lr = m.lr := rfl
@[simp] theorem set_ctr (m : Machine) (r : Register) (v : Int) : (m.set r v).ctr = m.ctr := rfl
@[simp] theorem set_mem (m : Machine) (r : Register) (v : Int) : (m.set r v).mem = m.mem := rfl
@[simp] theorem setField_gpr (m : Machine) (c : ConditionRegister) (f : Field) : (m.setField c f).gpr = m.gpr := rfl
@[simp] theorem setField_fpr (m : Machine) (c : ConditionRegister) (f : Field) : (m.setField c f).fpr = m.fpr := rfl
@[simp] theorem setField_cr (m : Machine) (c d : ConditionRegister) (f : Field) :
    (m.setField c f).cr d = if d = c then f else m.cr d := Function.update_apply ..
@[simp] theorem setField_lr (m : Machine) (c : ConditionRegister) (f : Field) : (m.setField c f).lr = m.lr := rfl
@[simp] theorem setField_ctr (m : Machine) (c : ConditionRegister) (f : Field) : (m.setField c f).ctr = m.ctr := rfl
@[simp] theorem setField_mem (m : Machine) (c : ConditionRegister) (f : Field) : (m.setField c f).mem = m.mem := rfl
@[simp] theorem write32_gpr (m : Machine) (a v : Int) : (m.write32 a v).gpr = m.gpr := rfl
@[simp] theorem write64_gpr (m : Machine) (a v : Int) : (m.write64 a v).gpr = m.gpr := rfl
@[simp] theorem ea_mk (m : Machine) (b : Register) (d : Int) : m.ea ⟨b,d⟩ = m.gpr b + d := rfl
end

@[simp] theorem set_read (m : Machine) (r : Register) (v a : Int) : (m.set r v).read a = m.read a := rfl
@[simp] theorem setField_read (m : Machine) (c : ConditionRegister) (f : Field) (a : Int) :
    (m.setField c f).read a = m.read a := rfl
@[simp] theorem write_gpr (m : Machine) (a v : Int) : (m.write a v).gpr = m.gpr := rfl
@[simp] theorem write_fpr (m : Machine) (a v : Int) : (m.write a v).fpr = m.fpr := rfl
@[simp] theorem write_cr (m : Machine) (a v : Int) : (m.write a v).cr = m.cr := rfl
@[simp] theorem write_lr (m : Machine) (a v : Int) : (m.write a v).lr = m.lr := rfl
@[simp] theorem write_ctr (m : Machine) (a v : Int) : (m.write a v).ctr = m.ctr := rfl
@[simp] theorem write_mem (m : Machine) (a v : Int) : (m.write a v).mem = m.mem.putWord wide a v := rfl
end Machine

-- Sign extension of the low bits.
def extsb (x : Int) : Int := (x + 2^7) % 2^8 - 2^7
def extsh (x : Int) : Int := (x + 2^15) % 2^16 - 2^15
def extsw (x : Int) : Int := (x + 2^31) % 2^32 - 2^31
def andImmediate (x mask : Int) : Int := (((x % 2^16).toNat &&& mask.toNat : Nat) : Int)

-- The macro assembler's operations, under its names. `loadImm` is the load of a
-- constant; `compareImm` compares with one; `mpclr` moves the address of the
-- next instruction to LR.
inductive Instr where
  | loadImm (dst : Register) (value : Int)
  | load (dst : Register) (src : Address)
  | store (src : Register) (dst : Address)
  | load_indexed (dst a b : Register)
  | store_update (src : Register) (dst : Address)
  | store_update_indexed (src a b : Register)
  | lwz (dst : Register) (src : Address)
  | lwa (dst : Register) (src : Address)
  | lhz (dst : Register) (src : Address)
  | stw (src : Register) (dst : Address)
  | stwx (src a b : Register)
  | lfs (dst : FloatRegister) (src : Address)
  | stfs (src : FloatRegister) (dst : Address)
  | lfd (dst : FloatRegister) (src : Address)
  | stfd (src : FloatRegister) (dst : Address)
  | fmr (dst src : FloatRegister)
  | mr (dst src : Register)
  | la (dst : Register) (value : Address)
  | add (dst a b : Register)
  | addi (dst a : Register) (value : Int)
  | sub (dst a b : Register)
  | subi (dst a : Register) (value : Int)
  | subfic (dst a : Register) (value : Int)
  | neg (dst src : Register)
  | andi_ (dst a : Register) (mask : Int)
  | ori (dst a : Register) (mask : Int)
  | extsb (dst src : Register)
  | extsh (dst src : Register)
  | extsw (dst src : Register)
  | shift_left (dst a : Register) (count : Nat)
  | shift_right (dst a : Register) (count : Nat)
  | compare (dst : ConditionRegister) (a b : Register)
  | compareImm (dst : ConditionRegister) (a : Register) (value : Int)
  | mpclr (pc : Int)
  | mflr (dst : Register)
  | mtlr (src : Register)
  | mfctr (dst : Register)
  | mtctr (src : Register)
  | mfcr (dst : Register)
  | mtcr (src : Register)

def step (m : Machine) : Instr → Machine
  | .loadImm dst value => m.set dst value
  | .load dst src => m.set dst (m.read (m.ea src))
  | .store src dst => m.write (m.ea dst) (m.gpr src)
  | .load_indexed dst a b => m.set dst (m.read (m.gpr a + m.gpr b))
  | .store_update src dst => (m.write (m.ea dst) (m.gpr src)).set dst.base (m.ea dst)
  | .store_update_indexed src a b => (m.write (m.gpr a + m.gpr b) (m.gpr src)).set a (m.gpr a + m.gpr b)
  | .lwz dst src => m.set dst (m.read32 (m.ea src))
  | .lwa dst src => m.set dst (if wide then extsw (m.read32 (m.ea src)) else m.read32 (m.ea src))
  | .lhz dst src => m.set dst (m.read16 (m.ea src))
  | .stw src dst => m.write32 (m.ea dst) (m.gpr src)
  | .stwx src a b => m.write32 (m.gpr a + m.gpr b) (m.gpr src)
  | .stfs src dst => m.write32 (m.ea dst) (Target.double_to_single (m.fpr src))
  | .lfs dst src => {m with fpr := Function.update m.fpr dst (Target.single_to_double (m.mem (m.ea src)))}
  | .lfd dst src => {m with fpr := Function.update m.fpr dst (m.read64 (m.ea src))}
  | .stfd src dst => m.write64 (m.ea dst) (m.fpr src)
  | .fmr dst src => {m with fpr := Function.update m.fpr dst (m.fpr src)}
  | .mr dst src => m.set dst (m.gpr src)
  | .la dst value => m.set dst (m.ea value)
  | .add dst a b => m.set dst (m.gpr a + m.gpr b)
  | .addi dst a value => m.set dst (m.gpr a + value)
  | .sub dst a b => m.set dst (m.gpr a - m.gpr b)
  | .subi dst a value => m.set dst (m.gpr a - value)
  | .subfic dst a value => m.set dst (value - m.gpr a)
  | .neg dst src => m.set dst (-m.gpr src)
  | .andi_ dst a mask =>
    let v := andImmediate (m.gpr a) mask
    (m.set dst v).setField cr0 (Field.of v 0)
  | .ori dst a mask => m.set dst (m.gpr a - andImmediate (m.gpr a) mask + mask)
  | .extsb dst src => m.set dst (extsb (m.gpr src))
  | .extsh dst src => m.set dst (extsh (m.gpr src))
  | .extsw dst src => m.set dst (extsw (m.gpr src))
  | .shift_left dst a count => m.set dst (m.gpr a * 2^count)
  | .shift_right dst a count => m.set dst (m.gpr a / 2^count)
  | .compare dst a b => m.setField dst (Field.of (m.gpr a) (m.gpr b))
  | .compareImm dst a value => m.setField dst (Field.of (m.gpr a) value)
  | .mpclr pc => {m with lr := pc}
  | .mflr dst => m.set dst m.lr
  | .mtlr src => {m with lr := m.gpr src}
  | .mfctr dst => m.set dst m.ctr
  | .mtctr src => {m with ctr := m.gpr src}
  | .mfcr dst => m.set dst (packFields m.cr)
  | .mtcr src => {m with cr := unpackFields (m.gpr src)}

def exec (code : List Instr) (m : Machine) : Machine := code.foldl step m

@[simp] theorem exec_nil (m : Machine) : exec [] m = m := rfl
@[simp] theorem exec_cons (i : Instr) (code : List Instr) (m : Machine) :
    exec (i :: code) m = exec code (step m i) := rfl
@[simp] theorem exec_append (one two : List Instr) (m : Machine) :
    exec (one ++ two) m = exec two (exec one m) := by simp [exec]

-- The ranges a run of straight-line code stores to, in order.
def Instr.stores (m : Machine) : Instr → List Range
  | .store _ dst | .store_update _ dst => [(m.ea dst,wordSize)]
  | .store_update_indexed _ a b => [(m.gpr a + m.gpr b,wordSize)]
  | .stw _ dst | .stfs _ dst => [(m.ea dst,4)]
  | .stwx _ a b => [(m.gpr a + m.gpr b,4)]
  | .stfd _ dst => [(m.ea dst,8)]
  | _ => []

def stores : List Instr → Machine → List Range
  | [],_ => []
  | i :: code,m => i.stores m ++ stores code (step m i)

theorem stores_append (one two : List Instr) (m : Machine) :
    stores (one ++ two) m = stores one m ++ stores two (exec one m) := by
  induction one generalizing m with
  | nil => rfl
  | cons i code ih => simp [stores,ih]

theorem step_outside (i : Instr) (m : Machine) (outside : ∀ w ∈ i.stores m, b < w.1 ∨ w.1 + w.2 ≤ b) :
    (step m i).mem b = m.mem b := by
  cases i with
  | store src dst =>
    have apart := outside _ (List.mem_singleton_self _)
    exact Cells.putWord_outside _ _ apart
  | store_update src dst =>
    have apart := outside _ (List.mem_singleton_self _)
    exact Cells.putWord_outside _ _ apart
  | store_update_indexed src x y =>
    have apart := outside _ (List.mem_singleton_self _)
    exact Cells.putWord_outside _ _ apart
  | stw src dst =>
    have apart := outside _ (List.mem_singleton_self _)
    exact Cells.put_other _ _ (by simp only at apart; omega)
  | stfs src dst =>
    have apart := outside _ (List.mem_singleton_self _)
    exact Cells.put_other _ _ (by simp only at apart; omega)
  | stwx src x y =>
    have apart := outside _ (List.mem_singleton_self _)
    exact Cells.put_other _ _ (by simp only at apart; omega)
  | stfd src dst =>
    have apart : b < m.ea dst ∨ m.ea dst + Cells.width true ≤ b := outside _ (List.mem_singleton_self _)
    exact Cells.putWord_outside _ _ apart
  | _ => rfl

-- Code changes no cell outside the ranges it stores to.
theorem exec_outside (code : List Instr) (m : Machine)
    (outside : ∀ w ∈ stores code m, b < w.1 ∨ w.1 + w.2 ≤ b) : (exec code m).mem b = m.mem b := by
  induction code generalizing m with
  | nil => rfl
  | cons i code ih =>
    have first := step_outside i m fun w member => outside w (by simp [stores,member])
    exact (ih _ fun w member => outside w (by simp [stores,member])).trans first

end IcedTea

import IcedTea.FrameManagerPieces
import IcedTea.CallStubReturn

namespace IcedTea.CppInterpreter
open StackFrame (lr_save_offset back_chain_offset)
open Vm SharedRuntime BasicType

-- A Java value; floats and doubles are bit patterns.
inductive JavaValue where
  | void | int (v : BitVec 32) | float (v : BitVec 32) | long (v : BitVec 64) | double (v : BitVec 64) | object (v : Int)
  deriving DecidableEq, Repr

section
variable [Target]

-- The interpreter's macros, on a stack whose next free slot is topOfStack.
def STACK_INT (m : Cells) (topOfStack offset : Int) : BitVec 32 := BitVec.ofInt 32 (m (topOfStack - offset*wordSize))
def STACK_FLOAT (m : Cells) (topOfStack offset : Int) : BitVec 32 := BitVec.ofInt 32 (m (topOfStack - offset*wordSize))
def STACK_OBJECT (m : Cells) (topOfStack offset : Int) : Int := m.word wide (topOfStack - offset*wordSize)
def STACK_DOUBLE (m : Cells) (topOfStack offset : Int) : BitVec 64 := BitVec.ofInt 64 (m.word true (topOfStack - offset*wordSize))
def STACK_LONG (m : Cells) (topOfStack offset : Int) : BitVec 64 := BitVec.ofInt 64 (m.word true (topOfStack - offset*wordSize))

-- The value on top of a stack, by its type.
def on_top (t : BasicType) (m : Cells) (topOfStack : Int) : JavaValue :=
  match t with
  | T_BOOLEAN | T_CHAR | T_BYTE | T_SHORT | T_INT => .int (STACK_INT m topOfStack (-1))
  | T_FLOAT => .float (STACK_FLOAT m topOfStack (-1))
  | T_LONG => .long (STACK_LONG m topOfStack (-1))
  | T_DOUBLE => .double (STACK_DOUBLE m topOfStack (-1))
  | T_OBJECT => .object (STACK_OBJECT m topOfStack (-1))
  | _ => .void
end

section
variable [Vm]

-- generate_result_handler_for.
def result_handler : BasicType → Option (Machine → Machine)
  | T_VOID | T_LONG | T_FLOAT | T_DOUBLE => some fun m => m
  | T_BOOLEAN => some fun m =>
    let m := step m (.compareImm cr0 r3 0)
    if (m.cr cr0).eq then m else exec [.loadImm r3 1] m
  | T_CHAR => some (exec [.andi_ r3 r3 0xffff])
  | T_BYTE => some (exec [.extsb r3 r3])
  | T_SHORT => some (exec [.extsh r3 r3])
  | T_INT => some (exec (match Target.cpu with | .ppc32 => [] | .ppc64 => [.extsw r3 r3]))
  | T_OBJECT => some (exec [.load r3 (STATE .oop_temp)])
  | _ => none

-- The value of a native result: the ABI leaves the high bits of a short type
-- open, and an object was unboxed to the frame.
def native_value (t : BasicType) (m : Machine) : JavaValue :=
  match t with
  | T_BOOLEAN => .int (if m.gpr r3 = 0 then 0 else 1)
  | T_CHAR => .int ((BitVec.ofInt 16 (m.gpr r3)).zeroExtend 32)
  | T_BYTE => .int ((BitVec.ofInt 8 (m.gpr r3)).signExtend 32)
  | T_SHORT => .int ((BitVec.ofInt 16 (m.gpr r3)).signExtend 32)
  | T_INT => .int (BitVec.ofInt 32 (m.gpr r3))
  | T_FLOAT => .float (BitVec.ofInt 32 (Target.double_to_single (m.fpr f1)))
  | T_LONG => match Target.cpu with
    | .ppc32 => .long (BitVec.ofInt 32 (m.gpr r3) ++ BitVec.ofInt 32 (m.gpr r4))
    | .ppc64 => .long (BitVec.ofInt 64 (m.gpr r3))
  | T_DOUBLE => .double (BitVec.ofInt 64 (m.fpr f1))
  | T_OBJECT => .object (state m .oop_temp)
  | _ => .void

-- Pushing a result lowers Rlocals past its slots and writes no other word.
structure Pushed (t : BasicType) (value : JavaValue) (m m' : Machine) : Prop where
  locals : m'.gpr Rlocals = m.gpr Rlocals - result_words t * wordSize
  mem : Cells.SameOutside (m'.gpr Rlocals + wordSize) (m.gpr Rlocals + wordSize) m.mem m'.mem
  value : on_top t m'.mem (m'.gpr Rlocals) = value

omit [Vm] in
theorem slot_address [Target] (topOfStack : Int) : topOfStack - -1*wordSize = topOfStack + wordSize := by ring

omit [Vm] in
theorem andImmediate_char (x : Int) : andImmediate x 0xffff = x % 2^16 := by
  have digits := Nat.and_two_pow_sub_one_eq_mod (x % 2^16).toNat 16
  have mask : (0xffff : Int).toNat = 2^16-1 := rfl
  simp only [andImmediate]
  rw [mask,digits]
  omega

omit [Vm] in
theorem extended_byte (x : Int) : BitVec.ofInt 32 (extsb x) = (BitVec.ofInt 8 x).signExtend 32 := by
  rw [BitVec.signExtend,BitVec.toInt_ofInt]
  congr 1
  unfold extsb
  rw [Int.bmod_def]
  split <;> omega

omit [Vm] in
theorem extended_short (x : Int) : BitVec.ofInt 32 (extsh x) = (BitVec.ofInt 16 x).signExtend 32 := by
  rw [BitVec.signExtend,BitVec.toInt_ofInt]
  congr 1
  unfold extsh
  rw [Int.bmod_def]
  split <;> omega

omit [Vm] in
theorem extended_int (x : Int) : BitVec.ofInt 32 (extsw x) = BitVec.ofInt 32 x := by
  apply BitVec.eq_of_toNat_eq
  simp only [BitVec.toNat_ofInt]
  unfold extsw
  omega

omit [Vm] in
theorem extended_char (x : Int) : BitVec.ofInt 32 (x % 2^16) = (BitVec.ofInt 16 x).zeroExtend 32 := by
  apply BitVec.eq_of_toNat_eq
  simp only [BitVec.toNat_ofInt,BitVec.zeroExtend,BitVec.toNat_setWidth]
  omega

omit [Vm] in
theorem two_words (high low : Int) :
    BitVec.ofInt 64 (high*2^32 + low % 2^32) = BitVec.ofInt 32 high ++ BitVec.ofInt 32 low := by
  apply BitVec.eq_of_toNat_eq
  rw [BitVec.toNat_append,← Nat.shiftLeft_add_eq_or_of_lt (BitVec.isLt _),Nat.shiftLeft_eq]
  simp only [BitVec.toNat_ofInt]
  omega

-- The value in the registers of the ABI, once a short one was extended.
def register_value (t : BasicType) (m : Machine) : JavaValue :=
  match t with
  | T_BOOLEAN | T_CHAR | T_BYTE | T_SHORT | T_INT => .int (BitVec.ofInt 32 (m.gpr r3))
  | T_OBJECT => .object (m.gpr r3)
  | t => native_value t m

theorem handler_spec (t : BasicType) (handler : Machine → Machine) (found : result_handler t = some handler) (m : Machine) :
    register_value t (handler m) = native_value t m ∧ (handler m).mem = m.mem ∧ Keeps [.gpr r3,.cr cr0] m (handler m) := by
  cases t <;> simp only [result_handler,Option.some.injEq,reduceCtorEq] at found <;> subst found
  case T_BOOLEAN =>
    have test : ((step m (.compareImm cr0 r3 0)).cr cr0).eq ↔ m.gpr r3 = 0 := by simp [step]
    have field : Keeps [.cr cr0] m (step m (.compareImm cr0 r3 0)) := step_keeps (.compareImm cr0 r3 0) m
    by_cases zero : m.gpr r3 = 0
    · simp only [if_pos (test.mpr zero)]
      refine ⟨?_,rfl,field.mono (by simp)⟩
      simp only [r3] at zero
      simp [register_value,native_value,step,zero]
    · simp only [if_neg (mt test.mp zero)]
      refine ⟨?_,rfl,(field.trans (exec_keeps _ _)).mono (by simp [written,Instr.written])⟩
      simp only [r3] at zero
      simp [register_value,native_value,step,zero]
  case T_CHAR =>
    refine ⟨?_,rfl,(exec_keeps _ m).mono (by simp [written,Instr.written])⟩
    simp only [register_value,native_value,← extended_char,← andImmediate_char]
    simp [step]
  case T_BYTE =>
    refine ⟨?_,rfl,(exec_keeps _ m).mono (by simp [written,Instr.written])⟩
    simp only [register_value,native_value,← extended_byte]
    simp [step]
  case T_SHORT =>
    refine ⟨?_,rfl,(exec_keeps _ m).mono (by simp [written,Instr.written])⟩
    simp only [register_value,native_value,← extended_short]
    simp [step]
  case T_INT =>
    refine ⟨?_,?_,?_⟩
    · cases Target.cpu with
      | ppc32 => rfl
      | ppc64 =>
        simp only [register_value,native_value]
        rw [← extended_int (m.gpr r3)]
        simp [step]
    · cases Target.cpu <;> rfl
    · cases Target.cpu with
      | ppc32 => exact Keeps.refl _ m
      | ppc64 => exact (exec_keeps _ m).mono (by simp [written,Instr.written])
  case T_OBJECT =>
    refine ⟨?_,rfl,(exec_keeps _ m).mono (by simp [written,Instr.written])⟩
    simp only [register_value,native_value,← read_state m .oop_temp (by decide)]
    simp [step]
  all_goals exact ⟨rfl,rfl,Keeps.refl _ m⟩

-- One word pushed, or two.
theorem pushed_one {t : BasicType} {m m' : Machine} {value : JavaValue} (one : result_words t = 1)
    (locals : m'.gpr Rlocals = m.gpr Rlocals - wordSize)
    (mem : Cells.SameOutside (m.gpr Rlocals) (m.gpr Rlocals + wordSize) m.mem m'.mem)
    (held : on_top t m'.mem (m'.gpr Rlocals) = value) : Pushed t value m m' := by
  refine ⟨?_,?_,held⟩
  · rw [locals,one,Nat.cast_one,Int.one_mul]
  · rw [locals,Int.sub_add_cancel]
    exact mem

theorem pushed_two {t : BasicType} {m m' : Machine} {value : JavaValue} (two : result_words t = 2)
    (locals : m'.gpr Rlocals = m.gpr Rlocals - wordSize*2)
    (mem : Cells.SameOutside (m.gpr Rlocals - wordSize) (m.gpr Rlocals + wordSize) m.mem m'.mem)
    (held : on_top t m'.mem (m'.gpr Rlocals) = value) : Pushed t value m m' := by
  refine ⟨?_,?_,held⟩
  · rw [locals,two]; push_cast; ring
  · rw [locals,show m.gpr Rlocals - wordSize*2 + wordSize = m.gpr Rlocals - wordSize by ring]
    exact mem

omit [Vm] in
theorem back_two [Target] (r : Int) : r - wordSize*2 + wordSize = r - wordSize := by ring

-- A cell, a word and two words written to the slots.
omit [Vm] in
theorem same_cell [Target] (m : Cells) (a v : Int) : Cells.SameOutside a (a + wordSize) m (m.put a v) := by
  have small : 4 ≤ wordSize := by unfold wordSize Cells.width; split <;> decide
  exact fun b outside => Cells.put_other _ _ (by omega)

omit [Vm] in
theorem same_word [Target] (m : Cells) (a v : Int) : Cells.SameOutside a (a + wordSize) m (m.putWord wide a v) :=
  Cells.SameOutside.putWord _ _ (Int.le_refl _) (Int.le_refl _)

omit [Vm] in
theorem pair_ppc32 [Target] (cpu : Target.cpu = .ppc32) (m : Cells) (r high low : Int) :
    let m' := (m.putWord wide (r - wordSize) high).putWord wide r low
    Cells.SameOutside (r - wordSize) (r + wordSize) m m' ∧ m'.word true (r - wordSize) = high*2^32 + low % 2^32 := by
  have size := wordSize_ppc32 cpu
  have plain : wide = false := by simp [wide,cpu]
  simp only [plain,Cells.putWord,Bool.false_eq_true,if_false,size]
  refine ⟨fun b outside => ?_,?_⟩
  · rw [Cells.put_other _ _ (by omega),Cells.put_other _ _ (by omega)]
  · simp only [Cells.word,if_true,Int.sub_add_cancel,Cells.put_same]
    rw [Cells.put_other _ _ (by omega),Cells.put_same]

theorem tosca_pushed (t : BasicType) (m : Machine) (code : List Instr) (converter : tosca_to_stack_converter t = some code) :
    Pushed t (register_value t m) m (exec code m) := by
  cases t <;> simp only [tosca_to_stack_converter,Option.some.injEq,reduceCtorEq] at converter <;> subst converter
  case T_VOID => exact ⟨by simp [result_words],fun _ _ => rfl,rfl⟩
  case T_FLOAT =>
    refine pushed_one rfl (by simp [step]) ?_ ?_
    · simpa [step,Machine.write32] using same_cell m.mem (m.gpr Rlocals) _
    · simp [step,on_top,STACK_FLOAT,Machine.write32,register_value,native_value]
  case T_OBJECT =>
    refine pushed_one rfl (by simp [step]) ?_ ?_
    · simpa [step] using same_word m.mem (m.gpr Rlocals) (m.gpr r3)
    · simp [step,on_top,STACK_OBJECT,register_value]
  case T_DOUBLE =>
    refine pushed_two rfl (by simp [step]) ?_ ?_
    · have small : 4 ≤ wordSize := by unfold wordSize Cells.width; split <;> decide
      have wrote : (exec [.stfd f1 ⟨Rlocals,-wordSize⟩,.subi Rlocals Rlocals (wordSize*2)] m).mem =
        m.mem.putWord true (m.gpr Rlocals - wordSize) (m.fpr f1) := by simp [step,Machine.write64,Int.sub_eq_add_neg]
      rw [wrote]
      exact Cells.SameOutside.putWord _ _ (Int.le_refl _) (show _ + 8 ≤ _ by omega)
    · simp [step,on_top,STACK_DOUBLE,back_two,Machine.write64,register_value,native_value,← Int.sub_eq_add_neg]
  case T_LONG =>
    cases cpu : Target.cpu with
    | ppc32 =>
      obtain ⟨same,value⟩ := pair_ppc32 cpu m.mem (m.gpr Rlocals) (m.gpr r3) (m.gpr r4)
      refine pushed_two rfl (by simp [step]) ?_ ?_
      · simpa [step,← Int.sub_eq_add_neg] using same
      · simp only [register_value,native_value,cpu,← two_words,← value]
        simp [step,on_top,STACK_LONG,back_two,← Int.sub_eq_add_neg]
    | ppc64 =>
      have plain : wide = true := by simp [wide,cpu]
      refine pushed_two rfl (by simp [step]) ?_ ?_
      · have pos := wordSize_pos
        have same := (same_word m.mem (m.gpr Rlocals - wordSize) (m.gpr r3)).mono (Int.le_refl _)
          (show _ ≤ m.gpr Rlocals + wordSize by omega)
        simpa [step,← Int.sub_eq_add_neg] using same
      · simp [step,on_top,STACK_LONG,back_two,plain,register_value,native_value,cpu,← Int.sub_eq_add_neg]
  all_goals
    refine pushed_one rfl (by simp [step]) ?_ ?_
    · simpa [step,Machine.write32] using same_cell m.mem (m.gpr Rlocals) _
    · simp [step,on_top,STACK_INT,Machine.write32,register_value]

omit [Vm] in
theorem loaded_int [Target] (m : Machine) (a : Int) : BitVec.ofInt 32 (m.read32 a) = BitVec.ofInt 32 (m.mem a) := by
  unfold Machine.read32
  split
  · apply BitVec.eq_of_toNat_eq
    simp only [BitVec.toNat_ofInt]
    omega
  · rfl

-- A word of the returning method's stack copied to the slot.
def copy_cell : List Instr :=
  [.load r3 (STATE .stack),.lwz r0 ⟨r3,wordSize⟩,.stw r0 ⟨Rlocals,0⟩,.subi Rlocals Rlocals wordSize]

theorem copy_cell_spec (m : Machine) : let m' := exec copy_cell m
    m'.gpr Rlocals = m.gpr Rlocals - wordSize ∧
      m'.mem = m.mem.put (m.gpr Rlocals) (m.read32 (state m .stack + wordSize)) := by
  have stack : m.read (m.gpr 28 + state_offset .stack) = state m .stack := read_state m .stack (by decide)
  constructor
  · simp [copy_cell,step]
  · simp [copy_cell,step,STATE,stack,Machine.write32]
    rfl

def copy_pair : List Instr :=
  ([.load r3 (STATE .stack),.load r0 ⟨r3,wordSize⟩,.store r0 ⟨Rlocals,-wordSize⟩] : List Instr) ++
    (match Target.cpu with | .ppc32 => [.load r0 ⟨r3,wordSize*2⟩,.store r0 ⟨Rlocals,0⟩] | .ppc64 => []) ++
    ([.subi Rlocals Rlocals (wordSize*2)] : List Instr)

-- The second word is read after the first was stored.
theorem two_pushed (t : BasicType) (two : result_words t = 2) (m : Machine)
    (apart : state m .stack + 3*wordSize ≤ m.gpr Rlocals - wordSize)
    (kind : (∀ m a, on_top t m a = .long (STACK_LONG m a (-1))) ∨ (∀ m a, on_top t m a = .double (STACK_DOUBLE m a (-1)))) :
    Pushed t (on_top t m.mem (state m .stack)) m (exec copy_pair m) := by
  have stack : m.read (m.gpr 28 + state_offset .stack) = state m .stack := read_state m .stack (by decide)
  have pos := wordSize_pos
  obtain ⟨locals,same,value⟩ : (exec copy_pair m).gpr Rlocals = m.gpr Rlocals - wordSize*2 ∧
      Cells.SameOutside (m.gpr Rlocals - wordSize) (m.gpr Rlocals + wordSize) m.mem (exec copy_pair m).mem ∧
      (exec copy_pair m).mem.word true (m.gpr Rlocals - wordSize) = m.mem.word true (state m .stack + wordSize) := by
    cases cpu : Target.cpu with
    | ppc32 =>
      have size := wordSize_ppc32 cpu
      have plain : wide = false := by simp [wide,cpu]
      obtain ⟨same,value⟩ := pair_ppc32 cpu m.mem (m.gpr Rlocals) (m.read (state m .stack + wordSize)) (m.read (state m .stack + wordSize*2))
      have later : (m.mem.putWord wide (m.gpr Rlocals - wordSize) (m.read (state m .stack + wordSize))).word wide
          (state m .stack + wordSize*2) = m.read (state m .stack + wordSize*2) :=
        Cells.word_putWord_apart _ _ (.inr (show _ + wordSize ≤ _ by omega))
      have mem : (exec copy_pair m).mem = (m.mem.putWord wide (m.gpr Rlocals - wordSize) (m.read (state m .stack + wordSize))).putWord wide
          (m.gpr Rlocals) (m.read (state m .stack + wordSize*2)) := by
        simp only [Rlocals,Int.sub_eq_add_neg,Machine.read] at later stack ⊢
        simp [copy_pair,cpu,step,STATE,Machine.read,stack,later]
      refine ⟨by simp [copy_pair,cpu,step],by rw [mem]; exact same,?_⟩
      rw [mem,value]
      simp only [Machine.read,Cells.word,plain,if_true,Bool.false_eq_true,if_false,size,Int.add_assoc]
      rfl
    | ppc64 =>
      have plain : wide = true := by simp [wide,cpu]
      have mem : (exec copy_pair m).mem = m.mem.putWord wide (m.gpr Rlocals - wordSize) (m.read (state m .stack + wordSize)) := by
        simp [copy_pair,cpu,step,STATE,stack,Int.sub_eq_add_neg]
      refine ⟨by simp [copy_pair,cpu,step],?_,?_⟩
      · rw [mem]
        exact (same_word _ _ _).mono (Int.le_refl _) (by omega)
      · rw [mem,Machine.read,plain]
        exact Cells.word_putWord _ _ _
  refine pushed_two two locals same ?_
  rw [locals]
  rcases kind with kind | kind <;> rw [kind,kind] <;> simp only [STACK_LONG,STACK_DOUBLE,slot_address,back_two,value]

theorem stack_pushed (t : BasicType) (m : Machine) (code : List Instr) (converter : stack_to_stack_converter t = some code)
    (apart : state m .stack + 3*wordSize ≤ m.gpr Rlocals - wordSize) :
    Pushed t (on_top t m.mem (state m .stack)) m (exec code m) := by
  have stack : m.read (m.gpr 28 + state_offset .stack) = state m .stack := read_state m .stack (by decide)
  have cell : ∀ t, result_words t = 1 →
      (∀ m a, on_top t m a = .int (STACK_INT m a (-1))) ∨ (∀ m a, on_top t m a = .float (STACK_FLOAT m a (-1))) →
      Pushed t (on_top t m.mem (state m .stack)) m (exec copy_cell m) := by
    intro t one kind
    obtain ⟨locals,mem⟩ := copy_cell_spec m
    refine pushed_one one locals (by rw [mem]; exact same_cell _ _ _) ?_
    rw [locals,mem]
    have value : BitVec.ofInt 32 (m.mem.put (m.gpr Rlocals) (m.read32 (state m .stack + wordSize)) (m.gpr Rlocals)) =
        BitVec.ofInt 32 (m.mem (state m .stack + wordSize)) := by rw [Cells.put_same,loaded_int]
    rcases kind with kind | kind <;> rw [kind,kind] <;> simpa [STACK_INT,STACK_FLOAT] using value
  cases t <;> simp only [stack_to_stack_converter,Option.some.injEq,reduceCtorEq] at converter <;> subst converter
  case T_VOID => exact ⟨by simp [result_words],fun _ _ => rfl,rfl⟩
  case T_FLOAT => exact cell T_FLOAT rfl (.inr fun _ _ => rfl)
  case T_OBJECT =>
    refine pushed_one rfl (by simp [step]) ?_ ?_
    · simpa [step,STATE,stack] using same_word m.mem (m.gpr Rlocals) (m.read (state m .stack + wordSize))
    · simp [step,on_top,STACK_OBJECT,STATE,stack]
      rfl
  case T_LONG => exact two_pushed T_LONG rfl m apart (.inl fun _ _ => rfl)
  case T_DOUBLE => exact two_pushed T_DOUBLE rfl m apart (.inr fun _ _ => rfl)
  case T_BOOLEAN => exact cell T_BOOLEAN rfl (.inl fun _ _ => rfl)
  case T_CHAR => exact cell T_CHAR rfl (.inl fun _ _ => rfl)
  case T_BYTE => exact cell T_BYTE rfl (.inl fun _ _ => rfl)
  case T_SHORT => exact cell T_SHORT rfl (.inl fun _ _ => rfl)
  case T_INT => exact cell T_INT rfl (.inl fun _ _ => rfl)

-- The value in the registers of the ABI at a return to the initial caller.
def returned_value (t : BasicType) (m : Machine) : JavaValue :=
  match t with
  | T_BOOLEAN | T_CHAR | T_BYTE | T_SHORT | T_INT => .int (BitVec.ofInt 32 (m.gpr r3))
  | T_LONG => match Target.cpu with
    | .ppc32 => .long (BitVec.ofInt 32 (m.gpr r3) ++ BitVec.ofInt 32 (m.gpr r4))
    | .ppc64 => .long (BitVec.ofInt 64 (m.gpr r3))
  | T_OBJECT => .object (m.gpr r3)
  | _ => .void

-- The result types of the call stub, and the methods' types they stand for.
def stub_type : BasicType → Option BasicType
  | T_BOOLEAN | T_CHAR | T_BYTE | T_SHORT | T_INT => some T_INT
  | T_LONG => some T_LONG
  | T_OBJECT => some T_OBJECT
  | _ => none

omit [Vm] in
theorem stub_type_cases (handled : stub_type t = some s) : s = T_INT ∨ s = T_LONG ∨ s = T_OBJECT := by
  cases t <;> simp only [stub_type,reduceCtorEq,Option.some.injEq] at handled <;> subst handled <;> decide

theorem native_abi_spec (t : BasicType) (m : Machine) (code : List Instr) (converter : stack_to_native_abi_converter t = some code)
    (handled : stub_type t = some s) : returned_value t (exec code m) = on_top t m.mem (state m .stack) ∧ (exec code m).mem = m.mem := by
  have stack : m.read (m.gpr 28 + state_offset .stack) = state m .stack := read_state m .stack (by decide)
  have int : BitVec.ofInt 32 ((exec [.load r5 (STATE .stack),.lwa r3 ⟨r5,wordSize⟩] m).gpr r3) = STACK_INT m.mem (state m .stack) (-1) := by
    have loaded : (exec [.load r5 (STATE .stack),.lwa r3 ⟨r5,wordSize⟩] m).gpr r3 =
        if wide then extsw (m.read32 (state m .stack + wordSize)) else m.read32 (state m .stack + wordSize) := by
      simp [step,STATE,stack]
      rfl
    rw [loaded,STACK_INT,slot_address]
    split
    · rw [extended_int,loaded_int]
    · rw [loaded_int]
  cases t <;> simp only [stub_type,reduceCtorEq] at handled <;>
    simp only [stack_to_native_abi_converter,Option.some.injEq] at converter <;> subst converter
  case T_LONG =>
    cases cpu : Target.cpu with
    | ppc32 =>
      have size := wordSize_ppc32 cpu
      have plain : wide = false := by simp [wide,cpu]
      refine ⟨?_,rfl⟩
      simp only [returned_value,cpu,on_top,STACK_LONG,slot_address,← two_words]
      simp only [Machine.read,plain,Cells.word,Bool.false_eq_true,if_false] at stack
      simp [step,STATE,Machine.read,plain,stack,Cells.word,size,Int.add_assoc]
    | ppc64 =>
      have plain : wide = true := by simp [wide,cpu]
      refine ⟨?_,rfl⟩
      simp only [returned_value,cpu,on_top,STACK_LONG,slot_address]
      simp only [Machine.read,plain] at stack
      simp [step,STATE,Machine.read,plain,stack]
  case T_OBJECT =>
    refine ⟨?_,rfl⟩
    simp only [returned_value,on_top,STACK_OBJECT,slot_address]
    simp [step,STATE,stack]
    rfl
  all_goals exact ⟨congrArg JavaValue.int int,rfl⟩
end

variable [StubRoutines]
open StubGenerator StubRoutines

-- The value at the result address, by the stub's result type.
def at_result (s : BasicType) (m : Cells) (result : Int) : JavaValue :=
  match s with
  | T_INT => .int (BitVec.ofInt 32 (m result))
  | T_LONG => .long (BitVec.ofInt 64 (m.word true result))
  | T_OBJECT => .object (m.word wide result)
  | _ => .void

theorem result_type_test {m : Machine} {s u : BasicType} (loaded : m.gpr r5 = type_code s) :
    ((step m (.compareImm cr0 r5 (type_code u))).cr cr0).eq ↔ s = u := by
  simp only [r5] at loaded
  simp only [step,Machine.setField_cr,if_true,Field.of_eq,r5,loaded]
  exact ⟨fun equal => type_code_apart _ _ equal,fun equal => by rw [equal]⟩

-- What the stub stores is the value in the registers it was given.
theorem store_result_spec (t : BasicType) (m : Machine) (handled : stub_type t = some s)
    (type : m.read (m.gpr r11 + ((initial_offset+2 : Nat) : Int)*wordSize) = type_code s) :
    ∃ m', store_result m = some m' ∧
      at_result s m'.mem (m.read (m.gpr r11 + ((initial_offset+1 : Nat) : Int)*wordSize)) = returned_value t m := by
  obtain ⟨m₁,code,mem,address,loaded,three,four⟩ : ∃ m₁, exec (restore_slots [.result,.result_type] (initial_offset+1)) m = m₁ ∧
      m₁.mem = m.mem ∧ m₁.gpr r6 = m.read (m.gpr r11 + ((initial_offset+1 : Nat) : Int)*wordSize) ∧ m₁.gpr r5 = type_code s ∧
      m₁.gpr r3 = m.gpr r3 ∧ m₁.gpr r4 = m.gpr r4 := by
    refine ⟨_,rfl,rfl,by simp [restore_slots,Slot.restore,Slot.at_,step],?_,by simp [restore_slots,Slot.restore,step],
      by simp [restore_slots,Slot.restore,step]⟩
    rw [← type]
    simp [restore_slots,Slot.restore,Slot.at_,step,Int.add_assoc]
  rw [← address]
  unfold store_result
  simp only [code]
  have value : returned_value t m = returned_value t m₁ := by
    cases t <;> simp only [returned_value,three,four]
  rw [value]
  let m₂ := step m₁ (.compareImm cr0 r5 (type_code T_INT))
  let m₃ := step m₂ (.compareImm cr0 r5 (type_code T_LONG))
  have int := result_type_test (u := T_INT) loaded
  have long := result_type_test (m := m₂) (u := T_LONG) loaded
  have object := result_type_test (m := m₃) (u := T_OBJECT) loaded
  cases t <;> simp only [stub_type,Option.some.injEq,reduceCtorEq] at handled <;> subst handled
  case T_LONG =>
    rw [if_neg (mt int.mp (by decide)),if_pos (long.mpr rfl)]
    refine ⟨_,rfl,?_⟩
    cases cpu : Target.cpu with
    | ppc32 =>
      have size := wordSize_ppc32 cpu
      have plain : wide = false := by simp [wide,cpu]
      simp only [at_result,returned_value,cpu,← two_words]
      simp [store_long,cpu,step,plain,Cells.putWord,Cells.word,size,Cells.put]
    | ppc64 =>
      have plain : wide = true := by simp [wide,cpu]
      simp [at_result,returned_value,store_long,cpu,step,plain]
  case T_OBJECT =>
    rw [if_neg (mt int.mp (by decide)),if_neg (mt long.mp (by decide)),if_pos (object.mpr rfl)]
    refine ⟨_,rfl,?_⟩
    simp [at_result,returned_value,store_object,step]
  all_goals
    rw [if_pos (int.mpr rfl)]
    refine ⟨_,rfl,?_⟩
    simp [at_result,returned_value,store_int,step,Machine.write32]

-- The types of methods whose results the call stub stores.
def stub_types : List BasicType := [T_BOOLEAN,T_CHAR,T_BYTE,T_SHORT,T_INT,T_LONG,T_OBJECT]

-- A result survives its handler and the push, the push from a returning
-- method's stack, and the way out through the stub.
theorem results_survive (t : BasicType) (m : Machine) :
    (((result_handler t).isSome ↔ t ∈ result_types) ∧ ((tosca_to_stack_converter t).isSome ↔ t ∈ result_types) ∧
      ((stack_to_stack_converter t).isSome ↔ t ∈ result_types) ∧ ((stack_to_native_abi_converter t).isSome ↔ t ∈ result_types) ∧
      ((stub_type t).isSome ↔ t ∈ stub_types)) ∧
    (∀ handler code, result_handler t = some handler → tosca_to_stack_converter t = some code →
      Pushed t (native_value t m) m (exec code (handler m))) ∧
    (∀ code, stack_to_stack_converter t = some code → state m .stack + 3*wordSize ≤ m.gpr Rlocals - wordSize →
      Pushed t (on_top t m.mem (state m .stack)) m (exec code m)) ∧
    ∀ code s, stack_to_native_abi_converter t = some code → stub_type t = some s →
      let m₁ := exec unwind_interpreter_state (exec code m)
      let locals := m₁.read (m₁.gpr r1) - final_offset*wordSize
      m₁.read (m₁.gpr Rthread + pending_exception_offset) = 0 →
      m₁.read (locals + ((initial_offset+2 : Nat) : Int)*wordSize) = type_code s →
      ∃ m', call_stub_return m₁ = some m' ∧
        at_result s m'.mem (m₁.read (locals + ((initial_offset+1 : Nat) : Int)*wordSize)) = on_top t m.mem (state m .stack) := by
  refine ⟨by cases t <;>
      simp [result_handler,tosca_to_stack_converter,stack_to_stack_converter,stack_to_native_abi_converter,stub_type,result_types,stub_types],
    fun handler code found converter => ?_,fun code converter apart => stack_pushed t m code converter apart,
    fun code s converter handled => ?_⟩
  · obtain ⟨value,mem,kept⟩ := handler_spec t handler found m
    have pushed := tosca_pushed t (handler m) code converter
    have locals : (handler m).gpr Rlocals = m.gpr Rlocals := kept.gpr Rlocals (by simp)
    refine ⟨?_,?_,?_⟩
    · rw [← locals]; exact pushed.locals
    · rw [← locals,← mem]; exact pushed.mem
    · rw [← value]; exact pushed.value
  · intro m₁ locals no_exception type
    obtain ⟨value,mem⟩ := native_abi_spec t m code converter handled
    obtain ⟨_,_,_,unwound,kept⟩ := unwind_spec (exec code m)
    let m₂ := exec (find_locals ++ [.load r0 ⟨Rthread,pending_exception_offset⟩,.compareImm cr0 r0 0]) m₁
    have found : m₂.gpr r11 = locals := by simp [m₂,locals,find_locals,step]
    have none : (m₂.cr cr0).eq := by
      simp only [Rthread] at no_exception
      simp [m₂,find_locals,step,no_exception]
    have three : m₂.gpr r3 = (exec code m).gpr r3 := by
      rw [← kept.gpr r3 (by simp)]; simp [m₂,find_locals,step]; rfl
    have four : m₂.gpr r4 = (exec code m).gpr r4 := by
      rw [← kept.gpr r4 (by simp)]; simp [m₂,find_locals,step]; rfl
    have same : m₂.mem = m₁.mem := rfl
    obtain ⟨m₃,stored,read⟩ := store_result_spec t m₂ handled (by rw [found]; exact type)
    have returned : returned_value t m₂ = returned_value t (exec code m) := by
      cases t <;> simp only [returned_value,three,four]
    refine ⟨exec (restore_registers ++ unwind) m₃,?_,?_⟩
    · change (if (m₂.cr cr0).eq then store_result m₂ else some m₂).map _ = _
      rw [if_pos none,stored]
      rfl
    · rw [returned,value,found] at read
      rw [exec_append,← read]
      have restored : (exec unwind (exec restore_registers m₃)).mem = m₃.mem := (restore_registers_spec m₃).2.2.2.1
      rw [restored]
      rfl

omit [StubRoutines] in
-- A byte with its high bits open, and a long from a returning method.
theorem results_survive_byte_long : letI := StubRoutines.plain ppc32
    let m : Machine := ⟨fun r => if r = r3 then 0x1ff else if r = Rlocals then 1024 else 0,fun _ => 0,fun _ => 0,0,0,fun _ => 3⟩
    Pushed T_BYTE (.int (-1)) m (exec [.stw r3 ⟨Rlocals,0⟩,.subi Rlocals Rlocals wordSize] (exec [.extsb r3 r3] m)) ∧
      ∀ code, stack_to_stack_converter T_LONG = some code → Pushed T_LONG (.long 0x300000003#64) m (exec code m) := by
  let := StubRoutines.plain ppc32
  intro m
  have byte := (results_survive T_BYTE m).2.1 _ _ rfl rfl
  refine ⟨byte,fun code converter => ?_⟩
  have long := (results_survive T_LONG m).2.2.1 code converter (by decide)
  exact long

end IcedTea.CppInterpreter

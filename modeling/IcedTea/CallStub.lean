import IcedTea.InterpreterState
import IcedTea.JavaCallingConvention

namespace IcedTea

-- What the stub takes from elsewhere: the number of each basic type, and the
-- address its own call returns to.
class StubRoutines extends Vm where
  type_code : SharedRuntime.BasicType → Int
  type_code_apart : ∀ s t, type_code s = type_code t → s = t
  call_stub_return_address : Int

@[reducible] def StubRoutines.plain (target : Target) : StubRoutines :=
  {Vm.plain target with
    type_code := fun t => t.ctorIdx
    type_code_apart := by intro s t same; cases s <;> cases t <;> first | rfl | (simp [SharedRuntime.BasicType.ctorIdx] at same)
    call_stub_return_address := 1}

namespace StubGenerator
open StackFrame (lr_save_offset cr_save_offset back_chain_offset StackAlignmentInBytes max_crfs max_gprs)
open CppInterpreter (LogBytesPerWord bdnz bdnz_loop)
open Vm StubRoutines SharedRuntime.BasicType

section
variable [Target]

-- Every condition field and register is handed out.
def call_stub_frame : StackFrame := {crfs := max_crfs,gprs := max_gprs}

-- The three words are for call_wrapper, result and result_type.
def call_stub_base_size : Int := call_stub_frame.unaligned_size + 3*wordSize

-- What is stored above the parameters, upwards from `initial_offset`.
inductive Slot where
  | call_wrapper | result | result_type | cr | gpr (r : Register)
  deriving DecidableEq, Repr

def initial_offset : Nat := 1

def cr_slots : List Slot := match Target.cpu with | .ppc32 => [.cr] | .ppc64 => []
def gpr_slots : List Slot := (List.range' 14 18).map .gpr
def slots : List Slot := [.call_wrapper,.result,.result_type] ++ cr_slots ++ gpr_slots

def final_offset : Nat := initial_offset + slots.length
def call_wrapper_offset : Int := ((final_offset - initial_offset : Nat) : Int)*wordSize

-- The code by its comments. The address of the locals is in r11.
def calculate_frame_size : List Instr :=
  [.shift_left r9 r9 LogBytesPerWord,.addi r11 r9 call_stub_base_size] ++
    calc_padding_for_alignment r12 r11 StackAlignmentInBytes ++ [.add r11 r11 r12]

def create_frame : List Instr :=
  [.mflr r0,.store r0 ⟨r1,lr_save_offset*wordSize⟩,.neg r0 r11,.store_update_indexed r1 r1 r0] ++
  match Target.cpu with
  | .ppc32 => []
  | .ppc64 => [.mfcr r0,.store r0 ⟨r1,cr_save_offset*wordSize⟩]

def calculate_locals : List Instr :=
  [.addi r11 r1 (call_stub_frame.start_of_locals - wordSize),.add r11 r11 r12,.add r11 r11 r9]

namespace Slot
def at_ (offset : Nat) : Address := ⟨r11,offset*wordSize⟩
def save (offset : Nat) : Slot → List Instr
  | call_wrapper => [.store r3 (at_ offset)]
  | result => [.store r4 (at_ offset)]
  | result_type => [.store r5 (at_ offset)]
  | cr => [.mfcr r0,.store r0 (at_ offset)]
  | gpr r => [.store r (at_ offset)]
def restore (offset : Nat) : Slot → List Instr
  | call_wrapper => []
  | result => [.load r6 (at_ offset)]
  | result_type => [.load r5 (at_ offset)]
  | cr => [.load r0 (at_ offset),.mtcr r0]
  | gpr r => [.load r (at_ offset)]
end Slot

def save_slots : List Slot → Nat → List Instr
  | [],_ => []
  | s :: rest,offset => s.save offset ++ save_slots rest (offset+1)
def restore_slots : List Slot → Nat → List Instr
  | [],_ => []
  | s :: rest,offset => s.restore offset ++ restore_slots rest (offset+1)

def store_registers : List Instr := save_slots slots initial_offset

def copy_word : List Instr := [.load r0 ⟨r8,0⟩,.store r0 ⟨r12,0⟩,.addi r8 r8 wordSize,.subi r12 r12 wordSize]

def pass_parameters (m : Machine) : Machine :=
  let m := step m (.compareImm cr0 r9 0)
  if (m.cr cr0).gt then
    bdnz_loop copy_word (exec [.mr r12 r11,.shift_right r0 r9 LogBytesPerWord,.mtctr r0] m)
  else m

def make_call : List Instr := [.mr Rmethod r6,.mr Rlocals r11,.mr Rthread r10,.mtctr r7]

def save_caller : List Instr := calculate_frame_size ++ create_frame ++ calculate_locals ++ store_registers

-- The way back.
def find_locals : List Instr := [.load r11 ⟨r1,0⟩,.subi r11 r11 (final_offset*wordSize)]

def store_int : List Instr := [.stw r3 ⟨r6,0⟩]
def store_long : List Instr :=
  (match Target.cpu with | .ppc32 => [.store r4 ⟨r6,wordSize⟩] | .ppc64 => []) ++ [.store r3 ⟨r6,0⟩]
def store_object : List Instr := [.store r3 ⟨r6,0⟩]

def restore_registers : List Instr :=
  restore_slots (cr_slots ++ gpr_slots) (initial_offset+3) ++
  match Target.cpu with
  | .ppc32 => []
  | .ppc64 => [.load r0 ⟨r1,cr_save_offset*wordSize⟩,.mtcr r0]

def unwind : List Instr := [.load r1 ⟨r1,back_chain_offset*wordSize⟩,.load r0 ⟨r1,lr_save_offset*wordSize⟩,.mtlr r0]
end

variable [StubRoutines]

-- Up to the branch to the entry point in CTR.
def call_stub_call (m : Machine) : Machine :=
  {exec make_call (pass_parameters (exec save_caller m)) with lr := call_stub_return_address}

-- No other type is expected.
def store_result (m : Machine) : Option Machine :=
  let m := exec (restore_slots [.result,.result_type] (initial_offset+1)) m
  let m := step m (.compareImm cr0 r5 (type_code T_INT))
  if (m.cr cr0).eq then some (exec store_int m) else
    let m := step m (.compareImm cr0 r5 (type_code T_LONG))
    if (m.cr cr0).eq then some (exec store_long m) else
      let m := step m (.compareImm cr0 r5 (type_code T_OBJECT))
      if (m.cr cr0).eq then some (exec store_object m) else none

def call_stub_return (m : Machine) : Option Machine :=
  let m := exec (find_locals ++ [.load r0 ⟨Rthread,pending_exception_offset⟩,.compareImm cr0 r0 0]) m
  let stored := if (m.cr cr0).eq then store_result m else some m
  stored.map fun m => exec (restore_registers ++ unwind) m

end StubGenerator
end IcedTea

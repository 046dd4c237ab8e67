import IcedTea.CallersStack
import IcedTea.MoreMonitors
import IcedTea.JavaCallingConvention

namespace IcedTea.CppInterpreter
open StackFrame (lr_save_offset back_chain_offset)
open Vm SharedRuntime BasicType

-- The instructions after calls, by the address that LR or the frame anchor
-- gets for them.
inductive Site where
  | call_interpreter | interpreter_returned | callee_returned | result_converted
  deriving DecidableEq, Repr

-- Addresses in the code cache and of C++ functions.
class Code extends Vm where
  RecursiveInterpreterActivation : Int
  normal_entry : Int
  site : Site → Int
  tosca_to_stack : Int
  stack_to_stack : Int
  stack_to_native_abi : Int

-- The order in which the converter arrays are indexed.
def BasicType_as_index : BasicType → Option Nat
  | T_BOOLEAN => some 0
  | T_CHAR => some 1
  | T_BYTE => some 2
  | T_SHORT => some 3
  | T_INT => some 4
  | T_LONG => some 5
  | T_VOID => some 6
  | T_FLOAT => some 7
  | T_DOUBLE => some 8
  | T_OBJECT | T_ARRAY => some 9
  | _ => none

def result_types : List BasicType := [T_BOOLEAN,T_CHAR,T_BYTE,T_SHORT,T_INT,T_LONG,T_VOID,T_FLOAT,T_DOUBLE,T_OBJECT]

example : ∀ t ∈ result_types, (BasicType_as_index t).bind (result_types[·]?) = some t := by decide

def result_words : BasicType → Nat
  | T_VOID => 0
  | T_LONG | T_DOUBLE => 2
  | _ => 1

section
variable [Vm]

-- The result is in the registers of the native ABI and is pushed on the
-- caller's expression stack.
def tosca_to_stack_converter : BasicType → Option (List Instr)
  | T_VOID => some []
  | T_BOOLEAN | T_CHAR | T_BYTE | T_SHORT | T_INT => some [.stw r3 ⟨Rlocals,0⟩,.subi Rlocals Rlocals wordSize]
  | T_LONG => some <|
    [.store r3 ⟨Rlocals,-wordSize⟩] ++
    (match Target.cpu with | .ppc32 => [.store r4 ⟨Rlocals,0⟩] | .ppc64 => []) ++
    [.subi Rlocals Rlocals (wordSize*2)]
  | T_FLOAT => some [.stfs f1 ⟨Rlocals,0⟩,.subi Rlocals Rlocals wordSize]
  | T_DOUBLE => some [.stfd f1 ⟨Rlocals,-wordSize⟩,.subi Rlocals Rlocals (wordSize*2)]
  | T_OBJECT => some [.store r3 ⟨Rlocals,0⟩,.subi Rlocals Rlocals wordSize]
  | _ => none

-- The result is on top of the expression stack of the method that returned.
def stack_to_stack_converter : BasicType → Option (List Instr)
  | T_VOID => some []
  | T_BOOLEAN | T_CHAR | T_BYTE | T_SHORT | T_INT | T_FLOAT => some
    [.load r3 (STATE .stack),.lwz r0 ⟨r3,wordSize⟩,.stw r0 ⟨Rlocals,0⟩,.subi Rlocals Rlocals wordSize]
  | T_LONG | T_DOUBLE => some <|
    [.load r3 (STATE .stack),.load r0 ⟨r3,wordSize⟩,.store r0 ⟨Rlocals,-wordSize⟩] ++
    (match Target.cpu with | .ppc32 => [.load r0 ⟨r3,wordSize*2⟩,.store r0 ⟨Rlocals,0⟩] | .ppc64 => []) ++
    [.subi Rlocals Rlocals (wordSize*2)]
  | T_OBJECT => some [.load r3 (STATE .stack),.load r0 ⟨r3,wordSize⟩,.store r0 ⟨Rlocals,0⟩,.subi Rlocals Rlocals wordSize]
  | _ => none

def stack_to_native_abi_converter : BasicType → Option (List Instr)
  | T_VOID => some []
  | T_BOOLEAN | T_CHAR | T_BYTE | T_SHORT | T_INT => some [.load r5 (STATE .stack),.lwa r3 ⟨r5,wordSize⟩]
  | T_LONG => some <|
    [.load r5 (STATE .stack),.load r3 ⟨r5,wordSize⟩] ++
    (match Target.cpu with | .ppc32 => [.load r4 ⟨r5,wordSize*2⟩] | .ppc64 => [])
  | T_FLOAT => some [.load r5 (STATE .stack),.lfs f1 ⟨r5,wordSize⟩]
  | T_DOUBLE => some [.load r5 (STATE .stack),.lfd f1 ⟨r5,wordSize⟩]
  | T_OBJECT => some [.load r5 (STATE .stack),.load r3 ⟨r5,wordSize⟩]
  | _ => none
end

variable [Code]
open Code

-- The converter array has the converter of the type at the type's index.
def result_type (m : Machine) : Option BasicType := result_types[(m.read32 (m.ea ⟨Rmethod,result_index_offset⟩)).toNat]?

def convert_result (converter_array : Int) (converter : BasicType → Option (List Instr)) (m : Machine) : Option Machine :=
  let m := exec [.loadImm r5 converter_array,.lwz r0 ⟨Rmethod,result_index_offset⟩,.shift_left r0 r0 LogBytesPerWord,
    .load_indexed r0 r5 r0,.mtctr r0] m
  let m := {m with lr := site .result_converted}
  ((result_type m).bind converter).map fun code => exec code m

-- The frame manager of generate_normal_entry, label by label. Control leaves a
-- piece of it for the interpreter, for a callee that is not interpreted or,
-- with blr, for the caller.
inductive Control where
  | call_interpreter (m : Machine)
  | call_non_interpreted_method (m : Machine)
  | blr (m : Machine)

def re_dispatch (m : Machine) : Machine := compute_interpreter_state false (adjust_callers_stack m)

def start (m : Machine) : Machine := re_dispatch (exec [.loadImm Rstate 0] m)

def set_last_Java_frame (pc : Int) : List Instr :=
  [.mpclr pc,.mflr r0,.store r0 ⟨Rthread,last_Java_pc_offset⟩,.store r1 ⟨Rthread,last_Java_sp_offset⟩]
def reset_last_Java_frame : List Instr := [.loadImm r0 0,.store r0 ⟨Rthread,last_Java_sp_offset⟩]
def fixup_after_potential_safepoint : List Instr := [.load Rmethod (STATE .method)]

-- Up to the interpreter's entry, and from its return to the message in r4.
def call_interpreter (m : Machine) : Machine :=
  {exec (set_last_Java_frame (site .call_interpreter) ++ [.mr r3 Rstate]) m with lr := site .interpreter_returned}
def interpreter_returned : List Instr :=
  fixup_after_potential_safepoint ++ reset_last_Java_frame ++ [.lwz r4 (STATE .msg)]

-- The message is compared with the requests in turn. No other is expected.
def requests : List Message := [.call_method,.return_from_method,.more_monitors,.throwing_exception]

def examine_message : List Message → Machine → Option (Message × Machine)
  | [],_ => none
  | x :: rest,m =>
    let m := step m (.compareImm cr0 r4 (message x))
    if (m.cr cr0).eq then some (x,m) else examine_message rest m

def prepare_call : List Instr :=
  [.load Rmethod (STATE .callee),
   .load Rlocals (STATE .stack),
   .lhz r0 size_of_parameters_addr,
   .shift_left r0 r0 LogBytesPerWord,
   .add Rlocals Rlocals r0,
   .load r0 (STATE .callee_entry_point),
   .loadImm r3 normal_entry,
   .compare cr0 r0 r3]

def call_interpreted_method (m : Machine) : Machine :=
  re_dispatch (exec [.loadImm r0 RecursiveInterpreterActivation,.mtlr r0] m)

def call_method (m : Machine) : Control :=
  let m := exec prepare_call m
  if (m.cr cr0).eq then .call_interpreter (call_interpreted_method m)
  else .call_non_interpreted_method {exec [.mtctr r0] m with lr := site .callee_returned}

def resume_interpreter : List Instr :=
  [.store Rlocals (STATE .stack),
   .load Rlocals (STATE .locals),
   .load Rmethod (STATE .method),
   .loadImm r0 (message .method_resume),
   .stw r0 (STATE .msg)]

def return_with_exception (m : Machine) : Control :=
  let m := exec [.compareImm cr0 Rstate 0] m
  if (m.cr cr0).eq then .blr m else .call_interpreter (exec resume_interpreter m)

-- From the return of a callee that is not interpreted to the branch on a
-- pending exception.
def restore_state : List Instr :=
  [.load Rstate ⟨r1,back_chain_offset*wordSize⟩,
   .subi Rstate Rstate sizeof_BytecodeInterpreter,
   .load r0 ⟨Rthread,pending_exception_offset⟩,
   .compareImm cr0 r0 0]

def callee_returned (m : Machine) : Option Control :=
  let m := exec restore_state m
  if (m.cr cr0).eq then
    (convert_result tosca_to_stack tosca_to_stack_converter m).map fun m => .call_interpreter (exec resume_interpreter m)
  else some (return_with_exception m)

def test_prev_link : List Instr := [.load r0 (STATE .prev_link),.compareImm cr0 r0 0]

def return_from_method (m : Machine) : Option Control :=
  let m := exec test_prev_link m
  if (m.cr cr0).eq then
    (convert_result stack_to_native_abi stack_to_native_abi_converter m).map fun m => .blr (exec unwind_interpreter_state m)
  else
    (convert_result stack_to_stack stack_to_stack_converter m).map fun m =>
      .call_interpreter (exec resume_interpreter (exec unwind_interpreter_state m))

def got_monitors (m : Machine) : Option Machine :=
  (more_monitors m).map (exec [.loadImm r0 (message .got_monitors),.stw r0 (STATE .msg)])

def throwing_exception (m : Machine) : Control := return_with_exception (exec unwind_interpreter_state m)

def handle_message : Message → Machine → Option Control
  | .call_method,m => some (call_method m)
  | .return_from_method,m => return_from_method m
  | .more_monitors,m => (got_monitors m).map .call_interpreter
  | .throwing_exception,m => some (throwing_exception m)
  | _,_ => none

end IcedTea.CppInterpreter

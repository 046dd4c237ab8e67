import IcedTea.Machine

namespace IcedTea

-- The fields of BytecodeInterpreter that generated code touches; `callee` and
-- `callee_entry_point` are the two of `_result._to_call`.
inductive StateField where
  | thread | bcp | locals | constants | method | mdx | stack | msg | oop_temp
  | stack_base | stack_limit | monitor_base | prev_link | self_link | callee | callee_entry_point
  deriving DecidableEq, Repr

def StateField.bytes [Target] (f : StateField) : Int := if f = .msg then 4 else wordSize

-- What the frame manager and the interpreter tell each other.
inductive Message where
  | method_entry | method_resume | got_monitors | call_method | return_from_method | more_monitors | throwing_exception
  deriving DecidableEq, Repr

-- The layouts the C++ compiler chooses. Nothing is known of them but that the
-- fields of a state object, and of a monitor, are inside it and apart.
class Vm extends Target where
  state_offset : StateField → Int
  sizeof_BytecodeInterpreter : Int
  state_inside : ∀ f, 0 ≤ state_offset f ∧ state_offset f + f.bytes ≤ sizeof_BytecodeInterpreter
  state_apart : ∀ f g, f ≠ g → state_offset f + f.bytes ≤ state_offset g ∨ state_offset g + g.bytes ≤ state_offset f
  message : Message → Int
  message_apart : ∀ x y, message x = message y → x = y
  interpreter_frame_monitor_size : Nat
  obj_offset_in_bytes : Int
  lock_offset_in_bytes : Int
  displaced_header_offset_in_bytes : Int
  obj_inside : 0 ≤ obj_offset_in_bytes ∧ obj_offset_in_bytes + wordSize ≤ interpreter_frame_monitor_size * wordSize
  max_stack_offset : Int
  size_of_parameters_offset : Int
  size_of_locals_offset : Int
  access_flags_offset : Int
  const_offset : Int
  codes_offset : Int
  constants_offset : Int
  cache_offset_in_bytes : Int
  pool_holder_offset_in_bytes : Int
  klass_part_offset_in_bytes : Int
  java_mirror_offset_in_bytes : Int
  result_index_offset : Int
  signature_handler_offset : Int
  native_function_offset : Int
  last_Java_sp_offset : Int
  last_Java_pc_offset : Int
  pending_exception_offset : Int
  thread_state_offset : Int
  suspend_flags_offset : Int
  active_handles_offset : Int
  jni_environment_offset : Int
  handle_block_top_offset : Int

-- A layout with every field in eight bytes of its own, in declaration order.
@[reducible] def Vm.plain (target : Target) : Vm where
  state_offset f := 8*f.ctorIdx
  sizeof_BytecodeInterpreter := 128
  state_inside f := by
    have bytes : f.bytes ≤ 8 := by unfold StateField.bytes; split; decide; exact wordSize_le
    cases f <;> simp only [StateField.ctorIdx] <;> omega
  state_apart f g differ := by
    have bytes : ∀ f : StateField, f.bytes ≤ 8 := fun f => by unfold StateField.bytes; split; decide; exact wordSize_le
    have one := bytes f
    have two := bytes g
    have other : f.ctorIdx ≠ g.ctorIdx := fun same => differ (by cases f <;> cases g <;> simp_all [StateField.ctorIdx])
    omega
  message x := x.ctorIdx
  message_apart x y same := by cases x <;> cases y <;> first | rfl | (simp [Message.ctorIdx] at same)
  interpreter_frame_monitor_size := 2
  obj_offset_in_bytes := wordSize
  lock_offset_in_bytes := 0
  displaced_header_offset_in_bytes := 0
  obj_inside := by have := wordSize_pos; omega
  max_stack_offset := 0
  size_of_parameters_offset := 2
  size_of_locals_offset := 4
  access_flags_offset := 8
  const_offset := 16
  codes_offset := 0
  constants_offset := 24
  cache_offset_in_bytes := 8
  pool_holder_offset_in_bytes := 16
  klass_part_offset_in_bytes := 0
  java_mirror_offset_in_bytes := 0
  result_index_offset := 32
  signature_handler_offset := 40
  native_function_offset := 48
  last_Java_sp_offset := 0
  last_Java_pc_offset := 8
  pending_exception_offset := 16
  thread_state_offset := 24
  suspend_flags_offset := 28
  active_handles_offset := 32
  jni_environment_offset := 40
  handle_block_top_offset := 0

variable [Vm]
open Vm

def STATE (f : StateField) : Address := ⟨Rstate,state_offset f⟩

def monitor_size : Int := interpreter_frame_monitor_size * wordSize

theorem state_bytes_pos (f : StateField) : 0 < f.bytes := by
  unfold StateField.bytes
  split
  · decide
  · exact wordSize_pos

theorem sizeof_large : wordSize ≤ sizeof_BytecodeInterpreter := by
  have inside := state_inside .stack_limit
  have bytes : StateField.bytes .stack_limit = wordSize := rfl
  omega

-- A field of the state object at `s`, and the field set.
def Cells.field (m : Cells) (s : Int) (f : StateField) : Int :=
  if f = .msg then m (s + state_offset f) else m.word wide (s + state_offset f)
def Cells.setField (m : Cells) (s : Int) (f : StateField) (v : Int) : Cells :=
  if f = .msg then m.put (s + state_offset f) v else m.putWord wide (s + state_offset f) v

theorem Cells.field_setField (m : Cells) (s v : Int) (f g : StateField) :
    (m.setField s f v).field s g = if g = f then v else m.field s g := by
  have small : 4 ≤ wordSize := by unfold wordSize width; split <;> decide
  by_cases same : g = f
  · subst same
    by_cases msg : g = .msg <;> simp [field,setField,msg]
  · rw [if_neg same]
    have apart := state_apart f g fun h => same h.symm
    by_cases msg : f = .msg
    · have other : g ≠ .msg := fun h => same (h.trans msg.symm)
      simp only [StateField.bytes,if_pos msg,if_neg other] at apart
      simp only [field,setField,if_pos msg,if_neg other]
      refine word_congr fun b low high => put_other _ _ ?_
      change b < _ + wordSize at high
      omega
    · simp only [StateField.bytes,if_neg msg] at apart
      simp only [field,setField,if_neg msg]
      split
      · rename_i other
        rw [if_pos other] at apart
        exact putWord_outside _ _ (show _ ∨ _ + wordSize ≤ _ by omega)
      · rename_i other
        rw [if_neg other] at apart
        exact word_putWord_apart _ _ (show _ + wordSize ≤ _ ∨ _ + wordSize ≤ _ by omega)

theorem Cells.setField_outside (m : Cells) (s v : Int) (f : StateField) :
    SameOutside s (s + sizeof_BytecodeInterpreter) m (m.setField s f v) := by
  have inside := state_inside f
  have small : 4 ≤ wordSize := by unfold wordSize width; split <;> decide
  unfold setField StateField.bytes at *
  split
  · rename_i msg
    rw [if_pos msg] at inside
    exact fun b outside => put_other _ _ (by omega)
  · rename_i msg
    rw [if_neg msg] at inside
    exact SameOutside.putWord _ _ (by omega) (show _ + wordSize ≤ _ by omega)

theorem Cells.field_same (same : SameOutside low high m m') (apart : s + sizeof_BytecodeInterpreter ≤ low ∨ high ≤ s)
    (f : StateField) : m'.field s f = m.field s f := by
  have inside := state_inside f
  have pos := state_bytes_pos f
  unfold field StateField.bytes at *
  split
  · rename_i msg
    rw [if_pos msg] at inside
    exact same _ (by omega)
  · rename_i msg
    rw [if_neg msg] at inside
    exact same.word (show _ + wordSize ≤ _ ∨ _ by omega)

end IcedTea

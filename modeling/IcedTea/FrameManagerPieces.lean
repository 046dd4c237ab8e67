import IcedTea.FrameManager

namespace IcedTea.CppInterpreter
open StackFrame (lr_save_offset back_chain_offset)
open Vm SharedRuntime BasicType

section
variable [Vm]

theorem read_state (m : Machine) (f : StateField) (word : f ≠ .msg) : m.read (m.ea (STATE f)) = state m f := by
  simp only [state,Cells.field,if_neg word]
  rfl

theorem unwind_spec (m : Machine) : let m' := exec unwind_interpreter_state m
    m'.gpr Rstate = state m .prev_link ∧ m'.gpr r1 = m.read (m.gpr r1) ∧
      m'.lr = m.read (m.read (m.gpr r1) + lr_save_offset*wordSize) ∧ m'.mem = m.mem ∧
      Keeps [.gpr r0,.gpr r1,.gpr Rstate,.lr] m m' := by
  have prev := read_state m .prev_link (by decide)
  refine ⟨?_,?_,?_,rfl,(exec_keeps _ m).mono (by simp [written,unwind_interpreter_state,Instr.written])⟩
  · rw [← prev]; simp [unwind_interpreter_state,step]
  · simp [unwind_interpreter_state,step,back_chain_offset]
  · simp [unwind_interpreter_state,step,back_chain_offset]

-- What converting a result does: the stack pointer in Rlocals is moved past
-- the result, which is stored in the words it was moved over.
structure Converted (t : BasicType) (m m' : Machine) : Prop where
  locals : m'.gpr Rlocals = m.gpr Rlocals - result_words t * wordSize
  mem : Cells.SameOutside (m.gpr Rlocals - wordSize) (m.gpr Rlocals + wordSize) m.mem m'.mem
  keeps : Keeps [.gpr r0,.gpr r3,.gpr r4,.gpr r5,.gpr Rlocals,.fpr f1,.lr,.ctr] m m'

theorem stores_within (code : List Instr) (m : Machine) (low high : Int)
    (within : ∀ w ∈ stores code m, low ≤ w.1 ∧ w.1 + w.2 ≤ high) : Cells.SameOutside low high m.mem (exec code m).mem :=
  fun b outside => exec_outside code m fun w member => by have := within w member; omega

theorem tosca_to_stack_spec (t : BasicType) (m : Machine) (code : List Instr) (converter : tosca_to_stack_converter t = some code) :
    Converted t m (exec code m) := by
  have pos := wordSize_pos
  have small : 4 ≤ wordSize := by unfold wordSize Cells.width; split <;> decide
  cases t <;> simp only [tosca_to_stack_converter,Option.some.injEq,reduceCtorEq] at converter <;> subst converter <;>
    (try cases cpu : Target.cpu) <;>
    refine ⟨?_,stores_within _ m _ _ ?_,(exec_keeps _ m).mono (by simp [written,Instr.written])⟩ <;>
    simp [stores,Instr.stores,step,result_words] <;> omega

theorem stack_to_stack_spec (t : BasicType) (m : Machine) (code : List Instr) (converter : stack_to_stack_converter t = some code) :
    Converted t m (exec code m) := by
  have pos := wordSize_pos
  have small : 4 ≤ wordSize := by unfold wordSize Cells.width; split <;> decide
  cases t <;> simp only [stack_to_stack_converter,Option.some.injEq,reduceCtorEq] at converter <;> subst converter <;>
    (try cases cpu : Target.cpu) <;>
    refine ⟨?_,stores_within _ m _ _ ?_,(exec_keeps _ m).mono (by simp [written,Instr.written,STATE])⟩ <;>
    simp [stores,Instr.stores,step,result_words,STATE] <;> omega

-- A new activation, and the caller's frame below which it was made.
structure Dispatched (m m' : Machine) (sp : Int) : Prop where
  caller_aligned : sp % 16 = 0
  caller_lower : sp ≤ m.gpr r1
  caller_back_chain : m'.read sp = m.read (m.gpr r1)
  caller_cr_word : Target.cpu = .ppc64 → m'.read (sp + wordSize) = m.read (m.gpr r1 + wordSize)
  caller_room : sp = m.gpr r1 ∧ size_of_parameters m = size_of_locals m ∨
    sp + frame_header + slop_factor + size_of_locals m * wordSize ≤ m.gpr Rlocals
  lr_save : m'.read (sp + lr_save_offset*wordSize) = m.lr
  frame : ∃ max_stack monitors, InterpreterFrame max_stack 0 monitors m'
  top : m'.gpr Rstate = sp - sizeof_BytecodeInterpreter
  locals : state m' .locals = m.gpr Rlocals
  method : state m' .method = m.gpr Rmethod
  self_link : state m' .self_link = m'.gpr Rstate
  prev_link : state m' .prev_link = m.gpr Rstate
  above : ∀ b, sp + frame_header ≤ b → m.gpr Rlocals - size_of_parameters m * wordSize + wordSize ≤ b → m'.mem b = m.mem b
  keeps : Keeps [.gpr r0,.gpr r1,.gpr r3,.gpr r4,.gpr r5,.gpr r6,.gpr r7,.gpr r8,.gpr Rmonitor,.gpr Rstate,
    .cr cr0,.cr CRsync,.cr CRstatic,.ctr] m m'
end

variable [Code]
open Code

theorem re_dispatch_spec (m : Machine) (aligned : m.gpr r1 % 16 = 0) (covered : size_of_parameters m ≤ size_of_locals m) :
    ∃ sp, Dispatched m (re_dispatch m) sp := by
  have adjusted := adjust_callers_stack_spec m covered
  unfold re_dispatch
  generalize adjust_callers_stack m = m₁ at adjusted
  have aligned₁ : m₁.gpr r1 % 16 = 0 := adjusted.aligned.trans aligned
  have computed := compute_interpreter_state_spec false m₁
  have frame := computed_frame m₁ aligned₁
  generalize compute_interpreter_state false m₁ = m₂ at *
  have entered := computed.entered
  have pos := wordSize_pos
  have lr_low := lr_save_above
  have lr_high := lr_save_inside
  -- the new activation ends at the caller's back chain and stores only the LR save word above it
  have link : ∀ a, m₁.gpr r1 ≤ a → a + wordSize ≤ m₁.gpr r1 + lr_save_offset*wordSize → m₂.read a = m₁.read a :=
    fun a low high => Cells.word_congr fun b below above =>
      computed.mem b (.inr (by omega)) (.inl (by change b < _ + wordSize at above; omega))
  refine ⟨m₁.gpr r1,aligned₁,adjusted.lower,?_,fun cpu => ?_,adjusted.room,?_,⟨_,_,frame⟩,computed.state,?_,?_,entered.self_link,?_,
    fun b low high => ?_,(adjusted.keeps.trans computed.keeps).mono (by simp)⟩
  · rw [link _ (Int.le_refl _) (by omega)]
    exact adjusted.back_chain
  · have second : lr_save_offset = 2 := by simp [lr_save_offset,cpu]
    rw [link _ (by omega) (by rw [second]; push_cast; omega)]
    exact adjusted.cr_word cpu
  · rw [computed.lr_save]
    exact adjusted.keeps.lr (by simp)
  · rw [state,entered.locals]
    exact adjusted.keeps.gpr Rlocals (by simp)
  · rw [state,entered.method]
    exact adjusted.keeps.gpr Rmethod (by simp)
  · rw [state,entered.prev_link]
    exact adjusted.keeps.gpr Rstate (by simp)
  · have header : 2*wordSize ≤ frame_header := by omega
    rw [computed.mem b (.inr (by omega)) (.inr (by omega)),adjusted.mem b (.inr (by omega)) (.inr high)]

end IcedTea.CppInterpreter

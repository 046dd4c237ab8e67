import IcedTea.InterpreterFrames
import IcedTea.CallStubFrame
import IcedTea.FrameExtension

namespace IcedTea.AbstractInterpreter
open StackFrame (link_area_words min_params StackAlignmentInBytes lr_save_offset)
open CppInterpreter StubGenerator
open Vm

def round_to (x a : Int) : Int := (x + a - 1) / a * a

theorem round_to_eq (x : Int) : round_to x 16 = x + -x % 16 := by
  unfold round_to
  omega

section
variable [Vm]

def size_top_interpreter_activation (max_locals max_stack : Int) (synchronized : Bool) : Int :=
  let call_stub_frame := round_to (call_stub_base_size + max_locals*wordSize) StackAlignmentInBytes
  let interpreter_frame := round_to (frame_header + slop_factor + max_stack*wordSize +
    (if synchronized then interpreter_frame_monitor_size*wordSize else 0) + sizeof_BytecodeInterpreter) StackAlignmentInBytes
  (call_stub_frame + interpreter_frame) / wordSize

-- The sum of the two frames is a whole number of words.
theorem size_top_interpreter_activation_eq (max_locals max_stack : Int) (synchronized : Bool) :
    size_top_interpreter_activation max_locals max_stack synchronized * wordSize =
      round_to (call_stub_base_size + max_locals*wordSize) 16 + round_to (frame_content max_stack synchronized) 16 := by
  have content : frame_header + slop_factor + max_stack*wordSize +
      (if synchronized then interpreter_frame_monitor_size*wordSize else 0) + sizeof_BytecodeInterpreter =
      frame_content max_stack synchronized := by
    unfold frame_content basic_frame_size monitor_bytes monitor_size
    ring
  have align : StackAlignmentInBytes = 16 := rfl
  unfold size_top_interpreter_activation
  dsimp only
  rw [content,align,round_to_eq,round_to_eq]
  apply Int.ediv_mul_cancel
  cases cpu : Target.cpu with
  | ppc32 => rw [wordSize_ppc32 cpu]; omega
  | ppc64 => rw [wordSize_ppc64 cpu]; omega

-- The bytes by which the caller's frame is extended.
def extension (params locals available : Int) : Int :=
  if params = locals ∨ locals*wordSize ≤ available then 0
  else locals*wordSize - available + -(locals*wordSize - available) % 16

theorem extension_nonneg (params locals available : Int) : 0 ≤ extension params locals available := by
  unfold extension
  split
  · exact Int.le_refl 0
  · omega

omit [Vm] in
theorem bdnz_keeps [Target] (body : List Instr) (n : Nat) (m : Machine) : Keeps (written body ++ [.ctr]) m (bdnz body n m) := by
  induction n generalizing m with
  | zero => exact Keeps.refl _ m
  | succ n ih =>
    have pass : Keeps (written body ++ [.ctr]) m (counted body m) := by
      intro p absent
      rw [List.mem_append,not_or] at absent
      have same := exec_keeps body m p absent.1
      cases p with
      | ctr => exact absurd (List.mem_singleton_self _) absent.2
      | _ => exact same
    refine (pass.trans (ih (counted body m))).mono fun p member => ?_
    rcases List.mem_append.mp member with one|two
    · exact one
    · exact two

theorem room_for_locals_size (m : Machine) (words : Int) (locals : m.gpr r4 = words) :
    let available := m.gpr Rlocals - m.gpr r1 - (frame_header + slop_factor)
    (room_for_locals m).gpr r1 = m.gpr r1 -
      if words*wordSize ≤ available then 0 else words*wordSize - available + -(words*wordSize - available) % 16 := by
  let m₁ := exec [.shift_left r5 r4 LogBytesPerWord,.sub r6 Rlocals r1,.subi r6 r6 (frame_header + slop_factor)] m
  have required : m₁.gpr r5 = words*wordSize := by
    simp only [r4] at locals
    simp [m₁,step,shift_words,locals]
  have available : m₁.gpr r6 = m.gpr Rlocals - m.gpr r1 - (frame_header + slop_factor) := by simp [m₁,step]
  have top : m₁.gpr r1 = m.gpr r1 := by simp [m₁,step]
  obtain ⟨enough,short⟩ := maybe_extend_frame_size m₁ r5 r6 (by decide) (by decide) (by decide)
  have code : room_for_locals m = maybe_extend_frame r5 r6 m₁ := rfl
  rw [required,available] at enough short
  dsimp only
  rw [code]
  by_cases fits : words*wordSize ≤ m.gpr Rlocals - m.gpr r1 - (frame_header + slop_factor)
  · obtain ⟨field,same⟩ := enough fits
    rw [if_pos fits,same,Machine.setField_gpr,top,Int.sub_zero]
  · have least := short (by omega)
    have size := least.unique (least_extension _)
    rw [top] at size
    rw [if_neg fits]
    omega

theorem adjust_callers_stack_size (m : Machine) : (adjust_callers_stack m).gpr r1 = m.gpr r1 -
    extension (size_of_parameters m) (size_of_locals m) (m.gpr Rlocals - m.gpr r1 - (frame_header + slop_factor)) := by
  obtain ⟨-,four,-,-,kept⟩ := compare_sizes_spec m
  rw [adjust_callers_stack_code]
  by_cases same : size_of_parameters m = size_of_locals m
  · rw [if_pos same,extension,if_pos (Or.inl same),Int.sub_zero]
    exact kept.gpr r1 (by simp)
  · have size := room_for_locals_size (exec compare_sizes m) _ four
    have before : (at_loop m).gpr r1 = (room_for_locals (exec compare_sizes m)).gpr r1 :=
      (exec_keeps _ _).gpr r1 (by simp [written,Instr.written])
    have loop : (bdnz_loop zero_locals (at_loop m)).gpr r1 = (at_loop m).gpr r1 :=
      (bdnz_keeps zero_locals _ (at_loop m)).gpr r1 (by simp [written,zero_locals,Instr.written])
    dsimp only at size
    rw [kept.gpr r1 (by simp),kept.gpr Rlocals (by simp)] at size
    rw [if_neg same,loop,before,size,extension]
    simp only [same,false_or]
omit [Vm] in
theorem read16_same {m m' : Machine} {a : Int} (same : ∀ b, a - 2 ≤ b → b ≤ a → m'.mem b = m.mem b) :
    m'.read16 a = m.read16 a := by
  unfold Machine.read16
  rw [same a (by omega) (Int.le_refl a),same (a-2) (Int.le_refl _) (by omega)]

omit [Vm] in
theorem read32_same [Target] {m m' : Machine} {a : Int} (same : m'.mem a = m.mem a) : m'.read32 a = m.read32 a := by
  unfold Machine.read32
  rw [same]

end

variable [StubRoutines]

-- The entry the call stub calls, up to the call of the interpreter.
def entered (m : Machine) : Machine :=
  compute_interpreter_state false (adjust_callers_stack (step (call_stub_call m) (.loadImm Rstate 0)))

-- The bytes of stack consumed.
def used (m : Machine) : Int := m.gpr r1 - (entered m).gpr r1

theorem call_stub_call_size (m : Machine) (n : Nat) (count : m.gpr r9 = n) : let size := n*wordSize + call_stub_base_size
    (call_stub_call m).gpr r1 = m.gpr r1 - (size + -size % 16) := by
  obtain ⟨bytes,-,size,-,kept₁⟩ := calculate_frame_size_spec m
  generalize first : exec StubGenerator.calculate_frame_size m = m₁ at *
  have stack₂ : (exec StubGenerator.create_frame m₁).gpr r1 = m₁.gpr r1 - m₁.gpr r11 := by
    cases cpu : Target.cpu <;> simp [StubGenerator.create_frame,cpu,step,Int.sub_eq_add_neg]
  have kept₂ : Keeps [.gpr r0,.gpr r1] m₁ (exec StubGenerator.create_frame m₁) := by
    refine (exec_keeps _ m₁).mono ?_
    cases cpu : Target.cpu <;> simp [StubGenerator.create_frame,cpu,written,Instr.written]
  generalize second : exec StubGenerator.create_frame m₁ = m₂ at *
  obtain ⟨-,-,kept₃⟩ := calculate_locals_spec m₂
  generalize third : exec calculate_locals m₂ = m₃ at *
  obtain ⟨-,-,kept₄⟩ := save_slots_spec slots initial_offset m₃ real_slots
  generalize fourth : exec (save_slots slots initial_offset) m₃ = m₄ at *
  have bytes₄ : m₄.gpr r9 = n*wordSize := by
    rw [kept₄.gpr r9 (by simp),kept₃.gpr r9 (by simp),kept₂.gpr r9 (by simp),bytes,count]
  obtain ⟨-,-,kept₅⟩ := pass_parameters_spec m₄ n bytes₄
  generalize fifth : pass_parameters m₄ = m₅ at *
  obtain ⟨-,-,-,-,-,kept₆⟩ := make_call_spec m₅
  have code : call_stub_call m = {exec make_call m₅ with lr := StubRoutines.call_stub_return_address} := by
    simp only [call_stub_call,save_caller,store_registers,exec_append,first,second,third,fourth,fifth]
  dsimp only
  rw [code,← count]
  change (exec make_call m₅).gpr r1 = _
  rw [kept₆.gpr r1 (by simp),kept₅.gpr r1 (by simp),kept₄.gpr r1 (by simp),kept₃.gpr r1 (by simp),stack₂,
    kept₁.gpr r1 (by simp),size]

-- The fields of the method the estimate is made from, as the caller has them.
def method_words (m : Machine) (offset : Int) : Int := m.read16 (m.gpr r6 + offset)
def params (m : Machine) : Int := method_words m Vm.size_of_parameters_offset
def locals (m : Machine) : Int := method_words m Vm.size_of_locals_offset
def max_stack (m : Machine) : Int := method_words m Vm.max_stack_offset
def synchronized (m : Machine) : Bool :=
  andImmediate (m.read32 (m.gpr r6 + Vm.access_flags_offset)) JVM_ACC_SYNCHRONIZED = JVM_ACC_SYNCHRONIZED

-- The call of a method that is not on the stack, with its parameters.
structure Call (m : Machine) : Prop where
  count : m.gpr r9 = params m
  covered : params m ≤ locals m
  off_stack : ∀ offset ∈ [Vm.size_of_parameters_offset,Vm.size_of_locals_offset,Vm.max_stack_offset,Vm.access_flags_offset],
    ∀ b, m.gpr r6 + offset - 2 ≤ b → b ≤ m.gpr r6 + offset →
      b < (entered m).gpr r1 ∨ m.gpr r1 + lr_save_offset*wordSize + wordSize ≤ b

-- The caller's frame with the parameters in it, when the frame manager is entered.
structure AtEntry (m m₁ : Machine) (padding : Int) : Prop where
  stack : m₁.gpr r1 = m.gpr r1 - (params m * wordSize + call_stub_base_size + padding)
  locals : m₁.gpr Rlocals = m₁.gpr r1 + frame_header - wordSize + padding + params m * wordSize
  method : m₁.gpr Rmethod = m.gpr r6
  mem : ∀ b, b < m₁.gpr r1 ∨ m.gpr r1 + lr_save_offset*wordSize + wordSize ≤ b → m₁.mem b = m.mem b

theorem params_range (m : Machine) : 0 ≤ params m := (halfword_range m _).1

theorem at_entry (m : Machine) (count : m.gpr r9 = params m) :
    AtEntry m (step (call_stub_call m) (.loadImm Rstate 0)) (-(params m * wordSize + call_stub_base_size) % 16) := by
  obtain ⟨n,words⟩ : ∃ n : Nat, params m = n := ⟨(params m).toNat,(Int.toNat_of_nonneg (params_range m)).symm⟩
  have framed := call_stub_call_spec m n (count.trans words)
  have size := call_stub_call_size m n (count.trans words)
  obtain ⟨padding,-,stack,-,locals⟩ := framed.padding
  have header : call_stub_frame.start_of_locals = frame_header := by
    rw [StubGenerator.start_of_locals_eq,frame_header_eq]
    push_cast
    ring
  have pos := wordSize_pos
  have lr := lr_save_above
  dsimp only at size
  rw [header] at locals
  constructor
  case stack =>
    change (call_stub_call m).gpr r1 = _
    rw [words]
    exact size
  case locals =>
    change (call_stub_call m).gpr Rlocals = (call_stub_call m).gpr r1 + _ - _ + _ + _
    rw [words]
    omega
  case method => exact framed.method
  case mem =>
    intro b outside
    have below : (call_stub_call m).gpr r1 < m.gpr r1 := by
      have up := Int.mul_nonneg (Int.natCast_nonneg n) (Int.le_of_lt pos)
      have inside := lr_save_inside
      have base := base_size_eq
      have slots_nonneg := Int.mul_nonneg (Int.natCast_nonneg slots.length) (Int.le_of_lt pos)
      omega
    change b < (call_stub_call m).gpr r1 ∨ _ at outside
    exact framed.mem b (by omega) (by omega)

-- Each of the three frames is made below the last, and the method is left alone.
theorem entered_size (m : Machine) (call : Call m) :
    let padding := -(params m * wordSize + call_stub_base_size) % 16
    used m = params m * wordSize + call_stub_base_size + padding +
      extension (params m) (locals m) (params m * wordSize + padding - wordSize - slop_factor) +
      round_to (frame_content (max_stack m) (synchronized m)) 16 := by
  have entry := at_entry m call.count
  dsimp only
  have off_stack := call.off_stack
  unfold used
  unfold entered at off_stack ⊢
  generalize step (call_stub_call m) (.loadImm Rstate 0) = m₁ at *
  have nonneg : 0 ≤ -(params m * wordSize + call_stub_base_size) % 16 := Int.emod_nonneg _ (by decide)
  generalize -(params m * wordSize + call_stub_base_size) % 16 = padding at *
  obtain ⟨stack₁,locals₁,method₁,mem₁⟩ := entry
  have pos := wordSize_pos
  have lr := lr_save_above
  have base : frame_header ≤ call_stub_base_size := by
    have start := StubGenerator.start_of_locals_eq
    have header := frame_header_eq
    have slots_nonneg := Int.mul_nonneg (Int.natCast_nonneg slots.length) (Int.le_of_lt pos)
    rw [Int.natCast_add,Int.add_mul] at header
    rw [base_size_eq]
    omega
  have inside := lr_save_inside
  have few := Int.mul_nonneg (params_range m) (Int.le_of_lt pos)
  have computed := compute_interpreter_state_spec false (adjust_callers_stack m₁)
  have size₃ := compute_interpreter_state_size false (adjust_callers_stack m₁)
  have lower₃ : (compute_interpreter_state false (adjust_callers_stack m₁)).gpr r1 ≤ (adjust_callers_stack m₁).gpr r1 := by
    have room := computed.room
    have monitor := computed.monitor
    have state := computed.state
    have object := sizeof_large
    have monitors := monitor_bytes_nonneg (is_synchronized (adjust_callers_stack m₁))
    have words := Int.mul_nonneg (stack_words_nonneg false (adjust_callers_stack m₁)) (Int.le_of_lt pos)
    have slop : slop_factor = 2*wordSize := rfl
    omega
  have size₂ := adjust_callers_stack_size m₁
  have grown := extension_nonneg (size_of_parameters m₁) (size_of_locals m₁)
    (m₁.gpr Rlocals - m₁.gpr r1 - (frame_header + slop_factor))
  have kept₁ : ∀ offset ∈ [Vm.size_of_parameters_offset,Vm.size_of_locals_offset,Vm.max_stack_offset,Vm.access_flags_offset],
      ∀ b, m.gpr r6 + offset - 2 ≤ b → b ≤ m.gpr r6 + offset → m₁.mem b = m.mem b := by
    intro offset member b low high
    have place := off_stack offset member b low high
    exact mem₁ b (by omega)
  have params₁ : size_of_parameters m₁ = params m := by
    change m₁.read16 (m₁.gpr Rmethod + _) = m.read16 _
    rw [method₁]
    exact read16_same (kept₁ Vm.size_of_parameters_offset (by simp))
  have locals_words : size_of_locals m₁ = locals m := by
    change m₁.read16 (m₁.gpr Rmethod + _) = m.read16 _
    rw [method₁]
    exact read16_same (kept₁ Vm.size_of_locals_offset (by simp))
  have adjusted := adjust_callers_stack_spec m₁ (by rw [params₁,locals_words]; exact call.covered)
  have method₂ : (adjust_callers_stack m₁).gpr Rmethod = m.gpr r6 := (adjusted.keeps.gpr Rmethod (by simp)).trans method₁
  generalize adjust_callers_stack m₁ = m₂ at *
  have room := adjusted.room
  rw [params₁,locals_words] at room
  have slop : slop_factor = 2*wordSize := rfl
  have kept₂ : ∀ offset ∈ [Vm.size_of_parameters_offset,Vm.size_of_locals_offset,Vm.max_stack_offset,Vm.access_flags_offset],
      ∀ b, m.gpr r6 + offset - 2 ≤ b → b ≤ m.gpr r6 + offset → m₂.mem b = m.mem b := by
    intro offset member b low high
    have place := off_stack offset member b low high
    rw [← kept₁ offset member b low high]
    apply adjusted.mem
    · omega
    · rw [params₁,locals_words]
      rcases place with below|above
      · rcases room with ⟨-,same⟩|room
        · rw [same]
          omega
        · exact .inl (by omega)
      · exact .inr (by omega)
  have words₂ : stack_words false m₂ = max_stack m := by
    change m₂.read16 (m₂.gpr Rmethod + _) = m.read16 _
    rw [method₂]
    exact read16_same (kept₂ Vm.max_stack_offset (by simp))
  have synchronized₂ : is_synchronized m₂ = synchronized m := by
    change decide (andImmediate (m₂.read32 (m₂.gpr Rmethod + _)) _ = _) = decide (andImmediate (m.read32 _) _ = _)
    rw [method₂,read32_same (kept₂ Vm.access_flags_offset (by simp) _ (by omega) (Int.le_refl _))]
  dsimp only at size₃
  rw [words₂,synchronized₂] at size₃
  rw [round_to_eq,size₃,size₂,params₁,locals_words,stack₁,locals₁]
  have available : m₁.gpr r1 + frame_header - wordSize + padding + params m * wordSize - m₁.gpr r1 - (frame_header + slop_factor) =
      params m * wordSize + padding - wordSize - slop_factor := by ring
  rw [← stack₁,available,stack₁]
  ring

omit [StubRoutines] in
theorem base_size_ppc32 [Target] (cpu : Target.cpu = .ppc32) : call_stub_base_size = 96 := by
  simp [call_stub_base_size,call_stub_frame,StackFrame.unaligned_size,StackFrame.unaligned_words,StackFrame.max_crfs,
    StackFrame.max_gprs,link_area_words,min_params,cpu,wordSize_ppc32 cpu]

omit [StubRoutines] in
theorem base_size_ppc64 [Target] (cpu : Target.cpu = .ppc64) : call_stub_base_size = 280 := by
  simp [call_stub_base_size,call_stub_frame,StackFrame.unaligned_size,StackFrame.unaligned_words,StackFrame.max_crfs,
    StackFrame.max_gprs,link_area_words,min_params,cpu,wordSize_ppc64 cpu]

-- With no extra locals the call stub's frame is the only one below the caller.
theorem size_no_extra_locals (m : Machine) (call : Call m) (same : params m = locals m) :
    used m = size_top_interpreter_activation (locals m) (max_stack m) (synchronized m) * wordSize := by
  rw [entered_size m call,size_top_interpreter_activation_eq,extension,if_pos (.inl same),round_to_eq (_ + _),same,
    Int.add_comm call_stub_base_size]
  ring

-- Extra locals come with the slop and a spare word, which the estimate leaves out
-- and only its own padding can make up for.
theorem size_extra_locals (m : Machine) (call : Call m) (more : params m < locals m) :
    used m ≤ size_top_interpreter_activation (locals m) (max_stack m) (synchronized m) * wordSize ↔
      Target.cpu = .ppc32 ∧ locals m % 4 = 1 := by
  have sum := entered_size m call
  dsimp only at sum
  rw [sum,size_top_interpreter_activation_eq,round_to_eq (_ + _),Int.add_le_add_iff_right]
  have slop : slop_factor = 2*wordSize := rfl
  rw [slop,extension]
  cases cpu : Target.cpu with
  | ppc32 =>
    rw [wordSize_ppc32 cpu,base_size_ppc32 cpu,if_neg (by omega)]
    simp only [true_and]
    omega
  | ppc64 =>
    rw [wordSize_ppc64 cpu,base_size_ppc64 cpu,if_neg (by omega)]
    simp only [reduceCtorEq,false_and,iff_false]
    omega

theorem size_suffices_iff (m : Machine) (call : Call m) :
    used m ≤ size_top_interpreter_activation (locals m) (max_stack m) (synchronized m) * wordSize ↔
      params m = locals m ∨ Target.cpu = .ppc32 ∧ locals m % 4 = 1 := by
  by_cases same : params m = locals m
  · exact iff_of_true (Int.le_of_eq (size_no_extra_locals m call same)) (.inl same)
  · rw [size_extra_locals m call (lt_of_le_of_ne call.covered same)]
    simp only [same,false_or]

-- A method at 0x100000, far above the stack.
def calling (params locals max_stack access_flags : Int) : Machine where
  gpr r := if r = r1 then 0x10000 else if r = r6 then 0x100000 else if r = r9 then params else 0
  fpr _ := 0
  cr _ := 0
  lr := 0
  ctr := 0
  mem a :=
    if a = 0x100000 then max_stack*2^16 + params else
    if a = 0x100004 then locals*2^16 else
    if a = 0x100008 then access_flags else 0

omit [StubRoutines] in
theorem calling_off_stack (params locals max_stack access_flags : Int) : letI := StubRoutines.plain ppc64
    let m := calling params locals max_stack access_flags
    ∀ offset ∈ [Vm.size_of_parameters_offset,Vm.size_of_locals_offset,Vm.max_stack_offset,Vm.access_flags_offset],
      ∀ b, m.gpr r6 + offset - 2 ≤ b → b ≤ m.gpr r6 + offset →
        b < (entered m).gpr r1 ∨ m.gpr r1 + lr_save_offset*wordSize + wordSize ≤ b := by
  let _ := StubRoutines.plain ppc64
  intro m offset member b low _
  have start : 0 ≤ offset := by
    simp only [List.mem_cons,List.not_mem_nil,or_false] at member
    rcases member with rfl|rfl|rfl|rfl <;> decide
  have method : m.gpr r6 = 0x100000 := rfl
  have stack : m.gpr r1 + lr_save_offset*wordSize + wordSize = 0x10018 := rfl
  rw [method] at low
  rw [stack]
  exact .inr (by omega)

omit [StubRoutines] in
-- A synchronized method with two parameters and three words of stack.
theorem size_suffices_synchronized : letI := StubRoutines.plain ppc64
    let m := calling 2 2 3 0x20
    params m = 2 ∧ synchronized m = true ∧
      used m ≤ size_top_interpreter_activation (locals m) (max_stack m) (synchronized m) * wordSize :=
  ⟨by decide,by decide,(@size_suffices_iff (StubRoutines.plain ppc64) (calling 2 2 3 0x20)
    (@Call.mk (StubRoutines.plain ppc64) _ (by decide) (by decide) (calling_off_stack 2 2 3 0x20))).mpr (.inl (by decide))⟩

omit [StubRoutines] in
theorem one_local_called : letI := StubRoutines.plain ppc64
    Call (calling 0 1 0 0) :=
  @Call.mk (StubRoutines.plain ppc64) (calling 0 1 0 0) (by decide) (by decide) (calling_off_stack 0 1 0 0)

omit [StubRoutines] in
theorem size_not_enough : letI := StubRoutines.plain ppc64
    let m := calling 0 1 0 0
    Call m ∧ ¬ used m ≤ size_top_interpreter_activation (locals m) (max_stack m) (synchronized m) * wordSize := by
  let := StubRoutines.plain ppc64
  refine ⟨one_local_called,fun enough => ?_⟩
  have small := (size_extra_locals (calling 0 1 0 0) one_local_called (by decide)).mp enough
  exact absurd small.1 (by decide)

end IcedTea.AbstractInterpreter

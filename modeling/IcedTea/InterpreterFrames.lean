import Mathlib
import IcedTea.FrameManagerPieces

namespace IcedTea.CppInterpreter
open StackFrame (link_area_words min_params lr_save_offset)
open Vm

section
variable [Target]

-- One pass of a loop closed by bdnz.
def counted (body : List Instr) (m : Machine) : Machine := {exec body m with ctr := (exec body m).ctr - 1}

-- The passes from the loop's label to its exit. CTR is tested in its own width.
inductive Passes (body : List Instr) : Nat → Machine → Machine → Prop where
  | last (m : Machine) (done : (counted body m).ctr % 2^(8*wordSize).toNat = 0) : Passes body 1 m (counted body m)
  | again (more : (counted body m).ctr % 2^(8*wordSize).toNat ≠ 0) (rest : Passes body n (counted body m) m') :
      Passes body (n+1) m m'

theorem counted_ctr (body : List Instr) (m : Machine) (free : .ctr ∉ written body) : (counted body m).ctr = m.ctr - 1 :=
  congrArg (· - 1) ((exec_keeps body m).ctr free)

-- A loop of at most a halfword's number of passes counts CTR down to zero.
theorem bdnz_passes (body : List Instr) (free : .ctr ∉ written body) (n : Nat) (m : Machine) (some : 0 < n) (few : n < 2^16)
    (count : m.ctr = n) : Passes body n m (bdnz body n m) := by
  have width : (2^16 : Int) ≤ 2^(8*wordSize).toNat := by
    cases cpu : Target.cpu with
    | ppc32 => rw [wordSize_ppc32 cpu]; decide
    | ppc64 => rw [wordSize_ppc64 cpu]; decide
  induction n generalizing m with
  | zero => exact absurd some (Nat.lt_irrefl 0)
  | succ n ih =>
    have next : (counted body m).ctr = n := by
      rw [counted_ctr body m free,count]
      push_cast
      omega
    rcases Nat.eq_zero_or_pos n with rfl|more
    · apply Passes.last
      rw [next]
      rfl
    · refine .again ?_ (ih (counted body m) more (by omega) next)
      rw [next,Int.emod_eq_of_lt (by omega) (by omega)]
      omega
end

variable [Vm]

-- The code of generate_adjust_callers_stack up to its loop.
def compare_sizes : List Instr := [.lhz r3 size_of_parameters_addr,.lhz r4 size_of_locals_addr,.compare cr0 r3 r4]
def at_loop (m : Machine) : Machine :=
  exec [.shift_left r7 r3 LogBytesPerWord,.sub r7 Rlocals r7,.sub r0 r4 r3,.mtctr r0,.loadImm r0 0]
    (room_for_locals (exec compare_sizes m))

theorem compare_sizes_spec (m : Machine) : let m' := exec compare_sizes m
    m'.gpr r3 = size_of_parameters m ∧ m'.gpr r4 = size_of_locals m ∧
      ((m'.cr cr0).eq ↔ size_of_parameters m = size_of_locals m) ∧ m'.mem = m.mem ∧
      Keeps [.gpr r3,.gpr r4,.cr cr0] m m' := by
  have three : (exec compare_sizes m).gpr r3 = size_of_parameters m := by simp [compare_sizes,step,size_of_parameters]
  have four : (exec compare_sizes m).gpr r4 = size_of_locals m := by
    simp [compare_sizes,step,size_of_locals,size_of_locals_addr]
    rfl
  refine ⟨three,four,?_,rfl,(exec_keeps _ m).mono (by simp [compare_sizes,written,Instr.written])⟩
  rw [← three,← four]
  simp [compare_sizes,step]

theorem adjust_callers_stack_code (m : Machine) : adjust_callers_stack m =
    if size_of_parameters m = size_of_locals m then exec compare_sizes m else bdnz_loop zero_locals (at_loop m) := by
  have test := (compare_sizes_spec m).2.2.1
  by_cases same : size_of_parameters m = size_of_locals m
  · rw [if_pos same]
    exact if_pos (test.mpr same)
  · rw [if_neg same]
    exact if_neg (mt test.mp same)

theorem at_loop_ctr (m : Machine) : (at_loop m).ctr = size_of_locals m - size_of_parameters m := by
  obtain ⟨three,four,-,-,-⟩ := compare_sizes_spec m
  obtain ⟨extra,-,-,-,-,-,-,-,kept⟩ := room_for_locals_spec (exec compare_sizes m) _ rfl
  have count : (at_loop m).ctr =
      (room_for_locals (exec compare_sizes m)).gpr r4 - (room_for_locals (exec compare_sizes m)).gpr r3 := by
    simp [at_loop,step]
  rw [count,kept.gpr r4 (by simp),kept.gpr r3 (by simp),three,four]

-- The loop runs once for each local that is not a parameter, and not at all when
-- there is none.
theorem zero_locals_passes (m : Machine) (more : size_of_parameters m < size_of_locals m) :
    Passes zero_locals (size_of_locals m - size_of_parameters m).toNat (at_loop m) (adjust_callers_stack m) := by
  have params := halfword_range m (m.ea size_of_parameters_addr)
  have locals := halfword_range m (m.ea size_of_locals_addr)
  change 0 ≤ size_of_parameters m ∧ size_of_parameters m < _ at params
  change 0 ≤ size_of_locals m ∧ size_of_locals m < _ at locals
  have count : (at_loop m).ctr = ((size_of_locals m - size_of_parameters m).toNat : Int) := by
    rw [at_loop_ctr]
    omega
  rw [adjust_callers_stack_code,if_neg (by omega),bdnz_loop_count zero_locals _ _ (by omega) (by omega) count]
  exact bdnz_passes zero_locals (by simp [written,zero_locals,Instr.written]) _ _ (by omega) (by omega) count

-- The locals of a method that has been entered, contiguous with its parameters.
structure LocalsAdjusted (m m' : Machine) : Prop where
  zeroed : ∀ k : Nat, size_of_parameters m ≤ k → k < size_of_locals m → m'.read (m.gpr Rlocals - k*wordSize) = 0
  parameters : ∀ k : Nat, k < size_of_parameters m → m'.read (m.gpr Rlocals - k*wordSize) = m.read (m.gpr Rlocals - k*wordSize)
  above : ∀ b, m.gpr Rlocals + wordSize ≤ b → m'.mem b = m.mem b
  room : size_of_parameters m < size_of_locals m → ∀ k : Nat, k < size_of_locals m →
    m'.gpr r1 + link_area_words*wordSize + min_params*wordSize + slop_factor ≤ m.gpr Rlocals - k*wordSize
  aligned : m'.gpr r1 % 16 = 0
  back_chain : m'.read (m'.gpr r1) = m.read (m.gpr r1)
  passes : if size_of_parameters m = size_of_locals m then m' = exec compare_sizes m
    else Passes zero_locals (size_of_locals m - size_of_parameters m).toNat (at_loop m) m'

-- The parameter words of the caller's frame.
structure CallersFrame (m : Machine) : Prop where
  aligned : m.gpr r1 % 16 = 0
  covered : size_of_parameters m ≤ size_of_locals m
  parameters : m.gpr r1 + link_area_words*wordSize + min_params*wordSize ≤
    m.gpr Rlocals - size_of_parameters m * wordSize + wordSize

theorem locals_adjusted (m : Machine) (frame : CallersFrame m) : LocalsAdjusted m (adjust_callers_stack m) := by
  have adjusted := adjust_callers_stack_spec m frame.covered
  have pos := wordSize_pos
  have params := (halfword_range m (m.ea size_of_parameters_addr)).1
  have locals := (halfword_range m (m.ea size_of_locals_addr)).1
  change 0 ≤ size_of_parameters m at params
  change 0 ≤ size_of_locals m at locals
  have header : frame_header = link_area_words*wordSize + min_params*wordSize := by
    rw [frame_header_eq]
    push_cast
    ring
  have link : 2*wordSize ≤ frame_header := by
    have inside := lr_save_inside
    have above := lr_save_above
    omega
  have lower := adjusted.lower
  have low := frame.parameters
  have up := Int.mul_nonneg params (Int.le_of_lt pos)
  -- what is at or above the last parameter is neither a new local nor in the link area
  have kept : ∀ b, m.gpr Rlocals - size_of_parameters m * wordSize + wordSize ≤ b → (adjust_callers_stack m).mem b = m.mem b :=
    fun b high => adjusted.mem b (.inr (by omega)) (.inr high)
  refine ⟨adjusted.zeroed,fun k less => ?_,fun b high => kept b (by omega),fun more k less => ?_,adjusted.aligned.trans frame.aligned,
    adjusted.back_chain,?_⟩
  · have near := Int.mul_le_mul_of_nonneg_right (show (k : Int) + 1 ≤ size_of_parameters m by omega) (Int.le_of_lt pos)
    rw [Int.add_mul] at near
    exact Cells.word_congr fun b below _ => kept b (by omega)
  · have near := Int.mul_le_mul_of_nonneg_right (show (k : Int) ≤ size_of_locals m by omega) (Int.le_of_lt pos)
    rcases adjusted.room with ⟨-,same⟩|room
    · omega
    · omega
  · by_cases same : size_of_parameters m = size_of_locals m
    · rw [if_pos same,adjust_callers_stack_code,if_pos same]
    · rw [if_neg same]
      exact zero_locals_passes m (lt_of_le_of_ne frame.covered same)

-- One parameter and three locals, at 0x100000 the method.
def three_locals : Machine where
  gpr r := if r = r1 then 0x1000 else if r = Rlocals then 0x1100 else if r = Rmethod then 0x100000 else 0
  fpr _ := 0
  cr _ := 0
  lr := 0
  ctr := 0
  mem a := if a = 0x100000 then 1 else if a = 0x100004 then 3*2^16 else 0

omit [Vm] in
theorem locals_adjusted_three : let _ := Vm.plain ppc64; LocalsAdjusted three_locals (adjust_callers_stack three_locals) :=
  let _ := Vm.plain ppc64
  locals_adjusted three_locals ⟨by decide,by decide,by decide⟩

theorem compute_interpreter_state_size (native : Bool) (m : Machine) :
    let content := frame_content (stack_words native m) (is_synchronized m)
    (compute_interpreter_state native m).gpr r1 = m.gpr r1 - (content + -content % 16) := by
  obtain ⟨sync₁,-,mem₁,kept₁⟩ := access_flags_spec m
  generalize first : exec access_flags_conditions m = m₁ at *
  have words : stack_words native m₁ = stack_words native m := by
    unfold stack_words
    simp only [Machine.ea,Machine.read16,mem₁,kept₁.gpr Rmethod (by simp)]
    rfl
  obtain ⟨size,-,java,-,kept₂⟩ := calculate_frame_size_spec native m₁ _ sync₁
  generalize second : calculate_frame_size native m₁ = m₂ at *
  obtain ⟨stack₃,-,kept₃⟩ := create_frame_spec m₂
  generalize third : exec create_frame m₂ = m₃ at *
  have sync₃ : (m₃.cr CRsync).eq ↔ is_synchronized m = true := by
    rw [kept₃.cr CRsync (by simp),kept₂.cr CRsync (by simp)]
    exact sync₁
  obtain ⟨-,-,-,-,-,-,-,kept₄⟩ := calculate_addresses_spec native m₃ _ sync₃
    (stack_words native m) (fun java' => by rw [kept₃.gpr r3 (by simp),java java',words]) (fun native' => by simp [stack_words,native'])
  generalize fourth : calculate_addresses native m₃ = m₄ at *
  obtain ⟨-,-,kept₅⟩ := initialise_state_spec native m₄
  generalize fifth : exec (initialise_state native) m₄ = m₅ at *
  have sync₅ : (m₅.cr CRsync).eq ↔ is_synchronized m = true := by
    rw [kept₅.cr CRsync (by simp),kept₄.cr CRsync (by simp)]
    exact sync₃
  obtain ⟨-,kept₆⟩ := initialise_monitor_spec m₅ _ sync₅
  have code : compute_interpreter_state native m = initialise_monitor m₅ := by
    simp only [compute_interpreter_state,first,second,third,fourth,fifth]
  rw [words] at size
  dsimp only
  rw [code,kept₆.gpr r1 (by simp),kept₅.gpr r1 (by simp),kept₄.gpr r1 (by simp),stack₃,kept₂.gpr r1 (by simp),
    kept₁.gpr r1 (by simp),size]

-- What the accessors of frame find from a frame's r1.
section Accessors
variable (m : Machine) (sp : Int)
def sender_sp : Int := m.read sp
def get_interpreterState : Int := sender_sp m sp - sizeof_BytecodeInterpreter
def interpreter_frame_tos_address : Int := m.mem.field (get_interpreterState m sp) .stack + wordSize
def interpreter_frame_monitor_end : Int := m.mem.field (get_interpreterState m sp) .stack_base
def interpreter_frame_expression_stack : Int := interpreter_frame_monitor_end m sp - wordSize
end Accessors

-- The pieces of a new frame, upwards.
def frame_pieces (words padding : Int) (synchronized : Bool) (m : Machine) : List Range :=
  [(m.gpr r1,link_area_words*wordSize),
   (m.gpr r1 + link_area_words*wordSize,min_params*wordSize),
   (m.gpr r1 + link_area_words*wordSize + min_params*wordSize,padding + slop_factor),
   (state m .stack_limit + wordSize,words*wordSize),
   (state m .stack_base,monitor_bytes synchronized),
   (m.gpr Rstate,sizeof_BytecodeInterpreter)]

structure FrameFilled (native : Bool) (m m' : Machine) : Prop where
  size : (m.gpr r1 - m'.gpr r1) % 16 = 0
  pieces : ∃ padding, 0 ≤ padding ∧ padding < 16 ∧
    Range.Tiles (m'.gpr r1) (m.gpr r1) (frame_pieces (stack_words native m) padding (is_synchronized m) m')
  state_end : m'.gpr Rstate + sizeof_BytecodeInterpreter = m.gpr r1
  back_chain : m'.read (m'.gpr r1) = m.gpr r1
  expression_stack : state m' .stack_limit + wordSize + stack_words native m * wordSize = state m' .stack_base
  monitors : state m' .stack_base + monitor_bytes (is_synchronized m) = state m' .monitor_base
  monitors_end : state m' .monitor_base = m'.gpr Rstate
  stack : state m' .stack + wordSize = state m' .stack_base
  prev_link : state m' .prev_link = m.gpr Rstate
  found : get_interpreterState m' (m'.gpr r1) = m'.gpr Rstate
  first_slot : interpreter_frame_expression_stack m' (m'.gpr r1) = state m' .stack
  empty : interpreter_frame_tos_address m' (m'.gpr r1) = interpreter_frame_monitor_end m' (m'.gpr r1)

theorem frame_filled (native : Bool) (m : Machine) : FrameFilled native m (compute_interpreter_state native m) := by
  have computed := compute_interpreter_state_spec native m
  have size := compute_interpreter_state_size native m
  generalize compute_interpreter_state native m = m' at computed size
  have parts : frame_content (stack_words native m) (is_synchronized m) = stack_words native m * wordSize +
    (frame_header + sizeof_BytecodeInterpreter + slop_factor) + monitor_bytes (is_synchronized m) := rfl
  dsimp only at size
  generalize frame_content (stack_words native m) (is_synchronized m) = content at parts size
  have pos := wordSize_pos
  have header : frame_header = link_area_words*wordSize + min_params*wordSize := by
    rw [frame_header_eq]
    push_cast
    ring
  have link := Int.mul_nonneg (Int.natCast_nonneg link_area_words) (Int.le_of_lt pos)
  have params := Int.mul_nonneg (Int.natCast_nonneg min_params) (Int.le_of_lt pos)
  have depth := Int.mul_nonneg (stack_words_nonneg native m) (Int.le_of_lt pos)
  have room := monitor_bytes_nonneg (is_synchronized m)
  have object := sizeof_large
  have slop : slop_factor = 2*wordSize := rfl
  have limit : state m' .stack_limit = m'.gpr Rmonitor - wordSize - stack_words native m * wordSize := computed.entered.stack_limit
  have stack : state m' .stack = m'.gpr Rmonitor - wordSize := computed.entered.stack
  have base : state m' .stack_base = m'.gpr Rmonitor := computed.entered.stack_base
  have monitor_base : state m' .monitor_base = m'.gpr Rstate := computed.entered.monitor_base
  have place := computed.state
  have monitor := computed.monitor
  have found : get_interpreterState m' (m'.gpr r1) = m'.gpr Rstate := by
    rw [get_interpreterState,sender_sp,computed.back_chain]
    exact place.symm
  constructor
  case size => omega
  case pieces =>
    refine ⟨-content % 16,by omega,by omega,rfl,link,rfl,params,rfl,by omega,?_,depth,?_,room,?_,by omega,?_⟩
    · dsimp only
      omega
    · dsimp only
      omega
    · dsimp only
      omega
    · change m'.gpr Rstate + sizeof_BytecodeInterpreter = m.gpr r1
      omega
  case state_end => omega
  case back_chain => exact computed.back_chain
  case expression_stack => omega
  case monitors => omega
  case monitors_end => exact monitor_base
  case stack => omega
  case prev_link => exact computed.entered.prev_link
  case found => exact found
  case first_slot =>
    rw [interpreter_frame_expression_stack,interpreter_frame_monitor_end,found]
    change state m' .stack_base - wordSize = _
    omega
  case empty =>
    rw [interpreter_frame_tos_address,interpreter_frame_monitor_end,found]
    change state m' .stack + wordSize = state m' .stack_base
    omega

end IcedTea.CppInterpreter

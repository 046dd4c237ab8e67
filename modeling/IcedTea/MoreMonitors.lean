import IcedTea.InterpreterState

namespace IcedTea.CppInterpreter
open Vm

section
variable [Target]

-- The compare instructions read a register as a signed word, so an address in the
-- upper half of the address space is below those of the lower half.
def address_space : Nat := if wide then 2^64 else 2^32
def signed_word (a : Int) : Int := a.bmod address_space

def compare_addresses (dst : ConditionRegister) (a b : Register) (m : Machine) : Machine :=
  m.setField dst (Field.of (signed_word (m.gpr a)) (signed_word (m.gpr b)))

-- The loop that moves the expression stack: from r3 up to r4, to r5. None is a loop
-- that has gone past r4, on round the address space.
def move_word : List Instr := [.load r0 ⟨r3,0⟩,.store r0 ⟨r5,0⟩,.addi r3 r3 wordSize,.addi r5 r5 wordSize]

def move_loop (m : Machine) : Option Machine :=
  let tested := compare_addresses cr0 r3 r4 m
  if (tested.cr cr0).lt then
    if m.gpr r3 < m.gpr r4 then move_loop (exec move_word tested) else none
  else some tested
termination_by (m.gpr r4 - m.gpr r3).toNat
decreasing_by
  rename_i below
  have pos := wordSize_pos
  have next : (exec move_word (compare_addresses cr0 r3 r4 m)).gpr r3 = m.gpr r3 + wordSize := by
    simp [move_word,step,compare_addresses]
  have end_ : (exec move_word (compare_addresses cr0 r3 r4 m)).gpr r4 = m.gpr r4 := by simp [move_word,step,compare_addresses]
  rw [next,end_]
  omega

-- Less than half of the address space apart and in order, the words between are in
-- order too.
theorem signed_between (low high a : Int) (short : 2*(high - low) < address_space) (ordered : signed_word low ≤ signed_word high)
    (above : low ≤ a) (below : a < high) : signed_word a < signed_word high := by
  unfold signed_word address_space at *
  simp only [Int.bmod_def] at *
  cases size : wide with
  | false =>
    simp only [size,Bool.false_eq_true,if_false] at *
    push_cast at *
    split_ifs at * <;> omega
  | true =>
    simp only [size,if_true] at *
    push_cast at *
    split_ifs at * <;> omega

theorem compare_addresses_spec (m : Machine) : let m' := compare_addresses cr0 r3 r4 m
    ((m'.cr cr0).lt ↔ signed_word (m.gpr r3) < signed_word (m.gpr r4)) ∧ m'.gpr = m.gpr ∧ m'.mem = m.mem ∧ Keeps [.cr cr0] m m' := by
  refine ⟨by simp [compare_addresses],rfl,rfl,fun p other => ?_⟩
  cases p with
  | cr c =>
    have apart : c ≠ cr0 := fun same => other (by simp [same])
    simp [Place.Same,compare_addresses,apart]
  | _ => rfl

theorem move_word_spec (m : Machine) : let m' := exec move_word m
    m'.gpr r3 = m.gpr r3 + wordSize ∧ m'.gpr r5 = m.gpr r5 + wordSize ∧ m'.gpr r4 = m.gpr r4 ∧
      m'.mem = m.mem.putWord wide (m.gpr r5) (m.read (m.gpr r3)) ∧ Keeps [.gpr r0,.gpr r3,.gpr r5] m m' := by
  refine ⟨?_,?_,?_,?_,(exec_keeps _ m).mono (by simp [written,move_word,Instr.written])⟩ <;> simp [move_word,step]

-- A word is stored only below the words still to be read, and r3 meets r4.
theorem move_loop_stops (n : Nat) (m : Machine) (count : m.gpr r4 = m.gpr r3 + n*wordSize) :
    ∃ m', move_loop m = some m' ∧ Cells.SameOutside (m.gpr r5) (m.gpr r5 + n*wordSize) m.mem m'.mem ∧
      Keeps [.gpr r0,.gpr r3,.gpr r5,.cr cr0] m m' := by
  have pos := wordSize_pos
  induction n generalizing m with
  | zero =>
    obtain ⟨test,_,_,kept⟩ := compare_addresses_spec m
    have same : m.gpr r4 = m.gpr r3 := by omega
    have stop : ¬ ((compare_addresses cr0 r3 r4 m).cr cr0).lt := by
      rw [test,same]
      exact Int.lt_irrefl _
    rw [move_loop]
    simp only [if_neg stop]
    exact ⟨_,rfl,Cells.SameOutside.refl _ _ _,kept.mono (by simp)⟩
  | succ n ih =>
    obtain ⟨test,gpr,mem',tested⟩ := compare_addresses_spec m
    have more := Int.mul_nonneg (Int.natCast_nonneg n) (Int.le_of_lt pos)
    have count' : m.gpr r4 = m.gpr r3 + n*wordSize + wordSize := by rw [count]; push_cast; ring
    rw [move_loop]
    by_cases go : ((compare_addresses cr0 r3 r4 m).cr cr0).lt
    · simp only [if_pos go,if_pos (show m.gpr r3 < m.gpr r4 by omega)]
      obtain ⟨src,dst,end_,mem,kept⟩ := move_word_spec (compare_addresses cr0 r3 r4 m)
      rw [gpr] at src dst end_ mem
      rw [mem'] at mem
      generalize exec move_word (compare_addresses cr0 r3 r4 m) = m₁ at *
      obtain ⟨m',moved,outside,kept'⟩ := ih m₁ (by omega)
      refine ⟨m',moved,?_,((tested.trans kept).trans kept').mono (by simp)⟩
      rw [dst] at outside
      have wider : m.gpr r5 + wordSize + n*wordSize = m.gpr r5 + ((n+1 : Nat) : Int)*wordSize := by push_cast; ring
      rw [wider] at outside
      refine Cells.SameOutside.trans ?_ (outside.mono (by omega) (Int.le_refl _))
      rw [mem]
      exact Cells.SameOutside.putWord _ _ (Int.le_refl _) (show _ + wordSize ≤ _ by omega)
    · simp only [if_neg go]
      refine ⟨_,rfl,?_,tested.mono (by simp)⟩
      rw [mem']
      exact Cells.SameOutside.refl _ _ _

-- With both addresses in one half of the address space every word is moved.
theorem move_loop_moves (n : Nat) (m m' : Machine) (below : m.gpr r5 + wordSize ≤ m.gpr r3)
    (count : m.gpr r4 = m.gpr r3 + n*wordSize) (short : 2*(n*wordSize) < address_space)
    (ordered : signed_word (m.gpr r3) ≤ signed_word (m.gpr r4)) (moved : move_loop m = some m') :
    ∀ i : Nat, i < n → m'.read (m.gpr r5 + i*wordSize) = m.read (m.gpr r3 + i*wordSize) := by
  have pos := wordSize_pos
  induction n generalizing m with
  | zero => exact fun i less => absurd less (Nat.not_lt_zero i)
  | succ n ih =>
    obtain ⟨test,gpr,mem',_⟩ := compare_addresses_spec m
    have more := Int.mul_nonneg (Int.natCast_nonneg n) (Int.le_of_lt pos)
    have count' : m.gpr r4 = m.gpr r3 + n*wordSize + wordSize := by rw [count]; push_cast; ring
    have words : ((n+1 : Nat) : Int)*wordSize = n*wordSize + wordSize := by push_cast; ring
    rw [words] at short
    have go : ((compare_addresses cr0 r3 r4 m).cr cr0).lt :=
      test.mpr (signed_between _ _ _ (by omega) ordered (Int.le_refl _) (by omega))
    rw [move_loop] at moved
    simp only [if_pos go,if_pos (show m.gpr r3 < m.gpr r4 by omega)] at moved
    obtain ⟨src,dst,end_,mem,_⟩ := move_word_spec (compare_addresses cr0 r3 r4 m)
    have read' : (compare_addresses cr0 r3 r4 m).read (m.gpr r3) = m.read (m.gpr r3) := rfl
    rw [gpr] at src dst end_ mem
    rw [mem',read'] at mem
    generalize exec move_word (compare_addresses cr0 r3 r4 m) = m₁ at *
    have next : signed_word (m₁.gpr r3) ≤ signed_word (m₁.gpr r4) := by
      rcases Int.lt_or_eq_of_le (show m₁.gpr r3 ≤ m₁.gpr r4 by omega) with less|same
      · rw [end_] at less ⊢
        exact Int.le_of_lt (signed_between _ _ _ (by omega) ordered (by omega) less)
      · rw [same]
    have later := ih m₁ (by omega) (by omega) (by omega) next moved
    obtain ⟨m₂,stopped,outside,_⟩ := move_loop_stops n m₁ (by omega)
    obtain rfl : m₂ = m' := Option.some.inj (stopped.symm.trans moved)
    rw [dst] at outside later
    rw [src] at later
    intro i less
    cases i with
    | zero =>
      have kept : m₂.read (m.gpr r5) = m₁.read (m.gpr r5) := outside.word (.inl (Int.le_refl _))
      simp only [Nat.cast_zero,Int.zero_mul,Int.add_zero]
      rw [kept,Machine.read,mem]
      exact Cells.word_putWord _ _ _
    | succ i =>
      have shift : ∀ a : Int, a + ((i+1 : Nat) : Int)*wordSize = a + wordSize + i*wordSize := by intro a; push_cast; ring
      have up := Int.mul_nonneg (Int.natCast_nonneg i) (Int.le_of_lt pos)
      rw [shift,shift,later i (by omega),Machine.read,mem]
      exact Cells.word_putWord_apart _ _ (.inl (show _ + wordSize ≤ _ by omega))

-- With r4 in the upper half and r3 in the lower one it is over before the first word.
theorem move_loop_stays (m m' : Machine) (across : ¬ signed_word (m.gpr r3) ≤ signed_word (m.gpr r4)) (moved : move_loop m = some m') :
    m'.mem = m.mem := by
  obtain ⟨test,_,mem,_⟩ := compare_addresses_spec m
  have stop : ¬ ((compare_addresses cr0 r3 r4 m).cr cr0).lt := by
    rw [test]
    omega
  rw [move_loop] at moved
  simp only [if_neg stop] at moved
  obtain rfl := Option.some.inj moved
  exact mem
end

variable [Vm]

def shift_field (f : StateField) : List Instr := [.load r3 (STATE f),.subi r3 r3 monitor_size,.store r3 (STATE f)]

-- generate_more_monitors. The last pointer moved, the address of the word
-- after the expression stack, is the address of the new monitor.
def required_room : List Instr :=
  [.loadImm r3 (frame_header + slop_factor + monitor_size),
   .load r4 (STATE .stack_limit),
   .addi r4 r4 wordSize,
   .sub r4 r4 r1]

def stack_to_move : List Instr :=
  [.load r3 (STATE .stack),
   .addi r3 r3 wordSize,
   .load r4 (STATE .stack_base),
   .subi r5 r3 monitor_size]

def move_pointers : List Instr :=
  shift_field .stack_limit ++ shift_field .stack ++ shift_field .stack_base ++
    [.loadImm r0 0,.store r0 ⟨r3,obj_offset_in_bytes⟩]

def more_monitors (m : Machine) : Option Machine :=
  let m := maybe_extend_frame r3 r4 (exec required_room m)
  (move_loop (exec stack_to_move m)).map (exec move_pointers)

-- The frame as the interpreter sees it.
def state (m : Machine) (f : StateField) : Int := m.mem.field (m.gpr Rstate) f
def slot_place (m : Machine) (i : Nat) : Int := state m .stack_base - ((i : Int)+1)*wordSize
def slot (m : Machine) (i : Nat) : Int := m.read (slot_place m i)

-- The expression stack, with the address it ends at, is in one half of the address space.
def InOneHalf (m : Machine) : Prop := signed_word (state m .stack + wordSize) ≤ signed_word (state m .stack_base)
instance (m : Machine) : Decidable (InOneHalf m) := inferInstanceAs (Decidable (_ ≤ _))

theorem shift_field_spec (m : Machine) (f : StateField) (word : f ≠ .msg) : let m' := exec (shift_field f) m
    m'.gpr r3 = state m f - monitor_size ∧ m'.mem = m.mem.setField (m.gpr Rstate) f (state m f - monitor_size) ∧
      Keeps [.gpr r3] m m' := by
  have read : m.read (m.ea (STATE f)) = state m f := by simp only [state,Cells.field,if_neg word]; rfl
  refine ⟨?_,?_,(exec_keeps _ m).mono (by simp [written,shift_field,Instr.written])⟩
  · simp only [shift_field,exec_cons,exec_nil,step,Machine.set_gpr,Machine.write_gpr,if_true,read]
  · simp only [Cells.setField,if_neg word,← read]
    simp [shift_field,step,STATE]

theorem move_pointers_spec (m : Machine) : let m' := exec move_pointers m
    m'.mem = ((((m.mem.setField (m.gpr Rstate) .stack_limit (state m .stack_limit - monitor_size)).setField
      (m.gpr Rstate) .stack (state m .stack - monitor_size)).setField
      (m.gpr Rstate) .stack_base (state m .stack_base - monitor_size))).putWord wide
      (state m .stack_base - monitor_size + obj_offset_in_bytes) 0 ∧ Keeps [.gpr r0,.gpr r3] m m' := by
  obtain ⟨_,mem₁,kept₁⟩ := shift_field_spec m .stack_limit (by decide)
  generalize first : exec (shift_field .stack_limit) m = m₁ at *
  obtain ⟨_,mem₂,kept₂⟩ := shift_field_spec m₁ .stack (by decide)
  generalize second : exec (shift_field .stack) m₁ = m₂ at *
  obtain ⟨new,mem₃,kept₃⟩ := shift_field_spec m₂ .stack_base (by decide)
  generalize third : exec (shift_field .stack_base) m₂ = m₃ at *
  have code : exec move_pointers m = exec [.loadImm r0 0,.store r0 ⟨r3,obj_offset_in_bytes⟩] m₃ := by
    simp only [move_pointers,exec_append,first,second,third]
  have state₁ : m₁.gpr Rstate = m.gpr Rstate := kept₁.gpr Rstate (by simp)
  have state₂ : m₂.gpr Rstate = m.gpr Rstate := (kept₂.gpr Rstate (by simp)).trans state₁
  have stack : state m₁ .stack = state m .stack := by
    simp only [state,state₁,mem₁,Cells.field_setField,reduceCtorEq,if_false]
  have base : state m₂ .stack_base = state m .stack_base := by
    simp only [state,state₂,mem₂,mem₁,state₁,Cells.field_setField,reduceCtorEq,if_false]
  rw [code]
  refine ⟨?_,(((kept₁.trans kept₂).trans kept₃).trans (exec_keeps _ m₃)).mono (by simp [written,Instr.written])⟩
  rw [base,state₂,mem₂,stack,state₁,mem₁] at mem₃
  rw [base] at new
  rw [← mem₃,← new]
  simp [step]

-- An interpreter frame: the link area and the spare slots, the expression
-- stack of `depth` slots, the monitors and the state object.
structure InterpreterFrame (max_stack depth monitors : Nat) (m : Machine) : Prop where
  aligned : m.gpr r1 % 16 = 0
  back_chain : m.read (m.gpr r1) = m.gpr Rstate + sizeof_BytecodeInterpreter
  monitor_base : state m .monitor_base = m.gpr Rstate
  stack_base : state m .stack_base + monitors*monitor_size = m.gpr Rstate
  stack : state m .stack = state m .stack_base - ((depth : Int)+1)*wordSize
  stack_limit : state m .stack_limit = state m .stack_base - ((max_stack : Int)+1)*wordSize
  depth : depth ≤ max_stack
  room : m.gpr r1 + frame_header + slop_factor ≤ state m .stack_limit + wordSize

theorem monitor_size_large : wordSize ≤ monitor_size := by
  have inside := obj_inside
  unfold monitor_size
  omega

theorem computed_frame (m : Machine) (aligned : m.gpr r1 % 16 = 0) :
    InterpreterFrame (stack_words false m).toNat 0 (is_synchronized m).toNat (compute_interpreter_state false m) := by
  have computed := compute_interpreter_state_spec false m
  have entered := computed.entered
  have words : ((stack_words false m).toNat : Int) = stack_words false m := Int.toNat_of_nonneg (stack_words_nonneg false m)
  have bytes : ((is_synchronized m).toNat : Int)*monitor_size = monitor_bytes (is_synchronized m) := by
    cases is_synchronized m <;> simp [monitor_bytes]
  refine ⟨computed.aligned.trans aligned,?_,entered.monitor_base,?_,?_,?_,Nat.zero_le _,?_⟩
  · rw [computed.back_chain,computed.state]; omega
  · rw [state,entered.stack_base,computed.monitor,bytes]; omega
  · rw [state,state,entered.stack_base,entered.stack]; push_cast; omega
  · rw [state,state,entered.stack_base,entered.stack_limit,words]; ring
  · have room := computed.room
    rw [state,entered.stack_limit]; omega

-- The frame once it has room for a monitor: r1 may have moved down, and what
-- is above the header is as it was.
structure Widened (m m' : Machine) : Prop where
  aligned : m'.gpr r1 % 16 = m.gpr r1 % 16
  lower : m'.gpr r1 ≤ m.gpr r1
  back_chain : m'.read (m'.gpr r1) = m.read (m.gpr r1)
  room : m'.gpr r1 + frame_header + slop_factor + monitor_size ≤ state m .stack_limit + wordSize
  mem : Cells.SameOutside (m'.gpr r1) (m'.gpr r1 + 2*wordSize) m.mem m'.mem
  keeps : Keeps [.gpr r1,.gpr r3,.gpr r4,.cr cr0] m m'

theorem widen_frame (m : Machine) : Widened m (maybe_extend_frame r3 r4 (exec required_room m)) := by
  have limit : m.read (m.ea (STATE .stack_limit)) = state m .stack_limit := rfl
  have required : (exec required_room m).gpr r3 = frame_header + slop_factor + monitor_size := by simp [required_room,step]
  have available : (exec required_room m).gpr r4 = state m .stack_limit + wordSize - m.gpr r1 := by
    rw [← limit]; simp [required_room,step,STATE]
  have top : (exec required_room m).gpr r1 = m.gpr r1 := by simp [required_room,step]
  have mem : (exec required_room m).mem = m.mem := rfl
  have kept : Keeps [.gpr r3,.gpr r4] m (exec required_room m) :=
    (exec_keeps _ m).mono (by simp [written,required_room,Instr.written])
  obtain ⟨extra,extended⟩ := maybe_extend_frame_spec (exec required_room m) r3 r4 (by decide) (by decide) (by decide)
  generalize maybe_extend_frame r3 r4 (exec required_room m) = m' at *
  have stack := extended.stack
  have aligned := extended.aligned
  have room := extended.room
  rw [top] at stack
  rw [required,available] at room
  have outside := extended.mem
  rw [mem] at outside
  have nonneg := extended.nonneg
  refine ⟨by omega,by omega,?_,by omega,outside.mono (Int.le_refl _) (by omega),(kept.trans extended.keeps).mono (by simp)⟩
  rw [extended.back_chain,top,Machine.read,mem]; rfl

-- The expression stack moved by the size of a monitor, or left where it was.
structure Shifted (depth : Nat) (m m' : Machine) : Prop where
  slots : 2*(depth*wordSize) < address_space → ∀ i, i < depth →
    m'.read (slot_place m i - monitor_size) = if InOneHalf m then slot m i else m.read (slot_place m i - monitor_size)
  mem : Cells.SameOutside (state m .stack_base - depth*wordSize - monitor_size) (state m .stack_base - monitor_size) m.mem m'.mem
  keeps : Keeps [.gpr r0,.gpr r3,.gpr r4,.gpr r5,.cr cr0] m m'

theorem shift_stack (depth : Nat) (m : Machine) (stack : state m .stack = state m .stack_base - ((depth : Int)+1)*wordSize) :
    ∃ m', move_loop (exec stack_to_move m) = some m' ∧ Shifted depth m m' := by
  have top : m.read (m.ea (STATE .stack)) = state m .stack := rfl
  have base : m.read (m.ea (STATE .stack_base)) = state m .stack_base := rfl
  have first : (exec stack_to_move m).gpr r3 = state m .stack + wordSize := by rw [← top]; simp [stack_to_move,step,STATE]
  have src : (exec stack_to_move m).gpr r3 = state m .stack_base - depth*wordSize := by
    rw [first,stack,Int.add_mul]
    omega
  have end_ : (exec stack_to_move m).gpr r4 = state m .stack_base := by rw [← base]; simp [stack_to_move,step,STATE]
  have dst : (exec stack_to_move m).gpr r5 = (exec stack_to_move m).gpr r3 - monitor_size := by simp [stack_to_move,step]
  have mem : (exec stack_to_move m).mem = m.mem := rfl
  have kept : Keeps [.gpr r3,.gpr r4,.gpr r5] m (exec stack_to_move m) :=
    (exec_keeps _ m).mono (by simp [written,stack_to_move,Instr.written])
  have large := monitor_size_large
  obtain ⟨m',moved,outside,kept'⟩ := move_loop_stops depth (exec stack_to_move m) (by omega)
  refine ⟨m',moved,fun short i less => ?_,?_,(kept.trans kept').mono (by simp)⟩
  · by_cases half : InOneHalf m
    · rw [if_pos half]
      have words := move_loop_moves depth (exec stack_to_move m) m' (by omega) (by omega) short (by rw [first,end_]; exact half) moved
      rw [dst,src] at words
      -- slot `i` is the word `depth-1-i` from the low end
      have word := words (depth-1-i) (by omega)
      have index : ((depth-1-i : Nat) : Int) = depth - 1 - i := by omega
      have low : state m .stack_base - depth*wordSize + ((depth-1-i : Nat) : Int)*wordSize = slot_place m i := by
        rw [index,slot_place]
        ring
      have there : state m .stack_base - depth*wordSize - monitor_size + ((depth-1-i : Nat) : Int)*wordSize = slot_place m i - monitor_size := by
        rw [index,slot_place]
        ring
      rw [low,there] at word
      exact word
    · rw [if_neg half,Machine.read,move_loop_stays _ m' (by rw [first,end_]; exact half) moved,mem]
      rfl
  · rw [dst,src,mem] at outside
    exact outside.mono (Int.le_refl _) (by omega)

-- What one call of generate_more_monitors does to a frame.
structure Grown (max_stack depth : Nat) (m m' : Machine) : Prop where
  depth : state m' .stack = state m' .stack_base - ((depth : Int)+1)*wordSize
  monitors : ∀ b, state m .stack_base ≤ b → b < state m .monitor_base → m'.mem b = m.mem b
  monitor_base : state m' .monitor_base = state m .monitor_base
  new_monitor : state m' .stack_base = state m .stack_base - monitor_size
  null : m'.read (state m' .stack_base + obj_offset_in_bytes) = 0
  aligned : m'.gpr r1 % 16 = 0
  back_chain : m'.read (m'.gpr r1) = m.read (m.gpr r1)
  state : m'.gpr Rstate = m'.read (m'.gpr r1) - sizeof_BytecodeInterpreter
  room : m'.gpr r1 + frame_header + slop_factor ≤ CppInterpreter.state m' .stack_limit + wordSize
  limit : CppInterpreter.state m' .stack_limit ≤ CppInterpreter.state m' .stack
  base : CppInterpreter.state m' .stack < CppInterpreter.state m' .stack_base
  max_stack : CppInterpreter.state m' .stack_limit = CppInterpreter.state m' .stack_base - ((max_stack : Int)+1)*wordSize
  lower : m'.gpr r1 ≤ m.gpr r1
  pointers : ∀ f, f ≠ .stack_base → f ≠ .stack → f ≠ .stack_limit → CppInterpreter.state m' f = CppInterpreter.state m f
  above : ∀ b, m.gpr Rstate + sizeof_BytecodeInterpreter ≤ b → m'.mem b = m.mem b
  registers : Keeps [.gpr r0,.gpr r1,.gpr r3,.gpr r4,.gpr r5,.cr cr0] m m'

-- Where the slots are afterwards there is what was in them, or what was there before.
def KeptSlots (depth : Nat) (m m' : Machine) : Prop :=
  ∀ i, i < depth → slot m' i = if InOneHalf m then slot m i else m.read (slot_place m i - monitor_size)

theorem more_monitors_grown (frame : InterpreterFrame max_stack depth monitors m) :
    ∃ m', more_monitors m = some m' ∧ Grown max_stack depth m m' ∧ (2*(depth*wordSize) < address_space → KeptSlots depth m m') := by
  obtain ⟨aligned,back_chain,monitor_base,stack_base,stack,stack_limit,few,room⟩ := frame
  have widened := widen_frame m
  unfold more_monitors
  dsimp only
  generalize maybe_extend_frame r3 r4 (exec required_room m) = m₁ at *
  have pos := wordSize_pos
  have large := monitor_size_large
  have slop : slop_factor = 2*wordSize := rfl
  have header : 2*wordSize ≤ frame_header := by have := lr_save_inside; have := lr_save_above; omega
  have above := Int.mul_nonneg (Int.natCast_nonneg monitors) (Int.le_trans (Int.le_of_lt pos) large)
  have spread := Int.mul_le_mul_of_nonneg_right (show (depth : Int) ≤ max_stack by omega) (Int.le_of_lt pos)
  have used := Int.mul_nonneg (Int.natCast_nonneg depth) (Int.le_of_lt pos)
  rw [Int.add_mul] at stack stack_limit
  have room₁ := widened.room
  -- everything from the spare slots up is out of reach of the extension
  have state₁ : m₁.gpr Rstate = m.gpr Rstate := widened.keeps.gpr Rstate (by simp)
  have fields₁ : ∀ f, state m₁ f = state m f := fun f => by
    rw [state,state₁]
    exact Cells.field_same widened.mem (.inr (by omega)) f
  have places₁ : ∀ i, slot_place m₁ i = slot_place m i := fun i => by rw [slot_place,fields₁]; rfl
  have half₁ : InOneHalf m₁ ↔ InOneHalf m := by unfold InOneHalf; rw [fields₁,fields₁]
  obtain ⟨m₂,code,shifted⟩ := shift_stack depth m₁ (by rw [fields₁,fields₁,stack,Int.add_mul])
  rw [code,Option.map_some]
  have state₂ : m₂.gpr Rstate = m.gpr Rstate := (shifted.keeps.gpr Rstate (by simp)).trans state₁
  have top₂ : m₂.gpr r1 = m₁.gpr r1 := shifted.keeps.gpr r1 (by simp)
  have moved := shifted.mem
  rw [fields₁] at moved
  have fields₂ : ∀ f, state m₂ f = state m f := fun f => by
    rw [← fields₁ f,state,state₂,state,state₁]
    exact Cells.field_same moved (.inr (by omega)) f
  obtain ⟨mem₃,kept₃⟩ := move_pointers_spec m₂
  generalize exec move_pointers m₂ = m₃ at *
  rw [state₂,fields₂,fields₂,fields₂] at mem₃
  have state₃ : m₃.gpr Rstate = m.gpr Rstate := (kept₃.gpr Rstate (by simp)).trans state₂
  have top₃ : m₃.gpr r1 = m₁.gpr r1 := (kept₃.gpr r1 (by simp)).trans top₂
  have inside := obj_inside
  have size : monitor_size = interpreter_frame_monitor_size*wordSize := rfl
  have null : m₃.read (state m .stack_base - monitor_size + obj_offset_in_bytes) = 0 := by
    rw [Machine.read,mem₃]
    exact Cells.word_putWord _ _ _
  -- the pointers are above the new monitor's object
  have fields₃ : ∀ f, state m₃ f = if f = .stack_base then state m .stack_base - monitor_size else
      if f = .stack then state m .stack - monitor_size else
      if f = .stack_limit then state m .stack_limit - monitor_size else state m f := fun f => by
    have apart : ∀ mem : Cells, Cells.SameOutside (state m .stack_base - monitor_size) (state m .stack_base) mem
        (mem.putWord wide (state m .stack_base - monitor_size + obj_offset_in_bytes) 0) :=
      fun mem => Cells.SameOutside.putWord mem 0 (by omega) (show _ + wordSize ≤ _ by omega)
    rw [state,state₃,mem₃,Cells.field_same (apart _) (.inr (by omega)) f,Cells.field_setField,Cells.field_setField,Cells.field_setField,
      show m₂.mem.field (m.gpr Rstate) f = state m f by rw [← fields₂ f,state,state₂]]
  have others : ∀ b, b < state m .stack_base - monitor_size ∨ state m .stack_base ≤ b → b < m.gpr Rstate → m₃.mem b = m₂.mem b := by
    intro b outside below
    have outer := fun v f mem => Cells.setField_outside mem (m.gpr Rstate) v f b (.inl below)
    rw [mem₃,Cells.putWord_outside _ _ (show _ ∨ _ + wordSize ≤ _ by omega),outer,outer,outer]
  have base₃ := fields₃ .stack_base
  have stack₃ := fields₃ .stack
  have limit₃ := fields₃ .stack_limit
  have monitors₃ := fields₃ .monitor_base
  simp only [reduceCtorEq,if_true,if_false] at base₃ stack₃ limit₃ monitors₃
  have chain : m₃.read (m₃.gpr r1) = m.read (m.gpr r1) := by
    rw [top₃,← widened.back_chain]
    refine Cells.word_congr fun b low high => ?_
    change b < _ + wordSize at high
    rw [others b (.inl (by omega)) (by omega),moved b (.inl (by omega))]
  have object := sizeof_large
  refine ⟨m₃,rfl,⟨?_,fun b low high => ?_,monitors₃,base₃,by rw [base₃]; exact null,?_,chain,?_,?_,?_,?_,?_,?_,
    fun f base stack limit => ?_,fun b high => ?_,?_⟩,fun short i less => ?_⟩
  · rw [stack₃,base₃,stack,Int.add_mul]; omega
  · rw [monitor_base] at high
    rw [others b (.inr low) high,moved b (.inr (by omega)),widened.mem b (.inr (by omega))]
  · rw [top₃,widened.aligned]; exact aligned
  · rw [state₃,chain,back_chain]; omega
  · rw [top₃,limit₃]; omega
  · rw [limit₃,stack₃,stack_limit,stack]; omega
  · rw [stack₃,base₃,stack]; omega
  · rw [limit₃,base₃,stack_limit,Int.add_mul]; omega
  · rw [top₃]; exact widened.lower
  · rw [fields₃,if_neg base,if_neg stack,if_neg limit]
  · have outer := fun v f mem => Cells.setField_outside mem (m.gpr Rstate) v f b (.inr high)
    rw [mem₃,Cells.putWord_outside _ _ (show _ ∨ _ + wordSize ≤ _ by omega),outer,outer,outer,moved b (.inr (by omega)),
      widened.mem b (.inr (by omega))]
  · exact ((widened.keeps.trans shifted.keeps).trans kept₃).mono (by simp)
  · have deep := Int.mul_le_mul_of_nonneg_right (show (1 : Int) ≤ (i : Int)+1 by omega) (Int.le_of_lt pos)
    have reach := Int.mul_le_mul_of_nonneg_right (show (i : Int)+1 ≤ depth by omega) (Int.le_of_lt pos)
    have place : slot_place m i = state m .stack_base - ((i : Int)+1)*wordSize := rfl
    have old : slot m₁ i = slot m i := by
      rw [slot,places₁]
      exact widened.mem.word (.inr (by omega))
    have under : m₁.read (slot_place m i - monitor_size) = m.read (slot_place m i - monitor_size) := widened.mem.word (.inr (by omega))
    have found := shifted.slots short i less
    rw [places₁,old,under] at found
    simp only [half₁] at found
    rw [← found]
    have there : slot_place m₃ i = slot_place m i - monitor_size := by
      rw [slot_place,base₃,place]
      omega
    rw [slot,there]
    refine Cells.word_congr fun b low high => others b (.inl ?_) ?_
    all_goals change b < _ + wordSize at high; omega

theorem grown_frame (frame : InterpreterFrame max_stack depth monitors m) (grown : Grown max_stack depth m m') :
    InterpreterFrame max_stack depth (monitors+1) m' := by
  have state := grown.registers.gpr Rstate (by simp)
  refine ⟨grown.aligned,?_,?_,?_,grown.depth,grown.max_stack,frame.depth,grown.room⟩
  · have := grown.state; omega
  · rw [grown.monitor_base,frame.monitor_base,state]
  · have base := frame.stack_base
    rw [grown.new_monitor,state,← base]
    push_cast
    ring

-- Between two calls the interpreter pushes and pops, with whatever values, and
-- may store anywhere but to the back chain and the pointers to the frame.
structure PushesAndPops (max_stack : Nat) (m m' : Machine) : Prop where
  stack_pointer : m'.gpr r1 = m.gpr r1
  frame_state : m'.gpr Rstate = m.gpr Rstate
  back_chain : m'.read (m.gpr r1) = m.read (m.gpr r1)
  pointers : ∀ f, f = .stack_base ∨ f = .stack_limit ∨ f = .monitor_base → state m' f = state m f
  stack : ∃ depth : Nat, depth ≤ max_stack ∧ state m' .stack = state m .stack_base - ((depth : Int)+1)*wordSize

-- Every state of the frame, from its building on.
inductive Reached (m₀ : Machine) : Machine → Prop where
  | built : Reached m₀ (compute_interpreter_state false m₀)
  | interpreter (run : Reached m₀ m) (moved : PushesAndPops (stack_words false m₀).toNat m m') : Reached m₀ m'
  | more_monitors (run : Reached m₀ m) (grown : more_monitors m = some m') : Reached m₀ m'

theorem pushes_and_pops_frame (frame : InterpreterFrame max_stack depth monitors m) (moved : PushesAndPops max_stack m m') :
    ∃ depth', InterpreterFrame max_stack depth' monitors m' := by
  obtain ⟨depth',few,stack⟩ := moved.stack
  have base := moved.pointers .stack_base (.inl rfl)
  have limit := moved.pointers .stack_limit (.inr (.inl rfl))
  refine ⟨depth',?_,?_,?_,?_,?_,?_,few,?_⟩
  · rw [moved.stack_pointer]; exact frame.aligned
  · rw [moved.stack_pointer,moved.back_chain,moved.frame_state]; exact frame.back_chain
  · rw [moved.pointers .monitor_base (.inr (.inr rfl)),moved.frame_state]; exact frame.monitor_base
  · rw [base,moved.frame_state]; exact frame.stack_base
  · rw [base]; exact stack
  · rw [base,limit]; exact frame.stack_limit
  · rw [moved.stack_pointer,limit]; exact frame.room

theorem reached_frame (aligned : m₀.gpr r1 % 16 = 0) (run : Reached m₀ m) :
    ∃ depth monitors, InterpreterFrame (stack_words false m₀).toNat depth monitors m := by
  induction run with
  | built => exact ⟨0,_,computed_frame m₀ aligned⟩
  | interpreter _ moved ih =>
    obtain ⟨_,monitors,frame⟩ := ih
    obtain ⟨depth',frame'⟩ := pushes_and_pops_frame frame moved
    exact ⟨depth',monitors,frame'⟩
  | more_monitors _ code ih =>
    obtain ⟨depth,monitors,frame⟩ := ih
    obtain ⟨m',code',grown,_⟩ := more_monitors_grown frame
    obtain rfl := Option.some.inj (code'.symm.trans code)
    exact ⟨depth,monitors+1,grown_frame frame grown⟩

-- The expression stack of a method is short of half of the address space.
theorem stack_words_small (m₀ : Machine) : 2*((stack_words false m₀).toNat*wordSize) < address_space := by
  have words : stack_words false m₀ < 2^16 := by
    unfold stack_words Machine.read16
    rw [if_neg Bool.false_ne_true]
    split <;> omega
  have nonneg := stack_words_nonneg false m₀
  unfold address_space wordSize Cells.width
  split <;> omega

-- Each call, in every run, keeps the monitors, adds one free monitor and leaves room
-- in the frame. It keeps the expression stack if that is in one half of the address
-- space, and else only if the words below were the same already.
theorem more_monitors_runs (m₀ : Machine) (aligned : m₀.gpr r1 % 16 = 0) (run : Reached m₀ m) :
    ∃ depth : Nat, depth ≤ (stack_words false m₀).toNat ∧ state m .stack = state m .stack_base - ((depth : Int)+1)*wordSize ∧
      ∃ m', more_monitors m = some m' ∧ Grown (stack_words false m₀).toNat depth m m' ∧
        ((∀ i, i < depth → slot m' i = slot m i) ↔
          InOneHalf m ∨ ∀ i, i < depth → m.read (slot_place m i - monitor_size) = slot m i) := by
  obtain ⟨depth,monitors,frame⟩ := reached_frame aligned run
  obtain ⟨m',code,grown,slots⟩ := more_monitors_grown frame
  have small := stack_words_small m₀
  have few := Int.mul_le_mul_of_nonneg_right (show (depth : Int) ≤ (stack_words false m₀).toNat by have := frame.depth; omega)
    (Int.le_of_lt wordSize_pos)
  have kept := slots (by omega)
  refine ⟨depth,frame.depth,frame.stack,m',code,grown,?_⟩
  by_cases half : InOneHalf m
  · exact iff_of_true (fun i less => by rw [kept i less,if_pos half]) (.inl half)
  · constructor
    · exact fun same => .inr fun i less => by rw [← same i less,kept i less,if_neg half]
    · rintro (one_half|same) i less
      · exact absurd one_half half
      · rw [kept i less,if_neg half,same i less]

-- A frame with one monitor, its object set, and three slots, under a caller with
-- its stack pointer at `top`.
def plain_caller (top : Int) : Machine :=
  ⟨fun r => if r = r1 then top else if r = Rmethod then 0x1000 else 0,fun _ => 0,fun _ => 0,0,0,fun b => if b = 0x1000 then 3*2^16 else 0⟩
def with_monitor (top : Int) : Machine := (more_monitors (compute_interpreter_state false (plain_caller top))).getD (plain_caller top)
def push (v : Int) (m : Machine) : Machine :=
  {m with mem := (m.mem.putWord wide (state m .stack) v).setField (m.gpr Rstate) .stack (state m .stack - wordSize)}
def three_slots (top : Int) : Machine :=
  let m := with_monitor top
  push 3 (push 2 (push 1 {m with mem := m.mem.putWord wide (state m .stack_base + obj_offset_in_bytes) 0x5000}))

omit [Vm] in
theorem three_slots_reached (top : Int) (known : top = 0x70000090 ∨ top = 0x80000090) : letI := Vm.plain ppc32
    Reached (plain_caller top) (three_slots top) := by
  let := Vm.plain ppc32
  have grown : more_monitors (compute_interpreter_state false (plain_caller top)) = some (with_monitor top) := by
    obtain ⟨m,code,_⟩ := more_monitors_grown (computed_frame (plain_caller top) (by rcases known with rfl|rfl <;> rfl))
    rw [with_monitor,code]
    rfl
  refine .interpreter (.more_monitors .built grown) ⟨?_,?_,?_,?_,3,?_,?_⟩
  · rcases known with rfl|rfl <;> decide +kernel
  · rcases known with rfl|rfl <;> decide +kernel
  · rcases known with rfl|rfl <;> decide +kernel
  · rintro f (rfl|rfl|rfl) <;> rcases known with rfl|rfl <;> decide +kernel
  · rcases known with rfl|rfl <;> decide +kernel
  · rcases known with rfl|rfl <;> decide +kernel

omit [Vm] in
theorem more_monitors_runs_three : letI := Vm.plain ppc32
    let m₀ := plain_caller 0x70000090
    let m := three_slots 0x70000090
    ∃ depth : Nat, depth ≤ (stack_words false m₀).toNat ∧ state m .stack = state m .stack_base - ((depth : Int)+1)*wordSize ∧
      ∃ m', more_monitors m = some m' ∧ Grown (stack_words false m₀).toNat depth m m' ∧ ∀ i, i < depth → slot m' i = slot m i := by
  let := Vm.plain ppc32
  obtain ⟨depth,few,stack,m',code,grown,kept⟩ := more_monitors_runs _ rfl (three_slots_reached 0x70000090 (.inl rfl))
  exact ⟨depth,few,stack,m',code,grown,kept.mpr (.inl (by decide +kernel))⟩

omit [Vm] in
-- Across 0x80000000 the three slots are left behind.
theorem slots_left_behind : ¬ ∀ (_ : Vm) (m₀ m : Machine), m₀.gpr r1 % 16 = 0 → Reached m₀ m →
    ∀ depth : Nat, state m .stack = state m .stack_base - ((depth : Int)+1)*wordSize →
      ∃ m', more_monitors m = some m' ∧ ∀ i, i < depth → slot m' i = slot m i := by
  intro always
  let := Vm.plain ppc32
  obtain ⟨m',code,kept⟩ := always (Vm.plain ppc32) _ _ rfl (three_slots_reached 0x80000090 (.inr rfl)) 3 (by decide +kernel)
  have slots : (more_monitors (three_slots 0x80000090)).map (fun m => slot m 1) = some 0 := by decide +kernel
  rw [code,Option.map_some,kept 1 (by decide)] at slots
  exact absurd slots (by decide +kernel)

end IcedTea.CppInterpreter

import IcedTea.MacroAssembler

namespace IcedTea.CppInterpreter
open StackFrame (link_area_words min_params lr_save_offset back_chain_offset StackAlignmentInBytes)
open Vm

def JVM_ACC_STATIC : Int := 0x0008
def JVM_ACC_SYNCHRONIZED : Int := 0x0020

section
variable [Target]

def LogBytesPerWord : Nat := match Target.cpu with | .ppc32 => 2 | .ppc64 => 3

-- Two extra slots on the expression stack.
def slop_factor : Int := 2*wordSize

-- The link area and the parameter list space: the size of an empty frame.
def frame_header : Int := StackFrame.unaligned_size {}

theorem frame_header_eq : frame_header = ((link_area_words + min_params : Nat) : Int)*wordSize := by
  unfold frame_header StackFrame.unaligned_size StackFrame.unaligned_words link_area_words min_params
  cases Target.cpu <;> simp

theorem start_of_locals_eq : StackFrame.start_of_locals {} = frame_header := by
  rw [frame_header_eq,StackFrame.start_of_locals,StackFrame.start_of_locals_words]
  unfold min_params
  cases Target.cpu <;> simp

-- The link area of a frame, the LR save word included, is in its header.
theorem lr_save_inside : (lr_save_offset : Int)*wordSize + wordSize ≤ frame_header := by
  have pos := wordSize_pos
  rw [frame_header_eq]
  unfold lr_save_offset link_area_words min_params
  cases Target.cpu <;> simp only <;> push_cast <;> omega

theorem lr_save_above : wordSize ≤ (lr_save_offset : Int)*wordSize := by
  have pos := wordSize_pos
  unfold lr_save_offset
  cases Target.cpu <;> simp only <;> push_cast <;> omega

theorem shift_words (x : Int) : x * 2^LogBytesPerWord = x*wordSize := by
  unfold LogBytesPerWord
  cases cpu : Target.cpu with
  | ppc32 => rw [wordSize_ppc32 cpu]; rfl
  | ppc64 => rw [wordSize_ppc64 cpu]; rfl

-- One pass of a loop closed by bdnz, which counts CTR down to zero in its own width.
def bdnz (body : List Instr) : Nat → Machine → Machine
  | 0,m => m
  | n+1,m =>
    let m := exec body m
    bdnz body n {m with ctr := m.ctr-1}

def bdnz_loop (body : List Instr) (m : Machine) : Machine :=
  bdnz body ((m.ctr-1) % 2^(8*wordSize).toNat + 1).toNat m
end

variable [Vm]

def size_of_parameters_addr : Address := ⟨Rmethod,size_of_parameters_offset⟩
def size_of_locals_addr : Address := ⟨Rmethod,size_of_locals_offset⟩

def get_mirror_handle (dst : Register) : List Instr :=
  [.load dst ⟨Rmethod,constants_offset⟩,
   .load dst ⟨dst,pool_holder_offset_in_bytes⟩,
   .load dst ⟨dst,klass_part_offset_in_bytes + java_mirror_offset_in_bytes⟩]

-- generate_adjust_callers_stack: room for the locals that are not parameters,
-- which are set to zero.
def zero_locals : List Instr := [.store r0 ⟨r7,0⟩,.subi r7 r7 wordSize]

def adjust_callers_stack (m : Machine) : Machine :=
  let m := exec [.lhz r3 size_of_parameters_addr,.lhz r4 size_of_locals_addr,.compare cr0 r3 r4] m
  if (m.cr cr0).eq then m else
    let m := exec [.shift_left r5 r4 LogBytesPerWord,.sub r6 Rlocals r1,.subi r6 r6 (frame_header + slop_factor)] m
    let m := maybe_extend_frame r5 r6 m
    let m := exec [.shift_left r7 r3 LogBytesPerWord,.sub r7 Rlocals r7,.sub r0 r4 r3,.mtctr r0,.loadImm r0 0] m
    bdnz_loop zero_locals m

-- generate_compute_interpreter_state, in the order of its comments.
def access_flags_conditions : List Instr :=
  [.lwz r3 ⟨Rmethod,access_flags_offset⟩,
   .andi_ r0 r3 JVM_ACC_SYNCHRONIZED,.compareImm CRsync r0 JVM_ACC_SYNCHRONIZED,
   .andi_ r0 r3 JVM_ACC_STATIC,.compareImm CRstatic r0 JVM_ACC_STATIC]

def basic_frame_size : Int := frame_header + sizeof_BytecodeInterpreter + slop_factor

-- Code that a `bne` on the field skips.
def if_eq (c : ConditionRegister) (code : List Instr) (m : Machine) : Machine :=
  if (m.cr c).eq then exec code m else m

def calculate_frame_size (native : Bool) (m : Machine) : Machine :=
  let m :=
    if native then exec [.loadImm r4 basic_frame_size] m
    else exec [.lhz r3 ⟨Rmethod,max_stack_offset⟩,.shift_left r3 r3 LogBytesPerWord,.addi r4 r3 basic_frame_size] m
  let m := if_eq CRsync [.addi r4 r4 monitor_size] m
  exec (calc_padding_for_alignment r5 r4 StackAlignmentInBytes ++ [.add r4 r4 r5]) m

def create_frame : List Instr :=
  [.mflr r0,.store r0 ⟨r1,lr_save_offset*wordSize⟩,.neg r0 r4,.store_update_indexed r1 r1 r0]

def calculate_addresses (native : Bool) (m : Machine) : Machine :=
  let m := exec [.addi r6 r1 (StackFrame.start_of_locals {} + slop_factor - wordSize),.add r6 r6 r5] m
  let m := if native then exec [.mr r7 r6] m else exec [.add r7 r6 r3] m
  let m := exec [.addi Rmonitor r7 wordSize,.mr r8 Rmonitor] m
  let m := if_eq CRsync [.addi r8 r8 monitor_size] m
  exec [.mr r0 Rstate,.mr Rstate r8] m

def initialise_pointers : List Instr :=
  [.store Rlocals (STATE .locals),
   .store Rmethod (STATE .method),
   .store Rstate (STATE .self_link),
   .store r0 (STATE .prev_link),
   .store r6 (STATE .stack_limit),
   .store r7 (STATE .stack),
   .store Rmonitor (STATE .stack_base),
   .store r8 (STATE .monitor_base),
   .store Rthread (STATE .thread)]

def initialise_code (native : Bool) : List Instr :=
  (if native then []
   else [.load r3 ⟨Rmethod,const_offset⟩,.addi r3 r3 codes_offset,.store r3 (STATE .bcp)]) ++
  [.load r3 ⟨Rmethod,constants_offset⟩,
   .load r3 ⟨r3,cache_offset_in_bytes⟩,
   .store r3 (STATE .constants)]

def initialise_msg : List Instr := [.loadImm r3 (message .method_entry),.stw r3 (STATE .msg)]

def initialise_rest (native : Bool) : List Instr :=
  [.loadImm r3 0] ++
  (if native then [.store r3 (STATE .bcp)] else []) ++
  [.store r3 (STATE .oop_temp),
   .store r3 (STATE .mdx),
   .store r3 (STATE .callee)]

def initialise_state (native : Bool) : List Instr :=
  initialise_pointers ++ initialise_code native ++ initialise_msg ++ initialise_rest native

def initialise_monitor (m : Machine) : Machine :=
  if (m.cr CRsync).eq then
    let m := if (m.cr CRstatic).eq then exec (get_mirror_handle r3) m else exec [.load r3 ⟨Rlocals,0⟩] m
    exec [.store r3 ⟨Rmonitor,obj_offset_in_bytes⟩] m
  else m

def compute_interpreter_state (native : Bool) (m : Machine) : Machine :=
  let m := exec access_flags_conditions m
  let m := calculate_frame_size native m
  let m := exec create_frame m
  let m := calculate_addresses native m
  let m := exec (initialise_state native) m
  initialise_monitor m

def unwind_interpreter_state : List Instr :=
  [.load Rstate (STATE .prev_link),
   .load r1 ⟨r1,back_chain_offset*wordSize⟩,
   .load r0 ⟨r1,lr_save_offset*wordSize⟩,
   .mtlr r0]

-- What the code reads of the method.
def stack_words (native : Bool) (m : Machine) : Int :=
  if native then 0 else m.read16 (m.ea ⟨Rmethod,max_stack_offset⟩)
def is_synchronized (m : Machine) : Bool :=
  andImmediate (m.read32 (m.ea ⟨Rmethod,access_flags_offset⟩)) JVM_ACC_SYNCHRONIZED = JVM_ACC_SYNCHRONIZED
def is_static (m : Machine) : Bool :=
  andImmediate (m.read32 (m.ea ⟨Rmethod,access_flags_offset⟩)) JVM_ACC_STATIC = JVM_ACC_STATIC

def monitor_bytes (synchronized : Bool) : Int := if synchronized then monitor_size else 0
def frame_content (words : Int) (synchronized : Bool) : Int := words*wordSize + basic_frame_size + monitor_bytes synchronized

theorem if_eq_keeps (c : ConditionRegister) (code : List Instr) (m : Machine) : Keeps (written code) m (if_eq c code m) := by
  unfold if_eq
  split
  · exact exec_keeps code m
  · exact Keeps.refl _ m

theorem access_flags_spec (m : Machine) : let m' := exec access_flags_conditions m
    ((m'.cr CRsync).eq ↔ is_synchronized m = true) ∧ ((m'.cr CRstatic).eq ↔ is_static m = true) ∧ m'.mem = m.mem ∧
      Keeps [.gpr r0,.gpr r3,.cr cr0,.cr CRsync,.cr CRstatic] m m' := by
  refine ⟨?_,?_,rfl,(exec_keeps _ m).mono (by simp [written,access_flags_conditions,Instr.written])⟩
  · have test : ((exec access_flags_conditions m).cr CRsync).eq ↔
        andImmediate (m.read32 (m.ea ⟨Rmethod,access_flags_offset⟩)) JVM_ACC_SYNCHRONIZED = JVM_ACC_SYNCHRONIZED := by
      simp [access_flags_conditions,step]
    exact test.trans decide_eq_true_iff.symm
  · have test : ((exec access_flags_conditions m).cr CRstatic).eq ↔
        andImmediate (m.read32 (m.ea ⟨Rmethod,access_flags_offset⟩)) JVM_ACC_STATIC = JVM_ACC_STATIC := by
      simp [access_flags_conditions,step]
    exact test.trans decide_eq_true_iff.symm

theorem calculate_frame_size_spec (native : Bool) (m : Machine) (synchronized : Bool)
    (sync : (m.cr CRsync).eq ↔ synchronized = true) : let m' := calculate_frame_size native m
    let content := frame_content (stack_words native m) synchronized
    m'.gpr r4 = content + -content % 16 ∧ m'.gpr r5 = -content % 16 ∧
      (native = false → m'.gpr r3 = stack_words native m * wordSize) ∧ m'.mem = m.mem ∧
      Keeps [.gpr r3,.gpr r4,.gpr r5,.cr cr0] m m' := by
  let m₁ := if native then exec [.loadImm r4 basic_frame_size] m
    else exec [.lhz r3 ⟨Rmethod,max_stack_offset⟩,.shift_left r3 r3 LogBytesPerWord,.addi r4 r3 basic_frame_size] m
  have first : m₁.gpr r4 = stack_words native m * wordSize + basic_frame_size ∧
      (native = false → m₁.gpr r3 = stack_words native m * wordSize) ∧ m₁.mem = m.mem ∧ Keeps [.gpr r3,.gpr r4] m m₁ := by
    cases native with
    | true => exact ⟨by simp [m₁,step,stack_words],by simp,rfl,(exec_keeps _ m).mono (by simp [written,Instr.written])⟩
    | false =>
      refine ⟨?_,fun _ => ?_,rfl,(exec_keeps _ m).mono (by simp [written,Instr.written])⟩
      · simp [m₁,step,stack_words,shift_words]
      · simp [m₁,step,stack_words,shift_words]
  let m₂ := if_eq CRsync [.addi r4 r4 monitor_size] m₁
  have second : m₂.gpr r4 = frame_content (stack_words native m) synchronized ∧ m₂.mem = m.mem ∧
      Keeps [.gpr r4] m₁ m₂ := by
    refine ⟨?_,?_,(if_eq_keeps _ _ m₁).mono (by simp [written,Instr.written])⟩
    · have field : (m₁.cr CRsync).eq ↔ synchronized = true := by rw [first.2.2.2.cr CRsync (by simp)]; exact sync
      simp only [m₂,if_eq,field,frame_content,monitor_bytes]
      split
      · simp only [exec_cons,exec_nil,step,Machine.set_gpr,if_true,first.1]
      · rw [first.1,Int.add_zero]
    · simp only [m₂,if_eq]
      split <;> exact first.2.2.1
  obtain ⟨gpr,fpr,cr,lr,ctr,mem⟩ := calc_padding_spec m₂ r5 r4
  have padding := gpr r5
  have size := gpr r4
  have stack := gpr r3
  rw [if_pos rfl,second.1] at padding
  rw [if_neg (by decide),second.1] at size
  rw [if_neg (by decide)] at stack
  have final : calculate_frame_size native m =
      step (exec (calc_padding_for_alignment r5 r4 StackAlignmentInBytes) m₂) (.add r4 r4 r5) := by
    rw [calculate_frame_size,exec_append]
    rfl
  rw [final]
  refine ⟨?_,?_,fun java => ?_,mem.trans second.2.1,?_⟩
  · simp only [step,Machine.set_gpr,if_true,size,padding]
  · simp only [step,Machine.set_gpr]
    rw [if_neg (by decide),padding]
  · simp only [step,Machine.set_gpr]
    rw [if_neg (by decide),stack,second.2.2.gpr r3 (by simp),first.2.1 java]
  · exact ((first.2.2.2.trans second.2.2).trans ((exec_keeps _ m₂).trans (step_keeps _ _))).mono
      (by simp [written,calc_padding_for_alignment,Instr.written])

theorem create_frame_spec (m : Machine) : let m' := exec create_frame m
    m'.gpr r1 = m.gpr r1 - m.gpr r4 ∧
      m'.mem = (m.mem.putWord wide (m.gpr r1 + lr_save_offset*wordSize) m.lr).putWord wide (m.gpr r1 - m.gpr r4) (m.gpr r1) ∧
      Keeps [.gpr r0,.gpr r1] m m' := by
  refine ⟨?_,?_,(exec_keeps _ m).mono (by simp [written,create_frame,Instr.written])⟩
  · simp [create_frame,step,Int.sub_eq_add_neg]
  · simp [create_frame,step,Int.sub_eq_add_neg]

theorem calculate_addresses_spec (native : Bool) (m : Machine) (synchronized : Bool)
    (sync : (m.cr CRsync).eq ↔ synchronized = true) (words : Int) (size : native = false → m.gpr r3 = words*wordSize)
    (none : native = true → words = 0) : let m' := calculate_addresses native m
    let limit := m.gpr r1 + frame_header + slop_factor - wordSize + m.gpr r5
    m'.gpr r6 = limit ∧ m'.gpr r7 = limit + words*wordSize ∧ m'.gpr Rmonitor = limit + words*wordSize + wordSize ∧
      m'.gpr r8 = limit + words*wordSize + wordSize + monitor_bytes synchronized ∧ m'.gpr Rstate = m'.gpr r8 ∧
      m'.gpr r0 = m.gpr Rstate ∧ m'.mem = m.mem ∧
      Keeps [.gpr r0,.gpr r6,.gpr r7,.gpr r8,.gpr Rmonitor,.gpr Rstate] m m' := by
  let m₁ := exec [.addi r6 r1 (StackFrame.start_of_locals {} + slop_factor - wordSize),.add r6 r6 r5] m
  let m₂ := if native then exec [.mr r7 r6] m₁ else exec [.add r7 r6 r3] m₁
  let m₃ := exec [.addi Rmonitor r7 wordSize,.mr r8 Rmonitor] m₂
  let m₄ := if_eq CRsync [.addi r8 r8 monitor_size] m₃
  have limit : m₁.gpr r6 = m.gpr r1 + frame_header + slop_factor - wordSize + m.gpr r5 := by
    simp [m₁,step,start_of_locals_eq]
    ring
  have kept₁ : Keeps [.gpr r6] m m₁ := (exec_keeps _ m).mono (by simp [written,Instr.written])
  have stack : m₂.gpr r7 = m₁.gpr r6 + words*wordSize ∧ m₂.mem = m.mem ∧ Keeps [.gpr r7] m₁ m₂ := by
    cases native with
    | true => exact ⟨by simp [m₂,step,none rfl],rfl,(exec_keeps _ m₁).mono (by simp [written,Instr.written])⟩
    | false =>
      have java : m₁.gpr r3 = words*wordSize := (kept₁.gpr r3 (by simp)).trans (size rfl)
      simp only [r3] at java
      exact ⟨by simp [m₂,step,java],rfl,(exec_keeps _ m₁).mono (by simp [written,Instr.written])⟩
  have kept₃ : Keeps [.gpr Rmonitor,.gpr r8] m₂ m₃ := (exec_keeps _ m₂).mono (by simp [written,Instr.written])
  have kept₄ : Keeps [.gpr r8] m₃ m₄ := (if_eq_keeps _ _ m₃).mono (by simp [written,Instr.written])
  have base : m₃.gpr Rmonitor = m₂.gpr r7 + wordSize ∧ m₃.gpr r8 = m₂.gpr r7 + wordSize := by constructor <;> simp [m₃,step]
  have monitors : m₄.gpr r8 = m₂.gpr r7 + wordSize + monitor_bytes synchronized ∧ m₄.mem = m.mem := by
    have field : (m₃.cr CRsync).eq ↔ synchronized = true := by
      rw [kept₃.cr CRsync (by simp),stack.2.2.cr CRsync (by simp),kept₁.cr CRsync (by simp)]
      exact sync
    simp only [m₄,if_eq,field,monitor_bytes]
    split
    · exact ⟨by simp only [exec_cons,exec_nil,step,Machine.set_gpr,if_true,base.2],stack.2.1⟩
    · exact ⟨by rw [base.2,Int.add_zero],stack.2.1⟩
  have final : calculate_addresses native m = exec [.mr r0 Rstate,.mr Rstate r8] m₄ := rfl
  have kept : Keeps [.gpr r6,.gpr r7,.gpr Rmonitor,.gpr r8] m m₄ :=
    (((kept₁.trans stack.2.2).trans kept₃).trans kept₄).mono (by simp)
  rw [final]
  have last : ∀ r, r ≠ r0 → r ≠ Rstate → (exec [.mr r0 Rstate,.mr Rstate r8] m₄).gpr r = m₄.gpr r :=
    fun r zero state => (exec_keeps _ m₄).gpr r (by simp [written,Instr.written]; exact ⟨zero,state⟩)
  refine ⟨?_,?_,?_,?_,?_,?_,monitors.2,(kept.trans (exec_keeps _ m₄)).mono (by simp [written,Instr.written])⟩
  · rw [last r6 (by decide) (by decide),kept₄.gpr r6 (by simp),kept₃.gpr r6 (by simp),stack.2.2.gpr r6 (by simp),limit]
  · rw [last r7 (by decide) (by decide),kept₄.gpr r7 (by simp),kept₃.gpr r7 (by simp),stack.1,limit]
  · rw [last Rmonitor (by decide) (by decide),kept₄.gpr Rmonitor (by simp),base.1,stack.1,limit]
  · rw [last r8 (by decide) (by decide),monitors.1,stack.1,limit]
  · simp [step]
  · have state := kept.gpr Rstate (by simp)
    simp only [Rstate] at state
    simp [step,state]

-- Code that stores to fields of the state object and nowhere else.
inductive StateCode : Instr → Option StateField → Prop where
  | store (r : Register) (f : StateField) (word : f ≠ .msg) : StateCode (.store r (STATE f)) (some f)
  | stw (r : Register) : StateCode (.stw r (STATE .msg)) (some .msg)
  | load (dst : Register) (src : Address) (other : dst ≠ Rstate) : StateCode (.load dst src) none
  | loadImm (dst : Register) (v : Int) (other : dst ≠ Rstate) : StateCode (.loadImm dst v) none
  | addi (dst a : Register) (v : Int) (other : dst ≠ Rstate) : StateCode (.addi dst a v) none
  | subi (dst a : Register) (v : Int) (other : dst ≠ Rstate) : StateCode (.subi dst a v) none

theorem state_step (code : StateCode i target) (m : Machine) : (step m i).gpr Rstate = m.gpr Rstate ∧
    ((step m i).mem = m.mem ∧ target = none ∨
      ∃ f v, target = some f ∧ (step m i).mem = m.mem.setField (m.gpr Rstate) f v) := by
  cases code with
  | store r f word => exact ⟨rfl,.inr ⟨f,m.gpr r,rfl,by simp only [Cells.setField,if_neg word]; rfl⟩⟩
  | stw r => exact ⟨rfl,.inr ⟨.msg,m.gpr r,rfl,by simp only [Cells.setField,if_true]; rfl⟩⟩
  | load dst src other => exact ⟨by simp only [step,Machine.set_gpr]; exact if_neg (Ne.symm other),.inl ⟨rfl,rfl⟩⟩
  | loadImm dst v other => exact ⟨by simp only [step,Machine.set_gpr]; exact if_neg (Ne.symm other),.inl ⟨rfl,rfl⟩⟩
  | addi dst a v other => exact ⟨by simp only [step,Machine.set_gpr]; exact if_neg (Ne.symm other),.inl ⟨rfl,rfl⟩⟩
  | subi dst a v other => exact ⟨by simp only [step,Machine.set_gpr]; exact if_neg (Ne.symm other),.inl ⟨rfl,rfl⟩⟩

-- Such code changes only the fields it names.
theorem state_code (code : List.Forall₂ StateCode l targets) (m : Machine) : (exec l m).gpr Rstate = m.gpr Rstate ∧
    (∀ f, some f ∉ targets → (exec l m).mem.field (m.gpr Rstate) f = m.mem.field (m.gpr Rstate) f) ∧
    Cells.SameOutside (m.gpr Rstate) (m.gpr Rstate + sizeof_BytecodeInterpreter) m.mem (exec l m).mem := by
  induction code generalizing m with
  | nil => exact ⟨rfl,fun _ _ => rfl,Cells.SameOutside.refl _ _ _⟩
  | @cons i target l targets first rest ih =>
    obtain ⟨state,mem⟩ := state_step first m
    obtain ⟨state',fields,outside⟩ := ih (step m i)
    rw [state] at state' fields outside
    refine ⟨state',fun f absent => (fields f fun member => absent (List.mem_cons_of_mem _ member)).trans ?_,?_⟩
    · rcases mem with ⟨mem,_⟩ | ⟨g,v,named,mem⟩
      · rw [mem]
      · rw [mem,Cells.field_setField,if_neg]
        rintro rfl
        exact absent (named ▸ List.mem_cons_self)
    · refine Cells.SameOutside.trans ?_ outside
      rcases mem with ⟨mem,_⟩ | ⟨g,v,_,mem⟩
      · rw [mem]; exact Cells.SameOutside.refl _ _ _
      · rw [mem]; exact Cells.setField_outside _ _ _ _

-- One store of a field, and code after it that leaves the field alone.
theorem stored_field (before after : List Instr) (r : Register) (f : StateField) (word : f ≠ .msg)
    (first : List.Forall₂ StateCode before targets) (later : List.Forall₂ StateCode after targets')
    (kept : .gpr r ∉ written before) (absent : some f ∉ targets') (m : Machine) :
    (exec (before ++ .store r (STATE f) :: after) m).mem.field (m.gpr Rstate) f = m.gpr r := by
  have state := (state_code first m).1
  have value := (exec_keeps before m).gpr r kept
  rw [exec_append,exec_cons]
  generalize exec before m = m₁ at state value
  obtain ⟨same,_⟩ := state_step (.store r f word) m₁
  have rest := (state_code later (step m₁ (.store r (STATE f)))).2.1 f absent
  rw [same,state] at rest
  rw [rest,← value,← state]
  have mem : (step m₁ (.store r (STATE f))).mem = m₁.mem.setField (m₁.gpr Rstate) f (m₁.gpr r) := by
    simp only [Cells.setField,if_neg word]; rfl
  rw [mem,Cells.field_setField,if_pos rfl]

-- The object at `s` describes a method that has just been entered.
structure Entered (s locals method prev_link stack_limit stack stack_base monitor_base thread : Int) (m : Cells) : Prop where
  locals : m.field s .locals = locals
  method : m.field s .method = method
  self_link : m.field s .self_link = s
  prev_link : m.field s .prev_link = prev_link
  stack_limit : m.field s .stack_limit = stack_limit
  stack : m.field s .stack = stack
  stack_base : m.field s .stack_base = stack_base
  monitor_base : m.field s .monitor_base = monitor_base
  thread : m.field s .thread = thread
  msg : m.field s .msg = message .method_entry

theorem entered_same (entered : Entered s locals method prev_link stack_limit stack stack_base monitor_base thread m)
    (same : Cells.SameOutside low high m m') (apart : s + sizeof_BytecodeInterpreter ≤ low ∨ high ≤ s) :
    Entered s locals method prev_link stack_limit stack stack_base monitor_base thread m' := by
  have fields := Cells.field_same same apart
  constructor
  · rw [fields]; exact entered.locals
  · rw [fields]; exact entered.method
  · rw [fields]; exact entered.self_link
  · rw [fields]; exact entered.prev_link
  · rw [fields]; exact entered.stack_limit
  · rw [fields]; exact entered.stack
  · rw [fields]; exact entered.stack_base
  · rw [fields]; exact entered.monitor_base
  · rw [fields]; exact entered.thread
  · rw [fields]; exact entered.msg

theorem stored_at (code : List.Forall₂ StateCode l targets) (k : Nat) (here : l[k]? = some (.store r (STATE f)))
    (word : f ≠ .msg) (kept : .gpr r ∉ written (l.take k)) (absent : some f ∉ targets.drop (k+1)) (m : Machine) :
    (exec l m).mem.field (m.gpr Rstate) f = m.gpr r := by
  obtain ⟨inside,value⟩ := List.getElem?_eq_some_iff.mp here
  have split : l = l.take k ++ .store r (STATE f) :: l.drop (k+1) := by
    rw [← value,List.cons_getElem_drop_succ,List.take_append_drop]
  have stored := stored_field (l.take k) (l.drop (k+1)) r f word (List.forall₂_take k code) (List.forall₂_drop (k+1) code) kept absent m
  rwa [← split] at stored

def initialised (native : Bool) : List (Option StateField) :=
  ([some .locals,some .method,some .self_link,some .prev_link,some .stack_limit,some .stack,some .stack_base,some .monitor_base,
    some .thread] : List (Option StateField)) ++ (if native then [] else [none,none,some .bcp]) ++
    ([none,none,some .constants,none,some .msg,none] : List (Option StateField)) ++
    (if native then [some .bcp] else []) ++ ([some .oop_temp,some .mdx,some .callee] : List (Option StateField))

theorem stores_code (stores : List (Register × StateField)) (words : ∀ s ∈ stores, s.2 ≠ .msg) :
    List.Forall₂ StateCode (stores.map fun s => .store s.1 (STATE s.2)) (stores.map fun s => some s.2) := by
  induction stores with
  | nil => exact .nil
  | cons s stores ih =>
    exact .cons (.store s.1 s.2 (words s List.mem_cons_self)) (ih fun s inside => words s (List.mem_cons_of_mem _ inside))

theorem initialise_pointers_code : List.Forall₂ StateCode initialise_pointers
    [some .locals,some .method,some .self_link,some .prev_link,some .stack_limit,some .stack,some .stack_base,some .monitor_base,
      some .thread] :=
  stores_code [(Rlocals,.locals),(Rmethod,.method),(Rstate,.self_link),(r0,.prev_link),(r6,.stack_limit),(r7,.stack),
    (Rmonitor,.stack_base),(r8,.monitor_base),(Rthread,.thread)] (by decide)

theorem initialise_rest_code (native : Bool) : List.Forall₂ StateCode (initialise_rest native)
    ([none] ++ (if native then [some .bcp] else []) ++ [some .oop_temp,some .mdx,some .callee]) := by
  have last := stores_code [(r3,.oop_temp),(r3,.mdx),(r3,.callee)] (by decide)
  cases native with
  | false => exact .cons (.loadImm r3 0 (by decide)) last
  | true => exact .cons (.loadImm r3 0 (by decide)) (.cons (.store r3 .bcp (by decide)) last)

theorem initialise_code_code (native : Bool) : List.Forall₂ StateCode (initialise_code native)
    ((if native then [] else [none,none,some .bcp]) ++ [none,none,some .constants]) := by
  have constants : List.Forall₂ StateCode
      [.load r3 ⟨Rmethod,constants_offset⟩,.load r3 ⟨r3,cache_offset_in_bytes⟩,.store r3 (STATE .constants)]
      [none,none,some .constants] :=
    .cons (.load r3 _ (by decide)) (.cons (.load r3 _ (by decide)) (.cons (.store r3 .constants (by decide)) .nil))
  cases native with
  | true => exact constants
  | false =>
    exact .cons (.load r3 _ (by decide)) (.cons (.addi r3 r3 _ (by decide)) (.cons (.store r3 .bcp (by decide)) constants))

theorem initialise_state_code (native : Bool) : List.Forall₂ StateCode (initialise_state native) (initialised native) := by
  have msg : List.Forall₂ StateCode initialise_msg [none,some .msg] := .cons (.loadImm r3 _ (by decide)) (.cons (.stw r3) .nil)
  have whole := List.rel_append (List.rel_append (List.rel_append initialise_pointers_code (initialise_code_code native)) msg)
    (initialise_rest_code native)
  cases native <;> exact whole

theorem initialise_state_msg (native : Bool) (m : Machine) :
    (exec (initialise_state native) m).mem.field (m.gpr Rstate) .msg = message .method_entry := by
  have before := List.rel_append initialise_pointers_code (initialise_code_code native)
  have state := (state_code before m).1
  rw [initialise_state,exec_append,exec_append]
  generalize exec (initialise_pointers ++ initialise_code native) m = m₁ at state
  have stored : (exec initialise_msg m₁).gpr Rstate = m.gpr Rstate ∧
      (exec initialise_msg m₁).mem = m₁.mem.setField (m.gpr Rstate) .msg (message .method_entry) := by
    simp only [Rstate] at state
    simp [initialise_msg,step,Machine.write32,Cells.setField,STATE,state]
  have kept := (state_code (initialise_rest_code native) (exec initialise_msg m₁)).2.1 .msg (by cases native <;> decide)
  rw [stored.1] at kept
  rw [kept,stored.2,Cells.field_setField,if_pos rfl]

-- The pointers are stored first, by code that writes no register.
theorem pointer_stored (native : Bool) (m : Machine) (k : Nat) (here : initialise_pointers[k]? = some (.store r (STATE f)))
    (word : f ≠ .msg) (absent : some f ∉ (initialised native).drop (k+1)) :
    (exec (initialise_state native) m).mem.field (m.gpr Rstate) f = m.gpr r := by
  obtain ⟨inside,_⟩ := List.getElem?_eq_some_iff.mp here
  have split : initialise_state native =
      initialise_pointers ++ (initialise_code native ++ initialise_msg ++ initialise_rest native) := by
    simp only [initialise_state,List.append_assoc]
  refine stored_at (initialise_state_code native) k ?_ word ?_ absent m
  · rw [split,List.getElem?_append_left inside]
    exact here
  · rw [split,List.take_append_of_le_length (Nat.le_of_lt inside)]
    intro found
    obtain ⟨i,member,found⟩ := List.mem_flatMap.mp found
    have quiet : written initialise_pointers = [] := rfl
    have listed : Place.gpr r ∈ written initialise_pointers := List.mem_flatMap.mpr ⟨i,List.mem_of_mem_take member,found⟩
    rw [quiet] at listed
    exact List.not_mem_nil listed

theorem initialise_state_spec (native : Bool) (m : Machine) : let m' := exec (initialise_state native) m
    Entered (m.gpr Rstate) (m.gpr Rlocals) (m.gpr Rmethod) (m.gpr r0) (m.gpr r6) (m.gpr r7) (m.gpr Rmonitor) (m.gpr r8)
      (m.gpr Rthread) m'.mem ∧
    Cells.SameOutside (m.gpr Rstate) (m.gpr Rstate + sizeof_BytecodeInterpreter) m.mem m'.mem ∧ Keeps [.gpr r3] m m' := by
  have msg := initialise_state_msg native m
  refine ⟨?_,(state_code (initialise_state_code native) m).2.2,?_⟩
  · constructor
    · exact pointer_stored native m 0 rfl (by decide) (by cases native <;> decide)
    · exact pointer_stored native m 1 rfl (by decide) (by cases native <;> decide)
    · exact pointer_stored native m 2 rfl (by decide) (by cases native <;> decide)
    · exact pointer_stored native m 3 rfl (by decide) (by cases native <;> decide)
    · exact pointer_stored native m 4 rfl (by decide) (by cases native <;> decide)
    · exact pointer_stored native m 5 rfl (by decide) (by cases native <;> decide)
    · exact pointer_stored native m 6 rfl (by decide) (by cases native <;> decide)
    · exact pointer_stored native m 7 rfl (by decide) (by cases native <;> decide)
    · exact pointer_stored native m 8 rfl (by decide) (by cases native <;> decide)
    · exact msg
  · refine (exec_keeps _ m).mono ?_
    cases native <;>
      simp [written,initialise_state,initialise_pointers,initialise_code,initialise_msg,initialise_rest,Instr.written]

theorem initialise_monitor_spec (m : Machine) (synchronized : Bool) (sync : (m.cr CRsync).eq ↔ synchronized = true) :
    let m' := initialise_monitor m
    (∃ lockee, m'.mem = if synchronized then m.mem.putWord wide (m.gpr Rmonitor + obj_offset_in_bytes) lockee else m.mem) ∧
      Keeps [.gpr r3] m m' := by
  unfold initialise_monitor
  simp only [sync]
  split
  · split
    · refine ⟨⟨(exec (get_mirror_handle r3) m).gpr r3,?_⟩,((exec_keeps _ m).trans (exec_keeps _ _)).mono ?_⟩
      · simp [get_mirror_handle,step]
      · simp [written,get_mirror_handle,Instr.written]
    · refine ⟨⟨m.read (m.ea ⟨Rlocals,0⟩),?_⟩,((exec_keeps _ m).trans (exec_keeps _ _)).mono ?_⟩
      · simp [step]
      · simp [written,Instr.written]
  · exact ⟨⟨0,rfl⟩,Keeps.refl _ m⟩

theorem stack_words_nonneg (native : Bool) (m : Machine) : 0 ≤ stack_words native m := by
  unfold stack_words Machine.read16
  split
  · exact Int.le_refl _
  · split <;> omega

theorem monitor_bytes_nonneg (synchronized : Bool) : 0 ≤ monitor_bytes synchronized := by
  have pos := wordSize_pos
  unfold monitor_bytes monitor_size
  split
  · exact Int.mul_nonneg (Int.natCast_nonneg _) (by omega)
  · exact Int.le_refl _

-- The frame generate_compute_interpreter_state makes below the caller's r1.
structure Computed (native : Bool) (m m' : Machine) : Prop where
  aligned : m'.gpr r1 % 16 = m.gpr r1 % 16
  state : m'.gpr Rstate = m.gpr r1 - sizeof_BytecodeInterpreter
  monitor : m'.gpr Rmonitor = m'.gpr Rstate - monitor_bytes (is_synchronized m)
  room : m'.gpr r1 + frame_header + slop_factor ≤ m'.gpr Rmonitor - stack_words native m * wordSize
  entered : Entered (m'.gpr Rstate) (m.gpr Rlocals) (m.gpr Rmethod) (m.gpr Rstate)
    (m'.gpr Rmonitor - wordSize - stack_words native m * wordSize) (m'.gpr Rmonitor - wordSize) (m'.gpr Rmonitor)
    (m'.gpr Rstate) (m.gpr Rthread) m'.mem
  back_chain : m'.read (m'.gpr r1) = m.gpr r1
  lr_save : m'.read (m.gpr r1 + lr_save_offset*wordSize) = m.lr
  sync : (m'.cr CRsync).eq ↔ is_synchronized m = true
  static : (m'.cr CRstatic).eq ↔ is_static m = true
  mem : ∀ b, b < m'.gpr r1 ∨ m.gpr r1 ≤ b → b < m.gpr r1 + lr_save_offset*wordSize ∨
    m.gpr r1 + lr_save_offset*wordSize + wordSize ≤ b → m'.mem b = m.mem b
  keeps : Keeps [.gpr r0,.gpr r1,.gpr r3,.gpr r4,.gpr r5,.gpr r6,.gpr r7,.gpr r8,.gpr Rmonitor,.gpr Rstate,
    .cr cr0,.cr CRsync,.cr CRstatic] m m'

theorem compute_interpreter_state_spec (native : Bool) (m : Machine) : Computed native m (compute_interpreter_state native m) := by
  obtain ⟨sync₁,static₁,mem₁,kept₁⟩ := access_flags_spec m
  generalize first : exec access_flags_conditions m = m₁ at *
  have words : stack_words native m₁ = stack_words native m := by
    unfold stack_words
    simp only [Machine.ea,Machine.read16,mem₁,kept₁.gpr Rmethod (by simp)]
    rfl
  obtain ⟨size,padding,java,mem₂,kept₂⟩ := calculate_frame_size_spec native m₁ _ sync₁
  generalize second : calculate_frame_size native m₁ = m₂ at *
  obtain ⟨stack₃,mem₃,kept₃⟩ := create_frame_spec m₂
  generalize third : exec create_frame m₂ = m₃ at *
  have sync₃ : (m₃.cr CRsync).eq ↔ is_synchronized m = true := by
    rw [kept₃.cr CRsync (by simp),kept₂.cr CRsync (by simp)]; exact sync₁
  obtain ⟨limit,stack,base,monitors,state,prev,mem₄,kept₄⟩ := calculate_addresses_spec native m₃ _ sync₃
    (stack_words native m) (fun java' => by rw [kept₃.gpr r3 (by simp),java java',words]) (fun native' => by simp [stack_words,native'])
  generalize fourth : calculate_addresses native m₃ = m₄ at *
  obtain ⟨entered,initialise_outside,kept₅⟩ := initialise_state_spec native m₄
  generalize fifth : exec (initialise_state native) m₄ = m₅ at *
  have sync₅ : (m₅.cr CRsync).eq ↔ is_synchronized m = true := by
    rw [kept₅.cr CRsync (by simp),kept₄.cr CRsync (by simp)]; exact sync₃
  obtain ⟨⟨lockee,mem₆⟩,kept₆⟩ := initialise_monitor_spec m₅ _ sync₅
  have code : compute_interpreter_state native m = initialise_monitor m₅ := by
    simp only [compute_interpreter_state,first,second,third,fourth,fifth]
  rw [code]
  generalize initialise_monitor m₅ = m₆ at *
  clear first second third fourth fifth code
  rw [words] at size padding
  have parts : frame_content (stack_words native m) (is_synchronized m) = stack_words native m * wordSize +
    (frame_header + sizeof_BytecodeInterpreter + slop_factor) + monitor_bytes (is_synchronized m) := rfl
  generalize frame_content (stack_words native m) (is_synchronized m) = content at *
  have top : m₂.gpr r1 = m.gpr r1 := (kept₂.gpr r1 (by simp)).trans (kept₁.gpr r1 (by simp))
  have pad : m₃.gpr r5 = -content % 16 := (kept₃.gpr r5 (by simp)).trans padding
  have stack₆ : m₆.gpr r1 = m.gpr r1 - (content + -content % 16) := by
    rw [kept₆.gpr r1 (by simp),kept₅.gpr r1 (by simp),kept₄.gpr r1 (by simp),stack₃,top,size]
  have state₆ : m₆.gpr Rstate = m₄.gpr Rstate := (kept₆.gpr Rstate (by simp)).trans (kept₅.gpr Rstate (by simp))
  have monitor₆ : m₆.gpr Rmonitor = m₄.gpr Rmonitor := (kept₆.gpr Rmonitor (by simp)).trans (kept₅.gpr Rmonitor (by simp))
  have monitor₅ : m₅.gpr Rmonitor = m₄.gpr Rmonitor := kept₅.gpr Rmonitor (by simp)
  have locals : m₄.gpr Rlocals = m.gpr Rlocals := by
    rw [kept₄.gpr Rlocals (by simp),kept₃.gpr Rlocals (by simp),kept₂.gpr Rlocals (by simp),kept₁.gpr Rlocals (by simp)]
  have method : m₄.gpr Rmethod = m.gpr Rmethod := by
    rw [kept₄.gpr Rmethod (by simp),kept₃.gpr Rmethod (by simp),kept₂.gpr Rmethod (by simp),kept₁.gpr Rmethod (by simp)]
  have thread : m₄.gpr Rthread = m.gpr Rthread := by
    rw [kept₄.gpr Rthread (by simp),kept₃.gpr Rthread (by simp),kept₂.gpr Rthread (by simp),kept₁.gpr Rthread (by simp)]
  have previous : m₃.gpr Rstate = m.gpr Rstate := by
    rw [kept₃.gpr Rstate (by simp),kept₂.gpr Rstate (by simp),kept₁.gpr Rstate (by simp)]
  have lr : m₂.lr = m.lr := by rw [kept₂.lr (by simp),kept₁.lr (by simp)]
  rw [pad,stack₃,top,size] at limit stack base monitors
  rw [top,size,lr,mem₂,mem₁] at mem₃
  rw [locals,method,thread,prev,previous,state] at entered
  rw [state] at state₆
  have pos := wordSize_pos
  have depth := Int.mul_nonneg (stack_words_nonneg native m) (Int.le_of_lt pos)
  have object := sizeof_large
  have slop : slop_factor = 2*wordSize := rfl
  have lr_high := lr_save_inside
  have lr_low := lr_save_above
  -- the monitor is between the expression stack and the state object
  have lockee_mem : Cells.SameOutside (m₄.gpr Rmonitor) (m₄.gpr r8) m₅.mem m₆.mem := by
    rw [mem₆,monitor₅]
    have inside := obj_inside
    cases synced : is_synchronized m with
    | false => exact Cells.SameOutside.refl _ _ _
    | true =>
      simp only [synced,monitor_bytes,if_true,monitor_size] at monitors
      exact Cells.SameOutside.putWord _ _ (by omega) (show _ + wordSize ≤ _ by omega)
  have state_mem : Cells.SameOutside (m₄.gpr r8) (m₄.gpr r8 + sizeof_BytecodeInterpreter) m₄.mem m₅.mem := by
    rw [← state]
    exact initialise_outside
  have above : ∀ b, m₄.gpr r8 + sizeof_BytecodeInterpreter ≤ b → m₆.mem b = m₃.mem b := fun b low => by
    rw [lockee_mem b (.inr (by omega)),state_mem b (.inr low),mem₄]
  have below : ∀ b, b < m₄.gpr Rmonitor → m₆.mem b = m₃.mem b := fun b high => by
    have room := monitor_bytes_nonneg (is_synchronized m)
    rw [lockee_mem b (.inl high),state_mem b (.inl (by omega)),mem₄]
  have room := monitor_bytes_nonneg (is_synchronized m)
  have object_end : m₄.gpr r8 + sizeof_BytecodeInterpreter = m.gpr r1 := by omega
  refine ⟨by rw [stack₆]; omega,by rw [state₆]; omega,by rw [state₆,monitor₆]; omega,by rw [stack₆,monitor₆]; omega,?_,?_,?_,?_,?_,?_,?_⟩
  · have six : m₄.gpr r6 = m₄.gpr Rmonitor - wordSize - stack_words native m * wordSize := by omega
    have seven : m₄.gpr r7 = m₄.gpr Rmonitor - wordSize := by omega
    rw [six,seven] at entered
    rw [state₆,monitor₆]
    exact entered_same entered lockee_mem (.inr (Int.le_refl _))
  · have word : m₆.read (m₆.gpr r1) = m₃.read (m₆.gpr r1) :=
      Cells.word_congr fun b _ high => below b (by change b < _ + wordSize at high; rw [stack₆] at high; omega)
    rw [word,stack₆,Machine.read,mem₃]
    exact Cells.word_putWord _ _ _
  · have word : m₆.read (m.gpr r1 + lr_save_offset*wordSize) = m₃.read (m.gpr r1 + lr_save_offset*wordSize) :=
      Cells.word_congr fun b low _ => above b (by omega)
    rw [word,Machine.read,mem₃,Cells.word_putWord_apart _ _ (.inl (show _ + wordSize ≤ _ by omega))]
    exact Cells.word_putWord _ _ _
  · rw [kept₆.cr CRsync (by simp)]; exact sync₅
  · rw [kept₆.cr CRstatic (by simp),kept₅.cr CRstatic (by simp),kept₄.cr CRstatic (by simp),kept₃.cr CRstatic (by simp),
      kept₂.cr CRstatic (by simp)]
    exact static₁
  · intro b outside apart
    have plain : m₆.mem b = m₃.mem b := by
      rcases outside with low | high
      · exact below b (by omega)
      · exact above b (by omega)
    rw [plain,mem₃,Cells.putWord_outside _ _ (show _ ∨ _ + wordSize ≤ _ by omega),
      Cells.putWord_outside _ _ (show _ ∨ _ + wordSize ≤ _ by omega)]
  · exact (((((kept₁.trans kept₂).trans kept₃).trans kept₄).trans kept₅).trans kept₆).mono (by simp)

end IcedTea.CppInterpreter

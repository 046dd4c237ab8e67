import IcedTea.MethodEntries
import IcedTea.SlowSignatureAgreement

namespace IcedTea
open StackFrame (lr_save_offset link_area_words)

section
variable [Target]

-- The frame of call_VM when LR has to be preserved: nothing is asked of it.
def empty_frame : StackFrame := StackFrame.pad {}

theorem empty_frame_size : 0 < empty_frame.frame_size ∧ empty_frame.frame_size < 2^15 ∧
    CppInterpreter.frame_header ≤ empty_frame.frame_size := by
  have size := StackFrame.pad_exact {}
  have words : StackFrame.unaligned_words {} = link_area_words + StackFrame.min_params := by
    cases cpu : Target.cpu <;> simp [StackFrame.unaligned_words,link_area_words,StackFrame.min_params,cpu]
  have align : StackFrame.StackAlignmentInBytes = 16 := rfl
  rw [StackFrame.unaligned_size,words,align] at size
  rw [CppInterpreter.frame_header_eq]
  cases cpu : Target.cpu with
  | ppc32 => simp [empty_frame,size,link_area_words,StackFrame.min_params,cpu,wordSize_ppc32 cpu]
  | ppc64 => simp [empty_frame,size,link_area_words,StackFrame.min_params,cpu,wordSize_ppc64 cpu]

theorem empty_frame_code : empty_frame.prolog = [.mflr r0,.store r0 ⟨r1,lr_save_offset*wordSize⟩,.store_update r1 ⟨r1,-empty_frame.frame_size⟩] ∧
    empty_frame.epilog = [.addi r1 r1 empty_frame.frame_size,.load r0 ⟨r1,lr_save_offset*wordSize⟩,.mtlr r0] := by
  obtain ⟨positive,small,_⟩ := empty_frame_size
  obtain ⟨_,_,crfs,gprs,fprs,volatiles⟩ := StackFrame.pad_fields {}
  change empty_frame.crfs = 0 at crfs
  change empty_frame.gprs = 0 at gprs
  change empty_frame.fprs = 0 at fprs
  change empty_frame.save_volatiles = false at volatiles
  have lr : int16 (lr_save_offset*wordSize) = lr_save_offset*wordSize := by
    have size := wordSize_le
    have pos := wordSize_pos
    refine int16_small ?_ ?_ <;> unfold lr_save_offset <;> cases Target.cpu <;> simp <;> omega
  have down : int16 (-empty_frame.frame_size) = -empty_frame.frame_size := int16_small (by omega) (by omega)
  constructor
  · cases cpu : Target.cpu <;>
      simp [StackFrame.prolog,StackFrame.push,StackFrame.volatiles,StackFrame.nonvolatiles,StackFrame.link_crs,StackFrame.saves,
        crfs,gprs,fprs,volatiles,lr,down,cpu]
  · cases cpu : Target.cpu <;>
      simp [StackFrame.epilog,StackFrame.pop,StackFrame.volatiles,StackFrame.nonvolatiles,StackFrame.link_crs,StackFrame.reloads,
        crfs,gprs,fprs,volatiles,lr,cpu]

end

-- Addresses in the code of the slow signature handler.
class SlowHandlerCode extends Entries where
  slow_signature_handler : Int
  slow_call_VM_site : Int
  slow_signature_handler_called : Int

namespace SignatureHandlerCalls
open CppInterpreter (set_last_Java_frame reset_last_Java_frame fixup_after_potential_safepoint size_of_parameters frame_header
  frame_header_eq lr_save_inside lr_save_above)
open StackWalk (native_frame)
open InterpreterRuntime NativeMethod SlowHandlerCode Vm

variable [SlowHandlerCode]

-- call_VM with the method, the locals and the parameter list, which is in r6. Its
-- anchor keeps LR in r3, its frame keeps LR over the call.
def set_anchor : List Instr :=
  [.mr r4 Rmethod,.mr r5 Rlocals,.mflr r3] ++ set_last_Java_frame slow_call_VM_site ++ [.mtlr r3]
def enter_VM : List Instr := [.mr r3 Rthread] ++ call_address_code slow_signature_handler
def call_slow (m : Machine) : Machine :=
  {exec enter_VM (exec empty_frame.prolog (exec set_anchor m)) with lr := slow_signature_handler_called}

-- What is left of call_VM, and the end of the handler. An exception is unimplemented.
def after_slow (m : Machine) : Option Machine :=
  let m := exec (call_return ++ empty_frame.epilog ++ [.load r0 pending_exception_addr,.compareImm cr0 r0 0]) m
  if (m.cr cr0).eq then
    some (exec (reset_last_Java_frame ++ fixup_after_potential_safepoint ++ (find_register_images ++ load_register_images) ++ [.mr r0 r3]) m)
  else none

-- slow_signature_handler is called by the ABI. On the stack above its frame it
-- stores what its walk over the parameters does.
structure SlowCalled (high : Int) (h : SlowSignatureHandler) (m m' : Machine) : Prop where
  registers : ∀ r : Nat, r = r1 ∨ 14 ≤ r ∧ r < 32 → m'.gpr r = m.gpr r
  fields : ∀ c, c = CRsync ∨ c = CRstatic → m'.cr c = m.cr c
  stack : ∀ b, m.gpr r1 + empty_frame.frame_size ≤ b → b < high → m'.mem b = h.mem b

variable {m m' m₁ m₂ : Machine} {low high : Int} {words : List Int} {is_static : Bool} {signature : List NativeType} {h : SlowSignatureHandler}

theorem set_anchor_spec (m : Machine) : let m' := exec set_anchor m
    Keeps [.gpr r0,.gpr r3,.gpr r4,.gpr r5,.lr] m m' ∧ m'.lr = m.lr ∧
      ∀ b, (∀ o, o = last_Java_sp_offset ∨ o = last_Java_pc_offset → b < m.gpr Rthread + o ∨ m.gpr Rthread + o + wordSize ≤ b) →
        m'.mem b = m.mem b := by
  refine ⟨(exec_keeps _ m).mono (by simp [set_anchor,set_last_Java_frame,written,Instr.written]),
    by simp [set_anchor,set_last_Java_frame,step],fun b outside => exec_outside _ m ?_⟩
  have sp := outside last_Java_sp_offset (.inl rfl)
  have pc := outside last_Java_pc_offset (.inr rfl)
  simp only [set_anchor,set_last_Java_frame,stores,Instr.stores,List.append_nil,List.nil_append,List.cons_append,
    List.mem_cons,List.not_mem_nil,or_false,step,Machine.ea]
  rintro w (rfl|rfl)
  · simpa using pc
  · simpa using sp

theorem prolog_spec (m : Machine) : let m' := exec empty_frame.prolog m
    Keeps [.gpr r0,.gpr r1] m m' ∧ m'.gpr r1 = m.gpr r1 - empty_frame.frame_size ∧
      m'.read (m.gpr r1 + lr_save_offset*wordSize) = m.lr ∧
      ∀ b, (b < m.gpr r1 - empty_frame.frame_size ∨ m.gpr r1 - empty_frame.frame_size + wordSize ≤ b) →
        (b < m.gpr r1 + lr_save_offset*wordSize ∨ m.gpr r1 + lr_save_offset*wordSize + wordSize ≤ b) → m'.mem b = m.mem b := by
  rw [empty_frame_code.1]
  have pos := wordSize_pos
  have above := lr_save_above
  obtain ⟨positive,_,header⟩ := empty_frame_size
  have inside := lr_save_inside
  refine ⟨(exec_keeps _ m).mono (by simp [written,Instr.written]),by simp [step,Machine.ea,Int.sub_eq_add_neg],?_,fun b new link => exec_outside _ m ?_⟩
  · have new : (exec [.mflr r0,.store r0 ⟨r1,lr_save_offset*wordSize⟩,.store_update r1 ⟨r1,-empty_frame.frame_size⟩] m).mem =
        (m.mem.putWord wide (m.gpr r1 + lr_save_offset*wordSize) m.lr).putWord wide (m.gpr r1 + -empty_frame.frame_size) (m.gpr r1) := by
      simp [step]
    rw [Machine.read,new,Cells.word_putWord_apart _ _ (.inl (show _ + wordSize ≤ _ by omega)),Cells.word_putWord]
  · simp only [stores,Instr.stores,List.append_nil,List.nil_append,List.cons_append,List.mem_cons,List.not_mem_nil,or_false,step,Machine.ea]
    rintro w (rfl|rfl)
    · simpa using link
    · simpa [Int.sub_eq_add_neg] using new

-- The call itself stores at most r2, in the link area of the new frame.
theorem enter_VM_spec (m : Machine) : let m' := exec enter_VM m
    Keeps [.gpr r0,.gpr r2,.gpr r3,.gpr r12,.ctr] m m' ∧
      ∀ b, (b < m.gpr r1 + wordSize ∨ m.gpr r1 + frame_header ≤ b) → m'.mem b = m.mem b := by
  refine ⟨(exec_keeps _ m).mono ?_,fun b outside => exec_outside _ m fun w stored => ?_⟩
  · unfold enter_VM call_address_code call_code
    cases Target.cpu <;> simp [written,Instr.written]
  · cases cpu : Target.cpu with
    | ppc32 =>
      simp only [enter_VM,call_address_code,call_code,cpu] at stored
      cases stored
    | ppc64 =>
      have size := wordSize_ppc64 cpu
      have header : frame_header = 112 := by
        rw [frame_header_eq,size]
        simp [link_area_words,StackFrame.min_params,cpu]
      obtain rfl : w = (m.gpr r1 + 40,wordSize) := by
        simpa [enter_VM,call_address_code,call_code,cpu,stores,Instr.stores,Machine.ea,step] using stored
      dsimp only
      omega

-- The machine that slow_signature_handler is called with.
structure Entered (m n : Machine) : Prop where
  stack : n.gpr r1 = m.gpr r1 - empty_frame.frame_size
  keeps : Keeps [.gpr r0,.gpr r1,.gpr r2,.gpr r3,.gpr r4,.gpr r5,.gpr r12,.lr,.ctr] m n
  lr_save : n.read (m.gpr r1 + lr_save_offset*wordSize) = m.lr
  mem : ∀ b, (∀ o, o = last_Java_sp_offset ∨ o = last_Java_pc_offset → b < m.gpr Rthread + o ∨ m.gpr Rthread + o + wordSize ≤ b) →
    m.gpr r1 ≤ b → (b < m.gpr r1 + lr_save_offset*wordSize ∨ m.gpr r1 + lr_save_offset*wordSize + wordSize ≤ b) → n.mem b = m.mem b

theorem call_slow_spec (m : Machine) : Entered m (call_slow m) := by
  obtain ⟨anchored,lr,mem₁⟩ := set_anchor_spec m
  unfold call_slow
  generalize exec set_anchor m = m₁ at anchored lr mem₁
  obtain ⟨pushed,stack,saved,mem₂⟩ := prolog_spec m₁
  generalize exec empty_frame.prolog m₁ = m₂ at pushed stack saved mem₂
  obtain ⟨kept,mem₃⟩ := enter_VM_spec m₂
  generalize exec enter_VM m₂ = m₃ at kept mem₃
  have top₁ : m₁.gpr r1 = m.gpr r1 := anchored.gpr r1 (by simp)
  have top₃ : m₃.gpr r1 = m₂.gpr r1 := kept.gpr r1 (by simp)
  have pos := wordSize_pos
  have above := lr_save_above
  have inside := lr_save_inside
  obtain ⟨positive,_,header⟩ := empty_frame_size
  rw [top₁] at stack saved mem₂
  refine ⟨top₃.trans stack,?_,?_,fun b anchor high link => ?_⟩
  · intro p absent
    have all := ((anchored.trans pushed).trans kept) p
    simp only [List.mem_cons,List.not_mem_nil,or_false,not_or] at absent
    cases p with
    | lr => exact absurd rfl absent.2.2.2.2.2.2.2.1
    | _ =>
      refine all ?_
      simp only [List.cons_append,List.nil_append,List.mem_cons,List.not_mem_nil,or_false]
      tauto
  · change m₃.read _ = _
    rw [← lr,← saved]
    exact Cells.word_congr fun b low high => mem₃ b (.inr (by omega))
  · change m₃.mem b = _
    rw [mem₃ b (.inr (by omega)),mem₂ b (.inr (by omega)) link,mem₁ b anchor]

theorem images_written : ∀ p ∈ written load_register_images, (∃ r : Nat, p = .gpr r ∧ r < 11 ∧ 4 ≤ r) ∨ ∃ f, p = .fpr f := by
  intro p member
  simp only [written,load_register_images,List.flatMap_append,List.mem_append,List.mem_flatMap,List.mem_mapIdx] at member
  rcases member with ⟨_,⟨i,less,rfl⟩,inside⟩|⟨_,⟨i,less,rfl⟩,inside⟩
  · refine .inl ⟨_,List.mem_singleton.mp inside,?_⟩
    obtain ⟨k,few,place⟩ := List.mem_range'.mp (List.getElem_mem less)
    rw [place]
    unfold gp_reg_start gp_reg_max at few
    unfold gp_reg_start
    omega
  · exact .inr ⟨_,List.mem_singleton.mp inside⟩

-- What the handler's caller has after it.
structure Finished (m m' : Machine) : Prop where
  stack : m'.gpr r1 = m.gpr r1 + empty_frame.frame_size
  lr : m'.lr = m.read (m.gpr r1 + empty_frame.frame_size + lr_save_offset*wordSize)
  registers : ∀ r : Nat, 13 ≤ r → r ≠ Rmethod → m'.gpr r = m.gpr r
  fields : ∀ c, c ≠ cr0 → m'.cr c = m.cr c
  mem : ∀ b, (b < m.gpr Rthread + last_Java_sp_offset ∨ m.gpr Rthread + last_Java_sp_offset + wordSize ≤ b) → m'.mem b = m.mem b

-- The frame of the call is popped, and LR is back from it.
def leave_VM : List Instr := call_return ++ empty_frame.epilog ++ [.load r0 pending_exception_addr,.compareImm cr0 r0 0]

theorem leave_VM_spec (m : Machine) : let m' := exec leave_VM m
    Keeps [.gpr r0,.gpr r1,.gpr r2,.lr,.cr cr0] m m' ∧ m'.mem = m.mem ∧ m'.gpr r1 = m.gpr r1 + empty_frame.frame_size ∧
      m'.lr = m.read (m.gpr r1 + empty_frame.frame_size + lr_save_offset*wordSize) := by
  unfold leave_VM call_return
  rw [empty_frame_code.2]
  refine ⟨(exec_keeps _ m).mono ?_,?_,?_,?_⟩
  · cases Target.cpu <;> simp [written,Instr.written]
  · cases Target.cpu <;> rfl
  · cases Target.cpu <;> simp [step]
  · cases Target.cpu <;> simp [step]

-- The end of the handler is in the registers below r13, but for the method.
def load_arguments : List Instr :=
  reset_last_Java_frame ++ fixup_after_potential_safepoint ++ (find_register_images ++ load_register_images) ++ [.mr r0 r3]

theorem arguments_written : ∀ p ∈ written load_arguments,
    p = .gpr r0 ∨ p = .gpr Rmethod ∨ p = .gpr r11 ∨ (∃ r : Nat, p = .gpr r ∧ r < 11 ∧ 4 ≤ r) ∨ ∃ f, p = .fpr f := by
  intro p member
  simp only [load_arguments,written,List.flatMap_append,List.mem_append] at member
  rcases member with ((reset|fixup)|found|images)|result
  · simp [reset_last_Java_frame,Instr.written] at reset
    exact .inl reset
  · simp [fixup_after_potential_safepoint,Instr.written] at fixup
    exact .inr (.inl fixup)
  · simp [find_register_images,Instr.written] at found
    exact .inr (.inr (.inl found))
  · exact .inr (.inr (.inr (images_written p images)))
  · simp [Instr.written] at result
    exact .inl result

theorem arguments_outside (m : Machine)
    (outside : b < m.gpr Rthread + last_Java_sp_offset ∨ m.gpr Rthread + last_Java_sp_offset + wordSize ≤ b) :
    (exec load_arguments m).mem b = m.mem b := by
  have reset : (exec load_arguments m).mem = (exec reset_last_Java_frame m).mem := by
    unfold load_arguments
    rw [exec_append,exec_append,exec_append,exec_append]
    exact (load_register_images_spec _).2.2.2
  rw [reset]
  refine exec_outside reset_last_Java_frame m fun w stored => ?_
  obtain rfl : w = (m.gpr Rthread + last_Java_sp_offset,wordSize) := by
    simpa [reset_last_Java_frame,stores,Instr.stores,Machine.ea,step] using stored
  exact outside

theorem after_slow_spec (finished : after_slow m = some m') : Finished m m' := by
  obtain ⟨left,quiet,stack,lr⟩ := leave_VM_spec m
  have code : after_slow m = if ((exec leave_VM m).cr cr0).eq then some (exec load_arguments (exec leave_VM m)) else none := rfl
  rw [code] at finished
  split at finished
  case isFalse => cases finished
  case isTrue =>
    obtain rfl := Option.some.inj finished
    have same := exec_keeps load_arguments (exec leave_VM m)
    refine ⟨?_,?_,fun r high other => ?_,fun c field => ?_,fun b outside => ?_⟩
    · rw [same.gpr r1 fun member => ?_,stack]
      simpa using arguments_written _ member
    · rw [same.lr fun member => ?_,lr]
      simpa using arguments_written _ member
    · have big : r ≠ 0 ∧ r ≠ 1 ∧ r ≠ 2 ∧ r ≠ 11 := by omega
      rw [same.gpr r fun member => ?_,left.gpr r (by simp [r0,r1,r2,big])]
      rcases arguments_written _ member with p|p|p|⟨s,p,low⟩|⟨f,p⟩
      · exact big.1 (Place.gpr.inj p)
      · exact other (Place.gpr.inj p)
      · exact big.2.2.2 (Place.gpr.inj p)
      · have same : (r : Nat) = s := Place.gpr.inj p
        omega
      · cases p
    · rw [same.cr c fun member => ?_,left.cr c (by simpa using field)]
      simpa using arguments_written _ member
    · have own : (exec leave_VM m).gpr Rthread = m.gpr Rthread := left.gpr Rthread (by simp)
      rw [arguments_outside _ (by rw [own]; exact outside),quiet]

-- The walk stores between the parameter list and the state object.
theorem walk_outside {from_ : Int} {mem : Cells} (entry : HandlerEntry (parameterWords (parameters is_static signature)) m)
    (sized : size_of_parameters m = parameterWords (parameters is_static signature)) (general : General signature)
    (enough : parameters is_static signature = [] ∨ Target.cpu = .ppc64 ∨ 3 ≤ parameterWords (parameters is_static signature))
    (room : m₁.gpr r6 + required m ≤ m.read (m.ea (STATE .stack_limit)) + wordSize)
    (run : InterpreterRuntime.slow_signature_handler (size_of_parameters m) is_static signature from_ (m₁.gpr r6) mem = some h)
    (outside : b < m₁.gpr r6 ∨ m.gpr Rstate ≤ b) : h.mem b = mem b := by
  unfold InterpreterRuntime.slow_signature_handler at run
  rcases enough with none|large
  · rw [none] at run
    cases run
    rfl
  · have all := general.parameters is_static
    have counted := counted_iterate (counted_start is_static) _ all
    rw [Nat.zero_add] at counted
    have at_ : h.At _ _ _ := at_iterate (at_start (size_of_parameters m) is_static from_ (m₁.gpr r6) mem) 0 _ run
    have kept : Kept mem h := Kept.iterate (fun b _ => rfl) 0 _ run
    obtain ⟨above,behind,below,bytes⟩ := walk_room entry sized room counted large at_
    refine kept b fun w member => ?_
    rcases List.mem_append.mp member with image|stack
    · have inside := at_.images w image
      omega
    · have inside := at_.stacked w stack
      omega

-- What the extension of the frame for the call keeps.
theorem extend_for_call_keeps (m : Machine) : let m₁ := extend_for_call m
    Keeps [.gpr r0,.gpr r1,.gpr r6,.gpr r11,.gpr r12,.gpr 14,.cr cr0] m m₁ ∧ m₁.gpr r1 ≤ m.gpr r1 ∧ m₁.read (m₁.gpr r1) = m.read (m.gpr r1) := by
  let m₂ := available (exec parameter_list_space m)
  obtain ⟨extra,extended⟩ := maybe_extend_frame_spec m₂ r11 r12 (by decide) (by decide) (by decide)
  have sized : Keeps [.gpr r0,.gpr r11,.gpr 14] m (exec parameter_list_space m) := (exec_keeps _ m).mono (by
    unfold parameter_list_space words_of_parameters
    cases Target.cpu <;> simp [written,Instr.written])
  have free : Keeps [.gpr r12] (exec parameter_list_space m) m₂ := (exec_keeps _ _).mono (by simp [written,Instr.written])
  have mem : m₂.mem = m.mem := (parameter_list_space_spec m).2.2.1
  have top : m₂.gpr r1 = m.gpr r1 := (free.gpr r1 (by simp)).trans (sized.gpr r1 (by simp))
  have nonneg := extended.nonneg
  have stack := extended.stack
  have chain := extended.back_chain
  rw [top] at stack chain
  have last : Keeps [.gpr r6] (maybe_extend_frame r11 r12 m₂) (extend_for_call m) := exec_keeps [.la r6 ⟨r1,(link_area_words : Int)*wordSize⟩] _
  have same : (extend_for_call m).gpr r1 = (maybe_extend_frame r11 r12 m₂).gpr r1 := last.gpr r1 (by simp)
  refine ⟨(((sized.trans free).trans extended.keeps).trans last).mono (by simp),?_,?_⟩
  · rw [same,stack]
    omega
  · rw [same]
    refine Eq.trans ?_ (chain.trans (congrArg (Cells.word wide · _) mem))
    rfl

theorem required_nonneg (m : Machine) : 0 ≤ required m := by
  have asked : required m = register_images (size_of_parameters m) 0 + image_bytes := (parameter_list_space_spec m).1
  have size := (CppInterpreter.halfword_range m (m.ea CppInterpreter.size_of_parameters_addr)).1
  change 0 ≤ size_of_parameters m at size
  rw [asked]
  unfold image_bytes gp_image_bytes gp_reg_max gp_reg_start fp_reg_max fp_reg_start register_images
  cases cpu : Target.cpu with
  | ppc32 => simp only [wordSize_ppc32 cpu]; omega
  | ppc64 => simp only [wordSize_ppc64 cpu]; omega

theorem lr_save_linked : (lr_save_offset : Int)*wordSize + wordSize ≤ (link_area_words : Int)*wordSize := by
  have pos := wordSize_pos
  unfold lr_save_offset link_area_words
  cases Target.cpu <;> simp only <;> push_cast <;> omega

-- The slow handler, over whatever its call into the VM does within the ABI.
theorem slow_handler_call (entry : HandlerEntry (parameterWords (parameters is_static signature)) m)
    (sized : size_of_parameters m = parameterWords (parameters is_static signature)) (general : General signature)
    (enough : parameters is_static signature = [] ∨ Target.cpu = .ppc64 ∨ 3 ≤ parameterWords (parameters is_static signature))
    (room : low ≤ (call_slow (extend_for_call m)).gpr r1) (ends : m.gpr Rstate ≤ high)
    (above : ∀ w ∈ words, m.gpr Rstate ≤ w ∧ w + wordSize ≤ high)
    (anchor : ∀ o, o = last_Java_sp_offset ∨ o = last_Java_pc_offset → m.gpr Rthread + o + wordSize ≤ low ∨ high ≤ m.gpr Rthread + o)
    (run : let n := call_slow (extend_for_call m)
      InterpreterRuntime.slow_signature_handler (size_of_parameters m) is_static signature (n.gpr r5) (n.gpr r6) n.mem = some h)
    (called : SlowCalled high h (call_slow (extend_for_call m)) m₂) (returned : after_slow m₂ = some m') :
    HandlerCall low words m m' ∧ m'.lr = m.lr := by
  obtain ⟨link,_,fits,_,up⟩ := extend_for_call_spec m
  obtain ⟨extended,lower,chain⟩ := extend_for_call_keeps m
  have nonneg := required_nonneg m
  dsimp only at run
  generalize extend_for_call m = m₁ at link fits up extended lower chain room run called
  have entered := call_slow_spec m₁
  generalize call_slow m₁ = n at entered room run called
  have finished := after_slow_spec returned
  have to_ : n.gpr r6 = m₁.gpr r6 := entered.keeps.gpr r6 (by simp)
  rw [to_] at run
  have stack : n.gpr r1 + empty_frame.frame_size = m₁.gpr r1 := by
    rw [entered.stack]
    omega
  have top : m₂.gpr r1 + empty_frame.frame_size = m₁.gpr r1 := by
    rw [called.registers r1 (.inl rfl)]
    exact stack
  have thread : m₁.gpr Rthread = m.gpr Rthread := extended.gpr Rthread (by simp)
  have thread₂ : m₂.gpr Rthread = m.gpr Rthread :=
    (called.registers Rthread (.inr (by decide))).trans ((entered.keeps.gpr Rthread (by simp)).trans thread)
  have state := entry.state
  have saved := lr_save_linked
  have second := lr_save_above
  have pos := wordSize_pos
  obtain ⟨positive,_,_⟩ := empty_frame_size
  have walked : ∀ {b}, b < m₁.gpr r6 ∨ m.gpr Rstate ≤ b → h.mem b = n.mem b := walk_outside entry sized general enough fits run
  -- the stack above the handler's frame, but for the parameter list and LR
  have mem : ∀ b, m₁.gpr r1 ≤ b → b < high → (b < m₁.gpr r6 ∨ m.gpr Rstate ≤ b) → m'.mem b = n.mem b := fun b least less outside => by
    rw [finished.mem b (by rw [thread₂]; have off := anchor _ (.inl rfl); omega),called.stack b (by rw [stack]; exact least) less,walked outside]
  have quiet : ∀ b, m₁.gpr r1 ≤ b → b < high → (b < m₁.gpr r1 + lr_save_offset*wordSize ∨ m.gpr Rstate ≤ b) → m'.mem b = m₁.mem b :=
    fun b least less outside => by
      rw [mem b least less (by omega)]
      exact entered.mem b (fun o field => by rw [thread]; have off := anchor o field; omega) least (by omega)
  refine ⟨⟨?_,?_,?_,fun r least less other => ?_,fun c field => ?_,fun w member => ?_⟩,?_⟩
  · rw [finished.stack,top]
    omega
  · rw [finished.stack,top]
    exact lower
  · rw [finished.stack,top,← chain]
    exact Cells.word_congr fun b low' high' => quiet b low' (by change b < _ + wordSize at high'; omega) (.inl (by
      change b < _ + wordSize at high'
      omega))
  · have big : r ≠ 0 ∧ r ≠ 1 ∧ r ≠ 2 ∧ r ≠ 3 ∧ r ≠ 4 ∧ r ≠ 5 ∧ r ≠ 6 ∧ r ≠ 11 ∧ r ≠ 12 ∧ r ≠ 14 := by omega
    rw [finished.registers r (by omega) other,called.registers r (.inr (by omega)),entered.keeps.gpr r (by simp [big]),
      extended.gpr r (by simp [big])]
  · have plain : c ≠ cr0 := by rcases field with rfl|rfl <;> decide
    rw [finished.fields c plain,called.fields c field,entered.keeps.cr c (by simp),extended.cr c (by simpa using plain)]
  · obtain ⟨least,most⟩ := above w member
    refine Cells.word_congr fun b low' high' => ?_
    change b < _ + wordSize at high'
    rw [quiet b (by omega) (by omega) (.inr (by omega)),up b (by omega)]
  · rw [finished.lr,top]
    have kept : m₂.read (m₁.gpr r1 + lr_save_offset*wordSize) = n.read (m₁.gpr r1 + lr_save_offset*wordSize) :=
      Cells.word_congr fun b low' high' => by
        change b < _ + wordSize at high'
        rw [called.stack b (by omega) (by omega),walked (.inl (by omega))]
    rw [kept,entered.lr_save,extended.lr (by simp)]

-- The handler that is generated for a signature. Past the parameter list it stores
-- at most the half of a float, in what may be the first word of the state object.
theorem fast_handler_call {result_handler : Int} (entry : HandlerEntry (parameterWords (parameters is_static signature)) m)
    (within : InReach is_static signature) (room : low ≤ (generate_narrow is_static signature result_handler m).gpr r1)
    (above : ∀ w ∈ words, m.gpr Rstate + wordSize ≤ w) :
    HandlerCall low words m (generate_narrow is_static signature result_handler m) ∧
      (generate_narrow is_static signature result_handler m).lr = m.lr := by
  obtain ⟨loaded,same⟩ := generate_narrow_eq is_static signature within result_handler m
  rw [same] at room ⊢
  obtain ⟨extra,handled⟩ := generate_spec is_static signature loaded m entry
  have listed := iterate_listed (ready_start is_static) 0 (parameters is_static signature)
  generalize iterate (Counters.start is_static) 0 (parameters is_static signature) = p at handled listed
  generalize generate is_static signature loaded m = m' at room handled
  have nonneg := handled.nonneg
  have stack := handled.stack
  have state := entry.state
  have pos := wordSize_pos
  have small : 4 ≤ wordSize := by unfold wordSize Cells.width; split <;> decide
  refine ⟨⟨room,by omega,handled.back_chain,fun r least less _ => ?_,fun c field => ?_,fun w member => ?_⟩,handled.same.lr⟩
  · have big : r ≠ 0 ∧ r ≠ 1 ∧ r ≠ 11 ∧ r ≠ 12 := by omega
    refine handled.registers.kept (q := .gpr r) (by simp [Scratch,r0,r1,r11,r12,big]) fun found => ?_
    obtain ⟨pair,listing,first⟩ := List.mem_map.mp found
    obtain ⟨e,inside,found⟩ := List.mem_flatMap.mp listing
    rw [List.mem_singleton.mp found] at first
    have between := (listed.code e (List.mem_reverse.mp inside)).2
    rw [show e.dst = .gpr r from first] at between
    have last := listed.ready.gp.2
    unfold gp_reg_max at last
    have less : r < p.next.gp_reg := between.2
    omega
  · exact handled.same.cr c (by rcases field with rfl|rfl <;> decide)
  · have low' := above w member
    refine Cells.word_congr fun b least _ => ?_
    by_cases more : StackFrame.min_params < p.next.st_arg
    · have fits := handled.room more
      have link := link_area_large
      have bottom : (link_area_words : Int)*wordSize ≤ ((link_area_words + p.next.st_arg : Nat) : Int)*wordSize :=
        Int.mul_le_mul_of_nonneg_right (by omega) (Int.le_of_lt pos)
      refine handled.stacked.kept (q := b) (by omega) fun found => ?_
      obtain ⟨cell,listing,rfl⟩ := List.mem_map.mp found
      obtain ⟨a,inside,found⟩ := List.mem_flatMap.mp listing
      have range := cells_range found
      have high := (listed.stack a (List.mem_reverse.mp inside)).2.1
      have spill : a.spill ≤ 4 := by unfold StackArgument.spill; split <;> decide
      omega
    · have unmoved := handled.unmoved more
      have none : p.st_args = [] := by
        by_contra some
        exact more (listed.needed some)
      refine handled.stacked.kept (q := b) (by omega) fun found => ?_
      rw [none] at found
      cases found

-- The two handlers that a native method can have.
inductive Handles (low high : Int) (is_static : Bool) (signature : List NativeType) (m : Machine) : Machine → Prop where
  | fast (result_handler : Int) (within : InReach is_static signature)
      (room : low ≤ (generate_narrow is_static signature result_handler m).gpr r1) :
      Handles low high is_static signature m (generate_narrow is_static signature result_handler m)
  | slow {m₂ m' : Machine} {h : SlowSignatureHandler} (general : General signature)
      (enough : parameters is_static signature = [] ∨ Target.cpu = .ppc64 ∨ 3 ≤ parameterWords (parameters is_static signature))
      (room : low ≤ (call_slow (extend_for_call m)).gpr r1)
      (run : let n := call_slow (extend_for_call m)
        InterpreterRuntime.slow_signature_handler (size_of_parameters m) is_static signature (n.gpr r5) (n.gpr r6) n.mem = some h)
      (called : SlowCalled high h (call_slow (extend_for_call m)) m₂) (returned : after_slow m₂ = some m') :
      Handles low high is_static signature m m'

theorem handler_called {e : CppInterpreter.Entry} {callers : List Int} {m₀ : Machine}
    (holds : Holds e callers m₀ ⟨.calling .signature_handler,m⟩) : Inside e callers (native_frame m₀) m := by
  generalize point : (⟨.calling .signature_handler,m⟩ : Point) = p at holds
  cases holds with
  | within between inside => cases point; exact inside
  | native_function _ => cases point
  | entry => cases point
  | returned _ => cases point

-- The thread pointer is the first field of a state object.
theorem handles_call {e : CppInterpreter.Entry} {callers : List Int} {n : Machine} (built : Built e callers n) (inside : Inside e callers n m)
    (first : wordSize ≤ state_offset .prev_link) (entry : HandlerEntry (parameterWords (parameters is_static signature)) m)
    (sized : size_of_parameters m = parameterWords (parameters is_static signature)) (handles : Handles e.low e.high is_static signature m m') :
    HandlerCall e.low (native_words callers n) m m' ∧ m'.lr = m.lr := by
  have state : m.gpr Rstate = n.gpr Rstate := inside.registers Rstate (by simp)
  have thread : m.gpr Rthread = n.gpr Rthread := inside.registers Rthread (by simp)
  have prev := state_inside .prev_link
  have bytes : StateField.bytes .prev_link = wordSize := rfl
  have ends := built.ends
  have pos := wordSize_pos
  have object := sizeof_large
  have above : ∀ w ∈ native_words callers n, m.gpr Rstate + wordSize ≤ w ∧ w + wordSize ≤ e.high := fun w member => by
    rw [state]
    rcases List.mem_cons.mp member with rfl|caller
    · omega
    · have higher := built.callers w caller
      omega
  cases handles with
  | fast result_handler within room => exact fast_handler_call entry within room fun w member => (above w member).1
  | slow general enough room walk called returned =>
    refine slow_handler_call entry sized general enough room (by omega) (fun w member => ?_) (fun o field => ?_) walk called returned
    · have higher := above w member
      omega
    · rw [thread]
      exact built.anchor o field

-- Either does for the native entry what it expects of a signature handler, and
-- returns to it.
theorem signature_handlers_fit {e : CppInterpreter.Entry} {as : List CppInterpreter.Activation} {p : Int} {m₀ : Machine} (ready : e.Ready)
    (off : OffThread e) (first : wordSize ≤ state_offset .prev_link)
    (run : CppInterpreter.Steps e (CppInterpreter.entered e) ⟨as,.call_non_interpreted_method p m₀⟩)
    (native : NativeMethod.Steps e (CppInterpreter.callers_words e.outer (m₀.gpr r1) as) m₀ ⟨.entry,m₀⟩ ⟨.calling .signature_handler,m⟩)
    (entry : HandlerEntry (parameterWords (parameters is_static signature)) m)
    (sized : size_of_parameters m = parameterWords (parameters is_static signature)) (handles : Handles e.low e.high is_static signature m m') :
    m'.lr = m.lr ∧ NativeMethod.Steps e (CppInterpreter.callers_words e.outer (m₀.gpr r1) as) m₀ ⟨.entry,m₀⟩ (after_handler m') := by
  cases CppInterpreter.reached_good ready run with
  | call_non_interpreted_method calling positive parameters address =>
    have built := native_built ready off calling
    obtain ⟨handled,lr⟩ := handles_call built (handler_called (run_holds built native)) first entry sized handles
    exact ⟨lr,.tail native (.handled handled)⟩

@[reducible] def SlowHandlerCode.plain : SlowHandlerCode := {MethodEntries.Entries.plain with
  slow_signature_handler := 0xa030
  slow_call_VM_site := 40
  slow_signature_handler_called := 84}

-- A native method with a receiver only is called, and its slow handler.
def asked_receiver : Machine :=
  CppInterpreter.requesting 0 .call_method (CppInterpreter.push_int 5 (CppInterpreter.call_interpreter (CppInterpreter.start StubGenerator.int_caller_entry.machine)))
def receiver_examined : Machine := step (exec CppInterpreter.interpreter_returned asked_receiver) (.compareImm cr0 r4 (message .call_method))
def receiver_called : Machine :=
  {exec [.mtctr r0] (exec CppInterpreter.prepare_call receiver_examined) with lr := CppInterpreter.Code.site .callee_returned}
def receiver_preparing : Machine := calls .prepare_native_call call_prepare (exec get_signature_handler (native_frame receiver_called))
def receiver_handling : Machine := calls .signature_handler call_handler (after_prepare receiver_preparing).machine
def receiver_walking : Machine := call_slow (extend_for_call receiver_handling)
def receiver_walk : SlowSignatureHandler :=
  (SlowSignatureHandler.start 1 false (receiver_walking.gpr r5) (receiver_walking.gpr r6) receiver_walking.mem).pass_object 0
def receiver_callers : List Int :=
  CppInterpreter.callers_words StubGenerator.int_caller_entry.outer (receiver_called.gpr r1) (CppInterpreter.entered StubGenerator.int_caller_entry).activations

set_option maxRecDepth 4000 in
omit [SlowHandlerCode] in
theorem calls_receiver : letI := SlowHandlerCode.plain
    CppInterpreter.Steps StubGenerator.int_caller_entry (CppInterpreter.entered StubGenerator.int_caller_entry)
      ⟨(CppInterpreter.entered StubGenerator.int_caller_entry).activations,
        .call_non_interpreted_method (size_of_parameters (CppInterpreter.callee receiver_examined)) receiver_called⟩ := by
  let := SlowHandlerCode.plain
  have asks : CppInterpreter.Step StubGenerator.int_caller_entry (CppInterpreter.entered StubGenerator.int_caller_entry)
    ⟨(CppInterpreter.entered StubGenerator.int_caller_entry).activations,.interpreter_returned asked_receiver⟩ :=
    .interpreter (by decide) ⟨fun _ _ => rfl,by decide,by decide,⟨1,by decide,by decide⟩,
      .call_method,by decide,.call_method (by decide) (by decide)⟩
  have examined : CppInterpreter.examine_message CppInterpreter.requests (exec CppInterpreter.interpreter_returned asked_receiver) =
    some (.call_method,receiver_examined) := if_pos (by decide)
  have handled : CppInterpreter.handle_message .call_method receiver_examined = some (.call_non_interpreted_method receiver_called) :=
    congrArg some (if_neg (by decide))
  exact .tail (.single asks) (.message examined handled)

set_option maxRecDepth 4000 in
omit [SlowHandlerCode] in
theorem calls_handler : letI := SlowHandlerCode.plain
    NativeMethod.Steps StubGenerator.int_caller_entry receiver_callers receiver_called ⟨.entry,receiver_called⟩
      ⟨.calling .signature_handler,receiver_handling⟩ := by
  let := SlowHandlerCode.plain
  have plain : lock_if_necessary 0 (native_frame receiver_called) = some (native_frame receiver_called) := if_neg (by decide)
  have build : NativeMethod.Step StubGenerator.int_caller_entry receiver_callers receiver_called ⟨.entry,receiver_called⟩
    (after_lock (native_frame receiver_called)) := .build (by decide) (fun sync => absurd sync (by decide)) plain
  have prepares : after_lock (native_frame receiver_called) = ⟨.calling .prepare_native_call,receiver_preparing⟩ := if_pos (by decide)
  rw [prepares] at build
  have prepared : NativeMethod.Step StubGenerator.int_caller_entry receiver_callers receiver_called
    ⟨.calling .prepare_native_call,receiver_preparing⟩ (after_prepare receiver_preparing) :=
    .prepared ⟨fun _ _ => rfl,fun _ _ => rfl,rfl,fun _ _ => rfl⟩
  have got : after_prepare receiver_preparing = ⟨.got_signature_handler,(after_prepare receiver_preparing).machine⟩ := by
    unfold after_prepare
    dsimp only
    rw [if_pos (by decide)]
  rw [got] at prepared
  exact .tail (.tail (.single build) prepared) .got_signature_handler

set_option maxRecDepth 4000 in
omit [SlowHandlerCode] in
theorem signature_handlers_fit_receiver : letI := SlowHandlerCode.plain
    ∃ m', after_slow {receiver_walking with mem := receiver_walk.mem} = some m' ∧ m'.lr = receiver_handling.lr ∧
      NativeMethod.Steps StubGenerator.int_caller_entry receiver_callers receiver_called ⟨.entry,receiver_called⟩ (after_handler m') := by
  let := SlowHandlerCode.plain
  have ready : StubGenerator.int_caller_entry.Ready := StubGenerator.stub_entry_ready StubGenerator.int_caller_called
  have off : OffThread StubGenerator.int_caller_entry :=
    ⟨.inr (by decide),fun i low _ => .inr (by change (0x3000 : Int) ≤ 0x10000 + i; omega)⟩
  have locals : ∀ k, k < parameterWords (parameters false []) → receiver_handling.gpr Rstate + sizeof_BytecodeInterpreter ≤ receiver_handling.ea (localAddress k) := fun k few => by
    obtain rfl : k = 0 := Nat.lt_one_iff.mp few
    decide
  have sized : size_of_parameters receiver_handling = 1 := by decide
  have walked : InterpreterRuntime.slow_signature_handler (size_of_parameters receiver_handling) false [] (receiver_walking.gpr r5)
      (receiver_walking.gpr r6) receiver_walking.mem = some receiver_walk := by
    rw [sized]
    rfl
  have called : SlowCalled 0x3000 receiver_walk receiver_walking {receiver_walking with mem := receiver_walk.mem} :=
    ⟨fun _ _ => rfl,fun _ _ => rfl,fun _ _ _ => rfl⟩
  have returned : after_slow {receiver_walking with mem := receiver_walk.mem} = some _ := if_pos (by decide +kernel)
  have handles : Handles 16 0x3000 false [] receiver_handling _ :=
    .slow (by decide) (.inr (.inl rfl)) (by decide +kernel) walked called returned
  have entry : HandlerEntry (parameterWords (parameters false [])) receiver_handling := ⟨by decide,locals⟩
  have words : size_of_parameters receiver_handling = parameterWords (parameters false []) := sized
  exact ⟨_,returned,signature_handlers_fit ready off (by decide) calls_receiver calls_handler entry words handles⟩

end SignatureHandlerCalls
end IcedTea

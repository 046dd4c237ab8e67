import IcedTea.FrameManagerSteps

namespace IcedTea.CppInterpreter
open StackFrame (lr_save_offset back_chain_offset)
open Vm Code Activation SharedRuntime BasicType

section
variable [Target]

-- A value on a stack is in its own words.
theorem on_top_same (t : BasicType) (m m' : Cells) (top : Int)
    (same : ∀ b, top + wordSize ≤ b → b < top + wordSize + result_words t * wordSize → m' b = m b) : on_top t m' top = on_top t m top := by
  have pos := wordSize_pos
  have small : 4 ≤ wordSize := by unfold wordSize Cells.width; split <;> decide
  have cell : result_words t = 1 → m' (top - -1*wordSize) = m (top - -1*wordSize) := fun one => by
    rw [slot_address]
    exact same _ (by omega) (by rw [one]; omega)
  have pair : result_words t = 2 → m'.word true (top - -1*wordSize) = m.word true (top - -1*wordSize) := fun two => by
    rw [slot_address]
    exact Cells.word_congr fun b low high => same b low (by
      rw [two]
      change b < _ + 8 at high
      omega)
  have word : result_words t = 1 → m'.word wide (top - -1*wordSize) = m.word wide (top - -1*wordSize) := fun one => by
    rw [slot_address]
    exact Cells.word_congr fun b low high => same b low (by
      rw [one]
      change b < _ + wordSize at high
      omega)
  cases t <;> simp only [on_top,STACK_INT,STACK_FLOAT,STACK_LONG,STACK_DOUBLE,STACK_OBJECT] <;>
    first | rw [cell rfl] | rw [pair rfl] | rw [word rfl]
end

variable [Code] {e : Entry} {a b : Activation} {rest : List Activation} {m m' : Machine} {sp : Int} {c : Control}

-- The machine when the converter is called.
def at_converter (converter_array : Int) (m : Machine) : Machine :=
  {exec [.loadImm r5 converter_array,.lwz r0 ⟨Rmethod,result_index_offset⟩,.shift_left r0 r0 LogBytesPerWord,
    .load_indexed r0 r5 r0,.mtctr r0] m with lr := site .result_converted}

theorem at_converter_keeps (converter_array : Int) (m : Machine) : Keeps [.gpr r0,.gpr r5,.lr,.ctr] m (at_converter converter_array m) := by
  intro p absent
  simp only [List.mem_cons,List.not_mem_nil,or_false,not_or] at absent
  have same := exec_keeps [.loadImm r5 converter_array,.lwz r0 ⟨Rmethod,result_index_offset⟩,.shift_left r0 r0 LogBytesPerWord,
    .load_indexed r0 r5 r0,.mtctr r0] m p
  cases p with
  | lr => exact absurd rfl absent.2.2.1
  | _ =>
    refine same ?_
    simp only [written,Instr.written,List.flatMap_cons,List.flatMap_nil,List.cons_append,List.nil_append,List.mem_cons,
      List.not_mem_nil,or_false]
    tauto

-- The conversion is the one for the method's result.
theorem convert_result_code (converter_array : Int) (converter : BasicType → Option (List Instr)) (m : Machine) :
    convert_result converter_array converter m =
      ((result_type m).bind converter).map fun code => exec code (at_converter converter_array m) := rfl

theorem convert_result_spec (found : convert_result converter_array converter m = some m') :
    ∃ t code, result_type m = some t ∧ converter t = some code ∧ m' = exec code (at_converter converter_array m) := by
  rw [convert_result_code] at found
  simp only [Option.map_eq_some_iff,Option.bind_eq_some_iff] at found
  obtain ⟨code,⟨t,type,converts⟩,rfl⟩ := found
  exact ⟨t,code,type,converts,rfl⟩

theorem convert_result_finds (converter_array : Int) (type : result_type m = some t) (converts : converter t = some code) :
    convert_result converter_array converter m = some (exec code (at_converter converter_array m)) := by
  rw [convert_result_code,type,Option.bind_some,converts,Option.map_some]

-- A callee's result is stored in its caller's frame, where the callee's own
-- activation is below it.
theorem caller_stored (ready : e.Ready) (live : Live e m sp (a :: b :: rest)) (same : Cells.SameOutside low high m.mem m'.mem)
    (below : a.caller + frame_header ≤ low) (above : high ≤ b.field m .stack_base) :
    Live e m' sp (a :: b :: rest) ∧ (∀ f ∈ StateField.stack :: Activation.held, b.field m' f = b.field m f) ∧
      SameWords (kept_words e.outer (b :: rest)) m m' := by
  cases live with
  | called frame return_address passed waiting =>
    have words := expression_stack_stores ready waiting same below above
    obtain ⟨_,fields⟩ := live_stored ready waiting same below above
    have bounds := frame_bounds frame
    have room := bounds.room
    have limit := bounds.limit
    have base := bounds.base
    have monitors := bounds.monitors
    have object := sizeof_large
    have pos := wordSize_pos
    have second := lr_save_above
    have inside := lr_save_inside
    have slop : slop_factor = 2*wordSize := rfl
    have last : a.caller = a.state + sizeof_BytecodeInterpreter := rfl
    have own : ∀ w, w + wordSize ≤ a.caller → m'.read w = m.read w := fun w ends =>
      same.word (.inl (show _ + wordSize ≤ _ by omega))
    have fields' : ∀ f, f ≠ .msg → a.field m' f = a.field m f := fun f word => field_same f word (own _ (by
      have field := state_inside f
      have size : f.bytes = wordSize := if_neg word
      omega))
    obtain ⟨depth,place,least⟩ := frame_in_range frame
    refine ⟨live_kept (.called frame return_address passed waiting) (Int.le_refl _) bounds.aligned (own sp (by omega))
      (fun w member => ?_) ⟨depth,?_,?_⟩,fields,fun w member => words w (kept_callers member)⟩
    · rcases List.mem_append.mp member with held|callers
      · have within := words_within a _ (by decide) w held
        unfold Within at within
        exact own w within.2
      · exact words w callers
    · rw [fields' .stack (by decide),fields' .stack_base (by decide)]
      exact place
    · rw [fields' .stack (by decide),fields' .stack_limit (by decide)]
      exact least

theorem live_positive (live : Live e m sp as) : e.low ≤ sp → ∀ a ∈ as, e.low ≤ a.state := by
  have own : ∀ {a : Activation} {sp prev : Int}, a.Frame sp m prev → sp ≤ a.state := fun frame => by
    have bounds := frame_bounds frame
    have room := bounds.room
    have limit := bounds.limit
    have base := bounds.base
    have monitors := bounds.monitors
    have pos := wordSize_pos
    have inside := lr_save_inside
    have second := lr_save_above
    have slop : slop_factor = 2*wordSize := rfl
    omega
  induction live with
  | outermost frame locals caller =>
    intro low a member
    rw [List.mem_singleton.mp member]
    exact Int.le_trans low (own frame)
  | @called sp rest a b frame return_address passed waiting ih =>
    intro low a' member
    have first := Int.le_trans low (own frame)
    rcases List.mem_cons.mp member with rfl|later
    · exact first
    · refine ih ?_ a' later
      have object := sizeof_large
      have pos := wordSize_pos
      unfold caller
      omega

theorem test_prev_link_spec (m : Machine) : let m' := exec test_prev_link m
    ((m'.cr cr0).eq ↔ state m .prev_link = 0) ∧ m'.mem = m.mem ∧ Keeps [.gpr r0,.cr cr0] m m' := by
  have word := read_state m .prev_link (by decide)
  refine ⟨?_,rfl,(exec_keeps _ m).mono (by simp [written,test_prev_link,Instr.written])⟩
  rw [← word]
  simp [test_prev_link,step]

-- Where a result is pushed: over the parameters of the callee.
theorem result_place {locals parameters : Int} (place : b.InRange m) (passed : locals = b.field m .stack + parameters*wordSize) (pushed : locals + wordSize ≤ b.field m .stack_base)
    (words : Nat) : ∃ depth : Nat, locals - words*wordSize = b.field m .stack_base - ((depth : Int)+1)*wordSize := by
  have pos := wordSize_pos
  obtain ⟨depth,stack,_⟩ := place
  have few : parameters ≤ depth := by
    by_contra more
    have apart := Int.mul_le_mul_of_nonneg_right (show (depth : Int) + 1 ≤ parameters by omega) (Int.le_of_lt pos)
    rw [stack] at passed
    omega
  refine ⟨(depth - parameters + words).toNat,?_⟩
  rw [Int.toNat_of_nonneg (by omega),passed,stack]
  ring

-- The place of a result is in the caller's frame, above the link area and the
-- spare slots that nothing else uses.
theorem result_room {locals p : Int} (frame : Bounds b sp m) (passed : locals = b.field m .stack + p*wordSize) (nonneg : 0 ≤ p) :
    sp + frame_header ≤ locals - wordSize := by
  have pos := wordSize_pos
  have room := frame.room
  have limit := frame.limit
  have up := Int.mul_nonneg nonneg (Int.le_of_lt pos)
  have slop : slop_factor = 2*wordSize := rfl
  omega

-- The caller resumes with the result's words in place of the parameters.
theorem result_resumed {n : Machine} {t : BasicType} {top parameters : Int} (ready : e.Ready) (live : Live e n (n.gpr r1) (b :: rest))
    (state : n.gpr Rstate = b.state) (thread : n.gpr Rthread = e.machine.gpr Rthread)
    (locals : n.gpr Rlocals = top - result_words t * wordSize) (range : b.InRange m) (passed : top = b.field m .stack + parameters*wordSize)
    (pushed : top + wordSize ≤ b.field m .stack_base) (fields : ∀ f ∈ Activation.held, b.field n f = b.field m f)
    (fits : b.field m .stack_limit ≤ top - result_words t * wordSize) :
    let m' := exec resume_interpreter n
    Running e b rest m' ∧ m'.gpr Rmethod = b.field m' .method ∧ SameWords (kept_words e.outer (b :: rest)) n m' ∧
      b.field m' .stack = top - result_words t * wordSize ∧ on_top t m'.mem (b.field m' .stack) = on_top t n.mem (n.gpr Rlocals) := by
  intro m'
  obtain ⟨depth,place⟩ := result_place range passed pushed (result_words t)
  have base := fields .stack_base (by simp [Activation.held])
  have resumable : Resumable e b rest n := by
    refine ⟨live,state,thread,⟨depth,?_⟩,?_⟩
    · rw [locals,base]
      exact place
    · rw [locals,fields .stack_limit (by simp [Activation.held])]
      exact fits
  obtain ⟨running,method,stack,_,apart,words⟩ := resume_interpreter_running ready resumable
  refine ⟨running,method,words,stack.trans locals,?_⟩
  rw [stack]
  obtain ⟨_,frame⟩ := live_frame live
  have monitors := (frame_bounds frame).monitors
  exact on_top_same t _ _ _ fun cell _ high => apart cell (.inl (by omega))

-- A method returns to the activation that called it, which finds the value on
-- its own stack instead of the parameters.
theorem return_called (ready : e.Ready) (running : Running e a (b :: rest) m) (positive : b.state ≠ 0)
    (returned : return_from_method m = some c)
    (fits : ∀ t, result_type m = some t → b.field m .stack_limit ≤ a.field m .locals - result_words t * wordSize) :
    ∃ t m', result_type m = some t ∧ c = .call_interpreter m' ∧ Running e b rest m' ∧ m'.gpr Rmethod = b.field m' .method ∧
      SameWords (kept_words e.outer (b :: rest)) m m' ∧ b.field m' .stack = a.field m .locals - result_words t * wordSize ∧
      on_top t m'.mem (b.field m' .stack) = on_top t m.mem (a.field m .stack) := by
  obtain ⟨test,mem₁,kept₁⟩ := test_prev_link_spec m
  cases live : running.live with
  | called frame return_address passed waiting =>
    have link : state m .prev_link = b.state := by
      rw [running_field running]
      exact frame.prev_link
    have converts : (convert_result stack_to_stack stack_to_stack_converter (exec test_prev_link m)).map
        (fun m => Control.call_interpreter (exec resume_interpreter (exec unwind_interpreter_state m))) = some c := by
      rw [← returned]
      exact (if_neg (by rw [test,link]; exact positive)).symm
    obtain ⟨m₂,found,rfl⟩ := Option.map_eq_some_iff.mp converts
    obtain ⟨t,code,type,converter,rfl⟩ := convert_result_spec found
    have kept₂ := at_converter_keeps stack_to_stack (exec test_prev_link m)
    have mem₂ : (at_converter stack_to_stack (exec test_prev_link m)).mem = m.mem := mem₁
    generalize at_converter stack_to_stack (exec test_prev_link m) = m₂ at found kept₂ mem₂ ⊢
    have method : (exec test_prev_link m).gpr Rmethod = m.gpr Rmethod := kept₁.gpr Rmethod (by simp)
    have type' : result_type m = some t := by
      rw [← type]
      simp only [result_type,Machine.ea,Machine.read32,mem₁,method]
    have top₂ : m₂.gpr r1 = m.gpr r1 := (kept₂.gpr r1 (by simp)).trans (kept₁.gpr r1 (by simp))
    have state₂ : m₂.gpr Rstate = a.state := ((kept₂.gpr Rstate (by simp)).trans (kept₁.gpr Rstate (by simp))).trans running.state
    have locals₂ : m₂.gpr Rlocals = a.field m .locals :=
      ((kept₂.gpr Rlocals (by simp)).trans (kept₁.gpr Rlocals (by simp))).trans running.locals
    have thread₂ : m₂.gpr Rthread = e.machine.gpr Rthread :=
      ((kept₂.gpr Rthread (by simp)).trans (kept₁.gpr Rthread (by simp))).trans running.thread
    obtain ⟨_,shape⟩ := live_frame waiting
    have callers := frame_bounds shape
    have bounds := frame_bounds frame
    have room := result_room callers passed.locals passed.nonneg
    have own := bounds.base
    have monitors := bounds.monitors
    have pos := wordSize_pos
    have object := sizeof_large
    have header : 2*wordSize ≤ frame_header := by
      have inside := lr_save_inside
      have second := lr_save_above
      omega
    have last : a.caller = a.state + sizeof_BytecodeInterpreter := rfl
    have stack₂ : CppInterpreter.state m₂ .stack = a.field m .stack := by rw [CppInterpreter.state,state₂,mem₂]; rfl
    have converted := stack_to_stack_spec t m₂ code converter
    have pushed := stack_pushed t m₂ code converter (by rw [stack₂,locals₂]; omega)
    generalize exec code m₂ = m₃ at converted pushed ⊢
    have outside := converted.mem
    rw [mem₂,locals₂] at outside
    obtain ⟨live₃,fields,words₃⟩ : Live e m₃ _ _ ∧ _ ∧ SameWords _ m m₃ := caller_stored ready (.called frame return_address passed waiting) outside room passed.pushed
    have value := pushed.value
    have locals₃ := pushed.locals
    rw [stack₂,mem₂] at value
    rw [locals₂] at locals₃
    have top₃ : m₃.gpr r1 = m.gpr r1 := (converted.keeps.gpr r1 (by simp)).trans top₂
    have state₃ : m₃.gpr Rstate = a.state := (converted.keeps.gpr Rstate (by simp)).trans state₂
    rw [← top₃] at live₃
    obtain ⟨live₄,state₄,top₄,mem₄,locals₄,thread₄⟩ := unwind_called live₃ state₃
    generalize exec unwind_interpreter_state m₃ = m₄ at live₄ state₄ top₄ mem₄ locals₄ thread₄ ⊢
    have fields₄ : ∀ f ∈ StateField.stack :: Activation.held, b.field m₄ f = b.field m f := fun f member => by
      rw [Activation.field,mem₄]
      exact fields f member
    obtain ⟨running',method',words',stack',top'⟩ := result_resumed ready live₄ state₄
      (thread₄.trans ((converted.keeps.gpr Rthread (by simp)).trans thread₂)) (locals₄.trans locals₃) (frame_in_range shape) passed.locals
      passed.pushed (fun f member => fields₄ f (by simp [member])) (fits t type')
    refine ⟨t,_,type',rfl,running',method',(words₃.trans (.mem _ mem₄)).trans words',stack',?_⟩
    rw [top',locals₄,mem₄]
    exact value

-- The last method's result goes to the entry's caller.
theorem return_outermost (running : Running e a [] m) (returned : return_from_method m = some c) : ∃ m', c = .blr m' ∧ Left e m' := by
  obtain ⟨test,mem₁,kept₁⟩ := test_prev_link_spec m
  cases live : running.live with
  | outermost frame first caller =>
    have link : state m .prev_link = 0 := by
      rw [running_field running]
      exact frame.prev_link
    have converts : (convert_result stack_to_native_abi stack_to_native_abi_converter (exec test_prev_link m)).map
        (fun m => Control.blr (exec unwind_interpreter_state m)) = some c := by
      rw [← returned]
      exact (if_pos (test.mpr link)).symm
    obtain ⟨m₃,found,rfl⟩ := Option.map_eq_some_iff.mp converts
    obtain ⟨t,code,type,converter,rfl⟩ := convert_result_spec found
    have kept₂ := at_converter_keeps stack_to_native_abi (exec test_prev_link m)
    have mem₂ : (at_converter stack_to_native_abi (exec test_prev_link m)).mem = m.mem := mem₁
    generalize at_converter stack_to_native_abi (exec test_prev_link m) = m₂ at found kept₂ mem₂ ⊢
    have loads : (exec code m₂).mem = m₂.mem ∧ Keeps [.gpr r3,.gpr r4,.gpr r5,.fpr f1] m₂ (exec code m₂) := by
      refine ⟨?_,(exec_keeps code m₂).mono ?_⟩ <;>
        cases t <;> simp only [stack_to_native_abi_converter,Option.some.injEq,reduceCtorEq] at converter <;> subst converter <;>
        (try cases Target.cpu) <;> simp [written,Instr.written,step]
    generalize exec code m₂ = m₃ at loads ⊢
    have kept : Keeps [.gpr r0,.gpr r3,.gpr r4,.gpr r5,.fpr f1,.lr,.ctr,.cr cr0] m m₃ :=
      ((kept₁.trans kept₂).trans loads.2).mono (by simp)
    have mem : m₃.mem = m.mem := loads.1.trans mem₂
    have top : m₃.gpr r1 = m.gpr r1 := kept.gpr r1 (by simp)
    have fields : ∀ f, a.field m₃ f = a.field m f := fun f => by rw [Activation.field,mem]; rfl
    have live₃ : Live e m₃ (m₃.gpr r1) [a] := by
      rw [top]
      exact live_mem (.outermost frame first caller) mem
    refine ⟨_,rfl,unwind_outermost live₃ ((kept.gpr Rstate (by simp)).trans running.state) ?_
      ((kept.gpr Rthread (by simp)).trans running.thread)⟩
    rw [kept.gpr Rlocals (by simp),fields]
    exact running.locals

-- Up the stack, or out of the entry, with no result.
theorem return_with_exception_called (ready : e.Ready) (resumable : Resumable e b rest m) (positive : b.state ≠ 0) :
    ∃ m', return_with_exception m = .call_interpreter m' ∧ Running e b rest m' ∧ m'.gpr Rmethod = b.field m' .method ∧
      SameWords (kept_words e.outer (b :: rest)) m m' ∧ b.field m' .stack = m.gpr Rlocals := by
  let m₁ := exec [.compareImm cr0 Rstate 0] m
  have mem₁ : m₁.mem = m.mem := rfl
  have kept : Keeps [.cr cr0] m m₁ := (exec_keeps _ m).mono (by simp [written,Instr.written])
  have other : ¬ (m₁.cr cr0).eq := by
    have state := resumable.state
    simp only [Rstate] at state
    simpa [m₁,step,state] using positive
  have fields : ∀ f, b.field m₁ f = b.field m f := fun f => by rw [Activation.field,mem₁]; rfl
  have resumable₁ : Resumable e b rest m₁ := by
    refine ⟨?_,(kept.gpr Rstate (by simp)).trans resumable.state,(kept.gpr Rthread (by simp)).trans resumable.thread,?_,?_⟩
    · rw [kept.gpr r1 (by simp)]
      exact live_mem resumable.live mem₁
    · rw [kept.gpr Rlocals (by simp),fields]
      exact resumable.place
    · rw [kept.gpr Rlocals (by simp),fields]
      exact resumable.limit
  obtain ⟨running,method,stack,_,_,words⟩ := resume_interpreter_running ready resumable₁
  exact ⟨_,if_neg other,running,method,(SameWords.mem _ mem₁).trans words,stack.trans (kept.gpr Rlocals (by simp))⟩

theorem throwing_called (ready : e.Ready) (running : Running e a (b :: rest) m) (positive : b.state ≠ 0) :
    ∃ m', throwing_exception m = .call_interpreter m' ∧ Running e b rest m' ∧ m'.gpr Rmethod = b.field m' .method ∧
      SameWords (kept_words e.outer (b :: rest)) m m' ∧ b.field m' .stack = a.field m .locals := by
  obtain ⟨live,state,top,mem,locals,thread⟩ := unwind_called running.live running.state
  cases running.live with
  | called frame return_address passed waiting =>
    obtain ⟨_,shape⟩ := live_frame waiting
    have fields : ∀ f, b.field (exec unwind_interpreter_state m) f = b.field m f := fun f => by rw [Activation.field,mem]; rfl
    have limit := (frame_bounds shape).limit
    have up := Int.mul_nonneg passed.nonneg (Int.le_of_lt wordSize_pos)
    have passed' := passed.locals
    obtain ⟨depth,place⟩ := result_place (frame_in_range shape) passed.locals passed.pushed 0
    rw [Nat.cast_zero,Int.zero_mul,Int.sub_zero] at place
    have resumable : Resumable e b rest (exec unwind_interpreter_state m) := by
      refine ⟨live,state,thread.trans running.thread,⟨depth,?_⟩,?_⟩
      · rw [locals,running.locals,fields]
        exact place
      · rw [locals,running.locals,fields]
        omega
    obtain ⟨m',code,running',method,words,stack⟩ := return_with_exception_called ready resumable positive
    exact ⟨m',code,running',method,(SameWords.mem _ mem).trans words,stack.trans (locals.trans running.locals)⟩

theorem throwing_outermost (running : Running e a [] m) : ∃ m', throwing_exception m = .blr m' ∧ Left e m' := by
  have left := unwind_outermost running.live running.state running.locals running.thread
  unfold throwing_exception
  generalize exec unwind_interpreter_state m = m₁ at left ⊢
  let m₂ := exec [.compareImm cr0 Rstate 0] m₁
  have kept : Keeps [.cr cr0] m₁ m₂ := (exec_keeps _ m₁).mono (by simp [written,Instr.written])
  have none : (m₂.cr cr0).eq := by
    have state := left.state
    simp only [Rstate] at state
    simp [m₂,step,state]
  have top : m₂.gpr r1 = m₁.gpr r1 := kept.gpr r1 (by simp)
  refine ⟨m₂,if_pos none,?_,(kept.lr (by simp)).trans left.return_address,(kept.gpr Rlocals (by simp)).trans left.locals,
    (kept.gpr Rthread (by simp)).trans left.thread,(kept.gpr Rstate (by simp)).trans left.state⟩
  rw [top]
  exact ⟨left.caller.aligned,left.caller.lower,left.caller.back_chain,left.caller.cr_save,left.caller.return_address,left.caller.outer⟩

-- While a callee that is not interpreted runs: its parameters are on the stack
-- of the activation that called it.
structure Calling (e : Entry) (b : Activation) (rest : List Activation) (parameters : Int) (m : Machine) : Prop where
  live : Live e m (m.gpr r1) (b :: rest)
  locals : m.gpr Rlocals = b.field m .stack + parameters*wordSize
  pushed : m.gpr Rlocals + wordSize ≤ b.field m .stack_base
  nonneg : 0 ≤ parameters
  thread : m.gpr Rthread = e.machine.gpr Rthread

theorem restore_state_spec (m : Machine) : let m' := exec restore_state m
    m'.gpr Rstate = m.read (m.gpr r1) - sizeof_BytecodeInterpreter ∧
      ((m'.cr cr0).eq ↔ m.read (m.gpr Rthread + pending_exception_offset) = 0) ∧ m'.mem = m.mem ∧
      Keeps [.gpr Rstate,.gpr r0,.cr cr0] m m' :=
  ⟨by simp [restore_state,step,back_chain_offset],by simp [restore_state,step],rfl,
    (exec_keeps _ m).mono (by simp [written,restore_state,Instr.written])⟩

theorem register_value_same (t : BasicType) (three : m'.gpr r3 = m.gpr r3) (four : m'.gpr r4 = m.gpr r4) (one : m'.fpr f1 = m.fpr f1) :
    register_value t m' = register_value t m := by
  cases t <;> simp only [register_value,native_value,three,four,one]

-- Back from such a callee the state object is found through the back chain.
theorem caller_restored (calling : Calling e b rest p m) :
    Live e (exec restore_state m) ((exec restore_state m).gpr r1) (b :: rest) ∧ (exec restore_state m).gpr Rstate = b.state ∧
      (exec restore_state m).gpr Rthread = e.machine.gpr Rthread := by
  obtain ⟨restored,_,mem₁,kept₁⟩ := restore_state_spec m
  obtain ⟨_,frame⟩ := live_frame calling.live
  have bounds := frame_bounds frame
  have top₁ : (exec restore_state m).gpr r1 = m.gpr r1 := kept₁.gpr r1 (by simp)
  refine ⟨?_,?_,(kept₁.gpr Rthread (by simp)).trans calling.thread⟩
  · rw [top₁]
    exact live_mem calling.live mem₁
  · rw [restored,bounds.back_chain]
    unfold caller
    omega

-- A result is pushed from the registers.
theorem callee_converted (ready : e.Ready) (calling : Calling e b rest p m) (returned : callee_returned m = some c)
    (none : m.read (m.gpr Rthread + pending_exception_offset) = 0)
    (fits : ∀ t, result_type m = some t → b.field m .stack_limit ≤ m.gpr Rlocals - result_words t * wordSize) :
    ∃ t m', result_type m = some t ∧ c = .call_interpreter m' ∧ Running e b rest m' ∧ m'.gpr Rmethod = b.field m' .method ∧
      SameWords (kept_words e.outer (b :: rest)) m m' ∧ b.field m' .stack = m.gpr Rlocals - result_words t * wordSize ∧
      on_top t m'.mem (b.field m' .stack) = register_value t m := by
  obtain ⟨_,test,mem₁,kept₁⟩ := restore_state_spec m
  obtain ⟨_,state₁,thread₁⟩ := caller_restored calling
  obtain ⟨_,frame⟩ := live_frame calling.live
  have bounds := frame_bounds frame
  have converts : (convert_result tosca_to_stack tosca_to_stack_converter (exec restore_state m)).map
      (fun m => Control.call_interpreter (exec resume_interpreter m)) = some c := by
    rw [← returned]
    exact (if_pos (test.mpr none)).symm
  obtain ⟨m₂,found,rfl⟩ := Option.map_eq_some_iff.mp converts
  obtain ⟨t,code,type,converter,rfl⟩ := convert_result_spec found
  have kept₂ := at_converter_keeps tosca_to_stack (exec restore_state m)
  have mem₂ : (at_converter tosca_to_stack (exec restore_state m)).mem = m.mem := mem₁
  have value₂ : register_value t (at_converter tosca_to_stack (exec restore_state m)) = register_value t m :=
    register_value_same t ((kept₂.gpr r3 (by simp)).trans (kept₁.gpr r3 (by simp)))
      ((kept₂.gpr r4 (by simp)).trans (kept₁.gpr r4 (by simp))) ((kept₂.fpr f1 (by simp)).trans (kept₁.fpr f1 (by simp)))
  generalize at_converter tosca_to_stack (exec restore_state m) = m₂ at found kept₂ mem₂ value₂ ⊢
  have type' : result_type m = some t := by
    rw [← type]
    simp only [result_type,Machine.ea,Machine.read32,mem₁,kept₁.gpr Rmethod (by simp)]
  have top₂ : m₂.gpr r1 = m.gpr r1 := (kept₂.gpr r1 (by simp)).trans (kept₁.gpr r1 (by simp))
  have locals₂ : m₂.gpr Rlocals = m.gpr Rlocals := (kept₂.gpr Rlocals (by simp)).trans (kept₁.gpr Rlocals (by simp))
  have room := result_room bounds calling.locals calling.nonneg
  have converted := tosca_to_stack_spec t m₂ code converter
  have pushed := tosca_pushed t m₂ code converter
  generalize exec code m₂ = m₃ at converted pushed ⊢
  have outside := converted.mem
  rw [mem₂,locals₂] at outside
  obtain ⟨live₃,fields⟩ : Live e m₃ _ _ ∧ _ := live_stored ready calling.live outside room calling.pushed
  have words₃ : SameWords (kept_words e.outer (b :: rest)) m m₃ := fun w member =>
    expression_stack_stores ready calling.live outside room calling.pushed w (kept_callers member)
  have value := pushed.value
  have locals₃ := pushed.locals
  rw [value₂] at value
  rw [locals₂] at locals₃
  have live₄ : Live e m₃ (m₃.gpr r1) (b :: rest) := by
    rw [converted.keeps.gpr r1 (by simp),top₂]
    exact live₃
  obtain ⟨running,method,words,stack,top⟩ := result_resumed ready live₄
    ((converted.keeps.gpr Rstate (by simp)).trans ((kept₂.gpr Rstate (by simp)).trans state₁))
    ((converted.keeps.gpr Rthread (by simp)).trans ((kept₂.gpr Rthread (by simp)).trans thread₁)) locals₃ (frame_in_range frame)
    calling.locals calling.pushed (fun f member => fields f (by simp [member])) (fits t type')
  exact ⟨t,_,type',rfl,running,method,words₃.trans words,stack,top.trans value⟩

-- After an exception the parameters are dropped.
theorem callee_threw (ready : e.Ready) (calling : Calling e b rest p m) (positive : b.state ≠ 0) (returned : callee_returned m = some c)
    (pending : m.read (m.gpr Rthread + pending_exception_offset) ≠ 0) :
    ∃ m', c = .call_interpreter m' ∧ Running e b rest m' ∧ m'.gpr Rmethod = b.field m' .method ∧
      SameWords (kept_words e.outer (b :: rest)) m m' ∧ b.field m' .stack = m.gpr Rlocals := by
  obtain ⟨_,test,mem₁,kept₁⟩ := restore_state_spec m
  obtain ⟨live₁,state₁,thread₁⟩ := caller_restored calling
  obtain ⟨_,frame⟩ := live_frame calling.live
  have pos := wordSize_pos
  have limit := (frame_bounds frame).limit
  have up := Int.mul_nonneg calling.nonneg (Int.le_of_lt pos)
  have passed := calling.locals
  have locals₁ : (exec restore_state m).gpr Rlocals = m.gpr Rlocals := kept₁.gpr Rlocals (by simp)
  have fields₁ : ∀ f, b.field (exec restore_state m) f = b.field m f := fun f => by rw [Activation.field,mem₁]; rfl
  have code : return_with_exception (exec restore_state m) = c := by
    have taken : callee_returned m = some (return_with_exception (exec restore_state m)) := if_neg (mt test.mp pending)
    rw [taken] at returned
    exact Option.some.inj returned
  obtain ⟨depth,place⟩ := result_place (frame_in_range frame) calling.locals calling.pushed 0
  rw [Nat.cast_zero,Int.zero_mul,Int.sub_zero] at place
  have resumable : Resumable e b rest (exec restore_state m) := by
    refine ⟨live₁,state₁,thread₁,⟨depth,?_⟩,?_⟩
    · rw [locals₁,fields₁]
      exact place
    · rw [locals₁,fields₁]
      omega
  obtain ⟨m',same,running,method,words,stack⟩ := return_with_exception_called ready resumable positive
  exact ⟨m',code.symm.trans same,running,method,(SameWords.mem _ mem₁).trans words,stack.trans locals₁⟩

theorem callee_resumed (ready : e.Ready) (calling : Calling e b rest p m) (positive : b.state ≠ 0) (returned : callee_returned m = some c)
    (fits : m.read (m.gpr Rthread + pending_exception_offset) = 0 → ∀ t, result_type m = some t →
      b.field m .stack_limit ≤ m.gpr Rlocals - result_words t * wordSize) :
    ∃ m', c = .call_interpreter m' ∧ Running e b rest m' ∧ m'.gpr Rmethod = b.field m' .method ∧
      SameWords (kept_words e.outer (b :: rest)) m m' ∧
      if m.read (m.gpr Rthread + pending_exception_offset) = 0 then ∃ t, result_type m = some t ∧
        b.field m' .stack = m.gpr Rlocals - result_words t * wordSize ∧ on_top t m'.mem (b.field m' .stack) = register_value t m
      else b.field m' .stack = m.gpr Rlocals := by
  by_cases none : m.read (m.gpr Rthread + pending_exception_offset) = 0
  · obtain ⟨t,m',type,same,running,method,words,stack,value⟩ := callee_converted ready calling returned none (fits none)
    refine ⟨m',same,running,method,words,?_⟩
    rw [if_pos none]
    exact ⟨t,type,stack,value⟩
  · obtain ⟨m',same,running,method,words,stack⟩ := callee_threw ready calling positive returned none
    refine ⟨m',same,running,method,words,?_⟩
    rw [if_neg none]
    exact stack

-- The pointers that go down with a new monitor.
def moved_pointers : List StateField := [.stack_base,.stack,.stack_limit]

-- More monitors: the same activation in a larger frame.
theorem grown_live (ready : e.Ready) (running : Running e a rest m) :
    ∃ m₁, more_monitors m = some m₁ ∧ Live e m₁ (m₁.gpr r1) (a :: rest) ∧
      (∀ f, f ≠ .stack_base → f ≠ .stack → f ≠ .stack_limit → a.field m₁ f = a.field m f) ∧
      (∀ f ∈ moved_pointers, a.field m₁ f = a.field m f - monitor_size) ∧ SameWords (above_words e.outer (a :: rest)) m m₁ ∧
      Keeps [.gpr r0,.gpr r1,.gpr r3,.gpr r4,.gpr r5,.cr cr0] m m₁ := by
  obtain ⟨_,frame⟩ := live_frame running.live
  obtain ⟨_,callers⟩ := live_above ready running.live a rest rfl
  have self := at_self a m running.state
  obtain ⟨max_stack,depth,monitors,shape⟩ := frame.shape
  rw [self] at shape
  obtain ⟨m₁,code,grown,_⟩ := more_monitors_grown shape
  have state₁ : m₁.gpr Rstate = a.state := (grown.registers.gpr Rstate (by simp)).trans running.state
  have in_state : ∀ m : Machine, m.gpr Rstate = a.state → ∀ f, CppInterpreter.state m f = a.field m f := fun m same f => by
    rw [CppInterpreter.state,same]; rfl
  have pointers : ∀ f, f ≠ .stack_base → f ≠ .stack → f ≠ .stack_limit → a.field m₁ f = a.field m f := fun f base stack limit => by
    rw [← in_state m₁ state₁,← in_state m running.state]
    exact grown.pointers f base stack limit
  have above : ∀ w ∈ above_words e.outer (a :: rest), m₁.read w = m.read w := fun w member => by
    have within := callers w member
    refine Cells.word_congr fun cell low _ => grown.above cell ?_
    rw [running.state]
    unfold Within caller at within
    omega
  have moved : ∀ f ∈ moved_pointers, a.field m₁ f = a.field m f - monitor_size := fun f member => by
    have base := grown.new_monitor
    have stack := grown.depth
    have limit := grown.max_stack
    have old := shape.stack
    have lowest := shape.stack_limit
    rw [← in_state m₁ state₁,← in_state m running.state]
    simp only [moved_pointers,List.mem_cons,List.not_mem_nil,or_false] at member
    rcases member with rfl|rfl|rfl <;> omega
  refine ⟨m₁,code,live_reframed running.live (fun prev old => ⟨⟨max_stack,depth,monitors+1,?_⟩,?_,?_,?_⟩) ?_ above,pointers,moved,above,
    grown.registers⟩
  · rw [at_self a m₁ state₁]
    exact grown_frame shape grown
  · rw [pointers .self_link (by decide) (by decide) (by decide)]
    exact old.self_link
  · rw [pointers .prev_link (by decide) (by decide) (by decide)]
    exact old.prev_link
  · rw [pointers .locals (by decide) (by decide) (by decide)]
    exact old.locals
  · exact pointers .locals (by decide) (by decide) (by decide)

-- The message to the interpreter is a field of its own.
theorem msg_live {code : Int} (ready : e.Ready) (live : Live e m sp (a :: rest)) (stored : m'.mem = m.mem.setField a.state .msg code) :
    Live e m' sp (a :: rest) ∧ (∀ f, f ≠ .msg → a.field m' f = a.field m f) ∧ SameWords (above_words e.outer (a :: rest)) m m' := by
  have fields : ∀ f, f ≠ .msg → a.field m' f = a.field m f := fun f word => by
    rw [Activation.field,stored,Cells.field_setField,if_neg word]
    rfl
  have outside : Cells.SameOutside a.state a.caller m.mem m'.mem := by
    rw [stored]
    exact Cells.setField_outside m.mem a.state _ .msg
  obtain ⟨_,callers⟩ := live_above ready live a rest rfl
  obtain ⟨_,frame⟩ := live_frame live
  have bounds := frame_bounds frame
  have room := bounds.room
  have base := bounds.base
  have above := bounds.monitors
  have pos := wordSize_pos
  have inside := lr_save_inside
  have second := lr_save_above
  have slop : slop_factor = 2*wordSize := rfl
  obtain ⟨depth,place,least⟩ := frame_in_range frame
  have above : SameWords (above_words e.outer (a :: rest)) m m' := fun w further => by
    have within := callers w further
    unfold Within at within
    exact outside.word (.inr (by omega))
  refine ⟨live_kept live (Int.le_refl _) bounds.aligned (outside.word (.inl (show _ + wordSize ≤ _ by omega))) (fun w member => ?_)
    ⟨depth,?_,?_⟩,fields,above⟩
  · rcases List.mem_append.mp member with own|further
    · obtain ⟨f,listed,rfl⟩ := List.mem_map.mp own
      have other : f ≠ .msg := by rintro rfl; simp [Activation.held] at listed
      rw [← field_word a m' f other,← field_word a m f other]
      exact fields f other
    · exact above w further
  · rw [fields .stack (by decide),fields .stack_base (by decide)]
    exact place
  · rw [fields .stack (by decide),fields .stack_limit (by decide)]
    exact least

theorem got_monitors_running (ready : e.Ready) (running : Running e a rest m) (method : m.gpr Rmethod = a.field m .method) :
    ∃ m₂, got_monitors m = some m₂ ∧ Running e a rest m₂ ∧ m₂.gpr Rmethod = a.field m₂ .method ∧
      a.field m₂ .locals = a.field m .locals ∧ a.field m₂ .monitor_base = a.field m .monitor_base ∧
      (∀ f ∈ moved_pointers, a.field m₂ f = a.field m f - monitor_size) ∧ SameWords (above_words e.outer (a :: rest)) m m₂ := by
  obtain ⟨m₁,code,live₁,pointers,moved,above,registers⟩ := grown_live ready running
  have state₁ : m₁.gpr Rstate = a.state := (registers.gpr Rstate (by simp)).trans running.state
  let m₂ := exec [.loadImm r0 (message .got_monitors),.stw r0 (STATE .msg)] m₁
  have kept : Keeps [.gpr r0] m₁ m₂ := (exec_keeps _ m₁).mono (by simp [written,Instr.written])
  have mem : m₂.mem = m₁.mem.setField a.state .msg (message .got_monitors) := by
    rw [← state₁,Cells.setField,if_pos rfl]
    simp [m₂,step,STATE,Machine.write32]
  obtain ⟨live₂,fields,above₂⟩ := msg_live ready live₁ mem
  have kept_pointers : ∀ f, f ≠ .msg → f ≠ .stack_base → f ≠ .stack → f ≠ .stack_limit → a.field m₂ f = a.field m f :=
    fun f word base stack limit => (fields f word).trans (pointers f base stack limit)
  have locals := kept_pointers .locals (by decide) (by decide) (by decide) (by decide)
  refine ⟨m₂,by rw [got_monitors,code]; rfl,⟨?_,(kept.gpr Rstate (by simp)).trans state₁,?_,?_⟩,?_,locals,
    kept_pointers .monitor_base (by decide) (by decide) (by decide) (by decide),fun f member => ?_,fun w member => ?_⟩
  · rw [kept.gpr r1 (by simp)]
    exact live₂
  · rw [kept.gpr Rlocals (by simp),registers.gpr Rlocals (by simp),running.locals]
    exact locals.symm
  · rw [kept.gpr Rthread (by simp),registers.gpr Rthread (by simp)]
    exact running.thread
  · rw [kept.gpr Rmethod (by simp),registers.gpr Rmethod (by simp),method]
    exact (kept_pointers .method (by decide) (by decide) (by decide) (by decide)).symm
  · rw [fields f (by rintro rfl; simp [moved_pointers] at member)]
    exact moved f member
  · exact (above₂ w member).trans (above w member)

end IcedTea.CppInterpreter

import IcedTea.Activations
import IcedTea.ResultConversions

namespace IcedTea.CppInterpreter
open StackFrame (lr_save_offset back_chain_offset)
open Vm Code Activation SharedRuntime

variable [Code] {e : Entry} {a b : Activation} {rest : List Activation} {m m' : Machine} {sp : Int}

-- The registers of an activation that runs.
structure Running (e : Entry) (a : Activation) (rest : List Activation) (m : Machine) : Prop where
  live : Live e m (m.gpr r1) (a :: rest)
  state : m.gpr Rstate = a.state
  locals : m.gpr Rlocals = a.field m .locals
  thread : m.gpr Rthread = e.machine.gpr Rthread

theorem running_field (running : Running e a rest m) (f : StateField) : state m f = a.field m f := by
  rw [CppInterpreter.state,running.state]
  rfl

theorem live_mem (live : Live e m sp (a :: rest)) (mem : m'.mem = m.mem) : Live e m' sp (a :: rest) := by
  obtain ⟨_,frame⟩ := live_frame live
  have fields : ∀ f, a.field m' f = a.field m f := fun f => by rw [Activation.field,mem]; rfl
  have read : ∀ w, m'.read w = m.read w := fun w => by rw [Machine.read,mem]; rfl
  obtain ⟨depth,place,limit⟩ := frame_in_range frame
  refine live_kept live (Int.le_refl _) (frame_bounds frame).aligned (read _) (fun w _ => read w) ⟨depth,?_,?_⟩
  · rw [fields,fields]
    exact place
  · rw [fields,fields]
    exact limit

-- The stack holds every word that matters, so that other memory may change.
theorem live_on_stack (ready : e.Ready) (live : Live e m sp (a :: rest)) (room : e.low ≤ sp)
    (same : ∀ b, e.low ≤ b → b < e.high → m'.mem b = m.mem b) :
    Live e m' sp (a :: rest) ∧ SameWords (kept_words e.outer (a :: rest)) m m' := by
  obtain ⟨_,frame⟩ := live_frame live
  obtain ⟨ends,above⟩ := live_above ready live a rest rfl
  have bounds := frame_bounds frame
  have stack := bounds.room
  have limit := bounds.limit
  have base := bounds.base
  have monitors := bounds.monitors
  have object := sizeof_large
  have pos := wordSize_pos
  have second := lr_save_above
  have inside := lr_save_inside
  have slop : slop_factor = 2*wordSize := rfl
  have last : a.caller = a.state + sizeof_BytecodeInterpreter := rfl
  have word : ∀ w, Within e.low e.high w → m'.read w = m.read w := fun w within =>
    Cells.word_congr fun b low high => same b (by unfold Within at within; omega) (by
      change b < _ + wordSize at high
      unfold Within at within
      omega)
  have own : ∀ fields, StateField.msg ∉ fields → ∀ w ∈ a.words fields, m'.read w = m.read w := fun fields words w member => by
    have within := words_within a fields words w member
    refine word w ?_
    unfold Within at within ⊢
    omega
  obtain ⟨depth,place,low⟩ := frame_in_range frame
  have fields : ∀ f, f ≠ .msg → a.field m' f = a.field m f := fun f other =>
    field_same f other (own [f] (by simpa using other.symm) _ (by simp [Activation.words]))
  have words : SameWords (kept_words e.outer (a :: rest)) m m' := fun w member => by
    rcases List.mem_append.mp member with held|callers
    · exact own Activation.held (by decide) w held
    · have within := above w callers
      refine word w ?_
      unfold Within at within ⊢
      omega
  refine ⟨live_kept live (Int.le_refl _) bounds.aligned (word sp (by unfold Within; omega)) words ⟨depth,?_,?_⟩,words⟩
  · rw [fields .stack (by decide),fields .stack_base (by decide)]
    exact place
  · rw [fields .stack (by decide),fields .stack_limit (by decide)]
    exact low

-- Stores to the frame anchor are not on the stack.
theorem anchor_stores (ready : e.Ready) (thread : m.gpr Rthread = e.machine.gpr Rthread) (code : List Instr)
    (stores : ∀ w ∈ stores code m, ∃ o, (o = last_Java_sp_offset ∨ o = last_Java_pc_offset) ∧ w = (m.gpr Rthread + o,wordSize)) :
    ∀ b, e.low ≤ b → b < e.high → (exec code m).mem b = m.mem b := by
  intro b low high
  refine exec_outside code m fun w member => ?_
  obtain ⟨o,field,rfl⟩ := stores w member
  have off := ready.anchor o field
  rw [thread]
  dsimp only
  omega

-- The fields of the innermost activation are on the stack too.
theorem field_on_stack (ready : e.Ready) (live : Live e m sp (a :: rest)) (room : e.low ≤ sp)
    (same : ∀ b, e.low ≤ b → b < e.high → m'.mem b = m.mem b) (f : StateField) : a.field m' f = a.field m f := by
  obtain ⟨_,frame⟩ := live_frame live
  obtain ⟨ends,_⟩ := live_above ready live a rest rfl
  have bounds := frame_bounds frame
  have stack := bounds.room
  have limit := bounds.limit
  have base := bounds.base
  have monitors := bounds.monitors
  have pos := wordSize_pos
  have second := lr_save_above
  have inside := lr_save_inside
  have slop : slop_factor = 2*wordSize := rfl
  have last : a.caller = a.state + sizeof_BytecodeInterpreter := rfl
  have field := state_inside f
  have size := state_bytes_pos f
  unfold Activation.field Cells.field StateField.bytes at *
  split
  · rename_i msg
    rw [if_pos msg] at field
    exact same _ (by omega) (by omega)
  · rename_i word
    rw [if_neg word] at field
    exact Cells.word_congr fun b low high => same b (by omega) (by
      change b < _ + wordSize at high
      omega)

-- Up to the interpreter the anchor is set, and after it reset.
theorem call_interpreter_running (ready : e.Ready) (running : Running e a rest m) (room : e.low ≤ m.gpr r1) :
    Running e a rest (call_interpreter m) ∧ (call_interpreter m).gpr r1 = m.gpr r1 ∧
      SameWords (kept_words e.outer (a :: rest)) m (call_interpreter m) := by
  let code := set_last_Java_frame (site .call_interpreter) ++ [.mr r3 Rstate]
  have kept : Keeps [.gpr r0,.gpr r3,.lr] m (exec code m) :=
    (exec_keeps code m).mono (by simp [code,written,set_last_Java_frame,Instr.written])
  have same := anchor_stores ready running.thread code (by
    simp only [code,set_last_Java_frame,List.cons_append,List.nil_append,stores,Instr.stores,List.append_nil,List.mem_cons,
      List.not_mem_nil,or_false,step,Machine.ea]
    rintro w (rfl|rfl)
    · exact ⟨_,.inr rfl,by simp⟩
    · exact ⟨_,.inl rfl,by simp⟩)
  have top : (call_interpreter m).gpr r1 = m.gpr r1 := kept.gpr r1 (by simp)
  obtain ⟨live,words⟩ : Live e (call_interpreter m) (m.gpr r1) (a :: rest) ∧ _ := live_on_stack ready running.live room same
  have locals := field_on_stack ready running.live room same .locals
  refine ⟨⟨?_,?_,?_,?_⟩,top,words⟩
  · rw [top]
    exact live
  · exact (kept.gpr Rstate (by simp)).trans running.state
  · exact ((kept.gpr Rlocals (by simp)).trans running.locals).trans locals.symm
  · exact (kept.gpr Rthread (by simp)).trans running.thread

theorem interpreter_returned_running (ready : e.Ready) (running : Running e a rest m) (room : e.low ≤ m.gpr r1) :
    let m' := exec interpreter_returned m
    Running e a rest m' ∧ m'.gpr r1 = m.gpr r1 ∧ m'.gpr Rmethod = a.field m' .method ∧ (∀ f, a.field m' f = a.field m f) ∧
      SameWords (kept_words e.outer (a :: rest)) m m' := by
  intro m'
  have kept : Keeps [.gpr r0,.gpr r4,.gpr Rmethod] m m' :=
    (exec_keeps interpreter_returned m).mono (by
      simp [interpreter_returned,fixup_after_potential_safepoint,reset_last_Java_frame,written,Instr.written])
  have same := anchor_stores ready running.thread interpreter_returned (by
    simp only [interpreter_returned,fixup_after_potential_safepoint,reset_last_Java_frame,List.cons_append,List.nil_append,stores,
      Instr.stores,List.append_nil,List.mem_cons,List.not_mem_nil,or_false,step,Machine.ea]
    rintro w rfl
    exact ⟨_,.inl rfl,by simp⟩)
  have top : m'.gpr r1 = m.gpr r1 := kept.gpr r1 (by simp)
  obtain ⟨live,words⟩ : Live e m' (m.gpr r1) (a :: rest) ∧ _ := live_on_stack ready running.live room same
  have locals := field_on_stack ready running.live room same .locals
  have method := field_on_stack ready running.live room same .method
  refine ⟨⟨?_,?_,?_,?_⟩,top,?_,field_on_stack ready running.live room same,words⟩
  · rw [top]
    exact live
  · exact (kept.gpr Rstate (by simp)).trans running.state
  · exact ((kept.gpr Rlocals (by simp)).trans running.locals).trans locals.symm
  · exact (kept.gpr Rthread (by simp)).trans running.thread
  · have loaded : m'.gpr Rmethod = m.read (m.ea (STATE .method)) := by
      simp [m',interpreter_returned,fixup_after_potential_safepoint,reset_last_Java_frame,step]
    rw [loaded,read_state m .method (by decide),running_field running,← method]

-- The message is found, and nothing but a condition field changes.
theorem examine_spec (l : List Message) (m : Machine) (found : examine_message l m = some (x,m')) :
    x ∈ l ∧ m.gpr r4 = message x ∧ m'.mem = m.mem ∧ Keeps [.cr cr0] m m' := by
  induction l generalizing m with
  | nil => cases found
  | cons y l ih =>
    have tested : Keeps [.cr cr0] m (step m (.compareImm cr0 r4 (message y))) := step_keeps (.compareImm cr0 r4 (message y)) m
    simp only [examine_message] at found
    split at found
    · rename_i same
      obtain ⟨rfl,rfl⟩ := Prod.mk.inj (Option.some.inj found)
      exact ⟨List.mem_cons_self,by simpa [step] using same,rfl,tested⟩
    · obtain ⟨member,msg,mem,kept⟩ := ih _ found
      exact ⟨List.mem_cons_of_mem y member,(tested.gpr r4 (by simp)).symm.trans msg,mem,(tested.trans kept).mono (by simp)⟩

theorem examine_finds (l : List Message) (m : Machine) (member : x ∈ l) (msg : m.gpr r4 = message x) :
    ∃ m', examine_message l m = some (x,m') := by
  induction l generalizing m with
  | nil => cases member
  | cons y l ih =>
    simp only [examine_message]
    split
    · rename_i same
      have same' : m.gpr r4 = message y := by simpa [step] using same
      obtain rfl := message_apart _ _ (msg.symm.trans same')
      exact ⟨_,rfl⟩
    · rename_i other
      have later : x ∈ l := by
        rcases List.mem_cons.mp member with rfl|later
        · exact absurd (show ((step m (.compareImm cr0 r4 (message x))).cr cr0).eq by simpa [step] using msg) other
        · exact later
      exact ih _ later ((step_keeps (.compareImm cr0 r4 (message y)) m).gpr r4 (by simp [Instr.written]) |>.trans msg)

-- The callee named by the state object, with the words it takes from the stack.
def callee (m : Machine) : Machine := m.set Rmethod (state m .callee)

theorem prepare_call_spec (m : Machine) : let m' := exec prepare_call m
    m'.gpr Rmethod = state m .callee ∧ m'.gpr Rlocals = state m .stack + size_of_parameters (callee m) * wordSize ∧
      size_of_parameters m' = size_of_parameters (callee m) ∧ size_of_locals m' = size_of_locals (callee m) ∧ m'.mem = m.mem ∧
      Keeps [.gpr Rmethod,.gpr Rlocals,.gpr r0,.gpr r3,.cr cr0] m m' := by
  have callee_word := read_state m .callee (by decide)
  have stack_word := read_state m .stack (by decide)
  have method : (exec prepare_call m).gpr Rmethod = state m .callee := by
    rw [← callee_word]
    simp [prepare_call,step]
  have mem : (exec prepare_call m).mem = m.mem := rfl
  have reads : ∀ offset, (exec prepare_call m).read16 ((exec prepare_call m).ea ⟨Rmethod,offset⟩) =
      (callee m).read16 ((callee m).ea ⟨Rmethod,offset⟩) := by
    intro offset
    rw [Machine.ea,Machine.ea,method]
    simp [callee,Machine.read16,mem]
  refine ⟨method,?_,reads _,reads _,mem,(exec_keeps _ m).mono (by simp [written,prepare_call,Instr.written])⟩
  rw [← stack_word]
  simp [prepare_call,step,size_of_parameters,size_of_parameters_addr,callee,shift_words,← callee_word]
  rfl

omit [Code] in
theorem at_self (a : Activation) (m : Machine) (same : m.gpr Rstate = a.state) : a.at_ (m.gpr r1) m = m := by
  unfold at_ Machine.set
  rw [← same]
  simp

-- Everything at or above an activation's state object is kept, and its back chain.
theorem live_state_kept (ready : e.Ready) (live : Live e m sp (a :: rest)) (lower : sp' ≤ sp) (aligned : sp' % 16 = 0)
    (back_chain : m'.read sp' = m.read sp) (above : ∀ b, a.state ≤ b → m'.mem b = m.mem b) :
    Live e m' sp' (a :: rest) ∧ (∀ f, f ≠ .msg → a.field m' f = a.field m f) ∧ SameWords (kept_words e.outer (a :: rest)) m m' := by
  obtain ⟨_,frame⟩ := live_frame live
  obtain ⟨_,callers⟩ := live_above ready live a rest rfl
  have object := sizeof_large
  have pos := wordSize_pos
  have last : a.caller = a.state + sizeof_BytecodeInterpreter := rfl
  have words : ∀ w, a.state ≤ w → m'.read w = m.read w := fun w high => Cells.word_congr fun b low _ => above b (by omega)
  have fields : ∀ f, f ≠ .msg → a.field m' f = a.field m f := fun f word => field_same f word (words _ (by
    have := state_inside f
    omega))
  obtain ⟨depth,place,least⟩ := frame_in_range frame
  have same : SameWords (kept_words e.outer (a :: rest)) m m' := fun w member => by
    rcases List.mem_append.mp member with held|outer
    · have within := words_within a _ (by decide) w held
      unfold Within at within
      exact words w (by omega)
    · have within := callers w outer
      unfold Within at within
      exact words w (by omega)
  refine ⟨live_kept live lower aligned back_chain same ⟨depth,?_,?_⟩,fields,same⟩
  · rw [fields .stack (by decide),fields .stack_base (by decide)]
    exact place
  · rw [fields .stack (by decide),fields .stack_limit (by decide)]
    exact least

-- A call of a method with the frame manager's own entry: its activation is
-- below the caller's, whose r1 is where the new state object ends.
theorem call_interpreted_running (ready : e.Ready) (running : Running e a rest m)
    (covered : size_of_parameters (callee m) ≤ size_of_locals (callee m))
    (pushed : a.field m .stack + size_of_parameters (callee m) * wordSize + wordSize ≤ a.field m .stack_base) :
    let m' := call_interpreted_method (exec prepare_call m)
    let called : Activation := ⟨m'.gpr Rstate,m'.gpr Rlocals,size_of_parameters (callee m)⟩
    Running e called (a :: rest) m' ∧ m'.gpr Rmethod = called.field m' .method ∧ called.field m' .locals = a.field m .stack + size_of_parameters (callee m) * wordSize ∧
      a.field m' .stack = a.field m .stack ∧ called.caller ≤ m.gpr r1 ∧ SameWords (kept_words e.outer (a :: rest)) m m' := by
  intro m' called
  obtain ⟨method,locals,params,extent,mem,kept⟩ := prepare_call_spec m
  generalize first : exec prepare_call m = m₁ at *
  obtain ⟨m₂,code,address,mem₂,kept₂⟩ : ∃ m₂, m' = re_dispatch m₂ ∧ m₂.lr = RecursiveInterpreterActivation ∧ m₂.mem = m₁.mem ∧
      Keeps [.gpr r0,.lr] m₁ m₂ := by
    refine ⟨exec [.loadImm r0 RecursiveInterpreterActivation,.mtlr r0] m₁,?_,by simp [step],rfl,
      (exec_keeps _ m₁).mono (by simp [written,Instr.written])⟩
    simp only [m',call_interpreted_method,first]
  have top₂ : m₂.gpr r1 = m.gpr r1 := (kept₂.gpr r1 (by simp)).trans (kept.gpr r1 (by simp))
  have state₂ : m₂.gpr Rstate = a.state := ((kept₂.gpr Rstate (by simp)).trans (kept.gpr Rstate (by simp))).trans running.state
  have locals₂ : m₂.gpr Rlocals = a.field m .stack + size_of_parameters (callee m) * wordSize := by
    rw [kept₂.gpr Rlocals (by simp),locals,running_field running]
  have method₂ : m₂.gpr Rmethod = m₁.gpr Rmethod := kept₂.gpr Rmethod (by simp)
  have reads : ∀ offset, m₂.read16 (m₂.ea ⟨Rmethod,offset⟩) = m₁.read16 (m₁.ea ⟨Rmethod,offset⟩) := fun offset => by
    simp only [Machine.ea,Machine.read16,mem₂,method₂]
    rfl
  have params₂ : size_of_parameters m₂ = size_of_parameters (callee m) := (reads _).trans params
  have extent₂ : size_of_locals m₂ = size_of_locals (callee m) := (reads _).trans extent
  obtain ⟨_,frame⟩ := live_frame running.live
  have bounds := frame_bounds frame
  obtain ⟨sp,dispatched⟩ := re_dispatch_spec m₂ (by rw [top₂]; exact bounds.aligned) (by rw [params₂,extent₂]; exact covered)
  rw [← code] at dispatched
  have room := bounds.room
  have limit := bounds.limit
  have base := bounds.base
  have monitors := bounds.monitors
  have object := sizeof_large
  have pos := wordSize_pos
  have lower := dispatched.caller_lower
  have slop : slop_factor = 2*wordSize := rfl
  have last : a.caller = a.state + sizeof_BytecodeInterpreter := rfl
  have end_ : called.caller = sp := by
    change m'.gpr Rstate + sizeof_BytecodeInterpreter = sp
    have top := dispatched.top
    omega
  rw [top₂] at lower
  -- what is at or above the caller's state object is above the parameters too
  have above : ∀ b, a.state ≤ b → m'.mem b = m.mem b := fun b high => by
    rw [dispatched.above b (by omega) (by rw [locals₂,params₂]; omega),mem₂,mem]
  obtain ⟨live,fields,words⟩ := live_state_kept ready running.live lower dispatched.caller_aligned (by
    rw [dispatched.caller_back_chain,top₂,Machine.read,mem₂,mem]
    rfl) above
  have same : ∀ f, called.field m' f = CppInterpreter.state m' f := fun f => rfl
  have locals' : called.field m' .locals = a.field m .stack + size_of_parameters (callee m) * wordSize := by
    rw [same,dispatched.locals,locals₂]
  refine ⟨⟨.called ⟨?_,?_,?_,?_⟩ ?_ ⟨?_,?_,?_⟩ ?_,rfl,?_,?_⟩,?_,locals',fields .stack (by decide),by rw [end_]; exact lower,words⟩
  · obtain ⟨max_stack,monitors,shape⟩ := dispatched.frame
    rw [at_self called m' rfl]
    exact ⟨max_stack,0,monitors,shape⟩
  · exact (same _).trans dispatched.self_link
  · rw [same,dispatched.prev_link]
    exact state₂
  · rw [same,dispatched.locals]
    exact (dispatched.keeps.gpr Rlocals (by simp)).symm
  · rw [end_,dispatched.lr_save]
    exact address
  · rw [locals',fields .stack (by decide)]
  · rw [locals',fields .stack_base (by decide)]
    exact pushed
  · exact (halfword_range (callee m) _).1
  · rw [end_]
    exact live
  · rw [same,dispatched.locals]
    exact dispatched.keeps.gpr Rlocals (by simp)
  · rw [dispatched.keeps.gpr Rthread (by simp),kept₂.gpr Rthread (by simp),kept.gpr Rthread (by simp)]
    exact running.thread
  · rw [same,dispatched.method]
    exact dispatched.keeps.gpr Rmethod (by simp)

-- The interpreter of an activation resumes, with Rlocals its stack pointer.
theorem resume_interpreter_spec (m : Machine) : let m' := exec resume_interpreter m
    m'.mem = (m.mem.setField (m.gpr Rstate) .stack (m.gpr Rlocals)).setField (m.gpr Rstate) .msg (message .method_resume) ∧
      m'.gpr Rlocals = state m .locals ∧ m'.gpr Rmethod = state m .method ∧ Keeps [.gpr r0,.gpr Rlocals,.gpr Rmethod] m m' := by
  let m₁ := exec [.store Rlocals (STATE .stack)] m
  have mem₁ : m₁.mem = m.mem.setField (m.gpr Rstate) .stack (m.gpr Rlocals) := by simp [m₁,step,Cells.setField,STATE]
  have state₁ : m₁.gpr Rstate = m.gpr Rstate := rfl
  have other : ∀ f, f ≠ .stack → f ≠ .msg → m₁.read (m₁.ea (STATE f)) = state m f := fun f stack msg => by
    rw [read_state m₁ f msg,state,state₁,mem₁,Cells.field_setField,if_neg stack]
    rfl
  have locals := other .locals (by decide) (by decide)
  have method := other .method (by decide) (by decide)
  have code : exec resume_interpreter m = exec [.load Rlocals (STATE .locals),.load Rmethod (STATE .method),
    .loadImm r0 (message .method_resume),.stw r0 (STATE .msg)] m₁ := rfl
  refine ⟨?_,?_,?_,(exec_keeps _ m).mono (by simp [written,resume_interpreter,Instr.written])⟩
  · rw [code,← mem₁,Cells.setField,if_pos rfl,← state₁]
    simp [step,STATE,Machine.write32]
  · rw [code,← locals]
    simp [step,STATE,Machine.write32]
  · rw [code,← method]
    simp [step,STATE,Machine.write32]

-- What goes on after a callee: the caller's activation, with the pointer in
-- Rlocals in the range of its expression stack.
structure Resumable (e : Entry) (b : Activation) (rest : List Activation) (m : Machine) : Prop where
  live : Live e m (m.gpr r1) (b :: rest)
  state : m.gpr Rstate = b.state
  thread : m.gpr Rthread = e.machine.gpr Rthread
  place : ∃ depth : Nat, m.gpr Rlocals = b.field m .stack_base - ((depth : Int)+1)*wordSize
  limit : b.field m .stack_limit ≤ m.gpr Rlocals

theorem resume_interpreter_running (ready : e.Ready) (resumable : Resumable e b rest m) :
    let m' := exec resume_interpreter m
    Running e b rest m' ∧ m'.gpr Rmethod = b.field m' .method ∧ b.field m' .stack = m.gpr Rlocals ∧ m'.gpr r1 = m.gpr r1 ∧
      Cells.SameOutside b.state b.caller m.mem m'.mem ∧ SameWords (kept_words e.outer (b :: rest)) m m' := by
  intro m'
  obtain ⟨mem,locals,method,kept⟩ := resume_interpreter_spec m
  change m'.mem = _ at mem
  rw [resumable.state] at mem
  have outside : Cells.SameOutside b.state b.caller m.mem m'.mem := by
    rw [mem]
    exact (Cells.setField_outside m.mem b.state _ .stack).trans (Cells.setField_outside _ b.state _ .msg)
  have fields : ∀ f, f ≠ .msg → b.field m' f = if f = .stack then m.gpr Rlocals else b.field m f := fun f word => by
    rw [Activation.field,mem,Cells.field_setField,if_neg word,Cells.field_setField]
    rfl
  have others : ∀ f, f ≠ .msg → f ≠ .stack → b.field m' f = b.field m f := fun f word stack => by rw [fields f word,if_neg stack]
  have stack : b.field m' .stack = m.gpr Rlocals := fields .stack (by decide)
  obtain ⟨_,frame⟩ := live_frame resumable.live
  obtain ⟨_,callers⟩ := live_above ready resumable.live b rest rfl
  have bounds := frame_bounds frame
  have room := bounds.room
  have limit := bounds.limit
  have base := bounds.base
  have monitors := bounds.monitors
  have pos := wordSize_pos
  have inside := lr_save_inside
  have second := lr_save_above
  have slop : slop_factor = 2*wordSize := rfl
  have top : m'.gpr r1 = m.gpr r1 := kept.gpr r1 (by simp)
  have in_state : ∀ f, CppInterpreter.state m f = b.field m f := fun f => by rw [CppInterpreter.state,resumable.state]; rfl
  have words : SameWords (kept_words e.outer (b :: rest)) m m' := fun w member => by
    rcases List.mem_append.mp member with own|above
    · obtain ⟨f,listed,rfl⟩ := List.mem_map.mp own
      have other : f ≠ .msg ∧ f ≠ .stack := by
        constructor <;> (rintro rfl; simp [held] at listed)
      rw [← field_word b m' f other.1,← field_word b m f other.1]
      exact others f other.1 other.2
    · have within := callers w above
      unfold Within at within
      exact outside.word (.inr (by omega))
  refine ⟨⟨?_,?_,?_,?_⟩,?_,stack,top,outside,words⟩
  · rw [top]
    refine live_kept resumable.live (Int.le_refl _) bounds.aligned ?_ words ?_
    · exact outside.word (.inl (show _ + wordSize ≤ _ by omega))
    · obtain ⟨depth,place⟩ := resumable.place
      refine ⟨depth,?_,?_⟩
      · rw [stack,others .stack_base (by decide) (by decide)]
        exact place
      · rw [stack,others .stack_limit (by decide) (by decide)]
        exact resumable.limit
  · exact (kept.gpr Rstate (by simp)).trans resumable.state
  · exact locals.trans ((in_state _).trans (others .locals (by decide) (by decide)).symm)
  · exact (kept.gpr Rthread (by simp)).trans resumable.thread
  · exact method.trans ((in_state _).trans (others .method (by decide) (by decide)).symm)

-- Another shape of the innermost frame, as long as the callers see the same.
theorem live_reframed (live : Live e m sp (a :: rest)) (frame' : ∀ prev, a.Frame sp m prev → a.Frame sp' m' prev)
    (locals : a.field m' .locals = a.field m .locals) (callers : ∀ w ∈ above_words e.outer (a :: rest), m'.read w = m.read w) :
    Live e m' sp' (a :: rest) := by
  cases live with
  | outermost frame first caller =>
    refine .outermost (frame' _ frame) (locals.trans first) ⟨caller.aligned,caller.lower,?_,fun cpu => ?_,?_,fun w member => ?_⟩
    · rw [callers _ (by simp [above_words,callers_words])]
      exact caller.back_chain
    · rw [callers _ (by simp [above_words,callers_words])]
      exact caller.cr_save cpu
    · rw [callers _ (by simp [above_words,callers_words])]
      exact caller.return_address
    · rw [callers w (by simp [above_words,callers_words,member])]
      exact caller.outer w member
  | @called _ rest a b frame return_address passed waiting =>
    obtain ⟨_,shape⟩ := live_frame waiting
    have words : ∀ f, f ∈ StateField.stack :: Activation.held → b.field m' f = b.field m f := fun f member => by
      have word : f ≠ .msg := by rintro rfl; simp [Activation.held] at member
      refine field_same f word (callers _ ?_)
      simp only [above_words,callers_words,List.mem_append,List.mem_cons,List.cons_append]
      have place : b.state + state_offset f ∈ b.words (.stack :: Activation.held) := List.mem_map_of_mem member
      simp only [Activation.words,List.map_cons,List.mem_cons] at place ⊢
      tauto
    obtain ⟨depth,place,limit⟩ := frame_in_range shape
    refine .called (frame' _ frame) ?_ ⟨?_,?_,passed.nonneg⟩ (live_kept waiting (Int.le_refl _) (frame_bounds shape).aligned ?_
      (fun w member => callers w (kept_callers member)) ⟨depth,?_,?_⟩)
    · rw [callers _ (by simp [above_words,callers_words])]
      exact return_address
    · rw [locals,words .stack (by simp)]
      exact passed.locals
    · rw [locals,words .stack_base (by simp [Activation.held])]
      exact passed.pushed
    · exact callers _ (by simp [above_words,callers_words])
    · rw [words .stack (by simp),words .stack_base (by simp [Activation.held])]
      exact place
    · rw [words .stack (by simp),words .stack_limit (by simp [Activation.held])]
      exact limit

-- What an activation has above its frame is at or above its state object.
theorem above_within (ready : e.Ready) (live : Live e m sp (b :: rest)) {w : Int}
    (member : w ∈ b.words (.stack :: Activation.held) ++ callers_words e.outer b.caller rest) : Within b.state e.high w := by
  obtain ⟨ends,callers⟩ := live_above ready live b rest rfl
  have object := sizeof_large
  have pos := wordSize_pos
  have last : b.caller = b.state + sizeof_BytecodeInterpreter := rfl
  rcases List.mem_append.mp member with own|outer
  · have within := words_within b _ (by decide) w own
    unfold Within at within ⊢
    omega
  · have within := callers w outer
    unfold Within at within ⊢
    omega

-- Below that is the link area of its frame.
theorem callers_within (ready : e.Ready) (live : Live e m sp (b :: rest)) {w : Int} (member : w ∈ callers_words e.outer sp (b :: rest)) :
    w = sp ∨ w = sp + lr_save_offset*wordSize ∨ Within b.state e.high w := by
  rcases List.mem_cons.mp member with same|member
  · exact .inl same
  · rcases List.mem_cons.mp member with same|above
    · exact .inr (.inl same)
    · exact .inr (.inr (above_within ready live above))

theorem live_words (live : Live e m sp (b :: rest)) (words : ∀ w ∈ callers_words e.outer sp (b :: rest), m'.read w = m.read w) :
    Live e m' sp (b :: rest) ∧ ∀ f ∈ StateField.stack :: Activation.held, b.field m' f = b.field m f := by
  obtain ⟨_,frame⟩ := live_frame live
  have fields : ∀ f ∈ StateField.stack :: Activation.held, b.field m' f = b.field m f := fun f member => by
    have word : f ≠ .msg := by rintro rfl; simp [Activation.held] at member
    refine field_same f word (words _ ?_)
    have place : b.state + state_offset f ∈ b.words (.stack :: Activation.held) := List.mem_map_of_mem member
    simp only [callers_words,List.mem_append,List.mem_cons,List.cons_append,Activation.words,List.map_cons] at place ⊢
    tauto
  obtain ⟨depth,place,limit⟩ := frame_in_range frame
  refine ⟨live_kept live (Int.le_refl _) (frame_bounds frame).aligned (words sp (by simp [callers_words]))
    (fun w member => words w (kept_callers member)) ⟨depth,?_,?_⟩,fields⟩
  · rw [fields .stack (by simp),fields .stack_base (by simp [Activation.held])]
    exact place
  · rw [fields .stack (by simp),fields .stack_limit (by simp [Activation.held])]
    exact limit

-- Stores to an activation's expression stack and the spare slots below it.
theorem expression_stack_stores (ready : e.Ready) (live : Live e m sp (b :: rest)) (same : Cells.SameOutside low high m.mem m'.mem)
    (below : sp + frame_header ≤ low) (above : high ≤ b.field m .stack_base) :
    ∀ w ∈ callers_words e.outer sp (b :: rest), m'.read w = m.read w := by
  obtain ⟨_,frame⟩ := live_frame live
  have monitors := (frame_bounds frame).monitors
  have pos := wordSize_pos
  have second := lr_save_above
  have inside := lr_save_inside
  intro w member
  rcases callers_within ready live member with rfl|rfl|within
  · exact same.word (.inl (show _ + wordSize ≤ _ by omega))
  · exact same.word (.inl (show _ + wordSize ≤ _ by omega))
  · unfold Within at within
    exact same.word (.inr (by omega))

theorem live_stored (ready : e.Ready) (live : Live e m sp (b :: rest)) (same : Cells.SameOutside low high m.mem m'.mem)
    (below : sp + frame_header ≤ low) (above : high ≤ b.field m .stack_base) :
    Live e m' sp (b :: rest) ∧ ∀ f ∈ StateField.stack :: Activation.held, b.field m' f = b.field m f :=
  live_words live (expression_stack_stores ready live same below above)

-- The way out of an entry.
structure Left (e : Entry) (m : Machine) : Prop where
  caller : CallerKept e (m.gpr r1) m
  return_address : m.lr = e.machine.lr
  locals : m.gpr Rlocals = e.machine.gpr Rlocals
  thread : m.gpr Rthread = e.machine.gpr Rthread
  state : m.gpr Rstate = 0

-- An activation is removed: its caller's is left, or the entry's own caller.
theorem unwind_called (live : Live e m (m.gpr r1) (a :: b :: rest)) (state : m.gpr Rstate = a.state) :
    let m' := exec unwind_interpreter_state m
    Live e m' (m'.gpr r1) (b :: rest) ∧ m'.gpr Rstate = b.state ∧ m'.gpr r1 = a.caller ∧ m'.mem = m.mem ∧
      m'.gpr Rlocals = m.gpr Rlocals ∧ m'.gpr Rthread = m.gpr Rthread := by
  intro m'
  obtain ⟨prev,top,_,mem,kept⟩ := unwind_spec m
  cases live with
  | called frame return_address passed waiting =>
    have chain := (frame_bounds frame).back_chain
    have link : CppInterpreter.state m .prev_link = b.state := by
      rw [CppInterpreter.state,state]
      exact frame.prev_link
    have caller : m'.gpr r1 = a.caller := top.trans chain
    refine ⟨?_,prev.trans link,caller,mem,kept.gpr Rlocals (by simp),kept.gpr Rthread (by simp)⟩
    rw [caller]
    exact live_mem waiting mem

theorem unwind_outermost (live : Live e m (m.gpr r1) [a]) (state : m.gpr Rstate = a.state) (locals : m.gpr Rlocals = a.field m .locals)
    (thread : m.gpr Rthread = e.machine.gpr Rthread) : Left e (exec unwind_interpreter_state m) := by
  obtain ⟨prev,top,address,mem,kept⟩ := unwind_spec m
  cases live with
  | outermost frame first caller =>
    have chain := (frame_bounds frame).back_chain
    have link : CppInterpreter.state m .prev_link = 0 := by
      rw [CppInterpreter.state,state]
      exact frame.prev_link
    have read : ∀ w, (exec unwind_interpreter_state m).read w = m.read w := fun w => by rw [Machine.read,mem]; rfl
    have at_caller : (exec unwind_interpreter_state m).gpr r1 = a.caller := top.trans chain
    refine ⟨?_,?_,?_,(kept.gpr Rthread (by simp)).trans thread,prev.trans link⟩
    · rw [at_caller]
      refine ⟨caller.aligned,caller.lower,?_,fun cpu => ?_,?_,fun w member => ?_⟩
      · rw [read]
        exact caller.back_chain
      · rw [read]
        exact caller.cr_save cpu
      · rw [read]
        exact caller.return_address
      · rw [read]
        exact caller.outer w member
    · rw [address,chain]
      exact caller.return_address
    · rw [kept.gpr Rlocals (by simp),locals]
      exact first

end IcedTea.CppInterpreter

import IcedTea.FrameManagerReturns
import IcedTea.InterpreterFrames

namespace IcedTea.CppInterpreter
open StackFrame (lr_save_offset)
open Vm Code Activation SharedRuntime Relation

variable [Code]

-- Where control is. A callee that is not interpreted has parameter words too.
inductive Point where
  | call_interpreter (m : Machine)
  | interpreter_returned (m : Machine)
  | call_non_interpreted_method (parameters : Int) (m : Machine)
  | callee_returned (parameters : Int) (m : Machine)
  | blr (m : Machine)

structure Manager where
  activations : List Activation
  point : Point

-- A call is made with a method that has room for its parameters, which are on
-- the stack; a result fits on the stack that it is pushed on.
inductive Requests (as : List Activation) (m : Machine) : Message → Prop where
  | call_method (covered : size_of_parameters (callee m) ≤ size_of_locals (callee m))
      (pushed : state m .stack + size_of_parameters (callee m) * wordSize + wordSize ≤ state m .stack_base) : Requests as m .call_method
  | return_from_method (type : result_type m = some t)
      (fits : ∀ a b rest, as = a :: b :: rest → b.field m .stack_limit ≤ a.field m .locals - result_words t * wordSize) :
      Requests as m .return_from_method
  | more_monitors : Requests as m .more_monitors
  | throwing_exception : Requests as m .throwing_exception

-- The interpreter, a C++ function: it keeps the registers that are not volatile
-- and the words that the frame manager has in the frames. It leaves its stack
-- pointer in range and a request.
structure Interpreted (e : Entry) (as : List Activation) (m m' : Machine) : Prop where
  registers : ∀ r, r = r1 ∨ r = Rstate ∨ r = Rlocals ∨ r = Rthread → m'.gpr r = m.gpr r
  back_chain : m'.read (m.gpr r1) = m.read (m.gpr r1)
  words : ∀ w ∈ kept_words e.outer as, m'.read w = m.read w
  stack : ∃ depth : Nat, state m' .stack = state m' .stack_base - ((depth : Int)+1)*wordSize ∧ state m' .stack_limit ≤ state m' .stack
  request : ∃ x, (exec interpreter_returned m').gpr r4 = message x ∧ Requests as (exec interpreter_returned m') x

def waiting_words (outer : List Int) : List Activation → List Int
  | [] => outer
  | b :: rest => b.words (.stack :: held) ++ above_words outer (b :: rest)

-- Any other callee, native methods among them: it may extend its caller's frame.
structure CalleeReturned (e : Entry) (as : List Activation) (m m' : Machine) : Prop where
  lower : m'.gpr r1 ≤ m.gpr r1
  aligned : m'.gpr r1 % 16 = 0
  back_chain : m'.read (m'.gpr r1) = m.read (m.gpr r1)
  locals : m'.gpr Rlocals = m.gpr Rlocals
  thread : m'.gpr Rthread = m.gpr Rthread
  words : ∀ w ∈ waiting_words e.outer as, m'.read w = m.read w
  result : m'.read (m'.gpr Rthread + pending_exception_offset) = 0 → ∃ t, result_type m' = some t ∧
    ∀ b rest, as = b :: rest → b.field m' .stack_limit ≤ m'.gpr Rlocals - result_words t * wordSize

-- The activations after a message has been handled.
def after (x : Option Message) (m : Machine) (as : List Activation) : Control → Manager
  | .call_interpreter m' => ⟨match x with
      | some .call_method => ⟨m'.gpr Rstate,m'.gpr Rlocals,size_of_parameters (callee m)⟩ :: as
      | some .return_from_method | some .throwing_exception => as.tail
      | _ => as,.call_interpreter m'⟩
  | .call_non_interpreted_method m' => ⟨as,.call_non_interpreted_method (size_of_parameters (callee m)) m'⟩
  | .blr m' => ⟨as.tail,.blr m'⟩

inductive Step (e : Entry) : Manager → Manager → Prop where
  | interpreter {m : Machine} (room : e.low ≤ m.gpr r1) (ran : Interpreted e as (call_interpreter m) m') :
      Step e ⟨as,.call_interpreter m⟩ ⟨as,.interpreter_returned m'⟩
  | message (examined : examine_message requests (exec interpreter_returned m) = some (x,m')) (handled : handle_message x m' = some c) :
      Step e ⟨as,.interpreter_returned m⟩ (after (some x) m' as c)
  | callee (ran : CalleeReturned e as m m') : Step e ⟨as,.call_non_interpreted_method p m⟩ ⟨as,.callee_returned p m'⟩
  | resume (handled : callee_returned m = some c) : Step e ⟨as,.callee_returned p m⟩ (after none m as c)

abbrev Steps (e : Entry) : Manager → Manager → Prop := ReflTransGen (Step e)

def entered (e : Entry) : Manager :=
  let m := start e.machine
  ⟨[⟨m.gpr Rstate,m.gpr Rlocals,size_of_parameters e.machine⟩],.call_interpreter m⟩

-- What holds wherever control is.
inductive Good (e : Entry) : Manager → Prop where
  | call_interpreter {a : Activation} {m : Machine} (running : Running e a rest m) (method : m.gpr Rmethod = a.field m .method) :
      Good e ⟨a :: rest,.call_interpreter m⟩
  | interpreter_returned {m : Machine} (running : Running e a rest m) (room : e.low ≤ m.gpr r1)
      (request : ∃ x, (exec interpreter_returned m).gpr r4 = message x ∧ Requests (a :: rest) (exec interpreter_returned m) x) :
      Good e ⟨a :: rest,.interpreter_returned m⟩
  | call_non_interpreted_method {b : Activation} (calling : Calling e b rest p m) (positive : b.state ≠ 0)
      (parameters : size_of_parameters m = p) (address : m.lr = site .callee_returned) : Good e ⟨b :: rest,.call_non_interpreted_method p m⟩
  | callee_returned {b : Activation} {m : Machine} (calling : Calling e b rest p m) (positive : b.state ≠ 0)
      (result : m.read (m.gpr Rthread + pending_exception_offset) = 0 → ∃ t, result_type m = some t ∧
        b.field m .stack_limit ≤ m.gpr Rlocals - result_words t * wordSize) : Good e ⟨b :: rest,.callee_returned p m⟩
  | blr (left : Left e m) : Good e ⟨[],.blr m⟩

variable {e : Entry} {a b : Activation} {rest : List Activation} {m m' : Machine}

theorem entered_good (ready : e.Ready) : Good e (entered e) := by
  let m₁ := exec [.loadImm Rstate 0] e.machine
  have kept : Keeps [.gpr Rstate] e.machine m₁ := (exec_keeps _ e.machine).mono (by simp [written,Instr.written])
  have mem : m₁.mem = e.machine.mem := rfl
  have none : m₁.gpr Rstate = 0 := by simp [m₁,step]
  have top : m₁.gpr r1 = e.machine.gpr r1 := kept.gpr r1 (by simp)
  have locals : m₁.gpr Rlocals = e.machine.gpr Rlocals := kept.gpr Rlocals (by simp)
  have sizes : size_of_parameters m₁ = size_of_parameters e.machine ∧ size_of_locals m₁ = size_of_locals e.machine := ⟨rfl,rfl⟩
  obtain ⟨sp,dispatched⟩ := re_dispatch_spec m₁ (by rw [top]; exact ready.aligned) (by rw [sizes.1,sizes.2]; exact ready.covered)
  have code : start e.machine = re_dispatch m₁ := rfl
  unfold entered
  simp only [code]
  generalize re_dispatch m₁ = m at dispatched ⊢
  let first : Activation := ⟨m.gpr Rstate,m.gpr Rlocals,size_of_parameters e.machine⟩
  have lower := dispatched.caller_lower
  rw [top] at lower
  have end_ : first.caller = sp := by
    change m.gpr Rstate + sizeof_BytecodeInterpreter = sp
    have place := dispatched.top
    omega
  have entered_locals : m.gpr Rlocals = e.machine.gpr Rlocals := (dispatched.keeps.gpr Rlocals (by simp)).trans locals
  have outer : ∀ w ∈ e.outer, m.read w = e.machine.read w := fun w member => by
    have above := ready.outer w member
    refine Cells.word_congr fun cell low _ => ?_
    rw [dispatched.above cell (by omega) (by rw [locals,sizes.1]; omega),mem]
  have same : ∀ f, first.field m f = CppInterpreter.state m f := fun f => rfl
  have field : first.field m .locals = m.gpr Rlocals := by
    rw [same,dispatched.locals]
    exact (dispatched.keeps.gpr Rlocals (by simp)).symm
  have caller : CallerKept e first.caller m := by
    rw [end_]
    refine ⟨dispatched.caller_aligned,lower,?_,fun cpu => ?_,?_,outer⟩
    · rw [dispatched.caller_back_chain,top]
      rfl
    · rw [dispatched.caller_cr_word cpu,top]
      rfl
    · rw [dispatched.lr_save]
      exact kept.lr (by simp)
  obtain ⟨max_stack,monitors,shape⟩ := dispatched.frame
  have frame : first.Frame (m.gpr r1) m 0 := by
    refine ⟨?_,dispatched.self_link,?_,field⟩
    · rw [at_self first m rfl]
      exact ⟨max_stack,0,monitors,shape⟩
    · rw [same,dispatched.prev_link]
      exact none
  refine .call_interpreter ⟨.outermost frame (field.trans entered_locals) caller,rfl,field.symm,?_⟩ ?_
  · exact (dispatched.keeps.gpr Rthread (by simp)).trans (kept.gpr Rthread (by simp))
  · rw [same,dispatched.method]
    exact dispatched.keeps.gpr Rmethod (by simp)

theorem interpreted_running (running : Running e a rest m) (ran : Interpreted e (a :: rest) m m') : Running e a rest m' := by
  have top : m'.gpr r1 = m.gpr r1 := ran.registers r1 (by simp)
  have state' : m'.gpr Rstate = a.state := (ran.registers Rstate (by simp)).trans running.state
  obtain ⟨_,frame⟩ := live_frame running.live
  obtain ⟨depth,place,limit⟩ := ran.stack
  have fields : ∀ f, CppInterpreter.state m' f = a.field m' f := fun f => by rw [CppInterpreter.state,state']; rfl
  rw [fields,fields] at place limit
  have own : ∀ w ∈ a.words held, m'.read w = m.read w := fun w member => ran.words w (List.mem_append_left _ member)
  refine ⟨?_,state',?_,(ran.registers Rthread (by simp)).trans running.thread⟩
  · rw [top]
    exact live_kept running.live (Int.le_refl _) (frame_bounds frame).aligned ran.back_chain ran.words ⟨depth,place,limit⟩
  · rw [ran.registers Rlocals (by simp),running.locals]
    exact (held_same own .locals (by simp [held])).symm

theorem callee_calling (calling : Calling e b rest p m) (ran : CalleeReturned e (b :: rest) m m') : Calling e b rest p m' := by
  obtain ⟨_,frame⟩ := live_frame calling.live
  obtain ⟨depth,place,limit⟩ := frame_in_range frame
  have fields : ∀ f ∈ StateField.stack :: held, b.field m' f = b.field m f := fun f member => by
    have word : f ≠ .msg := by rintro rfl; simp [held] at member
    exact field_same f word (ran.words _ (List.mem_append_left _ (List.mem_map_of_mem member)))
  have words : ∀ w ∈ kept_words e.outer (b :: rest), m'.read w = m.read w := fun w member => by
    rcases List.mem_append.mp member with own|above
    · obtain ⟨f,listed,rfl⟩ := List.mem_map.mp own
      exact ran.words _ (List.mem_append_left _ (List.mem_map_of_mem (List.mem_cons_of_mem _ listed)))
    · exact ran.words w (List.mem_append_right _ above)
  refine ⟨live_kept calling.live ran.lower ran.aligned ran.back_chain words ⟨depth,?_,?_⟩,?_,?_,calling.nonneg,
    ran.thread.trans calling.thread⟩
  · rw [fields .stack (by simp),fields .stack_base (by simp [held])]
    exact place
  · rw [fields .stack (by simp),fields .stack_limit (by simp [held])]
    exact limit
  · rw [ran.locals,fields .stack (by simp)]
    exact calling.locals
  · rw [ran.locals,fields .stack_base (by simp [held])]
    exact calling.pushed

-- A state object's place, and the pointers in it to the ends of its frame's parts.
structure Extent where
  state : Int
  monitor_base : Int
  stack_base : Int
  stack_limit : Int

def Extent.with_monitor (x : Extent) : Extent := {x with stack_base := x.stack_base - monitor_size, stack_limit := x.stack_limit - monitor_size}

-- What a stack of calls shows of an activation, or of another callee, which has no
-- state object.
structure Shown where
  extent : Option Extent
  locals : Int
  stack : Int
  parameters : Int

def Activation.extent (m : Machine) (a : Activation) : Extent :=
  ⟨a.state,a.field m .monitor_base,a.field m .stack_base,a.field m .stack_limit⟩
def Activation.shown (m : Machine) (a : Activation) : Shown := ⟨some (a.extent m),a.field m .locals,a.field m .stack,a.parameters⟩

def view : Manager → List Shown
  | ⟨as,.call_interpreter m⟩ | ⟨as,.interpreter_returned m⟩ => as.map (shown m)
  | ⟨as,.call_non_interpreted_method p m⟩ | ⟨as,.callee_returned p m⟩ => ⟨none,m.gpr Rlocals,m.gpr Rlocals,p⟩ :: as.map (shown m)
  | ⟨_,.blr _⟩ => []

-- The innermost activation moves its stack pointer or gets a monitor. A callee takes
-- its parameters from its caller's stack, and comes back with a result of some words
-- in place of them; its caller is otherwise as it was.
def calls : CallStack.Calls Shown where
  work a a' := a'.locals = a.locals ∧ a'.parameters = a.parameters ∧
    (a'.extent = a.extent ∨ a'.extent = a.extent.map Extent.with_monitor ∧ a'.stack = a.stack - monitor_size)
  call b b' a := b' = b ∧ a.locals = b.stack + a.parameters*wordSize
  return_ a b b' := ∃ words : Nat, words ≤ 2 ∧ b' = {b with stack := a.locals - words*wordSize}
  leave _ := True

-- The fields that an activation keeps are seen as they were.
theorem shown_held (same : ∀ f ∈ held, a.field m' f = a.field m f) : a.shown m' = {a.shown m with stack := a.field m' .stack} := by
  simp only [Activation.shown,Activation.extent,same .locals (by simp [held]),same .monitor_base (by simp [held]),
    same .stack_base (by simp [held]),same .stack_limit (by simp [held])]

theorem shown_kept (same : SameWords (kept_words e.outer (a :: rest)) m m') :
    a.shown m' = {a.shown m with stack := a.field m' .stack} := shown_held (held_same fun w member => same w (List.mem_append_left _ member))

theorem shown_fields (same : ∀ f ∈ StateField.stack :: held, a.field m' f = a.field m f) : a.shown m' = a.shown m := by
  rw [shown_held fun f member => same f (List.mem_cons_of_mem _ member),same .stack List.mem_cons_self]
  rfl

-- So are the callers of an activation.
theorem callers_shown (same : SameWords (above_words e.outer (a :: rest)) m m') : rest.map (shown m') = rest.map (shown m) := by
  induction rest generalizing a with
  | nil => rfl
  | cons b rest ih =>
    have own : ∀ f ∈ StateField.stack :: held, b.field m' f = b.field m f := fun f member => by
      have word : f ≠ .msg := by rintro rfl; simp [held] at member
      have place : b.state + state_offset f ∈ b.words (.stack :: held) := List.mem_map_of_mem member
      refine field_same f word (same _ ?_)
      simp only [above_words,callers_words,List.mem_append,List.mem_cons,List.cons_append,Activation.words,List.map_cons] at place ⊢
      tauto
    have later : SameWords (above_words e.outer (b :: rest)) m m' := fun w member =>
      same w (List.mem_cons_of_mem _ (List.mem_cons_of_mem _ (List.mem_append_right _ member)))
    rw [List.map_cons,List.map_cons,ih later,shown_fields own]

theorem callee_same (mem : m'.mem = m.mem) (gpr : m'.gpr = m.gpr) : size_of_parameters (callee m') = size_of_parameters (callee m) ∧
    size_of_locals (callee m') = size_of_locals (callee m) ∧ result_type m' = result_type m := by
  have state : CppInterpreter.state m' .callee = CppInterpreter.state m .callee := by rw [CppInterpreter.state,mem,gpr]; rfl
  have reads : ∀ offset, (callee m').read16 ((callee m').ea ⟨Rmethod,offset⟩) = (callee m).read16 ((callee m).ea ⟨Rmethod,offset⟩) := by
    intro offset
    simp only [callee,Machine.ea,Machine.read16,Machine.set_mem,Machine.set_gpr,mem,state,if_true]
  refine ⟨reads _,reads _,?_⟩
  simp only [result_type,Machine.ea,Machine.read32,mem,gpr]

theorem running_same (running : Running e a rest m) (mem : m'.mem = m.mem) (gpr : m'.gpr = m.gpr) : Running e a rest m' := by
  refine ⟨?_,by rw [gpr]; exact running.state,?_,by rw [gpr]; exact running.thread⟩
  · rw [gpr]
    exact live_mem running.live mem
  · rw [gpr,Activation.field,mem]
    exact running.locals

theorem requests_same (mem : m'.mem = m.mem) (gpr : m'.gpr = m.gpr) (request : Requests as m x) : Requests as m' x := by
  obtain ⟨params,extent,type⟩ := callee_same mem gpr
  have fields : ∀ f, state m' f = state m f := fun f => by rw [state,mem,gpr]; rfl
  cases request with
  | call_method covered pushed =>
    refine .call_method ?_ ?_
    · rw [params,extent]
      exact covered
    · rw [params,fields,fields]
      exact pushed
  | return_from_method type' fits =>
    refine .return_from_method (type.trans type') fun a b rest same => ?_
    have fits' := fits a b rest same
    rw [Activation.field,Activation.field,mem]
    exact fits'
  | more_monitors => exact .more_monitors
  | throwing_exception => exact .throwing_exception

omit [Code] in
theorem result_words_le (t : BasicType) : result_words t ≤ 2 := by cases t <;> decide

-- The caller is seen with the result in place of the parameters.
theorem returned_shown (same : SameWords (kept_words e.outer (b :: rest)) m m') (words : Nat) (few : words ≤ 2)
    (stack : b.field m' .stack = a.field m .locals - words*wordSize) :
    CallStack.Step calls ((a :: b :: rest).map (shown m)) ((b :: rest).map (shown m')) := by
  have seen : b.shown m' = {b.shown m with stack := (a.shown m).locals - words*wordSize} := by
    rw [shown_kept same,stack]
    rfl
  rw [List.map_cons,List.map_cons,List.map_cons,callers_shown same.above]
  exact .return_ _ ⟨words,few,seen⟩

-- Leaving the frame manager for a callee that is not interpreted.
theorem call_non_interpreted_calling (running : Running e a rest m)
    (pushed : a.field m .stack + size_of_parameters (callee m) * wordSize + wordSize ≤ a.field m .stack_base) :
    let m' : Machine := {exec [.mtctr r0] (exec prepare_call m) with lr := site .callee_returned}
    Calling e a rest (size_of_parameters (callee m)) m' ∧ a.field m' .stack = a.field m .stack ∧
      size_of_parameters m' = size_of_parameters (callee m) := by
  intro m'
  obtain ⟨method,locals,params,extent,mem,kept⟩ := prepare_call_spec m
  have mem' : m'.mem = m.mem := mem
  have gpr' : m'.gpr = (exec prepare_call m).gpr := rfl
  have fields : ∀ f, a.field m' f = a.field m f := fun f => by rw [Activation.field,mem']; rfl
  rw [running_field running] at locals
  refine ⟨⟨?_,?_,?_,(halfword_range (callee m) _).1,?_⟩,fields _,params⟩
  · rw [gpr',kept.gpr r1 (by simp)]
    exact live_mem running.live mem'
  · rw [gpr',locals,fields]
  · rw [gpr',locals,fields]
    exact pushed
  · rw [gpr',kept.gpr Rthread (by simp)]
    exact running.thread

-- A message handled: the activations are as they have to be, and so is the stack
-- of calls.
theorem message_step (ready : e.Ready) (running : Running e a rest m) (method : m.gpr Rmethod = a.field m .method)
    (positive : ∀ b ∈ rest, b.state ≠ 0) (own : a.state ≠ 0) (request : Requests (a :: rest) m x) (handled : handle_message x m = some c) :
    Good e (after (some x) m (a :: rest) c) ∧
      CallStack.Step calls ((a :: rest).map (shown m)) (view (after (some x) m (a :: rest) c)) := by
  cases request with
  | call_method covered pushed =>
    rw [running_field running,running_field running] at pushed
    obtain rfl := Option.some.inj handled
    unfold call_method
    simp only
    split
    · obtain ⟨running',method',locals,stack,_,words⟩ := call_interpreted_running ready running covered pushed
      refine ⟨.call_interpreter running' method',?_⟩
      generalize call_interpreted_method (exec prepare_call m) = m' at running' method' locals stack words ⊢
      have same : a.shown m' = a.shown m := by
        rw [shown_kept words,stack]
        rfl
      change CallStack.Step calls (a.shown m :: rest.map (shown m)) (_ :: a.shown m' :: rest.map (shown m'))
      rw [callers_shown words.above]
      exact .call _ ⟨same,locals⟩
    · obtain ⟨calling,stack,params⟩ := call_non_interpreted_calling running pushed
      refine ⟨.call_non_interpreted_method calling own params rfl,?_⟩
      have place := calling.locals
      rw [stack] at place
      exact .call _ ⟨rfl,place⟩
  | return_from_method type fits =>
    cases rest with
    | nil =>
      obtain ⟨m',rfl,left⟩ := return_outermost running handled
      exact ⟨.blr left,.leave trivial⟩
    | cons b rest =>
      have only : ∀ t', result_type m = some t' → b.field m .stack_limit ≤ a.field m .locals - result_words t' * wordSize := fun t' type' => by
        obtain rfl := Option.some.inj (type.symm.trans type')
        exact fits a b rest rfl
      obtain ⟨t',m',_,rfl,running',method',words,stack,_⟩ := return_called ready running (positive b List.mem_cons_self) handled only
      exact ⟨.call_interpreter running' method',returned_shown words (result_words t') (result_words_le t') stack⟩
  | more_monitors =>
    obtain ⟨m₂,code,running',method',locals,monitor_base,moved,above⟩ := got_monitors_running ready running method
    obtain rfl := Option.some.inj (handled.symm.trans (congrArg (Option.map Control.call_interpreter) code))
    refine ⟨.call_interpreter running' method',?_⟩
    change CallStack.Step calls (a.shown m :: rest.map (shown m)) (a.shown _ :: rest.map (shown _))
    rw [callers_shown above]
    have extent : a.extent m₂ = (a.extent m).with_monitor := by
      simp only [Activation.extent,Extent.with_monitor,monitor_base,moved .stack_base (by decide),moved .stack_limit (by decide)]
    exact .work _ ⟨locals,rfl,.inr ⟨congrArg some extent,moved .stack (by decide)⟩⟩
  | throwing_exception =>
    obtain rfl := Option.some.inj handled
    cases rest with
    | nil =>
      obtain ⟨m',code,left⟩ := throwing_outermost running
      rw [code]
      exact ⟨.blr left,.leave trivial⟩
    | cons b rest =>
      obtain ⟨m',code,running',method',words,stack⟩ := throwing_called ready running (positive b List.mem_cons_self)
      rw [code]
      refine ⟨.call_interpreter running' method',returned_shown words 0 (Nat.zero_le 2) ?_⟩
      rw [stack,Nat.cast_zero,Int.zero_mul,Int.sub_zero]

-- A step of the frame manager, of the interpreter or of a callee.
theorem step_shows (ready : e.Ready) (good : Good e s) (next : Step e s s') :
    Good e s' ∧ (view s' = view s ∨ CallStack.Step calls (view s) (view s')) := by
  cases next with
  | interpreter room ran =>
    cases good with
    | call_interpreter running method =>
      obtain ⟨running₁,top,words⟩ := call_interpreter_running ready running room
      have running' := interpreted_running running₁ ran
      have same := words.trans ran.words
      have low := ran.registers r1 (by simp)
      refine ⟨.interpreter_returned running' (by rw [low,top]; exact room) ran.request,.inr ?_⟩
      have own := shown_kept same
      simp only [view,List.map_cons]
      rw [callers_shown same.above]
      exact .work _ ⟨by rw [own],rfl,.inl (by rw [own])⟩
  | @message m x m₁ c as examined handled =>
    cases good with
    | @interpreter_returned a rest _ running room request =>
      obtain ⟨running₁,_,method₁,fields,words⟩ := interpreter_returned_running ready running room
      obtain ⟨_,msg,mem,kept⟩ := examine_spec _ _ examined
      have gpr : m₁.gpr = (exec interpreter_returned m).gpr := funext fun r => kept.gpr r (by simp)
      obtain ⟨y,msg',request⟩ := request
      obtain rfl := message_apart _ _ (msg.symm.trans msg')
      have running' := running_same running₁ mem gpr
      have low := live_positive running.live room
      have positive : ∀ b ∈ a :: rest, b.state ≠ 0 := fun b member => by
        have above := low b member
        have start := ready.positive
        omega
      have method' : m₁.gpr Rmethod = a.field m₁ .method := by
        rw [gpr,method₁,Activation.field,Activation.field,mem]
      obtain ⟨good',shown'⟩ := message_step ready running' method' (fun b member => positive b (List.mem_cons_of_mem _ member))
        (positive a List.mem_cons_self) (requests_same mem gpr request) handled
      have seen : (a :: rest).map (shown m₁) = (a :: rest).map (shown m) := by
        have same := words.trans (.mem _ mem)
        have own : a.shown m₁ = a.shown m := by
          have stack : a.field m₁ .stack = a.field m .stack := by
            rw [← fields .stack,Activation.field,mem]
            rfl
          rw [shown_kept same,stack]
          rfl
        rw [List.map_cons,List.map_cons,callers_shown same.above,own]
      rw [seen] at shown'
      exact ⟨good',.inr shown'⟩
  | callee ran =>
    cases good with
    | @call_non_interpreted_method _ _ _ b calling positive _ _ =>
      have calling' := callee_calling calling ran
      refine ⟨.callee_returned calling' positive fun none => ?_,.inl ?_⟩
      · obtain ⟨t,type,fits⟩ := ran.result none
        exact ⟨t,type,fits b _ rfl⟩
      · have own : b.shown _ = b.shown _ := shown_fields fun f member => by
          have word : f ≠ .msg := by rintro rfl; simp [held] at member
          exact field_same f word (ran.words _ (List.mem_append_left _ (List.mem_map_of_mem member)))
        have above : SameWords (above_words e.outer (b :: _)) _ _ := fun w member => ran.words w (List.mem_append_right _ member)
        simp only [view,List.map_cons]
        rw [callers_shown above,own,ran.locals]
  | @resume m c as p handled =>
    cases good with
    | @callee_returned rest _ b _ calling positive result =>
      have only : m.read (m.gpr Rthread + pending_exception_offset) = 0 → ∀ t, result_type m = some t →
          b.field m .stack_limit ≤ m.gpr Rlocals - result_words t * wordSize := fun none t type => by
        obtain ⟨t',type',fits⟩ := result none
        obtain rfl := Option.some.inj (type'.symm.trans type)
        exact fits
      obtain ⟨m',rfl,running,method,kept,stack⟩ := callee_resumed ready calling positive handled only
      refine ⟨.call_interpreter running method,.inr ?_⟩
      have words : ∃ words : Nat, words ≤ 2 ∧ b.field m' .stack = m.gpr Rlocals - words*wordSize := by
        split at stack
        · obtain ⟨t,_,place,_⟩ := stack
          exact ⟨_,result_words_le t,place⟩
        · exact ⟨0,Nat.zero_le 2,by rw [stack,Nat.cast_zero,Int.zero_mul,Int.sub_zero]⟩
      obtain ⟨words,few,place⟩ := words
      have seen : b.shown m' = {b.shown m with stack := m.gpr Rlocals - words*wordSize} := by
        rw [shown_kept kept,place]
      simp only [view,after,List.map_cons]
      rw [callers_shown kept.above]
      exact .return_ _ ⟨words,few,seen⟩

-- The frame manager is a stack of calls, over whole runs.
theorem manager_shows (ready : e.Ready) : CallStack.Shows calls (Step e) (Good e) view :=
  ⟨fun good next => (step_shows ready good next).1,fun good next => (step_shows ready good next).2⟩

theorem reached_good (ready : e.Ready) (run : Steps e (entered e) s) : Good e s :=
  (manager_shows ready).run_good (entered_good ready) run

-- The state objects by their links, and by the back chain as frame::sender has it.
def prev_links (m : Machine) : Nat → Int → List Int
  | 0,_ => []
  | n+1,s => if s = 0 then [] else s :: prev_links m n (m.mem.field s .prev_link)

def back_chain_states (m : Machine) : Nat → Int → List Int
  | 0,_ => []
  | n+1,sp => get_interpreterState m sp :: back_chain_states m n (sender_sp m sp)

-- The return addresses that callers' frames hold, upwards.
def return_addresses (m : Machine) : Nat → Int → List Int
  | 0,_ => []
  | n+1,sp => m.read (sender_sp m sp + lr_save_offset*wordSize) :: return_addresses m n (sender_sp m sp)

theorem live_links (live : Live e m sp (a :: rest)) (positive : ∀ b ∈ a :: rest, b.state ≠ 0) (more : Nat) :
    prev_links m ((a :: rest).length + more) a.state = (a :: rest).map Activation.state ∧
      back_chain_states m (a :: rest).length sp = (a :: rest).map Activation.state ∧
      return_addresses m (a :: rest).length sp = List.replicate rest.length RecursiveInterpreterActivation ++ [e.machine.lr] := by
  induction rest generalizing a sp with
  | nil =>
    cases live with
    | outermost frame locals caller =>
      have chain := (frame_bounds frame).back_chain
      have last : m.mem.field a.state .prev_link = 0 := frame.prev_link
      have own := positive a List.mem_cons_self
      refine ⟨?_,?_,?_⟩
      · rw [List.length_singleton,Nat.add_comm,prev_links,if_neg own,last]
        cases more <;> simp [prev_links]
      · simp only [List.length_singleton,back_chain_states,get_interpreterState,sender_sp,chain,List.map_cons,List.map_nil]
        rw [Activation.caller,Int.add_sub_cancel]
      · simp only [List.length_singleton,return_addresses,sender_sp,chain,caller.return_address,List.length_nil,List.replicate_zero,
          List.nil_append]
  | cons b rest ih =>
    cases live with
    | called frame return_address passed waiting =>
      have chain := (frame_bounds frame).back_chain
      have next : m.mem.field a.state .prev_link = b.state := frame.prev_link
      have own := positive a List.mem_cons_self
      obtain ⟨links,chains,addresses⟩ := ih waiting fun c member => positive c (List.mem_cons_of_mem _ member)
      refine ⟨?_,?_,?_⟩
      · have count : (a :: b :: rest).length + more = ((b :: rest).length + more) + 1 := by simp only [List.length_cons]; omega
        rw [count,prev_links,if_neg own,next,links]
        rfl
      · rw [List.length_cons,back_chain_states,get_interpreterState,sender_sp,chain,chains]
        simp [Activation.caller]
      · rw [List.length_cons,return_addresses,sender_sp,chain,return_address,addresses]
        rfl

end IcedTea.CppInterpreter

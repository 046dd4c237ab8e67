import IcedTea.FrameManagerRuns

namespace IcedTea.CppInterpreter
open StackFrame (lr_save_offset)
open Vm Code Activation SharedRuntime BasicType Relation

variable [Code] {e : Entry} {m m' : Machine}

section Activations
variable {a b : Activation} {rest : List Activation}

-- What the interpreter is called with, at any depth of calls.
structure Linked (e : Entry) (as : List Activation) (m : Machine) : Prop where
  back_chain : m.read (m.gpr r1) = m.gpr Rstate + sizeof_BytecodeInterpreter
  locals : m.gpr Rlocals = state m .locals
  method : m.gpr Rmethod = state m .method
  self_link : state m .self_link = m.gpr Rstate
  some : as ≠ []
  prev_links : ∀ more, prev_links m (as.length + more) (m.gpr Rstate) = as.map Activation.state
  back_chain_states : back_chain_states m as.length (m.gpr r1) = as.map Activation.state
  return_addresses : return_addresses m as.length (m.gpr r1) = List.replicate (as.length - 1) RecursiveInterpreterActivation ++ [e.machine.lr]

-- Links and back chains lead to the same state objects in every state reached,
-- and only the outermost activation's caller has the entry's return address.
theorem activations_linked (ready : e.Ready) (run : Steps e (entered e) ⟨as,.call_interpreter m⟩) (room : e.low ≤ m.gpr r1) :
    Linked e as m := by
  cases reached_good ready run with
  | @call_interpreter rest a _ running method =>
    obtain ⟨_,frame⟩ := live_frame running.live
    have positive : ∀ b ∈ a :: rest, b.state ≠ 0 := fun b member => by
      have low := live_positive running.live room b member
      have start := ready.positive
      omega
    have fields := running_field running
    refine ⟨?_,?_,?_,?_,List.cons_ne_nil _ _,fun more => ?_,?_,?_⟩
    · rw [(frame_bounds frame).back_chain,running.state]
      rfl
    · rw [fields]
      exact running.locals
    · rw [fields]
      exact method
    · rw [fields,running.state]
      exact frame.self_link
    · rw [running.state]
      exact (live_links running.live positive more).1
    · exact (live_links running.live positive 0).2.1
    · exact (live_links running.live positive 0).2.2

@[reducible] def Code.plain : Code := {Vm.plain ppc64 with
  RecursiveInterpreterActivation := 4
  normal_entry := 8
  site := fun s => 16 + 4*s.ctorIdx
  tosca_to_stack := 0
  stack_to_stack := 0
  stack_to_native_abi := 0}

-- An entry for a method without words while an exception is pending, and an
-- interpreter that calls a method.
def at_entry : Machine where
  gpr r := if r = r1 then 0x1000 else if r = Rlocals then 0x1100 else if r = Rthread then 0x8000 else if r = Rmethod then 0x9000 else 0
  fpr _ := 0
  cr _ := 0
  lr := 12
  ctr := 0
  mem a := if a = 0x8014 then 1 else 0

def first_entry : Entry := ⟨at_entry,[],16,0x2000⟩

def requesting (entry_point : Int) (x : Message) (m : Machine) : Machine :=
  let mem := (m.mem.setField (m.gpr Rstate) .callee 0x9000).setField (m.gpr Rstate) .callee_entry_point entry_point
  {m with mem := mem.setField (m.gpr Rstate) .msg (message x)}

theorem requesting_gpr (entry_point : Int) (x : Message) (m : Machine) : (requesting entry_point x m).gpr = m.gpr := rfl

omit [Code] in
theorem first_entry_ready : letI := Code.plain; first_entry.Ready :=
  letI := Code.plain
  ⟨by decide,by decide,(fun _ member => absurd member List.not_mem_nil),by decide,by decide,by rintro o (rfl|rfl) <;> decide⟩

-- The interpreter's run that asks for a call.
def asked : Machine := requesting normal_entry .call_method (call_interpreter (start first_entry.machine))

omit [Code] in
theorem asks_for_call : letI := Code.plain
    Step first_entry (entered first_entry) ⟨(entered first_entry).activations,.interpreter_returned asked⟩ := by
  let := Code.plain
  refine .interpreter ?room ?ran
  case room => decide
  case ran =>
    constructor
    case registers => exact fun r _ => congrFun (requesting_gpr normal_entry .call_method _) r
    case back_chain => decide
    case words => decide
    case stack => exact ⟨0,by decide,by decide⟩
    case request => exact ⟨.call_method,by decide,.call_method (by decide) (by decide)⟩

-- The machine when the called method's interpreter is called.
def examined : Machine := step (exec interpreter_returned asked) (.compareImm cr0 r4 (message .call_method))
def called_again : Machine := call_interpreted_method (exec prepare_call examined)

omit [Code] in
theorem examined_call : letI := Code.plain; examine_message requests (exec interpreter_returned asked) = some (.call_method,examined) := by
  let := Code.plain
  have found : examine_message requests (exec interpreter_returned asked) = some (.call_method,examined) := if_pos (by decide)
  exact found

omit [Code] in
theorem handled_call : letI := Code.plain; handle_message .call_method examined = some (.call_interpreter called_again) := by
  let := Code.plain
  have handled : handle_message .call_method examined = some (.call_interpreter called_again) := congrArg some (if_pos (by decide))
  exact handled

omit [Code] in
theorem calls_again : letI := Code.plain
    ∃ as, as.length = 2 ∧ Steps first_entry (entered first_entry) ⟨as,.call_interpreter called_again⟩ := by
  let := Code.plain
  exact ⟨_,rfl,.tail (.single asks_for_call) (.message examined_call handled_call)⟩

-- The second activation of one entry.
set_option maxRecDepth 4000 in
omit [Code] in
theorem activations_linked_twice : letI := Code.plain; ∃ as, as.length = 2 ∧ Linked first_entry as called_again := by
  let := Code.plain
  obtain ⟨as,two,run⟩ := calls_again
  exact ⟨as,two,activations_linked first_entry_ready run (by decide)⟩

-- Whatever is called, returns and throws meanwhile, the entry is left by its own
-- return address, with its caller's frame as it was but for its size.
theorem entry_returns (ready : e.Ready) (run : Steps e (entered e) ⟨as,.blr m⟩) : as = [] ∧ Left e m := by
  cases reached_good ready run with
  | blr left => exact ⟨rfl,left⟩

-- An exception in the outermost activation is a way out.
theorem throws_out (ready : e.Ready) (run : Steps e (entered e) ⟨[a],.interpreter_returned m⟩)
    (msg : (exec interpreter_returned m).gpr r4 = message .throwing_exception) :
    ∃ m', Steps e (entered e) ⟨[],.blr m'⟩ ∧ m'.mem = (exec interpreter_returned m).mem := by
  cases reached_good ready run with
  | interpreter_returned running room _ =>
    obtain ⟨running₁,_⟩ := interpreter_returned_running ready running room
    obtain ⟨m₁,found⟩ := examine_finds requests (exec interpreter_returned m) (by simp [requests]) msg
    obtain ⟨_,_,mem,kept⟩ := examine_spec _ _ found
    have gpr : m₁.gpr = (exec interpreter_returned m).gpr := funext fun r => kept.gpr r (by simp)
    obtain ⟨m',code,_⟩ := throwing_outermost (running_same running₁ mem gpr)
    have handled : handle_message .throwing_exception m₁ = some (.blr m') := congrArg some code
    refine ⟨m',run.tail (.message found handled),?_⟩
    unfold throwing_exception return_with_exception at code
    simp only at code
    split at code
    · rw [← Control.blr.inj code]
      exact mem
    · cases code

-- A method with one parameter, two words of stack and an int result. It calls itself
-- with a 5, and each of the two activations returns 7.
def int_method (a b : Int) : Int := if b = a then 2*2^16 + 1 else if b = a+4 then 2^16 else if b = a+32 then 4 else 0

def at_int_method : Machine where
  gpr r := if r = r1 then 0x1000 else if r = Rlocals then 0x1100 else if r = Rthread then 0x8000 else if r = Rmethod then 0x9000 else 0
  fpr _ := 0
  cr _ := 0
  lr := 12
  ctr := 0
  mem := int_method 0x9000

def int_entry : Entry := ⟨at_int_method,[0x1200],16,0x2000⟩

def push_int (v : Int) (m : Machine) : Machine :=
  {m with mem := (m.mem.put (state m .stack) v).setField (m.gpr Rstate) .stack (state m .stack - wordSize)}
def return_examined (m : Machine) : Machine :=
  step (step (exec interpreter_returned m) (.compareImm cr0 r4 (message .call_method))) (.compareImm cr0 r4 (message .return_from_method))
def calls_itself : Machine := requesting normal_entry .call_method (push_int 5 (call_interpreter (start at_int_method)))
def itself_examined : Machine := step (exec interpreter_returned calls_itself) (.compareImm cr0 r4 (message .call_method))
def itself_called : Machine := call_interpreted_method (exec prepare_call itself_examined)
def inner_returns : Machine := requesting 0 .return_from_method (push_int 7 (call_interpreter itself_called))
def inner_returned : Machine :=
  let m := exec ((stack_to_stack_converter T_INT).getD []) (at_converter stack_to_stack (exec test_prev_link (return_examined inner_returns)))
  exec resume_interpreter (exec unwind_interpreter_state m)
def outer_returns : Machine := requesting 0 .return_from_method (call_interpreter inner_returned)
def returned_int (m : Machine) : Machine :=
  let m := exec ((stack_to_native_abi_converter T_INT).getD []) (at_converter stack_to_native_abi (exec test_prev_link (return_examined m)))
  exec unwind_interpreter_state m

omit [Code] in
theorem int_entry_ready : letI := Code.plain; int_entry.Ready :=
  letI := Code.plain
  ⟨by decide,by decide,by decide,by decide,by decide,by rintro o (rfl|rfl) <;> decide⟩

-- The request to return is the second that is looked for.
omit [Code] in
theorem return_is_examined (m : Machine) : letI := Code.plain
    (exec interpreter_returned m).gpr r4 = message .return_from_method →
      examine_message requests (exec interpreter_returned m) = some (.return_from_method,return_examined m) := by
  let := Code.plain
  intro msg
  have other : ¬ ((step (exec interpreter_returned m) (.compareImm cr0 r4 (message .call_method))).cr cr0).eq := by
    simp only [step,Machine.setField_cr,if_true,Field.of_eq,msg]
    decide
  have this : ((return_examined m).cr cr0).eq := by
    simp only [return_examined,step,Machine.setField_cr,if_true,Field.of_eq,Machine.setField_gpr,msg]
  exact (if_neg other).trans (if_pos this)

theorem int_is_returned {m : Machine} (outermost : ((exec test_prev_link (return_examined m)).cr cr0).eq)
    (type : result_type (exec test_prev_link (return_examined m)) = some T_INT) :
    handle_message .return_from_method (return_examined m) = some (.blr (returned_int m)) :=
  (if_pos outermost).trans (by rw [convert_result_finds stack_to_native_abi type rfl]; rfl)

def outer_int : Activation := ⟨(start at_int_method).gpr Rstate,(start at_int_method).gpr Rlocals,size_of_parameters at_int_method⟩
def inner_int : Activation := ⟨itself_called.gpr Rstate,itself_called.gpr Rlocals,size_of_parameters (callee itself_examined)⟩

omit [Code] in
theorem calls_itself_run : letI := Code.plain
    Steps int_entry (entered int_entry) ⟨[inner_int,outer_int],.call_interpreter itself_called⟩ := by
  let := Code.plain
  have asks : Step int_entry (entered int_entry) ⟨[outer_int],.interpreter_returned calls_itself⟩ :=
    .interpreter (by decide) ⟨fun _ _ => rfl,by decide,by decide,⟨1,by decide,by decide⟩,
      .call_method,by decide,.call_method (by decide) (by decide)⟩
  have examined : examine_message requests (exec interpreter_returned calls_itself) = some (.call_method,itself_examined) := if_pos (by decide)
  have handled : handle_message .call_method itself_examined = some (.call_interpreter itself_called) := congrArg some (if_pos (by decide))
  have calls : Step int_entry ⟨[outer_int],.interpreter_returned calls_itself⟩ ⟨[inner_int,outer_int],.call_interpreter itself_called⟩ :=
    .message examined handled
  exact .tail (.single asks) calls

set_option maxRecDepth 4000 in
omit [Code] in
theorem inner_returns_run : letI := Code.plain
    Steps int_entry (entered int_entry) ⟨[outer_int],.call_interpreter inner_returned⟩ := by
  let := Code.plain
  have asks : Step int_entry ⟨[inner_int,outer_int],.call_interpreter itself_called⟩ ⟨[inner_int,outer_int],.interpreter_returned inner_returns⟩ := by
    refine .interpreter (by decide) ⟨fun _ _ => rfl,by decide,by decide,⟨1,by decide,by decide⟩,
      .return_from_method,by decide,.return_from_method (t := T_INT) (by decide) fun a b rest same => ?_⟩
    obtain ⟨rfl,below⟩ := List.cons.inj same
    obtain ⟨rfl,none⟩ := List.cons.inj below
    decide
  have type : result_type (exec test_prev_link (return_examined inner_returns)) = some T_INT := by decide
  have handled : handle_message .return_from_method (return_examined inner_returns) = some (.call_interpreter inner_returned) :=
    (if_neg (by decide)).trans (by rw [convert_result_finds stack_to_stack type rfl]; rfl)
  exact .tail (.tail calls_itself_run asks) (.message (return_is_examined _ (by decide)) handled)

set_option maxRecDepth 4000 in
omit [Code] in
theorem outer_returns_run : letI := Code.plain
    Steps int_entry (entered int_entry) ⟨[],.blr (returned_int outer_returns)⟩ := by
  let := Code.plain
  have asks : Step int_entry ⟨[outer_int],.call_interpreter inner_returned⟩ ⟨[outer_int],.interpreter_returned outer_returns⟩ := by
    refine .interpreter (by decide) ⟨fun _ _ => rfl,by decide,by decide,⟨1,by decide,by decide⟩,
      .return_from_method,by decide,.return_from_method (t := T_INT) (by decide) fun a b rest same => ?_⟩
    cases (List.cons.inj same).2
  have handled : handle_message .return_from_method (return_examined outer_returns) = some (.blr (returned_int outer_returns)) :=
    int_is_returned (by decide) (by decide)
  exact .tail (.tail inner_returns_run asks) (.message (return_is_examined _ (by decide)) handled)

set_option maxRecDepth 4000 in
omit [Code] in
theorem entry_returns_int : letI := Code.plain
    Left int_entry (returned_int outer_returns) ∧ (returned_int outer_returns).gpr r3 = 7 := by
  let := Code.plain
  exact ⟨(entry_returns int_entry_ready outer_returns_run).2,by decide⟩

-- Every step of the frame manager, in every run, is a step of the stack of calls, or
-- one of a callee that is not interpreted, which leaves the stack as it is.
theorem manager_refines (ready : e.Ready) (run : Steps e (entered e) s) (next : Step e s s') :
    view s' = view s ∨ CallStack.Step calls (view s) (view s') := (manager_shows ready).steps (reached_good ready run) next

-- The step that answers the request for a call makes one.
omit [Code] in
theorem manager_refines_call : letI := Code.plain
    let s : Manager := ⟨(entered first_entry).activations,.interpreter_returned asked⟩
    ∃ s', (view s).length = 1 ∧ (view s').length = 2 ∧ CallStack.Step calls (view s) (view s') := by
  let := Code.plain
  let s' := after (some .call_method) examined (entered first_entry).activations (.call_interpreter called_again)
  have next : Step first_entry ⟨(entered first_entry).activations,.interpreter_returned asked⟩ s' := .message examined_call handled_call
  refine ⟨s',rfl,rfl,?_⟩
  rcases manager_refines first_entry_ready (.single asks_for_call) next with same|called
  · have lengths := congrArg List.length same
    cases lengths
  · exact called

theorem converters_found (type : result_type m = some t) : (∃ code, tosca_to_stack_converter t = some code) ∧
    (∃ code, stack_to_stack_converter t = some code) ∧ ∃ code, stack_to_native_abi_converter t = some code := by
  have member : t ∈ result_types := List.mem_of_getElem? type
  simp only [result_types,List.mem_cons,List.not_mem_nil,or_false] at member
  rcases member with rfl|rfl|rfl|rfl|rfl|rfl|rfl|rfl|rfl|rfl <;> exact ⟨⟨_,rfl⟩,⟨_,rfl⟩,_,rfl⟩

theorem callee_handled (result : m.read (m.gpr Rthread + pending_exception_offset) = 0 → ∃ t, result_type m = some t) :
    ∃ c, callee_returned m = some c := by
  obtain ⟨_,test,mem,kept⟩ := restore_state_spec m
  unfold callee_returned
  dsimp only
  split
  · rename_i none
    obtain ⟨t,type⟩ := result (test.mp none)
    obtain ⟨⟨_,converter⟩,_⟩ := converters_found type
    have same : result_type (exec restore_state m) = result_type m := by
      simp only [result_type,Machine.ea,Machine.read32,mem,kept.gpr Rmethod (by simp)]
    rw [convert_result_finds tosca_to_stack (same.trans type) converter]
    exact ⟨_,rfl⟩
  · exact ⟨_,rfl⟩

-- The frame manager has an answer to every request and every return: no message
-- is bad, and there is a converter for each result.
theorem never_stuck (ready : e.Ready) (run : Steps e (entered e) s) :
    match s.point with
    | .interpreter_returned _ | .callee_returned _ _ => ∃ s', Step e s s'
    | _ => True := by
  cases reached_good ready run with
  | @interpreter_returned a rest m running room request =>
    obtain ⟨x,msg,request⟩ := request
    have member : x ∈ requests := by cases request <;> simp [requests]
    obtain ⟨m',found⟩ := examine_finds requests (exec interpreter_returned m) member msg
    obtain ⟨_,_,mem,kept⟩ := examine_spec _ _ found
    have gpr : m'.gpr = (exec interpreter_returned m).gpr := funext fun r => kept.gpr r (by simp)
    have handled : ∃ c, handle_message x m' = some c := by
      cases request with
      | return_from_method type fits =>
        have type' := (callee_same mem gpr).2.2.trans type
        obtain ⟨_,⟨_,stack⟩,_,abi⟩ := converters_found type'
        have kept' := (test_prev_link_spec m').2.2
        have same : result_type (exec test_prev_link m') = result_type m' := by
          simp only [result_type,Machine.ea,Machine.read32,(test_prev_link_spec m').2.1,kept'.gpr Rmethod (by simp)]
        unfold handle_message return_from_method
        simp only
        split
        · rw [convert_result_finds stack_to_native_abi (same.trans type') abi]
          exact ⟨_,rfl⟩
        · rw [convert_result_finds stack_to_stack (same.trans type') stack]
          exact ⟨_,rfl⟩
      | call_method covered pushed => exact ⟨_,rfl⟩
      | more_monitors =>
        obtain ⟨running₁,_⟩ := interpreter_returned_running ready running room
        obtain ⟨m₁,code,_⟩ := grown_live ready (running_same running₁ mem gpr)
        exact ⟨_,congrArg (fun m => (Option.map _ m).map _) code⟩
      | throwing_exception => exact ⟨_,rfl⟩
    obtain ⟨c,handled⟩ := handled
    exact ⟨_,.message found handled⟩
  | @callee_returned rest p b m calling positive result =>
    obtain ⟨c,handled⟩ := callee_handled fun none => by
      obtain ⟨t,type,_⟩ := result none
      exact ⟨t,type⟩
    exact ⟨_,.resume handled⟩
  | call_interpreter => trivial
  | call_non_interpreted_method => trivial
  | blr => trivial

omit [Code] in
theorem never_stuck_asked : letI := Code.plain
    ∃ s', Step first_entry ⟨(entered first_entry).activations,.interpreter_returned asked⟩ s' :=
  letI := Code.plain
  never_stuck first_entry_ready (.single asks_for_call)

-- The result that control comes back to the frame manager with, if it is not an
-- exception.
def result : Manager → Option BasicType
  | ⟨_,.interpreter_returned m⟩ =>
    if (exec interpreter_returned m).gpr r4 = message .return_from_method then result_type (exec interpreter_returned m) else none
  | ⟨_,.callee_returned _ m⟩ => if m.read (m.gpr Rthread + pending_exception_offset) = 0 then result_type m else none
  | _ => none

def result_value (t : BasicType) : Manager → JavaValue
  | ⟨_,.interpreter_returned m⟩ =>
    on_top t (exec interpreter_returned m).mem (state (exec interpreter_returned m) .stack)
  | ⟨_,.callee_returned _ m⟩ => register_value t m
  | _ => .void

-- A caller after a callee: its stack has the result in place of the parameters,
-- or nothing in their place after an exception.
def Popped (s : Manager) (b b' : Shown) (parameters : Int) (m : Machine) : Prop :=
  match result s with
  | some t => b' = {b with stack := b.stack + (parameters - result_words t)*wordSize} ∧ on_top t m.mem b'.stack = result_value t s
  | none => b' = {b with stack := b.stack + parameters*wordSize}

-- A message that takes an activation off the stack of calls returns its result,
-- or is an exception.
theorem message_returned (ready : e.Ready) (running : Running e a (b :: rest) m) (positive : b.state ≠ 0)
    (msg : m.gpr r4 = message x) (request : Requests (a :: b :: rest) m x) (handled : handle_message x m = some c)
    (fewer : (view (after (some x) m (a :: b :: rest) c)).length = rest.length + 1) :
    ∃ m', after (some x) m (a :: b :: rest) c = ⟨b :: rest,.call_interpreter m'⟩ ∧
      b.shown m' = {b.shown m with stack := b.field m' .stack} ∧
      if m.gpr r4 = message .return_from_method then ∃ t, result_type m = some t ∧
        b.field m' .stack = a.field m .locals - result_words t * wordSize ∧
        on_top t m'.mem (b.field m' .stack) = on_top t m.mem (state m .stack)
      else b.field m' .stack = a.field m .locals := by
  cases request with
  | call_method covered pushed =>
    obtain rfl := Option.some.inj handled
    unfold call_method at fewer
    simp only at fewer
    split at fewer <;> simp [after,view] at fewer <;> omega
  | return_from_method type fits =>
    have only : ∀ t', result_type m = some t' → b.field m .stack_limit ≤ a.field m .locals - result_words t' * wordSize := fun t' type' => by
      obtain rfl := Option.some.inj (type.symm.trans type')
      exact fits a b rest rfl
    obtain ⟨t,m',type',rfl,_,_,words,stack,value⟩ := return_called ready running positive handled only
    refine ⟨m',rfl,shown_kept words,?_⟩
    rw [if_pos msg,running_field running]
    exact ⟨t,type',stack,value⟩
  | more_monitors =>
    obtain ⟨m₂,_,rfl⟩ := Option.map_eq_some_iff.mp handled
    simp [after,view] at fewer
  | throwing_exception =>
    obtain rfl := Option.some.inj handled
    obtain ⟨m',code,_,_,words,stack⟩ := throwing_called ready running positive
    rw [code]
    have other : m.gpr r4 ≠ message .return_from_method := fun same => by
      have both := message_apart _ _ (msg.symm.trans same)
      cases both
    refine ⟨m',rfl,shown_kept words,?_⟩
    rw [if_neg other]
    exact stack

end Activations

section Calls
variable {a b b' : Shown} {rest : List Shown}

-- The caller that is shown is the one whose stack pointer was set.
theorem popped {b₀ : Activation} {locals parameters : Int} {m m' : Machine} (passed : locals = (b₀.shown m).stack + parameters*wordSize)
    (kept : b₀.shown m' = {b₀.shown m with stack := b₀.field m' .stack}) (outcome : match result s with
      | some t => b₀.field m' .stack = locals - result_words t * wordSize ∧ on_top t m'.mem (b₀.field m' .stack) = result_value t s
      | none => b₀.field m' .stack = locals) : Popped s (b₀.shown m) (b₀.shown m') parameters m' := by
  have set : ∀ words : Nat, b₀.field m' .stack = locals - words*wordSize →
      b₀.shown m' = {b₀.shown m with stack := (b₀.shown m).stack + (parameters - words)*wordSize} := by
    intro words stack
    have place : b₀.field m' .stack = (b₀.shown m).stack + (parameters - words)*wordSize := by
      rw [stack,passed]
      ring
    rw [← place]
    exact kept
  unfold Popped
  cases kind : result s with
  | some t =>
    rw [kind] at outcome
    exact ⟨set _ outcome.1,outcome.2⟩
  | none =>
    rw [kind] at outcome
    have place := set 0 (by rw [outcome,Nat.cast_zero,Int.zero_mul,Int.sub_zero])
    rw [Nat.cast_zero,Int.sub_zero] at place
    exact place

theorem returned_step (ready : e.Ready) (good : Good e s) (next : Step e s s') (before : view s = a :: b :: rest) (back : view s' = b' :: rest)
    (passed : a.locals = b.stack + a.parameters*wordSize) : ∃ m', s'.point = .call_interpreter m' ∧ Popped s b b' a.parameters m' := by
  have length : (view s).length = rest.length + 2 := by rw [before]; rfl
  have fewer : (view s').length = rest.length + 1 := by rw [back]; rfl
  cases next with
  | interpreter room ran => simp [view] at length fewer; omega
  | callee ran => simp [view] at length fewer; omega
  | @message m x m₁ c as examined handled =>
    cases good with
    | @interpreter_returned a₀ rest₀ _ running room request =>
      obtain ⟨running₁,_,method₁,fields,words⟩ := interpreter_returned_running ready running room
      obtain ⟨_,msg,mem,kept⟩ := examine_spec _ _ examined
      have gpr : m₁.gpr = (exec interpreter_returned m).gpr := funext fun r => kept.gpr r (by simp)
      obtain ⟨y,msg',request⟩ := request
      obtain rfl := message_apart _ _ (msg.symm.trans msg')
      have running' := running_same running₁ mem gpr
      cases rest₀ with
      | nil => simp [view] at length
      | cons b₀ rest₀ =>
        have low := live_positive running.live room b₀ (by simp)
        have start := ready.positive
        have size : rest₀.length = rest.length := by simpa [view] using length
        have msg₁ : m₁.gpr r4 = message x := by rw [gpr]; exact msg
        obtain ⟨m',code,kept',outcome⟩ := message_returned ready running' (by omega) msg₁ (requests_same mem gpr request) handled
          (by rw [fewer,size])
        rw [code] at back ⊢
        refine ⟨m',rfl,?_⟩
        simp only [view,List.map_cons,List.cons.injEq] at before back
        obtain ⟨rfl,rfl,_⟩ := before
        rw [← back.1]
        rw [gpr] at outcome
        have state₁ : ∀ f, state m₁ f = state (exec interpreter_returned m) f := fun f => by rw [state,mem,gpr]; rfl
        -- the activations are seen in m₁ as in m
        have same := words.trans (.mem _ mem)
        have callers := callers_shown same.above
        rw [List.map_cons,List.map_cons] at callers
        have own := (List.cons.inj callers).1
        have locals₁ : a₀.field m₁ .locals = a₀.field m .locals := held_same (fun w member => same w (List.mem_append_left _ member)) .locals
          (by simp [Activation.held])
        rw [own] at kept'
        rw [locals₁] at outcome
        refine popped passed kept' ?_
        by_cases returning : (exec interpreter_returned m).gpr r4 = message .return_from_method
        · rw [if_pos returning] at outcome
          obtain ⟨t,type,stack,value⟩ := outcome
          rw [(callee_same mem gpr).2.2] at type
          have kind : result ⟨a₀ :: b₀ :: rest₀,.interpreter_returned m⟩ = some t := (if_pos returning).trans type
          rw [kind]
          refine ⟨stack,?_⟩
          rw [value,mem,state₁]
          rfl
        · rw [if_neg returning] at outcome
          have kind : result ⟨a₀ :: b₀ :: rest₀,.interpreter_returned m⟩ = none := if_neg returning
          rw [kind]
          exact outcome
  | @resume m c as p handled =>
    cases good with
    | @callee_returned rest₀ _ b₀ _ calling positive fits =>
      have only : m.read (m.gpr Rthread + pending_exception_offset) = 0 → ∀ t, result_type m = some t →
          b₀.field m .stack_limit ≤ m.gpr Rlocals - result_words t * wordSize := fun none t type => by
        obtain ⟨t',type',fits⟩ := fits none
        obtain rfl := Option.some.inj (type'.symm.trans type)
        exact fits
      obtain ⟨m',rfl,running,method,words,outcome⟩ := callee_resumed ready calling positive handled only
      refine ⟨m',rfl,?_⟩
      simp only [view,after,List.map_cons,List.cons.injEq] at before back
      obtain ⟨rfl,rfl,_⟩ := before
      rw [← back.1]
      refine popped passed (shown_kept words) ?_
      by_cases none : m.read (m.gpr Rthread + pending_exception_offset) = 0
      · rw [if_pos none] at outcome
        obtain ⟨t,type,stack,value⟩ := outcome
        have kind : result ⟨b₀ :: rest₀,.callee_returned p m⟩ = some t := (if_pos none).trans type
        rw [kind]
        exact ⟨stack,value⟩
      · rw [if_neg none] at outcome
        have kind : result ⟨b₀ :: rest₀,.callee_returned p m⟩ = Option.none := if_neg none
        rw [kind]
        exact outcome

-- Where a callee that is on the stack of calls has its parameters.
theorem view_passed (good : Good e s) (seen : view s = a :: b :: rest) : a.locals = b.stack + a.parameters*wordSize := by
  have activations : ∀ {as : List Activation} {m : Machine} {a₀ rest₀} , as = a₀ :: rest₀ → Live e m (m.gpr r1) as →
      as.map (shown m) = a :: b :: rest → a.locals = b.stack + a.parameters*wordSize := by
    intro as m a₀ rest₀ first live seen
    subst first
    cases live with
    | outermost => simp at seen
    | called frame _ passed _ =>
      simp only [List.map_cons,List.cons.injEq] at seen
      obtain ⟨rfl,rfl,_⟩ := seen
      exact passed.locals
  have foreign : ∀ {b₀ rest₀ p} {m : Machine}, Calling e b₀ rest₀ p m → ⟨none,m.gpr Rlocals,m.gpr Rlocals,p⟩ :: (b₀ :: rest₀).map (shown m) = a :: b :: rest →
      a.locals = b.stack + a.parameters*wordSize := by
    intro b₀ rest₀ p m calling seen
    simp only [List.map_cons,List.cons.injEq] at seen
    obtain ⟨rfl,rfl,_⟩ := seen
    exact calling.locals
  cases good with
  | call_interpreter running _ => exact activations rfl running.live seen
  | interpreter_returned running _ _ => exact activations rfl running.live seen
  | call_non_interpreted_method calling _ _ _ => exact foreign calling seen
  | callee_returned calling _ _ => exact foreign calling seen
  | blr left => cases seen

theorem calls_keep (locals parameters : Int) : calls.Keeps fun a => a.locals = locals ∧ a.parameters = parameters where
  work := fun ⟨same,same',_⟩ own => ⟨same.trans own.1,same'.trans own.2⟩
  call := fun called own => by rw [called.1]; exact own
  return_ := fun ⟨_,_,same⟩ own => by rw [same]; exact own

-- A call and everything it calls leave its caller alone, until control comes back
-- to the caller with its stack pointer past the parameters and the result on top.
theorem calls_return (ready : e.Ready) (run : Steps e (entered e) s) (called : view s = a :: b :: rest) (later : Steps e s s') :
    CallStack.Inside (fun a' => a'.locals = a.locals ∧ a'.parameters = a.parameters) (b :: rest) (view s') ∨
      ∃ s₁ s₂ b' m, Steps e s s₁ ∧ Step e s₁ s₂ ∧ Steps e s₂ s' ∧ view s₂ = b' :: rest ∧ s₂.point = .call_interpreter m ∧
        Popped s₁ b b' a.parameters m := by
  have shows_ := manager_shows ready
  have good := reached_good ready run
  rcases shows_.returns (calls_keep a.locals a.parameters) good later called ⟨rfl,rfl⟩ with
    inside|⟨s₁,s₂,a',b',run₁,view₁,own,step₁,_,view₂,run₂⟩
  · exact .inl inside
  · have good₁ := shows_.run_good good run₁
    obtain ⟨m,point,popped⟩ := returned_step ready good₁ step₁ view₁ view₂ (view_passed good₁ view₁)
    rw [own.2] at popped
    exact .inr ⟨s₁,s₂,b',m,run₁,step₁,run₂,view₂,point,popped⟩

omit [Code] in
theorem calls_return_twice : letI := Code.plain
    ∃ s a b, view s = [a,b] ∧ ∀ s', Steps first_entry s s' →
      CallStack.Inside (fun a' => a'.locals = a.locals ∧ a'.parameters = a.parameters) [b] (view s') ∨
        ∃ s₁ s₂ b' m, Steps first_entry s s₁ ∧ Step first_entry s₁ s₂ ∧ Steps first_entry s₂ s' ∧ view s₂ = [b'] ∧
          s₂.point = .call_interpreter m ∧ Popped s₁ b b' a.parameters m := by
  let := Code.plain
  obtain ⟨as,two,run⟩ := calls_again
  obtain ⟨a,b,rfl⟩ := List.length_eq_two.mp two
  exact ⟨_,_,_,rfl,fun s' later => calls_return first_entry_ready run rfl later⟩
end Calls

section Nested
variable {as as' : List Activation} {p : Int}

-- An entry that is made while the frame manager waits for it, by a fast entry
-- that took the slow path or by compiled code.
def nested (e : Entry) (as : List Activation) (m : Machine) : Entry := ⟨m,waiting_words e.outer as,e.low,e.high⟩

theorem nested_ready {b : Activation} {rest : List Activation} (ready : e.Ready) (calling : Calling e b rest p m)
    (parameters : size_of_parameters m = p) (covered : size_of_parameters m ≤ size_of_locals m) : (nested e (b :: rest) m).Ready := by
  obtain ⟨_,frame⟩ := live_frame calling.live
  obtain ⟨ends,callers⟩ := live_above ready calling.live b rest rfl
  have bounds := frame_bounds frame
  have room := bounds.room
  have limit := bounds.limit
  have base := bounds.base
  have monitors := bounds.monitors
  have object := sizeof_large
  have pos := wordSize_pos
  have slop : slop_factor = 2*wordSize := rfl
  have last : b.caller = b.state + sizeof_BytecodeInterpreter := rfl
  have locals := calling.locals
  have above : ∀ w, Within b.state e.high w → m.gpr r1 + frame_header ≤ w ∧
      m.gpr Rlocals - size_of_parameters m * wordSize + wordSize ≤ w ∧ w + wordSize ≤ e.high := fun w within => by
    unfold Within at within
    rw [parameters]
    omega
  refine ⟨bounds.aligned,covered,fun w member => above w ?_,ready.positive,?_,fun o field => ?_⟩
  · rcases List.mem_append.mp member with own|further
    · have within := words_within b _ (by decide) w own
      unfold Within at within ⊢
      omega
    · have within := callers w further
      unfold Within at within ⊢
      omega
  · change m.gpr r1 + frame_header ≤ e.high
    omega
  · change m.gpr Rthread + o + wordSize ≤ e.low ∨ e.high ≤ m.gpr Rthread + o
    rw [calling.thread]
    exact ready.anchor o field

theorem called_ready (ready : e.Ready) (run : Steps e (entered e) ⟨as,.call_non_interpreted_method p m⟩)
    (covered : size_of_parameters m ≤ size_of_locals m) : (nested e as m).Ready := by
  cases reached_good ready run with
  | call_non_interpreted_method calling _ parameters _ => exact nested_ready ready calling parameters covered

-- Such an entry does what the frame manager takes every callee to do, whatever is
-- called meanwhile, and returns to the frame manager.
theorem nested_entry_returns (ready : e.Ready) (run : Steps e (entered e) ⟨as,.call_non_interpreted_method p m⟩)
    (covered : size_of_parameters m ≤ size_of_locals m)
    (inner : Steps (nested e as m) (entered (nested e as m)) ⟨as',.blr m'⟩)
    (fits : m'.read (m'.gpr Rthread + pending_exception_offset) = 0 → ∃ t, result_type m' = some t ∧
      ∀ b rest, as = b :: rest → b.field m' .stack_limit ≤ m'.gpr Rlocals - result_words t * wordSize) :
    m'.lr = site .callee_returned ∧ Step e ⟨as,.call_non_interpreted_method p m⟩ ⟨as,.callee_returned p m'⟩ := by
  cases reached_good ready run with
  | call_non_interpreted_method calling positive parameters address =>
    cases reached_good (called_ready ready run covered) inner with
    | blr left =>
      refine ⟨left.return_address.trans address,.callee ?_⟩
      exact ⟨left.caller.lower,left.caller.aligned,left.caller.back_chain,left.locals,left.thread,left.caller.outer,fits⟩

-- The same method with another entry.
def asked_other : Machine := requesting 0 .call_method (call_interpreter (start first_entry.machine))
def called_other : Machine :=
  let m := step (exec interpreter_returned asked_other) (.compareImm cr0 r4 (message .call_method))
  {exec [.mtctr r0] (exec prepare_call m) with lr := site .callee_returned}

omit [Code] in
theorem calls_other : letI := Code.plain
    ∃ p, Steps first_entry (entered first_entry) ⟨(entered first_entry).activations,.call_non_interpreted_method p called_other⟩ := by
  let := Code.plain
  have first : Step first_entry (entered first_entry) ⟨(entered first_entry).activations,.interpreter_returned asked_other⟩ := by
    refine .interpreter ?room ?ran
    case room => decide
    case ran =>
      constructor
      case registers => exact fun r _ => congrFun (requesting_gpr 0 .call_method _) r
      case back_chain => decide
      case words => decide
      case stack => exact ⟨0,by decide,by decide⟩
      case request => exact ⟨.call_method,by decide,.call_method (by decide) (by decide)⟩
  have found : examine_message requests (exec interpreter_returned asked_other) = some (.call_method,_) := if_pos (by decide)
  have handled : handle_message .call_method _ = some (.call_non_interpreted_method called_other) :=
    congrArg some (if_neg (by decide))
  exact ⟨_,.tail (.single first) (.message found handled)⟩

def second_entry : Entry := nested first_entry (entered first_entry).activations called_other
def thrown_inside : Machine := requesting 0 .throwing_exception (call_interpreter (start second_entry.machine))

set_option maxRecDepth 4000 in
omit [Code] in
theorem throws_inside : letI := Code.plain
    Step second_entry (entered second_entry) ⟨(entered second_entry).activations,.interpreter_returned thrown_inside⟩ := by
  let := Code.plain
  refine .interpreter ?room ?ran
  case room => decide
  case ran =>
    constructor
    case registers => exact fun r _ => congrFun (requesting_gpr 0 .throwing_exception _) r
    case back_chain => decide
    case words => decide
    case stack => exact ⟨0,by decide,by decide⟩
    case request => exact ⟨.throwing_exception,by decide,.throwing_exception⟩

set_option maxRecDepth 4000 in
omit [Code] in
theorem nested_entry_throws : letI := Code.plain
    ∃ p m', m'.lr = site .callee_returned ∧ Step first_entry
      ⟨(entered first_entry).activations,.call_non_interpreted_method p called_other⟩ ⟨(entered first_entry).activations,.callee_returned p m'⟩ := by
  let := Code.plain
  obtain ⟨p,run⟩ := calls_other
  have ready : second_entry.Ready := called_ready first_entry_ready run (by decide)
  obtain ⟨m',inner,mem⟩ := throws_out ready (.single throws_inside) (by decide)
  have left : Left second_entry m' := by
    cases reached_good ready inner with
    | blr left => exact left
  refine ⟨p,m',nested_entry_returns first_entry_ready run (by decide) inner fun none => absurd none ?_⟩
  rw [left.thread,Machine.read,mem]
  decide
end Nested

end IcedTea.CppInterpreter

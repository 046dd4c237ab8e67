import IcedTea.CallStack
import IcedTea.FrameManagerPieces

namespace IcedTea.CppInterpreter
open StackFrame (lr_save_offset)
open Vm Code

variable [Code]

-- A live activation: where its state object and its locals are, and the
-- parameter words that its caller pushed for it.
structure Activation where
  state : Int
  locals : Int
  parameters : Int

namespace Activation
variable (a : Activation) (sp : Int) (m : Machine)

-- The state object is the end of the frame: r1 of the frame above it.
def caller : Int := a.state + sizeof_BytecodeInterpreter
def field (f : StateField) : Int := m.mem.field a.state f

-- The machine with the registers that the activation runs with.
def at_ : Machine := (m.set r1 sp).set Rstate a.state

-- The fields set on entry. Those and the frame's link area are the frame
-- manager's; a caller's `_stack` is as well, until its callee returns.
def held : List StateField := [.locals,.self_link,.prev_link,.stack_base,.stack_limit,.monitor_base]
def words (fields : List StateField) : List Int := fields.map fun f => a.state + state_offset f

structure Frame (prev : Int) : Prop where
  shape : ∃ max_stack depth monitors, InterpreterFrame max_stack depth monitors (a.at_ sp m)
  self_link : a.field m .self_link = a.state
  prev_link : a.field m .prev_link = prev
  locals : a.field m .locals = a.locals

-- The expression stack's pointer is between its ends.
def InRange : Prop :=
  ∃ depth : Nat, a.field m .stack = a.field m .stack_base - ((depth : Int)+1)*wordSize ∧ a.field m .stack_limit ≤ a.field m .stack
end Activation
open Activation

section
omit [Code]
@[simp] theorem at_top (a : Activation) (sp : Int) (m : Machine) : (a.at_ sp m).gpr r1 = sp := by simp [at_]
@[simp] theorem at_state (a : Activation) (sp : Int) (m : Machine) : (a.at_ sp m).gpr Rstate = a.state := by simp [at_]
end
@[simp] theorem at_read (a : Activation) (sp : Int) (m : Machine) (w : Int) : (a.at_ sp m).read w = m.read w := rfl
@[simp] theorem at_field (a : Activation) (sp : Int) (m : Machine) (f : StateField) : state (a.at_ sp m) f = a.field m f := by
  rw [state,at_state]
  rfl

variable {a : Activation} {m m' : Machine}

-- What the words of callers that have to be kept are: from the frame whose r1 is
-- `sp` up, and last what the entry's own caller has. It may have its CR saved.
def callers_words (outer : List Int) : Int → List Activation → List Int
  | sp,[] => sp :: (sp + wordSize) :: (sp + lr_save_offset*wordSize) :: outer
  | sp,a :: rest => sp :: (sp + lr_save_offset*wordSize) :: a.words (.stack :: held) ++ callers_words outer a.caller rest

def above_words (outer : List Int) : List Activation → List Int
  | [] => outer
  | a :: rest => callers_words outer a.caller rest

-- What the innermost activation's own code has to keep.
def kept_words (outer : List Int) : List Activation → List Int
  | [] => outer
  | a :: rest => a.words held ++ above_words outer (a :: rest)

def SameWords (words : List Int) (m m' : Machine) : Prop := ∀ w ∈ words, m'.read w = m.read w

theorem SameWords.trans {words : List Int} {m m' m'' : Machine} (one : SameWords words m m') (two : SameWords words m' m'') :
    SameWords words m m'' := fun w member => (two w member).trans (one w member)

theorem SameWords.mem {m m' : Machine} (words : List Int) (mem : m'.mem = m.mem) : SameWords words m m' := fun w _ => by
  rw [Machine.read,mem]
  rfl

-- The words above an activation are among those that it has to keep.
theorem SameWords.above {m m' : Machine} (same : SameWords (kept_words outer (a :: rest)) m m') :
    SameWords (above_words outer (a :: rest)) m m' := fun w member => same w (List.mem_append_right _ member)

theorem kept_callers (member : w ∈ kept_words outer (a :: rest)) : w ∈ callers_words outer sp (a :: rest) := by
  simp only [kept_words,above_words,callers_words,words,List.map_cons,List.cons_append,List.mem_cons,List.mem_append] at member ⊢
  tauto

theorem field_word (a : Activation) (m : Machine) (f : StateField) (word : f ≠ .msg) : a.field m f = m.read (a.state + state_offset f) := by
  simp only [field,Cells.field,if_neg word]
  rfl

theorem field_same (f : StateField) (word : f ≠ .msg) (same : m'.read (a.state + state_offset f) = m.read (a.state + state_offset f)) :
    a.field m' f = a.field m f := by rw [field_word a m' f word,field_word a m f word,same]

theorem held_same (same : ∀ w ∈ a.words held, m'.read w = m.read w) (f : StateField) (member : f ∈ held) : a.field m' f = a.field m f := by
  have word : f ≠ .msg := fun msg => by subst msg; simp [held] at member
  exact field_same f word (same _ (List.mem_map_of_mem member))

-- The order of a frame's parts.
structure Bounds (a : Activation) (sp : Int) (m : Machine) : Prop where
  aligned : sp % 16 = 0
  back_chain : m.read sp = a.caller
  room : sp + frame_header + slop_factor ≤ a.field m .stack_limit + wordSize
  limit : a.field m .stack_limit ≤ a.field m .stack
  base : a.field m .stack + wordSize ≤ a.field m .stack_base
  monitors : a.field m .stack_base ≤ a.state

theorem frame_bounds (frame : a.Frame sp m prev) : Bounds a sp m := by
  obtain ⟨max_stack,depth,monitors,shape⟩ := frame.shape
  have pos := wordSize_pos
  have large := monitor_size_large
  have spread := Int.mul_le_mul_of_nonneg_right (show (depth : Int) + 1 ≤ max_stack + 1 from by have := shape.depth; omega) (Int.le_of_lt pos)
  have used := Int.mul_nonneg (Int.natCast_nonneg depth) (Int.le_of_lt pos)
  have locks := Int.mul_nonneg (Int.natCast_nonneg monitors) (Int.le_trans (Int.le_of_lt pos) large)
  have aligned := shape.aligned
  have chain := shape.back_chain
  have base := shape.stack_base
  have stack := shape.stack
  have limit := shape.stack_limit
  have room := shape.room
  simp only [at_top,at_state,at_read,at_field] at aligned chain base stack limit room
  rw [Int.add_mul] at spread stack
  exact ⟨aligned,chain,room,by omega,by omega,by omega⟩

theorem frame_in_range (frame : a.Frame sp m prev) : a.InRange m := by
  have bounds := frame_bounds frame
  obtain ⟨_,depth,_,shape⟩ := frame.shape
  have stack := shape.stack
  simp only [at_field] at stack
  exact ⟨depth,stack,bounds.limit⟩

-- A frame whose words are kept, but for the pointer that moves in its range; r1
-- may be lower.
theorem frame_kept (frame : a.Frame sp m prev) (lower : sp' ≤ sp) (aligned : sp' % 16 = 0) (back_chain : m'.read sp' = m.read sp)
    (same : ∀ w ∈ a.words held, m'.read w = m.read w) (moved : a.InRange m') : a.Frame sp' m' prev := by
  obtain ⟨max_stack,_,monitors,shape⟩ := frame.shape
  have pos := wordSize_pos
  have words := held_same same
  obtain ⟨depth,stack,low⟩ := moved
  have limit := shape.stack_limit
  simp only [at_field] at limit
  rw [words .stack_limit (by simp [held]),limit,← words .stack_base (by simp [held]),stack] at low
  have few : depth ≤ max_stack := by
    by_contra more
    have apart := Int.mul_le_mul_of_nonneg_right (show (max_stack : Int) + 1 + 1 ≤ depth + 1 by omega) (Int.le_of_lt pos)
    rw [Int.add_mul ((max_stack : Int) + 1)] at apart
    omega
  refine ⟨⟨max_stack,depth,monitors,?_,?_,?_,?_,?_,?_,few,?_⟩,?_,?_,?_⟩
  · rw [at_top]
    exact aligned
  · rw [at_top,at_read,back_chain]
    simpa using shape.back_chain
  · simpa [words .monitor_base (by simp [held])] using shape.monitor_base
  · simpa [words .stack_base (by simp [held])] using shape.stack_base
  · simpa using stack
  · simpa [words .stack_limit (by simp [held]),words .stack_base (by simp [held])] using limit
  · have room := shape.room
    simp only [at_top,at_field] at room
    rw [at_top,at_field,words .stack_limit (by simp [held])]
    omega
  · rw [words .self_link (by simp [held])]
    exact frame.self_link
  · rw [words .prev_link (by simp [held])]
    exact frame.prev_link
  · rw [words .locals (by simp [held])]
    exact frame.locals

-- One entry into the frame manager: the machine at the entry, the words that its
-- callers need, and the thread's stack.
structure Entry where
  machine : Machine
  outer : List Int
  low : Int
  high : Int

-- The frame anchor is not on the stack.
structure Entry.Ready (e : Entry) : Prop where
  aligned : e.machine.gpr r1 % 16 = 0
  covered : size_of_parameters e.machine ≤ size_of_locals e.machine
  outer : ∀ w ∈ e.outer, e.machine.gpr r1 + frame_header ≤ w ∧
    e.machine.gpr Rlocals - size_of_parameters e.machine * wordSize + wordSize ≤ w ∧ w + wordSize ≤ e.high
  positive : 0 < e.low
  high : e.machine.gpr r1 + frame_header ≤ e.high
  anchor : ∀ o, o = last_Java_sp_offset ∨ o = last_Java_pc_offset →
    e.machine.gpr Rthread + o + wordSize ≤ e.low ∨ e.high ≤ e.machine.gpr Rthread + o

-- The frame of the entry's caller, whose r1 may be lower by now.
structure CallerKept (e : Entry) (sp : Int) (m : Machine) : Prop where
  aligned : sp % 16 = 0
  lower : sp ≤ e.machine.gpr r1
  back_chain : m.read sp = e.machine.read (e.machine.gpr r1)
  cr_save : Target.cpu = .ppc64 → m.read (sp + wordSize) = e.machine.read (e.machine.gpr r1 + wordSize)
  return_address : m.read (sp + lr_save_offset*wordSize) = e.machine.lr
  outer : ∀ w ∈ e.outer, m.read w = e.machine.read w

-- A callee's locals begin with the parameters on its caller's expression stack.
structure Passed (b a : Activation) (m : Machine) : Prop where
  locals : a.field m .locals = b.field m .stack + a.parameters*wordSize
  pushed : a.field m .locals + wordSize ≤ b.field m .stack_base
  nonneg : 0 ≤ a.parameters

-- The activations of an entry, innermost first, with the r1 of the first.
inductive Live (e : Entry) (m : Machine) : Int → List Activation → Prop where
  | outermost {a : Activation} (frame : a.Frame sp m 0) (locals : a.field m .locals = e.machine.gpr Rlocals) (caller : CallerKept e a.caller m) :
      Live e m sp [a]
  | called {a b : Activation} (frame : a.Frame sp m b.state) (return_address : m.read (a.caller + lr_save_offset*wordSize) = RecursiveInterpreterActivation)
      (passed : Passed b a m) (live : Live e m a.caller (b :: rest)) : Live e m sp (a :: b :: rest)

theorem live_frame (live : Live e m sp (a :: rest)) : ∃ prev, a.Frame sp m prev := by
  cases live with
  | outermost frame => exact ⟨_,frame⟩
  | called frame => exact ⟨_,frame⟩

def Within (low high w : Int) : Prop := low ≤ w ∧ w + wordSize ≤ high

theorem words_within (a : Activation) (fields : List StateField) (words : StateField.msg ∉ fields) (w : Int) (member : w ∈ a.words fields) :
    Within a.state a.caller w := by
  obtain ⟨f,field,rfl⟩ := List.mem_map.mp member
  have inside := state_inside f
  have size : f.bytes = wordSize := if_neg fun msg : f = .msg => words (msg ▸ field)
  unfold Within caller
  omega

-- The callers' words are above the frame, up to the end of the stack.
theorem live_above (ready : e.Ready) (live : Live e m sp as) :
    ∀ a rest, as = a :: rest → a.caller ≤ e.high ∧ ∀ w ∈ above_words e.outer as, Within a.caller e.high w := by
  have pos := wordSize_pos
  have inside := lr_save_inside
  have second := lr_save_above
  have slop : slop_factor = 2*wordSize := rfl
  induction live with
  | outermost frame locals caller =>
    rintro a rest same
    obtain ⟨rfl,rfl⟩ := List.cons.inj same
    have lower := caller.lower
    have high := ready.high
    refine ⟨by omega,fun w member => ?_⟩
    simp only [above_words,callers_words,List.mem_cons] at member
    unfold Within
    rcases member with rfl|rfl|rfl|outer
    · omega
    · omega
    · omega
    · have above := ready.outer w outer
      omega
  | @called sp rest a b frame return_address passed live ih =>
    rintro a' rest' same
    obtain ⟨rfl,rfl⟩ := List.cons.inj same
    obtain ⟨ends,words⟩ := ih b rest rfl
    obtain ⟨_,callers⟩ := live_frame live
    have bounds := frame_bounds callers
    have room := bounds.room
    have limit := bounds.limit
    have base := bounds.base
    have monitors := bounds.monitors
    have object := sizeof_large
    have last : b.caller = b.state + sizeof_BytecodeInterpreter := rfl
    refine ⟨by omega,fun w member => ?_⟩
    simp only [above_words,callers_words,List.mem_cons,List.mem_append,List.cons_append] at member
    rcases member with rfl|rfl|field|further
    · unfold Within
      omega
    · unfold Within
      omega
    · have within := words_within b _ (by decide) w field
      unfold Within at within ⊢
      omega
    · have within := words w further
      unfold Within at within ⊢
      omega

-- The activations while their words are kept: the innermost one's r1 may be
-- lower, and its stack pointer elsewhere in its range.
theorem live_kept (live : Live e m sp (a :: rest)) (lower : sp' ≤ sp) (aligned : sp' % 16 = 0) (back_chain : m'.read sp' = m.read sp)
    (same : ∀ w ∈ kept_words e.outer (a :: rest), m'.read w = m.read w) (moved : a.InRange m') : Live e m' sp' (a :: rest) := by
  induction rest generalizing a sp sp' with
  | nil =>
    cases live with
    | outermost frame locals caller =>
      have words : ∀ w ∈ a.words held, m'.read w = m.read w := fun w member => same w (List.mem_append_left _ member)
      have callers : ∀ w ∈ above_words e.outer [a], m'.read w = m.read w := fun w member => same w (List.mem_append_right _ member)
      refine .outermost (frame_kept frame lower aligned back_chain words moved) ?_ ?_
      · rw [held_same words .locals (by simp [held])]
        exact locals
      · refine ⟨caller.aligned,caller.lower,?_,fun cpu => ?_,?_,fun w member => ?_⟩
        · rw [callers _ (by simp [above_words,callers_words])]
          exact caller.back_chain
        · rw [callers _ (by simp [above_words,callers_words])]
          exact caller.cr_save cpu
        · rw [callers _ (by simp [above_words,callers_words])]
          exact caller.return_address
        · rw [callers w (by simp [above_words,callers_words,member])]
          exact caller.outer w member
  | cons b rest ih =>
    cases live with
    | called frame return_address passed live =>
      have words : ∀ w ∈ a.words held, m'.read w = m.read w := fun w member => same w (List.mem_append_left _ member)
      have callers : ∀ w ∈ above_words e.outer (a :: b :: rest), m'.read w = m.read w :=
        fun w member => same w (List.mem_append_right _ member)
      obtain ⟨_,waiting⟩ := live_frame live
      have stack : b.field m' .stack = b.field m .stack :=
        field_same .stack (by decide) (callers _ (by simp [above_words,callers_words,Activation.words]))
      have fields : ∀ f ∈ held, b.field m' f = b.field m f := held_same fun w member =>
        callers w (by
          simp only [above_words,callers_words,List.mem_append,List.mem_cons,List.cons_append,Activation.words,List.map_cons]
          exact .inr (.inr (.inr (.inl member))))
      have in_range : b.InRange m' := by
        obtain ⟨depth,place,limit⟩ := frame_in_range waiting
        refine ⟨depth,?_,?_⟩
        · rw [stack,fields .stack_base (by simp [held])]
          exact place
        · rw [stack,fields .stack_limit (by simp [held])]
          exact limit
      refine .called (frame_kept frame lower aligned back_chain words moved) ?_ ⟨?_,?_,passed.nonneg⟩
        (ih live (Int.le_refl _) (frame_bounds waiting).aligned ?_ (fun w member => callers w (kept_callers member)) in_range)
      · rw [callers _ (by simp [above_words,callers_words])]
        exact return_address
      · rw [held_same words .locals (by simp [held]),stack]
        exact passed.locals
      · rw [held_same words .locals (by simp [held]),fields .stack_base (by simp [held])]
        exact passed.pushed
      · exact callers _ (by simp [above_words,callers_words])

end IcedTea.CppInterpreter

import IcedTea.CallStubEntries
import IcedTea.FrameAnchor

namespace IcedTea.StackWalk
open StackFrame (lr_save_offset)
open CppInterpreter FrameAnchor Vm Code StubRoutines Activation
open StubGenerator (Called stub_entry stub_words slot_at call_wrapper_offset call_stub_call)

-- Addresses of the interpreter's code and where a JavaCallWrapper has its anchor.
-- Code of a compiled method that is deoptimised has an original pc.
class Frames extends Runtime where
  code_contains : Int → Bool
  native_call : Int
  original_pc : Machine → Int → Int → Option Int
  wrapper_last_Java_sp_offset : Int
  wrapper_last_Java_pc_offset : Int
  code_sites : ∀ s, code_contains (site s) = true
  code_native : code_contains native_call = true
  code_null : code_contains 0 = false
  code_stub : code_contains StubRoutines.call_stub_return_address = false
  recursive_apart : RecursiveInterpreterActivation ≠ 0 ∧ RecursiveInterpreterActivation ≠ StubRoutines.call_stub_return_address
  stub_apart : StubRoutines.call_stub_return_address ≠ 0
  original_interpreted : ∀ m sp pc, pc = RecursiveInterpreterActivation ∨ code_contains pc = true → original_pc m sp pc = none
  original_stub : ∀ m sp, original_pc m sp StubRoutines.call_stub_return_address = none

variable [Frames]
open Frames

structure Frame where
  sp : Int
  pc : Int
  deriving DecidableEq, Repr

section
variable (m : Machine)

-- The constructors, with their assertion that there is a pc.
def frame (sp pc : Int) : Option Frame := if pc = 0 then none else some ⟨sp,(original_pc m sp pc).getD pc⟩
def frame_at (sp : Int) : Option Frame := frame m sp (m.read (sp + lr_save_offset*wordSize))

def pd_last_frame (thread : Int) : Option Frame :=
  let a := anchor thread m
  if a.last_Java_sp = 0 then none
  else if a.last_Java_pc ≠ 0 then frame m a.last_Java_sp a.last_Java_pc
  else frame_at m a.last_Java_sp

end

def contains (pc : Int) : Bool := pc == RecursiveInterpreterActivation || code_contains pc
def returns_to_call_stub (return_pc : Int) : Bool := return_pc == call_stub_return_address

namespace Frame
variable (m : Machine) (f : Frame)

def is_interpreted_frame : Bool := contains f.pc
def is_entry_frame : Bool := returns_to_call_stub f.pc
def entry_frame_call_wrapper : Int := m.read (sender_sp m f.sp - call_wrapper_offset)
def wrapper_anchor (wrapper : Int) : JavaFrameAnchor :=
  ⟨m.read (wrapper + wrapper_last_Java_sp_offset),m.read (wrapper + wrapper_last_Java_pc_offset)⟩
def entry_frame_is_first : Bool := (wrapper_anchor m (f.entry_frame_call_wrapper m)).last_Java_sp == 0

-- The older frame is asserted to be above this one.
def sender_for_entry_frame : Option Frame :=
  let jfa := wrapper_anchor m (f.entry_frame_call_wrapper m)
  if f.entry_frame_is_first m then none
  else if jfa.last_Java_sp ≤ f.sp then none
  else frame m jfa.last_Java_sp jfa.last_Java_pc

def sender_for_interpreter_frame : Option Frame := frame_at m (sender_sp m f.sp)

-- There are no other frames.
def sender : Option Frame :=
  if f.is_entry_frame then f.sender_for_entry_frame m
  else if f.is_interpreted_frame then f.sender_for_interpreter_frame m
  else none

end Frame

-- What a walk sees: an activation's state object, or a call of the stub with its
-- wrapper.
inductive Visited where
  | activation (state : Int) | entry (wrapper : Int)
  deriving DecidableEq, Repr

def Frame.visited (m : Machine) (f : Frame) : Visited :=
  if f.is_entry_frame then .entry (f.entry_frame_call_wrapper m) else .activation (get_interpreterState m f.sp)

-- From a frame to the first entry, at most so many frames.
def walk (m : Machine) : Nat → Frame → Option (List Visited)
  | 0,_ => none
  | n+1,f =>
    if f.is_entry_frame && f.entry_frame_is_first m then some [f.visited m]
    else (f.sender m).bind fun f' => (walk m n f').map (f.visited m :: ·)

variable {m m' m₀ : Machine} {e : Entry}

theorem frame_found (sp : Int) {pc : Int} (code : pc = RecursiveInterpreterActivation ∨ code_contains pc = true) :
    frame m sp pc = some ⟨sp,pc⟩ := by
  have real : pc ≠ 0 := by
    rintro rfl
    rcases code with zero|inside
    · exact recursive_apart.1 zero.symm
    · rw [code_null] at inside
      cases inside
  unfold frame
  rw [if_neg real,original_interpreted m sp pc code]
  rfl

theorem stub_frame_found (sp : Int) : frame m sp call_stub_return_address = some ⟨sp,call_stub_return_address⟩ := by
  have real : call_stub_return_address ≠ 0 := stub_apart
  have own : original_pc m sp call_stub_return_address = none := original_stub m sp
  unfold frame
  rw [if_neg real,own]
  rfl

-- Code of the interpreter is never taken for the stub's.
theorem interpreted_not_entry {f : Frame} (code : f.pc = RecursiveInterpreterActivation ∨ code_contains f.pc = true) :
    f.is_entry_frame = false ∧ f.is_interpreted_frame = true := by
  constructor
  · refine beq_eq_false_iff_ne.mpr fun same => ?_
    rcases code with recursive|inside
    · exact recursive_apart.2 (recursive.symm.trans same)
    · rw [same] at inside
      exact Bool.false_ne_true (Eq.trans (Eq.symm code_stub) inside)
  · unfold Frame.is_interpreted_frame contains
    rcases code with recursive|inside
    · simp [recursive]
    · simp [inside]

theorem walk_interpreted {f : Frame} {n : Nat} {rest : List Visited} (code : f.pc = RecursiveInterpreterActivation ∨ code_contains f.pc = true)
    {f' : Frame} (next : frame_at m (m.read f.sp) = some f') (further : walk m n f' = some rest) :
    walk m (n+1) f = some (.activation (get_interpreterState m f.sp) :: rest) := by
  obtain ⟨other,interpreted⟩ := interpreted_not_entry code
  have sender : f.sender m = some f' := by
    unfold Frame.sender
    rw [other,interpreted]
    exact next
  have seen : f.visited m = .activation (get_interpreterState m f.sp) := by
    unfold Frame.visited
    rw [other]
    rfl
  unfold walk
  rw [other,sender,seen]
  change (walk m n f').map _ = _
  rw [further]
  rfl

theorem stub_is_entry (sp : Int) : (Frame.mk sp call_stub_return_address).is_entry_frame = true := beq_self_eq_true _

theorem walk_first {sp : Int} (first : (Frame.mk sp call_stub_return_address).entry_frame_is_first m = true) :
    walk m 1 ⟨sp,call_stub_return_address⟩ = some [.entry ((Frame.mk sp call_stub_return_address).entry_frame_call_wrapper m)] := by
  unfold walk Frame.visited
  rw [stub_is_entry,first]
  rfl

theorem walk_entry {sp n : _} {rest : List Visited} {f' : Frame} (next : (Frame.mk sp call_stub_return_address).sender_for_entry_frame m = some f')
    (further : walk m n f' = some rest) :
    walk m (n+1) ⟨sp,call_stub_return_address⟩ =
      some (.entry ((Frame.mk sp call_stub_return_address).entry_frame_call_wrapper m) :: rest) := by
  have more : (Frame.mk sp call_stub_return_address).entry_frame_is_first m = false := by
    unfold Frame.sender_for_entry_frame at next
    by_contra first
    rw [if_pos (by simpa using first)] at next
    cases next
  unfold walk Frame.visited Frame.sender
  rw [stub_is_entry,more,next]
  change (walk m n f').map _ = _
  rw [further]
  rfl

-- The walk over an entry's activations, up to the frame of the entry's caller.
theorem walk_live {as : List Activation} {sp : Int} (live : Live e m sp as) (stub : e.machine.lr = call_stub_return_address) :
    ∃ caller, CallerKept e caller m ∧ ∀ {pc n rest}, pc = RecursiveInterpreterActivation ∨ code_contains pc = true →
      walk m n ⟨caller,call_stub_return_address⟩ = some rest →
        walk m (as.length + n) ⟨sp,pc⟩ = some (as.map (fun a => .activation a.state) ++ rest) := by
  have visits : ∀ {a : Activation} {sp prev : Int} {pc n rest f}, a.Frame sp m prev → pc = RecursiveInterpreterActivation ∨ code_contains pc = true →
      frame_at m a.caller = some f → walk m n f = some rest → walk m (n+1) ⟨sp,pc⟩ = some (.activation a.state :: rest) := by
    intro a sp prev pc n rest f frame code next further
    have chain := (frame_bounds frame).back_chain
    have found : get_interpreterState m sp = a.state := by
      rw [get_interpreterState,sender_sp,chain]
      exact Int.add_sub_cancel _ _
    rw [walk_interpreted (f := ⟨sp,pc⟩) code (by rw [chain]; exact next) further,found]
  induction live with
  | @outermost sp a frame locals caller =>
    refine ⟨a.caller,caller,fun code further => ?_⟩
    rw [List.length_singleton,Nat.add_comm]
    refine visits frame code ?_ further
    rw [frame_at,caller.return_address,stub]
    exact stub_frame_found _
  | @called sp rest a b frame return_address passed live ih =>
    obtain ⟨caller,kept,walks⟩ := ih
    refine ⟨caller,kept,fun {pc n rest'} code further => ?_⟩
    have next : frame_at m a.caller = some ⟨a.caller,RecursiveInterpreterActivation⟩ := by
      rw [frame_at,return_address]
      exact frame_found _ (.inl rfl)
    have before := visits frame code next (walks (.inl rfl) further)
    have count : (a :: b :: rest).length + n = (b :: rest).length + n + 1 := by
      rw [List.length_cons]
      omega
    rw [count]
    exact before

-- An entry by the stub, with the wrapper that the stub was given, whose innermost
-- activation has called out: the interpreter, or a native method by the frame that
-- the native entry made for it, from any call site of that entry.
structure Level where
  entry : Entry
  wrapper : Int
  activations : List Activation
  sp : Int
  native : Option JavaFrameAnchor

namespace Level
variable (l : Level)

def anchored : JavaFrameAnchor :=
  match l.native with
  | none => ⟨l.sp,site .call_interpreter⟩
  | some a => a

def seen : List Visited :=
  (match l.native with | none => [] | some _ => [.activation (l.sp - sizeof_BytecodeInterpreter)]) ++
    l.activations.map (fun a => .activation a.state) ++ [.entry l.wrapper]

def words : List Int := (l.native.map JavaFrameAnchor.last_Java_sp).toList ++ callers_words l.entry.outer l.sp l.activations

-- What the memory has to be for the level's frames to be there.
structure Standing (m : Machine) : Prop where
  live : Live l.entry m l.sp l.activations
  native : ∀ a, l.native = some a → code_contains a.last_Java_pc = true ∧ m.read a.last_Java_sp = l.sp ∧
    m.read (l.sp + lr_save_offset*wordSize) = site .callee_returned
end Level
open Level

variable {l : Level}

theorem standing_kept (standing : l.Standing m) (same : ∀ w ∈ l.words, m'.read w = m.read w) : l.Standing m' := by
  obtain ⟨e,wrapper,as,sp,native⟩ := l
  obtain ⟨live,native_frame⟩ := standing
  have callers : ∀ w ∈ callers_words e.outer sp as, m'.read w = m.read w := fun w member => same w (List.mem_append_right _ member)
  refine ⟨?_,fun nsp made => ?_⟩
  · cases as with
    | nil => cases live
    | cons a rest => exact (live_words live callers).1
  · dsimp only at made
    subst made
    obtain ⟨code,chain,return_address⟩ := native_frame nsp rfl
    refine ⟨code,(same nsp.last_Java_sp (List.mem_append_left _ List.mem_cons_self)).trans chain,Eq.trans (callers _ ?_) return_address⟩
    cases as <;> simp [callers_words]

theorem seen_length (l : Level) : 1 ≤ l.seen.length := by
  unfold seen
  rw [List.length_append]
  exact Nat.le_add_left 1 _

theorem walk_level (standing : l.Standing m) (stub : l.entry.machine.lr = call_stub_return_address) :
    ∃ caller, CallerKept l.entry caller m ∧ ∀ {n rest},
      walk m n ⟨caller,call_stub_return_address⟩ = some (.entry l.wrapper :: rest) →
        walk m (l.seen.length - 1 + n) ⟨l.anchored.last_Java_sp,l.anchored.last_Java_pc⟩ = some (l.seen ++ rest) := by
  obtain ⟨e,wrapper,as,sp,native⟩ := l
  obtain ⟨live,native_frame⟩ := standing
  obtain ⟨caller,kept,walks⟩ := walk_live live stub
  refine ⟨caller,kept,fun {n rest} further => ?_⟩
  cases native with
  | none =>
    have walked := walks (.inr (code_sites .call_interpreter)) further
    simpa [seen,anchored] using walked
  | some nsp =>
    obtain ⟨code,chain,return_address⟩ := native_frame nsp rfl
    have next : frame_at m (m.read nsp.last_Java_sp) = some ⟨sp,site .callee_returned⟩ := by
      rw [chain,frame_at,return_address]
      exact frame_found _ (.inr (code_sites _))
    have walked := walk_interpreted (f := ⟨nsp.last_Java_sp,nsp.last_Java_pc⟩) (.inr code) next (walks (.inr (code_sites _)) further)
    have found : get_interpreterState m nsp.last_Java_sp = sp - sizeof_BytecodeInterpreter := by rw [get_interpreterState,sender_sp,chain]
    rw [found] at walked
    have count : (seen ⟨e,wrapper,as,sp,some nsp⟩).length - 1 + n = as.length + n + 1 := by
      simp [seen]
      omega
    rw [count]
    simpa [seen,anchored] using walked

-- The native entry: from its frame on it locks, prepares the call and passes the
-- arguments, for which it may extend the frame.
def native_frame (m : Machine) : Machine := compute_interpreter_state true (exec [.loadImm Rstate 0] m)

structure NativeCalled (e : Entry) (as : List Activation) (m m' : Machine) : Prop where
  room : e.low ≤ m'.gpr r1
  lower : m'.gpr r1 ≤ (native_frame m).gpr r1
  back_chain : m'.read (m'.gpr r1) = (native_frame m).read ((native_frame m).gpr r1)
  thread : m'.gpr Rthread = (native_frame m).gpr Rthread
  words : ∀ w ∈ callers_words e.outer (m.gpr r1) as, m'.read w = (native_frame m).read w

-- A level that is left with the anchor set.
inductive Anchored (e : Entry) (wrapper : Int) : Level → Machine → Prop where
  | interpreter {m : Machine} {as : List Activation} (run : Steps e (entered e) ⟨as,.call_interpreter m⟩) (room : e.low ≤ m.gpr r1) :
      Anchored e wrapper ⟨e,wrapper,as,m.gpr r1,none⟩ (call_interpreter m)
  | native {m m' : Machine} {as : List Activation} {p pc : Int} (run : Steps e (entered e) ⟨as,.call_non_interpreted_method p m⟩)
      (called : NativeCalled e as m m') (code : code_contains pc = true) :
      Anchored e wrapper ⟨e,wrapper,as,m.gpr r1,some ⟨m'.gpr r1,pc⟩⟩ (exec (CppInterpreter.set_last_Java_frame pc) m')

def wrapper_words (m : Machine) : List Int := [m.gpr r3 + wrapper_last_Java_sp_offset,m.gpr r3 + wrapper_last_Java_pc_offset]

-- Calls of the stub by a thread, each with a wrapper that holds the anchor from
-- before. What runs between an anchor and the next call keeps the words of the
-- frames above.
inductive Nested (low high thread : Int) : Entry → Int → List Level → Prop where
  | first {m : Machine} (called : Called m (wrapper_words m) low high) (own : m.gpr r10 = thread)
      (none : (Frame.wrapper_anchor m (m.gpr r3)).last_Java_sp = 0) :
      Nested low high thread (stub_entry m (wrapper_words m) low high) (m.gpr r3) []
  | again {m m₀ : Machine} {e : Entry} {wrapper : Int} {l : Level} {levels : List Level} (outer : Nested low high thread e wrapper levels)
      (anchored : Anchored e wrapper l m₀) (called : Called m (wrapper_words m) low high) (own : m.gpr r10 = thread)
      (below : m.gpr r1 + frame_header ≤ l.anchored.last_Java_sp) (words : ∀ w ∈ l.words, m.read w = m₀.read w)
      (saved : Frame.wrapper_anchor m (m.gpr r3) = anchor thread m₀) :
      Nested low high thread (stub_entry m (wrapper_words m ++ l.words) low high) (m.gpr r3) (l :: levels)

theorem anchor_set (apart : Apart) (pc : Int) (m : Machine) :
    anchor (m.gpr Rthread) (exec (CppInterpreter.set_last_Java_frame pc) m) = ⟨m.gpr r1,pc⟩ := by
  let m₂ := exec [.mpclr pc,.mflr r0] m
  have stored : exec (CppInterpreter.set_last_Java_frame pc) m =
      Store.write (m.gpr Rthread) (Store.write (m.gpr Rthread) m₂ (.last_Java_pc pc)) (.last_Java_sp (m.gpr r1)) := by
    simp [m₂,CppInterpreter.set_last_Java_frame,Store.write,step]
  rw [stored,anchor_write apart,anchor_write apart]
  rfl

-- What an anchored level has to show for itself.
structure Suspended (e : Entry) (wrapper : Int) (l : Level) (m : Machine) : Prop where
  entry : l.entry = e
  wrapper : l.wrapper = wrapper
  standing : l.Standing m
  anchor : anchor (e.machine.gpr Rthread) m = l.anchored
  low : e.low ≤ l.anchored.last_Java_sp
  code : code_contains l.anchored.last_Java_pc = true
  words : ∀ w ∈ l.words, l.anchored.last_Java_sp ≤ w ∧ w + wordSize ≤ e.high

theorem callers_bounds (ready : e.Ready) {a : Activation} {rest : List Activation} {sp : Int} (live : Live e m sp (a :: rest)) :
    sp + frame_header ≤ e.high ∧ ∀ w ∈ callers_words e.outer sp (a :: rest), sp ≤ w ∧ w + wordSize ≤ e.high := by
  obtain ⟨_,frame⟩ := live_frame live
  obtain ⟨ends,_⟩ := live_above ready live a rest rfl
  have bounds := frame_bounds frame
  have room := bounds.room
  have limit := bounds.limit
  have base := bounds.base
  have monitors := bounds.monitors
  have object := sizeof_large
  have pos := wordSize_pos
  have second := lr_save_above
  have inside := lr_save_inside
  have slop : slop_factor = 2*wordSize := rfl
  have last : a.caller = a.state + sizeof_BytecodeInterpreter := rfl
  refine ⟨by omega,fun w member => ?_⟩
  rcases callers_within ready live member with rfl|rfl|within
  · omega
  · omega
  · unfold Within at within
    omega

-- The frame that the native entry makes below the activations.
structure NativeFrame (e : Entry) (as : List Activation) (m n : Machine) : Prop where
  live : Live e n (m.gpr r1) as
  room : n.gpr r1 + frame_header ≤ n.gpr Rmonitor
  monitor : n.gpr Rmonitor ≤ n.gpr Rstate
  record : (n.cr CRsync).eq → n.gpr Rmonitor + monitor_size ≤ n.gpr Rstate
  state : n.gpr Rstate + sizeof_BytecodeInterpreter = m.gpr r1
  back_chain : n.read (n.gpr r1) = m.gpr r1
  return_address : n.read (m.gpr r1 + lr_save_offset*wordSize) = m.lr
  top : n.read (m.gpr r1) = m.read (m.gpr r1)
  waiting : ∀ w ∈ waiting_words e.outer as, n.read w = m.read w
  locals : n.gpr Rlocals = m.gpr Rlocals
  thread : n.gpr Rthread = m.gpr Rthread

theorem native_frame_made {b : Activation} {rest : List Activation} {p : Int} (ready : e.Ready) (calling : Calling e b rest p m) :
    NativeFrame e (b :: rest) m (native_frame m) := by
  let m₁ := exec [.loadImm Rstate 0] m
  have top₁ : m₁.gpr r1 = m.gpr r1 := by simp [m₁,step]
  have computed : Computed true m₁ (native_frame m) := compute_interpreter_state_spec true m₁
  generalize native_frame m = n at computed
  obtain ⟨_,frame⟩ := live_frame calling.live
  obtain ⟨aligned,_,low,limit,base,monitors⟩ := frame_bounds frame
  have pos := wordSize_pos
  have second := lr_save_above
  have inside := lr_save_inside
  have object := sizeof_large
  have slop : slop_factor = 2*wordSize := rfl
  have depth := Int.mul_nonneg (stack_words_nonneg true m₁) (Int.le_of_lt pos)
  have locks := monitor_bytes_nonneg (is_synchronized m₁)
  have room := computed.room
  have monitor := computed.monitor
  have state := computed.state
  have kept : ∀ w, w = m.gpr r1 ∨ m.gpr r1 + lr_save_offset*wordSize + wordSize ≤ w → n.read w = m.read w := fun w place =>
    Cells.word_congr fun b low' high' => computed.mem b (.inr (by omega)) (by
      change b < w + wordSize at high'
      omega)
  refine ⟨?_,by omega,by omega,fun sync => ?_,by omega,?_,?_,kept _ (.inl rfl),fun w member => kept w (.inr ?_),?_,?_⟩
  · exact (live_state_kept ready calling.live (Int.le_refl _) aligned (kept _ (.inl rfl))
      (fun b high => computed.mem b (.inr (by omega)) (.inr (by omega)))).1
  · rw [computed.sync.mp sync] at monitor
    have size : monitor_bytes true = monitor_size := rfl
    omega
  · rw [computed.back_chain,top₁]
  · rw [← top₁]
    exact computed.lr_save
  · have within := above_within ready calling.live member
    unfold Within at within
    omega
  · rw [computed.keeps.gpr Rlocals (by simp)]
    simp [m₁,step]
  · rw [computed.keeps.gpr Rthread (by simp)]
    simp [m₁,step]

theorem anchored_suspended (apart : Apart) (ready : e.Ready) {wrapper : Int} (anchored : Anchored e wrapper l m) : Suspended e wrapper l m := by
  cases anchored with
  | @interpreter m as run room =>
    cases reached_good ready run with
    | @call_interpreter rest a _ running method =>
      obtain ⟨running',top,_⟩ := call_interpreter_running ready running room
      obtain ⟨_,bounds⟩ := callers_bounds ready running.live
      refine ⟨rfl,rfl,⟨?_,fun sp made => nomatch made⟩,?_,room,code_sites _,fun w member => ?_⟩
      · have live := running'.live
        rw [top] at live
        exact live
      · rw [← running.thread]
        exact anchor_set apart _ m
      · exact bounds w member
  | @native m m' as p pc run called code =>
    cases reached_good ready run with
    | @call_non_interpreted_method _ rest b _ calling positive parameters address =>
      have made := native_frame_made ready calling
      obtain ⟨room,lower,chain,thread,words⟩ := called
      generalize native_frame m = n at made lower chain thread words
      obtain ⟨ends,bounds⟩ := callers_bounds ready calling.live
      have pos := wordSize_pos
      have second := lr_save_above
      have inside := lr_save_inside
      have object := sizeof_large
      have below : n.gpr r1 ≤ m.gpr r1 := by
        have frame_room := made.room
        have monitor := made.monitor
        have state := made.state
        omega
      obtain ⟨live,_⟩ := live_words made.live words
      have own : m'.gpr Rthread = e.machine.gpr Rthread := by
        rw [thread,made.thread]
        exact calling.thread
      have same := anchor_stores ready own (CppInterpreter.set_last_Java_frame pc) (by
        simp only [CppInterpreter.set_last_Java_frame,stores,Instr.stores,List.append_nil,List.nil_append,List.cons_append,
          List.mem_cons,List.not_mem_nil,or_false,step,Machine.ea]
        rintro w (rfl|rfl)
        · exact ⟨_,.inr rfl,by simp⟩
        · exact ⟨_,.inl rfl,by simp⟩)
      have word : ∀ w, e.low ≤ w → w + wordSize ≤ e.high →
          (exec (CppInterpreter.set_last_Java_frame pc) m').read w = m'.read w := fun w low high =>
        Cells.word_congr fun b low' high' => same b (by omega) (by
          change b < _ + wordSize at high'
          omega)
      refine ⟨rfl,rfl,⟨(live_on_stack ready live (show e.low ≤ m.gpr r1 by omega) same).1,fun sp native => ?_⟩,?_,room,code,fun w member => ?_⟩
      · obtain rfl := Option.some.inj native
        refine ⟨code,?_,?_⟩
        · rw [word (m'.gpr r1) room (by omega),chain,made.back_chain]
        · change Machine.read _ (m.gpr r1 + lr_save_offset*wordSize) = _
          rw [word (m.gpr r1 + lr_save_offset*wordSize) (by omega) (by omega),words _ (by simp [callers_words]),made.return_address,address]
      · rw [← own]
        exact anchor_set apart _ m'
      · rcases List.mem_append.mp member with native|callers
        · rw [List.mem_singleton.mp native]
          change m'.gpr r1 ≤ m'.gpr r1 ∧ m'.gpr r1 + wordSize ≤ e.high
          omega
        · have bound := bounds w callers
          change m'.gpr r1 ≤ w ∧ w + wordSize ≤ e.high
          omega

theorem called_more {older more : List Int} {low high : Int} (called : Called m older low high)
    (above : ∀ w ∈ more, m.gpr r1 + frame_header ≤ w ∧ w + wordSize ≤ high) : Called m (older ++ more) low high where
  aligned := called.aligned
  parameters := called.parameters
  covered := called.covered
  older w member := (List.mem_append.mp member).elim (called.older w) (above w)
  positive := called.positive
  top := called.top
  anchor := called.anchor

section
variable {low high thread wrapper : Int} {levels : List Level}

-- The words of the innermost level are among those that the next entry keeps.
theorem nested_ready (apart : Apart) (nested : Nested low high thread e wrapper levels) :
    e.Ready ∧ e.low = low ∧ e.high = high ∧ e.machine.gpr Rthread = thread ∧ e.machine.lr = call_stub_return_address := by
  have entered : ∀ {m : Machine} {older : List Int}, Called m older low high → m.gpr r10 = thread →
      (stub_entry m older low high).machine.gpr Rthread = thread ∧ (stub_entry m older low high).machine.lr = call_stub_return_address :=
    fun called own => by
      obtain ⟨n,framed⟩ := StubGenerator.called_framed called
      exact ⟨framed.thread.trans own,framed.return_address⟩
  induction nested with
  | first called own none => exact ⟨StubGenerator.stub_entry_ready called,rfl,rfl,entered called own⟩
  | @again m m₀ e wrapper l levels outer anchored called own below words saved ih =>
    obtain ⟨ready,same_low,same_high,_,_⟩ := ih
    have bounds := (anchored_suspended apart ready anchored).words
    have more := called_more called fun w member => by
      have bound := bounds w member
      rw [same_high] at bound
      change m.gpr r1 + frame_header ≤ w ∧ w + wordSize ≤ high
      omega
    exact ⟨StubGenerator.stub_entry_ready more,rfl,rfl,entered more own⟩

-- The wrapper is found from the stub's frame, and in it the anchor from before.
theorem stub_frame {older : List Int} (called : Called m older low high) (wrapped : ∀ w ∈ wrapper_words m, w ∈ older) {caller : Int}
    (kept : CallerKept (stub_entry m older low high) caller m') :
    (Frame.mk caller call_stub_return_address).entry_frame_call_wrapper m' = m.gpr r3 ∧
      Frame.wrapper_anchor m' (m.gpr r3) = Frame.wrapper_anchor m (m.gpr r3) ∧ (∀ w ∈ older, m'.read w = m.read w) ∧
      caller ≤ m.gpr r1 := by
  obtain ⟨n,framed⟩ := StubGenerator.called_framed called
  have placed := StubGenerator.framed_placed framed
  have found := StubGenerator.kept_found called kept
  have same : ∀ w ∈ older, m'.read w = m.read w := fun w member =>
    (kept.outer w (List.mem_append_right _ member)).trans (StubGenerator.older_kept called w member)
  have place : m.gpr r1 - call_wrapper_offset = slot_at (call_stub_call m) 0 := by
    have locals := placed.locals
    have size : call_wrapper_offset = StubGenerator.slots.length*wordSize := by
      simp [call_wrapper_offset,StubGenerator.final_offset,StubGenerator.initial_offset]
    have first : ((StubGenerator.initial_offset+0 : Nat) : Int)*wordSize = wordSize := by simp [StubGenerator.initial_offset]
    unfold slot_at
    omega
  refine ⟨?_,?_,same,?_⟩
  · rw [Frame.entry_frame_call_wrapper,sender_sp,found.back_chain,place]
    exact found.slots 0 .call_wrapper rfl (by simp)
  · unfold Frame.wrapper_anchor
    rw [same _ (wrapped _ (by simp [wrapper_words])),same _ (wrapped _ (by simp [wrapper_words]))]
  · have lower := kept.lower
    change caller ≤ (call_stub_call m).gpr r1 at lower
    have above := placed.above
    have locals := placed.locals
    have pos := wordSize_pos
    have second := lr_save_above
    have inside := lr_save_inside
    have slots_nonneg := Int.mul_nonneg (Int.natCast_nonneg StubGenerator.slots.length) (Int.le_of_lt pos)
    omega

-- From the frame of an entry's caller the walk goes on over all older levels.
theorem walk_nested (apart : Apart) (nested : Nested low high thread e wrapper levels) : ∀ {m₁ : Machine} {caller : Int}, CallerKept e caller m₁ →
    walk m₁ ((levels.flatMap Level.seen).length + 1) ⟨caller,call_stub_return_address⟩ = some (.entry wrapper :: levels.flatMap Level.seen) := by
  induction nested with
  | @first m called own none =>
    intro m₁ caller kept
    obtain ⟨found,same,_,_⟩ := stub_frame called (fun w member => member) kept
    have first : (Frame.mk caller call_stub_return_address).entry_frame_is_first m₁ = true := by
      unfold Frame.entry_frame_is_first
      rw [found,same,none]
      rfl
    have walked := walk_first first
    rw [found] at walked
    exact walked
  | @again m m₀ e wrapper l levels outer anchored called own below words saved ih =>
    intro m₁ caller kept
    obtain ⟨ready,same_low,same_high,same_thread,stub⟩ := nested_ready apart outer
    obtain ⟨same_entry,same_wrapper,standing,set,least,code,bounds⟩ := anchored_suspended apart ready anchored
    have more := called_more called fun w member => by
      have bound := bounds w member
      rw [same_high] at bound
      change m.gpr r1 + frame_header ≤ w ∧ w + wordSize ≤ high
      omega
    obtain ⟨found,same,older,lower⟩ := stub_frame more (fun w member => List.mem_append_left _ member) kept
    have there : l.Standing m₁ := standing_kept standing fun w member =>
      (older w (List.mem_append_right _ member)).trans (words w member)
    rw [same_thread] at set
    rw [saved,set] at same
    obtain ⟨caller',kept',walks⟩ := walk_level there (by rw [same_entry]; exact stub)
    rw [same_entry] at kept'
    have further := ih kept'
    rw [← same_wrapper] at further
    have walked := walks further
    have next : (Frame.mk caller call_stub_return_address).sender_for_entry_frame m₁ =
        some ⟨l.anchored.last_Java_sp,l.anchored.last_Java_pc⟩ := by
      have positive := ready.positive
      have header : 0 < frame_header := by
        have pos := wordSize_pos
        have inside := lr_save_inside
        have second := lr_save_above
        omega
      unfold Frame.sender_for_entry_frame Frame.entry_frame_is_first
      rw [found,same,if_neg (by simp; omega),if_neg (by dsimp only; omega)]
      exact frame_found _ (.inr code)
    have result := walk_entry next walked
    rw [found] at result
    have count : (List.flatMap Level.seen (l :: levels)).length + 1 = l.seen.length - 1 + ((List.flatMap Level.seen levels).length + 1) + 1 := by
      have some := seen_length l
      rw [List.flatMap_cons,List.length_append]
      omega
    rw [count]
    exact result

-- Below them the innermost level.
theorem suspended_walk (apart : Apart) (nested : Nested low high thread e wrapper levels) (suspended : Suspended e wrapper l m) :
    ∃ f, pd_last_frame m thread = some f ∧
      walk m ((l :: levels).flatMap Level.seen).length f = some ((l :: levels).flatMap Level.seen) := by
  obtain ⟨ready,same_low,same_high,same_thread,stub⟩ := nested_ready apart nested
  obtain ⟨same_entry,same_wrapper,standing,set,least,code,bounds⟩ := suspended
  obtain ⟨caller,kept,walks⟩ := walk_level standing (by rw [same_entry]; exact stub)
  rw [same_entry] at kept
  have further := walk_nested apart nested kept
  rw [← same_wrapper] at further
  have walked := walks further
  have positive := ready.positive
  have real : l.anchored.last_Java_pc ≠ 0 := by
    intro none
    rw [none,code_null] at code
    cases code
  refine ⟨⟨l.anchored.last_Java_sp,l.anchored.last_Java_pc⟩,?_,?_⟩
  · unfold pd_last_frame
    rw [← same_thread,set]
    dsimp only
    rw [if_neg (by omega),if_pos real]
    exact frame_found _ (.inr code)
  · have count : (List.flatMap Level.seen (l :: levels)).length = l.seen.length - 1 + ((List.flatMap Level.seen levels).length + 1) := by
      have some := seen_length l
      rw [List.flatMap_cons,List.length_append]
      omega
    rw [count,List.flatMap_cons]
    exact walked

-- Wherever a thread has set its anchor, the walk visits every activation of every
-- entry, the innermost first, and the stub's frames between them with their wrappers.
theorem stack_walk (apart : Apart) (nested : Nested low high thread e wrapper levels) (anchored : Anchored e wrapper l m) :
    ∃ f, pd_last_frame m thread = some f ∧
      walk m ((l :: levels).flatMap Level.seen).length f = some ((l :: levels).flatMap Level.seen) := by
  obtain ⟨ready,_⟩ := nested_ready apart nested
  exact suspended_walk apart nested (anchored_suspended apart ready anchored)
end

@[reducible] def Frames.plain : Frames := {StubGenerator.Runtime.plain with
  code_contains := fun pc => decide (16 ≤ pc ∧ pc < 64)
  native_call := 32
  original_pc := fun _ _ _ => none
  wrapper_last_Java_sp_offset := 0
  wrapper_last_Java_pc_offset := 8
  code_sites := by intro s; cases s <;> rfl
  code_native := rfl
  code_null := rfl
  code_stub := rfl
  recursive_apart := by decide
  stub_apart := by decide
  original_interpreted := fun _ _ _ _ => rfl
  original_stub := fun _ _ => rfl}

-- A first entry, and from its interpreter another. Wrappers are above the frames
-- of the stub's callers.
def stub_arguments (sp wrapper : Int) (m : Machine) : Machine := {StubGenerator.stub_caller with
  gpr := fun r => if r = r1 then sp else if r = r3 then wrapper else StubGenerator.stub_caller.gpr r
  mem := m.mem}

def first_caller : Machine := stub_arguments 0x2000 0x2300 StubGenerator.stub_caller
def first_stub_entry : Entry := stub_entry first_caller (wrapper_words first_caller) 16 0x3000
def first_anchored : Machine := call_interpreter (start first_stub_entry.machine)
def first_level : Level := ⟨first_stub_entry,0x2300,(entered first_stub_entry).activations,(start first_stub_entry.machine).gpr r1,none⟩

def second_caller : Machine :=
  let m := stub_arguments 0x1000 0x1200 first_anchored
  (m.write 0x1200 (anchor 0x8000 first_anchored).last_Java_sp).write 0x1208 (anchor 0x8000 first_anchored).last_Java_pc
def second_stub_entry : Entry := stub_entry second_caller (wrapper_words second_caller ++ first_level.words) 16 0x3000

omit [Frames] in
theorem first_called : letI := Frames.plain
    Called first_caller (wrapper_words first_caller) 16 0x3000 :=
  letI := Frames.plain
  ⟨by decide,by decide,by decide,by decide,by decide,by decide,by rintro o (rfl|rfl) <;> decide⟩

omit [Frames] in
theorem first_nested : letI := Frames.plain
    Nested 16 0x3000 0x8000 first_stub_entry 0x2300 [] :=
  letI := Frames.plain
  .first first_called (by decide) (by decide)

set_option maxRecDepth 4000 in
omit [Frames] in
theorem anchored_entries : letI := Frames.plain
    Nested 16 0x3000 0x8000 second_stub_entry 0x1200 [first_level] := by
  let := Frames.plain
  have called' : Called second_caller (wrapper_words second_caller) 16 0x3000 :=
    ⟨by decide,by decide,by decide,by decide,by decide,by decide,by rintro o (rfl|rfl) <;> decide⟩
  have run : Steps first_stub_entry (entered first_stub_entry)
    ⟨(entered first_stub_entry).activations,.call_interpreter (start first_stub_entry.machine)⟩ := .refl
  have anchored : Anchored first_stub_entry 0x2300 first_level first_anchored := .interpreter run (by decide)
  exact .again first_nested anchored called' (by decide) (by decide) (by decide) (by decide)

def second_level : Level := ⟨second_stub_entry,0x1200,(entered second_stub_entry).activations,(start second_stub_entry.machine).gpr r1,none⟩

set_option maxRecDepth 4000 in
omit [Frames] in
theorem stack_walk_nested : letI := Frames.plain
    ∃ f, pd_last_frame (call_interpreter (start second_stub_entry.machine)) 0x8000 = some f ∧
      walk (call_interpreter (start second_stub_entry.machine)) 4 f = some (second_level.seen ++ first_level.seen) := by
  let := Frames.plain
  have run : Steps second_stub_entry (entered second_stub_entry)
    ⟨(entered second_stub_entry).activations,.call_interpreter (start second_stub_entry.machine)⟩ := .refl
  have anchored : Anchored second_stub_entry 0x1200 second_level (call_interpreter (start second_stub_entry.machine)) :=
    .interpreter run (by decide)
  obtain ⟨f,last,walked⟩ := stack_walk (.inl (by decide)) anchored_entries anchored
  have size : ([second_level,first_level].flatMap Level.seen).length = 4 := by decide
  rw [size,List.flatMap_cons,List.flatMap_cons,List.flatMap_nil,List.append_nil] at walked
  exact ⟨f,last,walked⟩
end IcedTea.StackWalk

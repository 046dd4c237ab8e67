import IcedTea.LockObject
import IcedTea.StackWalk

namespace IcedTea.NativeMethod
open StackFrame (lr_save_offset)
open CppInterpreter FrameAnchor Vm Code Activation StackWalk StackWalk.Frames LockObject.Layout Relation
open LockObject (lock_object unlock_object obj_addr mark_addr displaced_header_addr)

-- The code that the native entry calls.
inductive Callee where
  | prepare_native_call | signature_handler | native_function | check_special_condition_for_native_trans | result_handler
  deriving DecidableEq, Repr

-- Numbers and addresses that are in the native entry's code; `serialize_page_mask`
-- is vm_page_size - sizeof(int).
class NativeCode extends Frames, LockObject.Layout where
  site_after : Callee → Int
  call_VM_site : Int
  prepare_native_call : Int
  check_special_condition_for_native_trans : Int
  thread_in_native : Int
  thread_in_native_trans : Int
  thread_in_Java : Int
  address_of_state : Int
  not_synchronized : Int
  result_handler_T_OBJECT : Int
  is_MP : Bool
  UseMembar : Bool
  serialize_page_shift_count : Nat
  serialize_page_mask : Nat
  memory_serialize_page : Int

variable [NativeCode]
open NativeCode hiding mark_offset_in_bytes displaced_inside displaced_apart

def signature_handler_addr : Address := ⟨Rmethod,signature_handler_offset⟩
def native_function_addr : Address := ⟨Rmethod,native_function_offset⟩
def thread_state_addr : Address := ⟨Rthread,thread_state_offset⟩
def pending_exception_addr : Address := ⟨Rthread,pending_exception_offset⟩

-- MacroAssembler::call up to its bctrl, and after it. On the large processor a
-- function is its descriptor.
def call_code (func : Register) : List Instr :=
  match Target.cpu with
  | .ppc32 => [.mtctr func]
  | .ppc64 => [.store r2 ⟨r1,40⟩,.load r2 ⟨func,8⟩,.load r0 ⟨func,0⟩,.mtctr r0]
def call_address_code (func : Int) : List Instr :=
  match Target.cpu with
  | .ppc32 => .loadImm r0 func :: call_code r0
  | .ppc64 => .loadImm r12 func :: call_code r12
def call_return : List Instr := match Target.cpu with | .ppc32 => [] | .ppc64 => [.load r2 ⟨r1,40⟩]

def calls (callee : Callee) (code : List Instr) (m : Machine) : Machine := {exec code m with lr := site_after callee}

-- Where control is: at the entry, at a call or a label, and gone with blr.
inductive At where
  | entry | calling (callee : Callee) | got_signature_handler | no_block | return_to_caller | returned
  deriving DecidableEq, Repr

structure Point where
  at_ : At
  machine : Machine

def lock_if_necessary (failures : Nat) (m : Machine) : Option Machine :=
  if (m.cr CRsync).eq then lock_object Rmonitor failures m else some m
def unlock_if_necessary (failures : Nat) (m : Machine) : Option Machine :=
  if (m.cr CRsync).eq then unlock_object Rmonitor failures m else some m

def get_signature_handler : List Instr := [.load r14 signature_handler_addr,.compareImm cr0 r14 0]

-- call_VM with the method as its argument and without exception checks.
def call_prepare : List Instr :=
  [.mr r4 Rmethod] ++ set_last_Java_frame call_VM_site ++ [.mr r3 Rthread] ++ call_address_code prepare_native_call

def after_lock (m : Machine) : Point :=
  let m := exec get_signature_handler m
  if (m.cr cr0).eq then ⟨.calling .prepare_native_call,calls .prepare_native_call call_prepare m⟩ else ⟨.got_signature_handler,m⟩

def after_prepare (m : Machine) : Point :=
  let m := exec (call_return ++ reset_last_Java_frame ++ fixup_after_potential_safepoint ++
    [.load r0 pending_exception_addr,.compareImm cr0 r0 0]) m
  if (m.cr cr0).eq then ⟨.got_signature_handler,exec [.load r14 signature_handler_addr] m⟩ else ⟨.return_to_caller,m⟩

def call_handler : List Instr := [.load r15 native_function_addr,.mtctr r14]

def pass_mirror : List Instr := get_mirror_handle r4 ++ [.store r4 (STATE .oop_temp),.la r4 (STATE .oop_temp)]
def enter_native : List Instr := set_last_Java_frame native_call ++ [.loadImm r0 thread_in_native,.stw r0 thread_state_addr]

def pass_environment (m : Machine) : Machine :=
  if_eq CRstatic pass_mirror (exec [.mr r14 r0,.la r3 ⟨Rthread,jni_environment_offset⟩] m)

def after_handler (m : Machine) : Point :=
  ⟨.calling .native_function,calls .native_function (call_code r15) (exec enter_native (pass_environment m))⟩

def save_result : List Instr :=
  [.mr r16 r3] ++ (match Target.cpu with | .ppc32 => [.mr r17 r4] | .ppc64 => []) ++ [.fmr f14 f1]
def serialize_memory (tmp1 tmp2 : Register) : List Instr :=
  [.shift_right tmp1 Rthread serialize_page_shift_count,.andi_ tmp1 tmp1 serialize_page_mask,.loadImm tmp2 memory_serialize_page,
   .stwx tmp1 tmp2 tmp1]
-- With UseMembar there is a sync, which changes nothing of the thread's own.
def membar : List Instr := if is_MP && !UseMembar then serialize_memory r3 r4 else []
def leave_native : List Instr :=
  call_return ++ fixup_after_potential_safepoint ++ save_result ++ [.loadImm r0 thread_in_native_trans,.stw r0 thread_state_addr] ++
    membar ++ [.loadImm r3 address_of_state,.lwz r0 ⟨r3,0⟩,.compareImm cr0 r0 not_synchronized]
def test_suspend : List Instr := [.lwz r0 ⟨Rthread,suspend_flags_offset⟩,.compareImm cr0 r0 0]
def call_check : List Instr := [.mr r3 Rthread] ++ call_address_code check_special_condition_for_native_trans

def block (m : Machine) : Point :=
  ⟨.calling .check_special_condition_for_native_trans,calls .check_special_condition_for_native_trans call_check m⟩

def after_native (m : Machine) : Point :=
  let m := exec leave_native m
  if (m.cr cr0).eq then
    let m := exec test_suspend m
    if (m.cr cr0).eq then ⟨.no_block,m⟩ else block m
  else block m

def after_check : List Instr := call_return ++ fixup_after_potential_safepoint

-- An object is taken out of its handle and put in the frame.
def unbox (m : Machine) : Machine :=
  let m := exec [.loadImm r0 result_handler_T_OBJECT,.compare cr0 r0 r14] m
  if (m.cr cr0).eq then
    let m := exec [.compareImm cr0 r16 0] m
    let m := if (m.cr cr0).eq then m else exec [.load r16 ⟨r16,0⟩] m
    exec [.store r16 (STATE .oop_temp)] m
  else m

def enter_Java (m : Machine) : Machine :=
  unbox (exec ([.loadImm r0 thread_in_Java,.stw r0 thread_state_addr] ++ reset_last_Java_frame) m)
def reset_handle_block : List Instr :=
  [.load r3 ⟨Rthread,active_handles_offset⟩,.loadImm r0 0,.stw r0 ⟨r3,handle_block_top_offset⟩]
def test_exception : List Instr := [.load r0 pending_exception_addr,.compareImm cr0 r0 0]
def after_transition (m : Machine) : Machine := exec (reset_handle_block ++ test_exception) (enter_Java m)

def restore_result : List Instr :=
  [.mr r3 r16] ++ (match Target.cpu with | .ppc32 => [.mr r4 r17] | .ppc64 => []) ++ [.fmr f1 f14,.mtctr r14]

-- What the ABI asks of a function that is called, of the registers that the entry
-- uses afterwards; `words` are kept by everybody below.
structure CCall (words : List Int) (m m' : Machine) : Prop where
  registers : ∀ r : Nat, r = r1 ∨ 14 ≤ r ∧ r < 32 → m'.gpr r = m.gpr r
  fields : ∀ c, c = CRsync ∨ c = CRstatic → m'.cr c = m.cr c
  back_chain : m'.read (m.gpr r1) = m.read (m.gpr r1)
  words : ∀ w ∈ words, m'.read w = m.read w

-- A signature handler may extend the frame for the arguments on the stack. The slow
-- one has r14 for itself and reloads the method after its call into the VM.
structure HandlerCall (low : Int) (words : List Int) (m m' : Machine) : Prop where
  room : low ≤ m'.gpr r1
  lower : m'.gpr r1 ≤ m.gpr r1
  back_chain : m'.read (m'.gpr r1) = m.read (m.gpr r1)
  registers : ∀ r : Nat, 15 ≤ r → r < 32 → r ≠ Rmethod → m'.gpr r = m.gpr r
  fields : ∀ c, c = CRsync ∨ c = CRstatic → m'.cr c = m.cr c
  words : ∀ w ∈ words, m'.read w = m.read w

def OffStack (e : Entry) (a size : Int) : Prop := a + size ≤ e.low ∨ e.high ≤ a

-- The words of a native method's frame and of those above it that have to be kept.
def native_words (callers : List Int) (n : Machine) : List Int := (n.gpr Rstate + state_offset .prev_link) :: callers

-- Steps of the native entry, from a machine `m₀` at its start. Objects and handle
-- blocks are not on the stack; a lock that is not taken at once is unimplemented.
inductive Step (e : Entry) (callers : List Int) (m₀ : Machine) : Point → Point → Prop where
  | build {m : Machine} {failures : Nat} (room : e.low ≤ (native_frame m₀).gpr r1)
      (object : ((native_frame m₀).cr CRsync).eq → OffStack e (mark_addr ((native_frame m₀).read (obj_addr ((native_frame m₀).gpr Rmonitor)))) wordSize)
      (locked : lock_if_necessary failures (native_frame m₀) = some m) : Step e callers m₀ ⟨.entry,m₀⟩ (after_lock m)
  | prepared {m m' : Machine} (ran : CCall (native_words callers (native_frame m₀)) m m') :
      Step e callers m₀ ⟨.calling .prepare_native_call,m⟩ (after_prepare m')
  | got_signature_handler {m : Machine} :
      Step e callers m₀ ⟨.got_signature_handler,m⟩ ⟨.calling .signature_handler,calls .signature_handler call_handler m⟩
  | handled {m m' : Machine} (ran : HandlerCall e.low (native_words callers (native_frame m₀)) m m') :
      Step e callers m₀ ⟨.calling .signature_handler,m⟩ (after_handler m')
  | native_returned {m m' : Machine} (ran : CCall (native_words callers (native_frame m₀)) m m') :
      Step e callers m₀ ⟨.calling .native_function,m⟩ (after_native m')
  | checked {m m' : Machine} (ran : CCall (native_words callers (native_frame m₀)) m m') :
      Step e callers m₀ ⟨.calling .check_special_condition_for_native_trans,m⟩ ⟨.no_block,exec after_check m'⟩
  | exception {m : Machine}
      (handles : OffStack e ((enter_Java m).read ((enter_Java m).gpr Rthread + active_handles_offset) + handle_block_top_offset) 4)
      (pending : ¬ ((after_transition m).cr cr0).eq) : Step e callers m₀ ⟨.no_block,m⟩ ⟨.return_to_caller,after_transition m⟩
  | unlocked {m m' : Machine} {failures : Nat}
      (handles : OffStack e ((enter_Java m).read ((enter_Java m).gpr Rthread + active_handles_offset) + handle_block_top_offset) 4)
      (none : ((after_transition m).cr cr0).eq)
      (object : ((after_transition m).cr CRsync).eq → OffStack e (mark_addr ((after_transition m).read (obj_addr ((after_transition m).gpr Rmonitor)))) wordSize)
      (unlocked : unlock_if_necessary failures (after_transition m) = some m') :
      Step e callers m₀ ⟨.no_block,m⟩ ⟨.calling .result_handler,calls .result_handler restore_result m'⟩
  | result_handled {m m' : Machine} (ran : CCall (native_words callers (native_frame m₀)) m m') :
      Step e callers m₀ ⟨.calling .result_handler,m⟩ ⟨.return_to_caller,m'⟩
  | unwind {m : Machine} : Step e callers m₀ ⟨.return_to_caller,m⟩ ⟨.returned,exec unwind_interpreter_state m⟩

abbrev Steps (e : Entry) (callers : List Int) (m₀ : Machine) : Point → Point → Prop := ReflTransGen (Step e callers m₀)

-- What holds at every point between the frame and its unwinding.
structure Inside (e : Entry) (callers : List Int) (n m : Machine) : Prop where
  room : e.low ≤ m.gpr r1
  lower : m.gpr r1 ≤ n.gpr r1
  back_chain : m.read (m.gpr r1) = n.read (n.gpr r1)
  registers : ∀ r : Nat, r = Rmonitor ∨ r = Rstate ∨ r = Rlocals ∨ r = Rthread → m.gpr r = n.gpr r
  fields : ∀ c, c = CRsync ∨ c = CRstatic → m.cr c = n.cr c
  words : ∀ w ∈ native_words callers n, m.read w = n.read w

-- What the frame is like, and what else is not on the stack.
structure Built (e : Entry) (callers : List Int) (n : Machine) : Prop where
  room : n.gpr r1 + frame_header ≤ n.gpr Rmonitor
  monitor : n.gpr Rmonitor ≤ n.gpr Rstate
  record : (n.cr CRsync).eq → n.gpr Rmonitor + monitor_size ≤ n.gpr Rstate
  callers : ∀ w ∈ callers, n.gpr Rstate + sizeof_BytecodeInterpreter ≤ w ∧ w + wordSize ≤ e.high
  ends : n.gpr Rstate + sizeof_BytecodeInterpreter ≤ e.high
  anchor : ∀ o, o = last_Java_sp_offset ∨ o = last_Java_pc_offset → OffStack e (n.gpr Rthread + o) wordSize
  thread_state : OffStack e (n.gpr Rthread + thread_state_offset) 4
  page : ∀ i : Int, 0 ≤ i → i ≤ serialize_page_mask → OffStack e (memory_serialize_page + i) 4

def Harmless (callers : List Int) (n m : Machine) (s : Int × Int) : Prop :=
  ∀ w ∈ m.gpr r1 :: native_words callers n, w + wordSize ≤ s.1 ∨ s.1 + s.2 ≤ w

variable {e : Entry} {callers : List Int} {n m m' : Machine}

theorem words_range (built : Built e callers n) {w : Int} (member : w ∈ m.gpr r1 :: native_words callers n) :
    w = m.gpr r1 ∨ w = n.gpr Rstate + state_offset .prev_link ∨ n.gpr Rstate + sizeof_BytecodeInterpreter ≤ w ∧ w + wordSize ≤ e.high := by
  simp only [native_words,List.mem_cons] at member
  rcases member with rfl|rfl|above
  · exact .inl rfl
  · exact .inr (.inl rfl)
  · exact .inr (.inr (built.callers w above))

theorem off_stack_harmless (built : Built e callers n) (inside : Inside e callers n m) {a size : Int} (off : OffStack e a size) :
    Harmless callers n m (a,size) := by
  intro w member
  have room := inside.room
  have lower := inside.lower
  have frame := built.room
  have monitor := built.monitor
  have ends := built.ends
  have prev := state_inside .prev_link
  have bytes : StateField.bytes .prev_link = wordSize := rfl
  have pos := wordSize_pos
  have header := lr_save_inside
  have second := lr_save_above
  unfold OffStack at off
  rcases words_range built member with rfl|rfl|above
  · change _ ≤ a ∨ a + size ≤ _
    omega
  · change _ ≤ a ∨ a + size ≤ _
    omega
  · change _ ≤ a ∨ a + size ≤ _
    omega

-- The frame below its state object.
theorem below_state_harmless (built : Built e callers n) {a size : Int} (low : m.gpr r1 + wordSize ≤ a)
    (high : a + size ≤ n.gpr Rstate) : Harmless callers n m (a,size) := by
  intro w member
  have prev := state_inside .prev_link
  have object := sizeof_large
  have pos := wordSize_pos
  rcases words_range built member with rfl|rfl|above
  · exact .inl low
  · exact .inr (by change a + size ≤ _; omega)
  · exact .inr (by change a + size ≤ _; omega)

theorem field_harmless (built : Built e callers n) (inside : Inside e callers n m) (f : StateField) (word : f ≠ .msg) (other : f ≠ .prev_link) :
    Harmless callers n m (m.gpr Rstate + state_offset f,wordSize) := by
  intro w member
  have same := inside.registers Rstate (by simp)
  have room := built.room
  have monitor := built.monitor
  have lower := inside.lower
  have field := state_inside f
  have size : f.bytes = wordSize := if_neg word
  have apart := state_apart f .prev_link other
  have bytes : StateField.bytes .prev_link = wordSize := rfl
  have pos := wordSize_pos
  have header := lr_save_inside
  have second := lr_save_above
  rw [same]
  rcases words_range built member with rfl|rfl|above
  · exact .inl (by change _ ≤ n.gpr Rstate + _; omega)
  · change _ ≤ n.gpr Rstate + _ ∨ n.gpr Rstate + _ + wordSize ≤ _
    omega
  · exact .inr (by change n.gpr Rstate + _ + wordSize ≤ _; omega)

def kept_places : List Place := [.gpr r1,.gpr Rmonitor,.gpr Rstate,.gpr Rlocals,.gpr Rthread,.cr CRsync,.cr CRstatic]

-- What leaves those registers alone and stores only where it does no harm.
theorem stored_inside (inside : Inside e callers n m) {places : List Place} (kept : Keeps places m m') (free : ∀ p ∈ kept_places, p ∉ places)
    (ranges : List Range) (mem : ∀ b, (∀ s ∈ ranges, b < s.1 ∨ s.1 + s.2 ≤ b) → m'.mem b = m.mem b)
    (harmless : ∀ s ∈ ranges, Harmless callers n m s) : Inside e callers n m' := by
  have words : ∀ w ∈ m.gpr r1 :: native_words callers n, m'.read w = m.read w := fun w member =>
    Cells.word_congr fun b low high => mem b fun s stored => by
      have apart := harmless s stored w member
      change b < _ + wordSize at high
      omega
  have top : m'.gpr r1 = m.gpr r1 := kept.gpr r1 (free _ (by simp [kept_places]))
  refine ⟨?_,?_,?_,fun r register => ?_,fun c field => ?_,fun w member => ?_⟩
  · rw [top]
    exact inside.room
  · rw [top]
    exact inside.lower
  · rw [top,words _ List.mem_cons_self]
    exact inside.back_chain
  · rw [← inside.registers r register]
    exact kept.gpr r (free _ (by rcases register with rfl|rfl|rfl|rfl <;> simp [kept_places]))
  · rw [← inside.fields c field]
    exact kept.cr c (free _ (by rcases field with rfl|rfl <;> simp [kept_places]))
  · rw [words w (List.mem_cons_of_mem _ member)]
    exact inside.words w member

theorem code_inside (inside : Inside e callers n m) (code : List Instr) (free : ∀ p ∈ kept_places, p ∉ written code)
    (harmless : ∀ s ∈ stores code m, Harmless callers n m s) : Inside e callers n (exec code m) :=
  stored_inside inside (exec_keeps code m) free _ (fun _ outside => exec_outside code m outside) harmless

theorem quiet_inside (inside : Inside e callers n m) (code : List Instr) (free : ∀ p ∈ kept_places, p ∉ written code)
    (quiet : stores code m = []) : Inside e callers n (exec code m) :=
  code_inside inside code free fun s stored => by
    rw [quiet] at stored
    cases stored

theorem call_inside (inside : Inside e callers n m) (ran : CCall (native_words callers n) m m') : Inside e callers n m' := by
  have top : m'.gpr r1 = m.gpr r1 := ran.registers r1 (.inl rfl)
  refine ⟨?_,?_,?_,fun r register => ?_,fun c field => ?_,fun w member => ?_⟩
  · rw [top]
    exact inside.room
  · rw [top]
    exact inside.lower
  · rw [top,ran.back_chain]
    exact inside.back_chain
  · rw [← inside.registers r register]
    exact ran.registers r (.inr (by rcases register with rfl|rfl|rfl|rfl <;> decide))
  · rw [← inside.fields c field]
    exact ran.fields c field
  · rw [ran.words w member]
    exact inside.words w member

theorem handler_inside (inside : Inside e callers n m) (ran : HandlerCall e.low (native_words callers n) m m') : Inside e callers n m' := by
  refine ⟨ran.room,Int.le_trans ran.lower inside.lower,ran.back_chain.trans inside.back_chain,fun r register => ?_,fun c field => ?_,
    fun w member => ?_⟩
  · rw [← inside.registers r register]
    rcases register with rfl|rfl|rfl|rfl <;> exact ran.registers _ (by decide) (by decide) (by decide)
  · rw [← inside.fields c field]
    exact ran.fields c field
  · rw [ran.words w member]
    exact inside.words w member

theorem cmpxchg_keeps (exchange dst comp : Register) (failures : Nat) (m : Machine) :
    Keeps [.gpr r0,.cr cr0] m (LockObject.cmpxchg_ exchange dst comp failures m) := by
  have compared : ∀ m, Keeps [.gpr r0,.cr cr0] m (exec [.load r0 ⟨dst,0⟩,.compare cr0 r0 comp] m) := fun m =>
    (exec_keeps _ m).mono (by simp [written,Instr.written])
  have stored : ∀ fails m, Keeps [.gpr r0,.cr cr0] m (LockObject.store_conditional_indexed fails exchange dst m) := fun fails m => by
    intro p free
    unfold LockObject.store_conditional_indexed
    split <;> cases p <;> simp_all [Place.Same]
  induction failures generalizing m with
  | zero =>
    unfold LockObject.cmpxchg_
    dsimp only
    split
    · exact ((compared m).trans (stored false _)).mono (by simp)
    · exact compared m
  | succ failures ih =>
    unfold LockObject.cmpxchg_
    dsimp only
    split
    · exact ((compared m).trans ((stored true _).trans (ih _))).mono (by simp)
    · exact compared m

theorem lock_object_kept {failures : Nat} (run : lock_object Rmonitor failures m = some m') :
    Keeps [.gpr r0,.gpr r3,.gpr r4,.gpr r5,.cr cr0] m m' ∧
      ∀ b, (b < displaced_header_addr (m.gpr Rmonitor) ∨ displaced_header_addr (m.gpr Rmonitor) + wordSize ≤ b) →
        (b < mark_addr (m.read (obj_addr (m.gpr Rmonitor))) ∨ mark_addr (m.read (obj_addr (m.gpr Rmonitor))) + wordSize ≤ b) →
          m'.mem b = m.mem b := by
  unfold lock_object at run
  simp only at run
  split at run
  case isFalse => cases run
  case isTrue =>
    cases run
    let displace : List Instr :=
      [.load r3 ⟨Rmonitor,obj_offset_in_bytes⟩,
       .la r4 ⟨r3,mark_offset_in_bytes⟩,
       .load r5 ⟨r4,0⟩,
       .ori r5 r5 NativeEntry.unlocked_value,
       .store r5 ⟨Rmonitor,lock_offset_in_bytes + displaced_header_offset_in_bytes⟩]
    have at_mark : (exec displace m).gpr r4 = mark_addr (m.read (obj_addr (m.gpr Rmonitor))) := by
      simp [displace,step,mark_addr,obj_addr]
    refine ⟨((exec_keeps displace m).trans (cmpxchg_keeps _ _ _ _ _)).mono (by simp [displace,written,Instr.written]),
      fun b header mark => ?_⟩
    rw [← at_mark] at mark
    refine (LockObject.cmpxchg_outside Rmonitor r4 r5 failures (exec displace m) (by decide) b mark).trans (exec_outside displace m ?_)
    intro s stored
    obtain rfl : s = (displaced_header_addr (m.gpr Rmonitor),wordSize) := by
      simpa [displace,stores,Instr.stores,Machine.ea,step,displaced_header_addr] using stored
    exact header

theorem unlock_object_kept {failures : Nat} (run : unlock_object Rmonitor failures m = some m') :
    Keeps [.gpr r0,.gpr r3,.gpr r4,.gpr r5,.gpr r6,.cr cr0] m m' := by
  unfold unlock_object at run
  simp only at run
  split at run
  case isTrue => cases run
  case isFalse =>
    have looked := ((exec_keeps [.load r3 ⟨Rmonitor,obj_offset_in_bytes⟩,.la r4 ⟨r3,mark_offset_in_bytes⟩,.compareImm cr0 r3 0] m).trans
      (exec_keeps [.la r5 ⟨Rmonitor,lock_offset_in_bytes⟩,.load r6 ⟨r5,displaced_header_offset_in_bytes⟩,.loadImm r0 0,
        .load r0 ⟨Rmonitor,obj_offset_in_bytes⟩,.compareImm cr0 r6 0] _))
    split at run
    case isTrue => cases run; exact looked.mono (by simp [written,Instr.written])
    case isFalse =>
      split at run
      case isFalse => cases run
      case isTrue => cases run; exact (looked.trans (cmpxchg_keeps _ _ _ _ _)).mono (by simp [written,Instr.written])

-- A call saves r2 in the caller's link area, if anything.
theorem call_code_free (func : Register) : ∀ p ∈ kept_places, p ∉ written (call_code func) := by
  unfold call_code
  cases Target.cpu <;> simp [kept_places,written,Instr.written]

theorem call_code_stores (func : Register) (s : Range) (stored : s ∈ stores (call_code func) m) :
    m.gpr r1 + wordSize ≤ s.1 ∧ s.1 + s.2 ≤ m.gpr r1 + frame_header := by
  unfold call_code at stored
  cases cpu : Target.cpu with
  | ppc32 => rw [cpu] at stored; cases stored
  | ppc64 =>
    obtain rfl : s = (m.gpr r1 + 40,wordSize) := by simpa [cpu,stores,Instr.stores,Machine.ea] using stored
    have size := wordSize_ppc64 cpu
    have header : frame_header = (14 : Int)*8 := by rw [frame_header_eq,size]; simp [StackFrame.link_area_words,StackFrame.min_params,cpu]
    constructor <;> dsimp only <;> omega

section
variable (built : Built e callers n)
include built

theorem call_code_inside (inside : Inside e callers n m) (func : Register) : Inside e callers n (exec (call_code func) m) := by
  refine code_inside inside _ (call_code_free func) fun s stored => ?_
  obtain ⟨above,below⟩ := call_code_stores func s stored
  have room := built.room
  have monitor := built.monitor
  have lower := inside.lower
  exact below_state_harmless built above (by omega)

theorem call_address_inside (inside : Inside e callers n m) (func : Int) : Inside e callers n (exec (call_address_code func) m) := by
  unfold call_address_code
  cases Target.cpu with
  | ppc32 =>
    rw [exec_cons]
    exact call_code_inside built (quiet_inside inside [.loadImm r0 func] (by simp [kept_places,written,Instr.written]) rfl) r0
  | ppc64 =>
    rw [exec_cons]
    exact call_code_inside built (quiet_inside inside [.loadImm r12 func] (by simp [kept_places,written,Instr.written]) rfl) r12

theorem anchor_harmless (inside : Inside e callers n m) {o : Int} (anchor : o = last_Java_sp_offset ∨ o = last_Java_pc_offset) :
    Harmless callers n m (m.gpr Rthread + o,wordSize) := by
  rw [inside.registers Rthread (by simp)]
  exact off_stack_harmless built inside (built.anchor o anchor)

theorem set_last_Java_frame_inside (inside : Inside e callers n m) (pc : Int) : Inside e callers n (exec (set_last_Java_frame pc) m) := by
  refine code_inside inside _ (by simp [kept_places,written,Instr.written,set_last_Java_frame]) fun s stored => ?_
  have either : s = (m.gpr Rthread + last_Java_pc_offset,wordSize) ∨ s = (m.gpr Rthread + last_Java_sp_offset,wordSize) := by
    simpa [set_last_Java_frame,stores,Instr.stores,Machine.ea,step] using stored
  rcases either with rfl|rfl
  · exact anchor_harmless built inside (.inr rfl)
  · exact anchor_harmless built inside (.inl rfl)

theorem reset_last_Java_frame_inside (inside : Inside e callers n m) : Inside e callers n (exec reset_last_Java_frame m) := by
  refine code_inside inside _ (by simp [kept_places,written,Instr.written,reset_last_Java_frame]) fun s stored => ?_
  obtain rfl : s = (m.gpr Rthread + last_Java_sp_offset,wordSize) := by
    simpa [reset_last_Java_frame,stores,Instr.stores,Machine.ea,step] using stored
  exact anchor_harmless built inside (.inl rfl)

theorem thread_state_inside (inside : Inside e callers n m) (v : Int) :
    Inside e callers n (exec [.loadImm r0 v,.stw r0 thread_state_addr] m) := by
  refine code_inside inside _ (by simp [kept_places,written,Instr.written]) fun s stored => ?_
  obtain rfl : s = (m.gpr Rthread + thread_state_offset,4) := by
    simpa [thread_state_addr,stores,Instr.stores,Machine.ea,step] using stored
  rw [inside.registers Rthread (by simp)]
  exact off_stack_harmless built inside built.thread_state

theorem lock_inside (inside : Inside e callers n m) {failures : Nat}
    (object : (m.cr CRsync).eq → OffStack e (mark_addr (m.read (obj_addr (m.gpr Rmonitor)))) wordSize) (locked : lock_if_necessary failures m = some m') :
    Inside e callers n m' := by
  unfold lock_if_necessary at locked
  split at locked
  case isTrue sync =>
    obtain ⟨kept,mem⟩ := lock_object_kept locked
    refine stored_inside inside kept (by simp [kept_places])
      [(displaced_header_addr (m.gpr Rmonitor),wordSize),(mark_addr (m.read (obj_addr (m.gpr Rmonitor))),wordSize)]
      (fun b outside => mem b (outside _ List.mem_cons_self) (outside _ (List.mem_cons_of_mem _ List.mem_cons_self))) ?_
    simp only [List.mem_cons,List.not_mem_nil,or_false]
    rintro s (rfl|rfl)
    · have record := built.record (by rw [← inside.fields CRsync (by simp)]; exact sync)
      have room := built.room
      have lower := inside.lower
      have place := displaced_inside
      have second := lr_save_above
      have header := lr_save_inside
      have pos := wordSize_pos
      have same := inside.registers Rmonitor (by simp)
      have size : monitor_size = interpreter_frame_monitor_size * wordSize := rfl
      unfold displaced_header_addr
      rw [same]
      exact below_state_harmless built (by omega) (by omega)
    · exact off_stack_harmless built inside (object sync)
  case isFalse => cases locked; exact inside

theorem unlock_inside (inside : Inside e callers n m) {failures : Nat}
    (object : (m.cr CRsync).eq → OffStack e (mark_addr (m.read (obj_addr (m.gpr Rmonitor)))) wordSize) (unlocked : unlock_if_necessary failures m = some m') :
    Inside e callers n m' := by
  unfold unlock_if_necessary at unlocked
  split at unlocked
  case isTrue sync =>
    refine stored_inside inside (unlock_object_kept unlocked) (by simp [kept_places])
      [(mark_addr (m.read (obj_addr (m.gpr Rmonitor))),wordSize)]
      (fun b outside => LockObject.unlock_object_outside unlocked b (outside _ List.mem_cons_self)) ?_
    simp only [List.mem_cons,List.not_mem_nil,or_false]
    rintro s rfl
    exact off_stack_harmless built inside (object sync)
  case isFalse => cases unlocked; exact inside

theorem pass_environment_inside (inside : Inside e callers n m) : Inside e callers n (pass_environment m) := by
  have passed := quiet_inside inside [.mr r14 r0,.la r3 ⟨Rthread,jni_environment_offset⟩] (by simp [kept_places,written,Instr.written]) rfl
  unfold pass_environment if_eq
  split
  · refine code_inside passed _ (by simp [kept_places,pass_mirror,get_mirror_handle,written,Instr.written]) fun s stored => ?_
    generalize exec [.mr r14 r0,.la r3 ⟨Rthread,jni_environment_offset⟩] m = m at passed stored
    obtain rfl : s = (m.gpr Rstate + state_offset .oop_temp,wordSize) := by
      simpa [pass_mirror,get_mirror_handle,STATE,stores,Instr.stores,Machine.ea,step] using stored
    exact field_harmless built passed .oop_temp (by decide) (by decide)
  · exact passed

theorem membar_inside (inside : Inside e callers n m) : Inside e callers n (exec membar m) := by
  unfold membar
  split
  · refine code_inside inside _ (by simp [kept_places,serialize_memory,written,Instr.written]) fun s stored => ?_
    obtain ⟨i,low,high,rfl⟩ : ∃ i, 0 ≤ i ∧ i ≤ (serialize_page_mask : Int) ∧ s = (memory_serialize_page + i,4) := by
      refine ⟨andImmediate (m.gpr Rthread / 2^serialize_page_shift_count) serialize_page_mask,Int.natCast_nonneg _,
        Int.ofNat_le.mpr Nat.and_le_right,?_⟩
      simpa [serialize_memory,stores,Instr.stores,step] using stored
    exact off_stack_harmless built inside (built.page i low high)
  · exact inside

theorem enter_Java_inside (inside : Inside e callers n m) : Inside e callers n (enter_Java m) := by
  have entered := reset_last_Java_frame_inside built (thread_state_inside built inside thread_in_Java)
  unfold enter_Java unbox
  rw [exec_append]
  generalize exec reset_last_Java_frame _ = m₁ at entered
  have tested := quiet_inside entered [.loadImm r0 result_handler_T_OBJECT,.compare cr0 r0 r14] (by simp [kept_places,written,Instr.written]) rfl
  generalize exec [.loadImm r0 result_handler_T_OBJECT,.compare cr0 r0 r14] m₁ = m₂ at tested
  dsimp only
  split
  · have null := quiet_inside tested [.compareImm cr0 r16 0] (by simp [kept_places,written,Instr.written]) rfl
    generalize exec [.compareImm cr0 r16 0] m₂ = m₃ at null
    have taken : Inside e callers n (if (m₃.cr cr0).eq then m₃ else exec [.load r16 ⟨r16,0⟩] m₃) := by
      split
      · exact null
      · exact quiet_inside null _ (by simp [kept_places,written,Instr.written]) rfl
    generalize (if (m₃.cr cr0).eq then m₃ else exec [.load r16 ⟨r16,0⟩] m₃) = m₄ at taken
    refine code_inside taken _ (by simp [kept_places,written,Instr.written]) fun s stored => ?_
    obtain rfl : s = (m₄.gpr Rstate + state_offset .oop_temp,wordSize) := by
      simpa [STATE,stores,Instr.stores,Machine.ea] using stored
    exact field_harmless built taken .oop_temp (by decide) (by decide)
  · exact tested

theorem after_transition_inside (inside : Inside e callers n m)
    (handles : OffStack e ((enter_Java m).read ((enter_Java m).gpr Rthread + active_handles_offset) + handle_block_top_offset) 4) :
    Inside e callers n (after_transition m) := by
  have entered := enter_Java_inside built inside
  unfold after_transition
  generalize enter_Java m = m₁ at entered handles
  refine code_inside entered _ (by simp [kept_places,reset_handle_block,test_exception,written,Instr.written]) fun s stored => ?_
  obtain rfl : s = (m₁.read (m₁.gpr Rthread + active_handles_offset) + handle_block_top_offset,4) := by
    simpa [reset_handle_block,test_exception,stores,Instr.stores,Machine.ea,step] using stored
  exact off_stack_harmless built entered handles

theorem leave_native_inside (inside : Inside e callers n m) : Inside e callers n (exec leave_native m) := by
  have returned : Inside e callers n (exec (call_return ++ fixup_after_potential_safepoint ++ save_result) m) := by
    unfold call_return save_result fixup_after_potential_safepoint
    cases Target.cpu <;> exact quiet_inside inside _ (by simp [kept_places,written,Instr.written]) rfl
  unfold leave_native
  rw [exec_append,exec_append,exec_append]
  exact quiet_inside (membar_inside built (thread_state_inside built returned _)) _ (by simp [kept_places,written,Instr.written]) rfl
end

-- Where control is between the frame and its unwinding.
inductive Holds (e : Entry) (callers : List Int) (m₀ : Machine) : Point → Prop where
  | entry : Holds e callers m₀ ⟨.entry,m₀⟩
  | within {m : Machine} {place : At} (between : place ∉ [.entry,.calling .native_function,.returned])
      (inside : Inside e callers (native_frame m₀) m) : Holds e callers m₀ ⟨place,m⟩
  | native_function {m : Machine} (inside : Inside e callers (native_frame m₀) m) : Holds e callers m₀ (after_handler m)
  | returned {m : Machine} (inside : Inside e callers (native_frame m₀) m) : Holds e callers m₀ ⟨.returned,exec unwind_interpreter_state m⟩

theorem native_called {m₀ : Machine} (holds : Holds e callers m₀ ⟨.calling .native_function,m⟩) :
    ∃ x, Inside e callers (native_frame m₀) x ∧ m = (after_handler x).machine := by
  generalize point : (⟨.calling .native_function,m⟩ : Point) = p at holds
  cases holds with
  | @native_function x inside => exact ⟨x,inside,congrArg Point.machine point⟩
  | within between _ => cases point; exact absurd (by simp) between
  | entry => cases point
  | returned _ => cases point

theorem returned_unwound {m₀ : Machine} (holds : Holds e callers m₀ ⟨.returned,m⟩) :
    ∃ x, Inside e callers (native_frame m₀) x ∧ m = exec unwind_interpreter_state x := by
  generalize point : (⟨.returned,m⟩ : Point) = p at holds
  cases holds with
  | @returned x inside => exact ⟨x,inside,congrArg Point.machine point⟩
  | within between _ => cases point; exact absurd (by simp) between
  | entry => cases point
  | native_function _ => cases point

theorem after_handler_inside (built : Built e callers n) (inside : Inside e callers n m) : Inside e callers n (after_handler m).machine := by
  have entered : Inside e callers n (exec enter_native (pass_environment m)) := by
    unfold enter_native
    rw [exec_append]
    exact thread_state_inside built (set_last_Java_frame_inside built (pass_environment_inside built inside) _) _
  have called := call_code_inside built entered r15
  exact ⟨called.room,called.lower,called.back_chain,called.registers,called.fields,called.words⟩

-- Every step keeps what is inside the frame.
theorem step_holds {m₀ : Machine} {p p' : Point} (built : Built e callers (native_frame m₀)) (stepped : Step e callers m₀ p p')
    (holds : Holds e callers m₀ p) : Holds e callers m₀ p' := by
  have lr_kept : ∀ {m : Machine} {a : Int}, Inside e callers (native_frame m₀) m → Inside e callers (native_frame m₀) {m with lr := a} :=
    fun inside => ⟨inside.room,inside.lower,inside.back_chain,inside.registers,inside.fields,inside.words⟩
  cases stepped with
  | @build m failures room object locked =>
    have start : Inside e callers (native_frame m₀) (native_frame m₀) :=
      ⟨room,Int.le_refl _,rfl,fun _ _ => rfl,fun _ _ => rfl,fun _ _ => rfl⟩
    have taken := quiet_inside (lock_inside built start object locked) get_signature_handler
      (by simp [kept_places,get_signature_handler,written,Instr.written]) rfl
    unfold after_lock
    dsimp only
    split
    · refine .within (by decide) (lr_kept ?_)
      unfold call_prepare
      rw [exec_append,exec_append,exec_append]
      refine call_address_inside built (quiet_inside (set_last_Java_frame_inside built (quiet_inside taken _ ?_ rfl) _) _ ?_ rfl) _ <;>
        simp [kept_places,written,Instr.written]
    · exact .within (by decide) taken
  | @prepared m m' ran =>
    cases holds with
    | within between inside =>
      have back := call_inside inside ran
      have fixed : Inside e callers (native_frame m₀) (exec (call_return ++ reset_last_Java_frame ++ fixup_after_potential_safepoint ++
          [.load r0 pending_exception_addr,.compareImm cr0 r0 0]) m') := by
        rw [exec_append,exec_append,exec_append]
        have returned : Inside e callers (native_frame m₀) (exec call_return m') := by
          unfold call_return
          cases Target.cpu <;> exact quiet_inside back _ (by simp [kept_places,written,Instr.written]) rfl
        refine quiet_inside (quiet_inside (reset_last_Java_frame_inside built returned) _ ?_ rfl) _ ?_ rfl <;>
          simp [kept_places,fixup_after_potential_safepoint,written,Instr.written]
      unfold after_prepare
      dsimp only
      split
      · exact .within (by decide) (quiet_inside fixed _ (by simp [kept_places,written,Instr.written]) rfl)
      · exact .within (by decide) fixed
  | got_signature_handler =>
    cases holds with
    | within between inside =>
      exact .within (by decide) (lr_kept (quiet_inside inside _ (by simp [kept_places,call_handler,written,Instr.written]) rfl))
  | handled ran =>
    cases holds with
    | within between inside => exact .native_function (handler_inside inside ran)
  | @native_returned m m' ran =>
    obtain ⟨x,entered,rfl⟩ := native_called holds
    have inside := after_handler_inside built entered
    have left := leave_native_inside built (call_inside inside ran)
    have blocks : ∀ {m}, Inside e callers (native_frame m₀) m → Holds e callers m₀ (block m) := fun inside => by
      refine .within (by decide) (lr_kept ?_)
      unfold call_check
      rw [exec_append]
      exact call_address_inside built (quiet_inside inside _ (by simp [kept_places,written,Instr.written]) rfl) _
    unfold after_native
    dsimp only
    split
    · have tested := quiet_inside left test_suspend (by simp [kept_places,test_suspend,written,Instr.written]) rfl
      split
      · exact .within (by decide) tested
      · exact blocks tested
    · exact blocks left
  | checked ran =>
    cases holds with
    | within between inside =>
      refine .within (by decide) ?_
      unfold after_check call_return fixup_after_potential_safepoint
      cases Target.cpu <;> exact quiet_inside (call_inside inside ran) _ (by simp [kept_places,written,Instr.written]) rfl
  | exception handles pending =>
    cases holds with
    | within between inside => exact .within (by decide) (after_transition_inside built inside handles)
  | unlocked handles none object unlocked =>
    cases holds with
    | within between inside =>
      have freed := unlock_inside built (after_transition_inside built inside handles) object unlocked
      refine .within (by decide) (lr_kept ?_)
      unfold restore_result
      cases Target.cpu <;> exact quiet_inside freed _ (by simp [kept_places,written,Instr.written]) rfl
  | result_handled ran =>
    cases holds with
    | within between inside => exact .within (by decide) (call_inside inside ran)
  | unwind =>
    cases holds with
    | within between inside => exact .returned inside

theorem run_holds {m₀ : Machine} {p : Point} (built : Built e callers (native_frame m₀)) (run : Steps e callers m₀ ⟨.entry,m₀⟩ p) :
    Holds e callers m₀ p := by
  induction run with
  | refl => exact .entry
  | tail _ stepped ih => exact step_holds built stepped ih

-- The thread's state and the serialize page are not on the stack either.
structure OffThread (e : Entry) : Prop where
  thread_state : OffStack e (e.machine.gpr Rthread + thread_state_offset) 4
  page : ∀ i : Int, 0 ≤ i → i ≤ serialize_page_mask → OffStack e (memory_serialize_page + i) 4

theorem native_built {b : Activation} {rest : List Activation} {p : Int} (ready : e.Ready) (off : OffThread e) (calling : Calling e b rest p m) :
    Built e (callers_words e.outer (m.gpr r1) (b :: rest)) (native_frame m) := by
  have made := native_frame_made ready calling
  generalize native_frame m = n at made
  obtain ⟨ends,bounds⟩ := callers_bounds ready calling.live
  have own : n.gpr Rthread = e.machine.gpr Rthread := made.thread.trans calling.thread
  have state := made.state
  have header := lr_save_inside
  have second := lr_save_above
  have pos := wordSize_pos
  refine ⟨made.room,made.monitor,made.record,fun w member => ?_,by omega,fun o anchor => ?_,?_,off.page⟩
  · have bound := bounds w member
    omega
  · rw [own]
    exact ready.anchor o anchor
  · rw [own]
    exact off.thread_state

theorem read_kept (code : List Instr) {a : Int} (outside : ∀ s ∈ stores code m, a + wordSize ≤ s.1 ∨ s.1 + s.2 ≤ a) :
    (exec code m).read a = m.read a :=
  Cells.word_congr fun b low high => exec_outside code m fun s stored => by
    have apart := outside s stored
    change b < a + wordSize at high
    omega

-- At the call of the native function the anchor is the native method's frame.
theorem handler_anchor (apart : Apart)
    (clear : ∀ o, o = last_Java_sp_offset ∨ o = last_Java_pc_offset → o + wordSize ≤ thread_state_offset ∨ thread_state_offset + 4 ≤ o)
    (built : Built e callers n) (inside : Inside e callers n m) :
    anchor (n.gpr Rthread) (after_handler m).machine = ⟨(after_handler m).machine.gpr r1,native_call⟩ := by
  have passed := pass_environment_inside built inside
  have set := anchor_set apart native_call (pass_environment m)
  have stack : (exec (set_last_Java_frame native_call) (pass_environment m)).gpr r1 = (pass_environment m).gpr r1 :=
    (exec_keeps _ _).gpr r1 (by simp [set_last_Java_frame,written,Instr.written])
  have framed := set_last_Java_frame_inside built passed native_call
  rw [passed.registers Rthread (by simp)] at set
  rw [← stack] at set
  unfold after_handler calls enter_native
  rw [exec_append]
  generalize exec (set_last_Java_frame native_call) (pass_environment m) = y at set framed
  have changed := thread_state_inside built framed thread_in_native
  have top : (exec (call_code r15) (exec [.loadImm r0 thread_in_native,.stw r0 thread_state_addr] y)).gpr r1 = y.gpr r1 := by
    rw [(exec_keeps (call_code r15) _).gpr r1 (call_code_free r15 _ (by simp [kept_places]))]
    exact (exec_keeps _ _).gpr r1 (by simp [written,Instr.written])
  have same : ∀ o, o = last_Java_sp_offset ∨ o = last_Java_pc_offset →
      (exec (call_code r15) (exec [.loadImm r0 thread_in_native,.stw r0 thread_state_addr] y)).read (n.gpr Rthread + o) = y.read (n.gpr Rthread + o) := by
    intro o field
    refine (read_kept (call_code r15) fun s stored => ?_).trans (read_kept _ fun s stored => ?_)
    · obtain ⟨above,below⟩ := call_code_stores r15 s stored
      have off := built.anchor o field
      have room := changed.room
      have lower := changed.lower
      have frame := built.room
      have monitor := built.monitor
      have ends := built.ends
      have object := sizeof_large
      have pos := wordSize_pos
      unfold OffStack at off
      omega
    · obtain rfl : s = (y.gpr Rthread + thread_state_offset,4) := by
        simpa [thread_state_addr,stores,Instr.stores,Machine.ea,step] using stored
      have away := clear o field
      rw [framed.registers Rthread (by simp)]
      dsimp only
      omega
  calc anchor (n.gpr Rthread) (exec (call_code r15) (exec [.loadImm r0 thread_in_native,.stw r0 thread_state_addr] y))
      = anchor (n.gpr Rthread) y := by unfold anchor; rw [same _ (.inl rfl),same _ (.inr rfl)]
    _ = ⟨y.gpr r1,native_call⟩ := set
    _ = _ := by rw [← top]

section
variable {as : List Activation} {p : Int}

-- What the frame manager takes a callee to do.
theorem native_returned (ready : e.Ready) (off : OffThread e) {b : Activation} {rest : List Activation} (calling : Calling e b rest p m)
    (native : Steps e (callers_words e.outer (m.gpr r1) (b :: rest)) m ⟨.entry,m⟩ ⟨.returned,m'⟩)
    (fits : m'.read (m'.gpr Rthread + pending_exception_offset) = 0 → ∃ t, result_type m' = some t ∧
      ∀ b' rest', b :: rest = b' :: rest' → b'.field m' .stack_limit ≤ m'.gpr Rlocals - result_words t * wordSize) :
    m'.lr = m.lr ∧ CalleeReturned e (b :: rest) m m' := by
  have made := native_frame_made ready calling
  obtain ⟨x,inside,rfl⟩ := returned_unwound (run_holds (native_built ready off calling) native)
  generalize native_frame m = n at made inside
  have kept : ∀ w ∈ callers_words e.outer (m.gpr r1) (b :: rest), x.read w = n.read w := fun w member =>
    inside.words w (List.mem_cons_of_mem _ member)
  obtain ⟨state,top,lr,mem,keeps⟩ := unwind_spec x
  have chain : x.read (x.gpr r1) = m.gpr r1 := inside.back_chain.trans made.back_chain
  obtain ⟨_,frame⟩ := live_frame calling.live
  generalize exec unwind_interpreter_state x = m' at fits top lr mem keeps
  have words : ∀ w, m'.read w = x.read w := fun w => congrArg (Cells.word wide · w) mem
  rw [chain] at top lr
  refine ⟨?_,?_,?_,?_,?_,?_,fun w member => ?_,fits⟩
  · rw [lr,kept _ (by simp [callers_words]),made.return_address]
  · exact Int.le_of_eq top
  · rw [top]
    exact (frame_bounds frame).aligned
  · rw [top,words,kept _ (by simp [callers_words]),made.top]
  · rw [keeps.gpr Rlocals (by simp),inside.registers Rlocals (by simp),made.locals]
  · rw [keeps.gpr Rthread (by simp),inside.registers Rthread (by simp),made.thread]
  · rw [words,kept w ?_,made.waiting w member]
    exact List.mem_cons_of_mem _ (List.mem_cons_of_mem _ member)

-- A native method does so, whatever the functions that its entry calls do within
-- the ABI.
theorem native_entry_returns (ready : e.Ready) (off : OffThread e)
    (run : CppInterpreter.Steps e (entered e) ⟨as,.call_non_interpreted_method p m⟩)
    (native : Steps e (callers_words e.outer (m.gpr r1) as) m ⟨.entry,m⟩ ⟨.returned,m'⟩)
    (fits : m'.read (m'.gpr Rthread + pending_exception_offset) = 0 → ∃ t, result_type m' = some t ∧
      ∀ b rest, as = b :: rest → b.field m' .stack_limit ≤ m'.gpr Rlocals - result_words t * wordSize) :
    m'.lr = site .callee_returned ∧ CppInterpreter.Step e ⟨as,.call_non_interpreted_method p m⟩ ⟨as,.callee_returned p m'⟩ := by
  cases reached_good ready run with
  | call_non_interpreted_method calling positive parameters address =>
    obtain ⟨lr,ran⟩ := native_returned ready off calling native fits
    exact ⟨lr.trans address,.callee ran⟩

def native_level (e : Entry) (wrapper : Int) (as : List Activation) (m m' : Machine) : Level := ⟨e,wrapper,as,m.gpr r1,some ⟨m'.gpr r1,native_call⟩⟩

-- While the native function runs, the walk starts from the method's own frame.
theorem native_stack_walk {low high thread wrapper : Int} {levels : List Level} (apart : Apart)
    (clear : ∀ o, o = last_Java_sp_offset ∨ o = last_Java_pc_offset → o + wordSize ≤ thread_state_offset ∨ thread_state_offset + 4 ≤ o)
    (nested : Nested low high thread e wrapper levels) (off : OffThread e)
    (run : CppInterpreter.Steps e (entered e) ⟨as,.call_non_interpreted_method p m⟩)
    (native : Steps e (callers_words e.outer (m.gpr r1) as) m ⟨.entry,m⟩ ⟨.calling .native_function,m'⟩) :
    let seen := (native_level e wrapper as m m' :: levels).flatMap Level.seen
    ∃ f, pd_last_frame m' thread = some f ∧ walk m' seen.length f = some seen := by
  obtain ⟨ready,_⟩ := nested_ready apart nested
  refine suspended_walk apart nested ?_
  cases reached_good ready run with
  | @call_non_interpreted_method rest _ _ b calling positive parameters address =>
    have built := native_built ready off calling
    have made := native_frame_made ready calling
    obtain ⟨x,entered,rfl⟩ := native_called (run_holds built native)
    have inside := after_handler_inside built entered
    have set := handler_anchor apart clear built entered
    generalize native_frame m = n at made built inside set
    generalize (after_handler x).machine = m' at inside set
    obtain ⟨ends,bounds⟩ := callers_bounds ready calling.live
    have kept : ∀ w ∈ callers_words e.outer (m.gpr r1) (b :: rest), m'.read w = n.read w := fun w member =>
      inside.words w (List.mem_cons_of_mem _ member)
    obtain ⟨live,_⟩ := live_words made.live kept
    have own : n.gpr Rthread = e.machine.gpr Rthread := made.thread.trans calling.thread
    have room := built.room
    have monitor := built.monitor
    have state := made.state
    have lower := inside.lower
    have object := sizeof_large
    have pos := wordSize_pos
    have second := lr_save_above
    have header := lr_save_inside
    refine ⟨rfl,rfl,⟨live,fun sp frame => ?_⟩,?_,inside.room,code_native,fun w member => ?_⟩
    · obtain rfl := Option.some.inj frame
      refine ⟨code_native,inside.back_chain.trans made.back_chain,?_⟩
      change m'.read (m.gpr r1 + lr_save_offset*wordSize) = site .callee_returned
      rw [kept _ (by simp [callers_words]),made.return_address,address]
    · rw [← own]
      exact set
    · rcases List.mem_append.mp member with native|callers
      · rw [List.mem_singleton.mp native]
        change m'.gpr r1 ≤ m'.gpr r1 ∧ m'.gpr r1 + wordSize ≤ e.high
        omega
      · have bound := bounds w callers
        change m'.gpr r1 ≤ w ∧ w + wordSize ≤ e.high
        omega
end

@[reducible] def NativeCode.plain : NativeCode := {Frames.plain,LockObject.Layout.plain ppc64 with
  site_after := fun c => 64 + 4*c.ctorIdx
  call_VM_site := 36
  prepare_native_call := 0xa000
  check_special_condition_for_native_trans := 0xa010
  thread_in_native := 4
  thread_in_native_trans := 5
  thread_in_Java := 8
  address_of_state := 0xb000
  not_synchronized := 0
  result_handler_T_OBJECT := 0xa020
  is_MP := true
  UseMembar := false
  serialize_page_shift_count := 3
  serialize_page_mask := 0xfff
  memory_serialize_page := 0x10000}

-- A native method is called, and throws an exception.
def pending (v : Int) (m : Machine) : Machine := {m with mem := fun a => if a = 0x8014 then v else m.mem a}
def asked_native : Machine := requesting 0 .call_method (call_interpreter (start first_stub_entry.machine))
def native_caller : Machine :=
  let m := step (exec interpreter_returned asked_native) (.compareImm cr0 r4 (message .call_method))
  {exec [.mtctr r0] (exec prepare_call m) with lr := site .callee_returned}
def preparing : Machine := calls .prepare_native_call call_prepare (exec get_signature_handler (native_frame native_caller))
def handling : Machine := calls .signature_handler call_handler (after_prepare (pending 0 preparing)).machine
def at_native : Machine := (after_handler handling).machine
def at_return : Machine := after_transition (after_native (pending 1 at_native)).machine

set_option maxRecDepth 4000 in
omit [NativeCode] in
theorem calls_native : letI := NativeCode.plain
    CppInterpreter.Steps first_stub_entry (entered first_stub_entry)
      ⟨(entered first_stub_entry).activations,.call_non_interpreted_method (size_of_parameters (callee
        (step (exec interpreter_returned asked_native) (.compareImm cr0 r4 (message .call_method))))) native_caller⟩ := by
  let := NativeCode.plain
  have first : CppInterpreter.Step first_stub_entry (entered first_stub_entry)
      ⟨(entered first_stub_entry).activations,.interpreter_returned asked_native⟩ := by
    refine .interpreter ?room ?ran
    case room => decide
    case ran =>
      constructor
      case registers => exact fun r _ => congrFun (requesting_gpr 0 .call_method _) r
      case back_chain => decide
      case words => decide
      case stack => exact ⟨0,by decide,by decide⟩
      case request => exact ⟨.call_method,by decide,.call_method (by decide) (by decide)⟩
  have found : examine_message requests (exec interpreter_returned asked_native) = some (.call_method,_) := if_pos (by decide)
  have handled : handle_message .call_method _ = some (.call_non_interpreted_method native_caller) :=
    congrArg some (if_neg (by decide))
  exact .tail (.single first) (.message found handled)

def native_callers : List Int :=
  callers_words first_stub_entry.outer (native_caller.gpr r1) (entered first_stub_entry).activations

set_option maxRecDepth 4000 in
omit [NativeCode] in
theorem native_is_called : letI := NativeCode.plain
    Steps first_stub_entry native_callers native_caller ⟨.entry,native_caller⟩ ⟨.calling .native_function,at_native⟩ := by
  let := NativeCode.plain
  have plain : lock_if_necessary 0 (native_frame native_caller) = some (native_frame native_caller) := if_neg (by decide)
  have build : Step first_stub_entry native_callers native_caller ⟨.entry,native_caller⟩ (after_lock (native_frame native_caller)) :=
    .build (by decide) (fun sync => absurd sync (by decide)) plain
  have prepares : after_lock (native_frame native_caller) = ⟨.calling .prepare_native_call,preparing⟩ := if_pos (by decide)
  rw [prepares] at build
  have prepared : Step first_stub_entry native_callers native_caller ⟨.calling .prepare_native_call,preparing⟩ (after_prepare (pending 0 preparing)) :=
    .prepared ⟨fun _ _ => rfl,fun _ _ => rfl,by decide,by decide⟩
  have got : after_prepare (pending 0 preparing) = ⟨.got_signature_handler,(after_prepare (pending 0 preparing)).machine⟩ := by
    unfold after_prepare
    dsimp only
    rw [if_pos (by decide)]
  rw [got] at prepared
  have handler : Step first_stub_entry native_callers native_caller ⟨.calling .signature_handler,handling⟩ (after_handler handling) :=
    .handled ⟨by decide,Int.le_refl _,rfl,fun _ _ _ _ => rfl,fun _ _ => rfl,fun _ _ => rfl⟩
  exact .tail (.tail (.tail (.single build) prepared) .got_signature_handler) handler

set_option maxRecDepth 4000 in
omit [NativeCode] in
theorem native_throws : letI := NativeCode.plain
    Steps first_stub_entry native_callers native_caller ⟨.entry,native_caller⟩ ⟨.returned,exec unwind_interpreter_state at_return⟩ := by
  let := NativeCode.plain
  have returned : Step first_stub_entry native_callers native_caller ⟨.calling .native_function,at_native⟩ (after_native (pending 1 at_native)) :=
    .native_returned ⟨fun _ _ => rfl,fun _ _ => rfl,by decide,by decide⟩
  have runs : after_native (pending 1 at_native) = ⟨.no_block,(after_native (pending 1 at_native)).machine⟩ := by
    unfold after_native
    dsimp only
    rw [if_pos (by decide),if_pos (by decide)]
  rw [runs] at returned
  have thrown : Step first_stub_entry native_callers native_caller ⟨.no_block,(after_native (pending 1 at_native)).machine⟩ ⟨.return_to_caller,at_return⟩ :=
    .exception (.inl (by decide)) (by decide)
  exact .tail (.tail (.tail native_is_called returned) thrown) .unwind

omit [NativeCode] in
theorem first_off_thread : letI := NativeCode.plain; OffThread first_stub_entry :=
  letI := NativeCode.plain
  ⟨.inr (by decide),fun i low _ => .inr (by change (0x3000 : Int) ≤ 0x10000 + i; omega)⟩

set_option maxRecDepth 4000 in
omit [NativeCode] in
theorem native_entry_throws : letI := NativeCode.plain
    ∃ p, (exec unwind_interpreter_state at_return).lr = site .callee_returned ∧ CppInterpreter.Step first_stub_entry
      ⟨(entered first_stub_entry).activations,.call_non_interpreted_method p native_caller⟩
      ⟨(entered first_stub_entry).activations,.callee_returned p (exec unwind_interpreter_state at_return)⟩ := by
  let := NativeCode.plain
  obtain ⟨ready,_⟩ := nested_ready (.inl (by decide)) first_nested
  exact ⟨_,native_entry_returns ready first_off_thread calls_native native_throws fun none => absurd none (by decide)⟩

omit [NativeCode] in
theorem native_stack_walk_first : letI := NativeCode.plain
    ∃ f, pd_last_frame at_native 0x8000 = some f ∧
      walk at_native 3 f = some (native_level first_stub_entry 0x2300 (entered first_stub_entry).activations native_caller at_native).seen := by
  let := NativeCode.plain
  obtain ⟨f,last,walked⟩ := native_stack_walk (.inl (by decide)) (by rintro o (rfl|rfl) <;> exact .inl (by decide)) first_nested
    first_off_thread calls_native native_is_called
  have size : ([native_level first_stub_entry 0x2300 (entered first_stub_entry).activations native_caller at_native].flatMap
    Level.seen).length = 3 := by decide
  rw [size,List.flatMap_cons,List.flatMap_nil,List.append_nil] at walked
  exact ⟨f,last,walked⟩
end IcedTea.NativeMethod

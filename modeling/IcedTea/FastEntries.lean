import IcedTea.FrameManagerSafety

namespace IcedTea.CppInterpreter
open Vm Code SharedRuntime BasicType Activation

-- The states of the top of the stack that a fast accessor's field may have.
inductive TosState where
  | atos | itos | btos | stos | ctos
  deriving DecidableEq, Repr

-- Numbers that are in the code of the fast entries.
class FastCode extends Code where
  address_of_state : Int
  not_synchronized : Int
  base_offset : Int
  log_entry_words : Nat
  indices_offset : Int
  f2_offset : Int
  flags_offset : Int
  tosBits : Nat
  getfield : Int
  tos : TosState → Int
  tos_apart : ∀ x y, tos x = tos y → x = y

variable [FastCode]
open FastCode TosState

-- Where control leaves a fast entry. In the debugging printf of a field whose type
-- is unknown it does not come back.
inductive FastExit where
  | blr (m : Machine) | slow_path (m : Machine) | unknown_type

def FastExit.machine : FastExit → Option Machine
  | blr m | slow_path m => some m
  | unknown_type => none

-- Drop into the slow path if we need a safepoint check.
def safepoint_check : List Instr := [.loadImm r3 address_of_state,.load r0 ⟨r3,0⟩,.compareImm cr0 r0 not_synchronized]

def empty_entry (m : Machine) : FastExit :=
  let m := exec safepoint_check m
  if (m.cr cr0).eq then .blr m else .slow_path m

-- A byte is a quarter of its cell.
def read8 (m : Machine) (a : Int) : Int := m.mem (a - a % 4) / 2^(8*(3 - a % 4)).toNat % 2^8

def lwzx (dst a b : Register) (m : Machine) : Machine := m.set dst (m.read32 (m.gpr a + m.gpr b))
def lbzx (dst a b : Register) (m : Machine) : Machine := m.set dst (read8 m (m.gpr a + m.gpr b))
def lhzx (dst a b : Register) (m : Machine) : Machine := m.set dst (m.read16 (m.gpr a + m.gpr b))
def lbax (dst a b : Register) (m : Machine) : Machine := step (lbzx dst a b m) (.extsb dst dst)
def lhax (dst a b : Register) (m : Machine) : Machine := step (lhzx dst a b m) (.extsh dst dst)
def lwax (dst a b : Register) (m : Machine) : Machine :=
  match Target.cpu with
  | .ppc32 => lwzx dst a b m
  | .ppc64 => step (lwzx dst a b m) (.extsw dst dst)

-- The object is in r4, the entry of the constant pool cache in r6, the field's
-- offset in r7 and its type in r8.
def load_object : List Instr := [.load r4 ⟨Rlocals,0⟩,.compareImm cr0 r4 0]
def locate_entry : List Instr :=
  [.load r5 ⟨Rmethod,const_offset⟩,
   .lwz r5 ⟨r5,codes_offset⟩,
   .andi_ r5 r5 0xffff,
   .load r6 ⟨Rmethod,constants_offset⟩,
   .load r6 ⟨r6,cache_offset_in_bytes⟩,
   .la r6 ⟨r6,base_offset⟩,
   .shift_left r0 r5 (log_entry_words + LogBytesPerWord),
   .add r6 r6 r0,
   .load r0 ⟨r6,indices_offset⟩,
   .shift_right r0 r0 16,
   .andi_ r0 r0 0xff,
   .compareImm cr0 r0 getfield]
def load_type : List Instr := [.load r7 ⟨r6,f2_offset⟩,.load r8 ⟨r6,flags_offset⟩,.shift_right r8 r8 tosBits]

def load_field (x : TosState) (m : Machine) : Machine :=
  match x with
  | atos => step m (.load_indexed r3 r4 r7)
  | itos => lwax r3 r4 r7 m
  | btos => lbax r3 r4 r7 m
  | stos => lhax r3 r4 r7 m
  | ctos => lhzx r3 r4 r7 m

def tos_states : List TosState := [atos,itos,btos,stos,ctos]
def load_value : List TosState → Machine → FastExit
  | [],_ => .unknown_type
  | x :: rest,m =>
    let m := step m (.compareImm cr0 r8 (tos x))
    if (m.cr cr0).eq then .blr (load_field x m) else load_value rest m

def accessor_entry (m : Machine) : FastExit :=
  let m := exec safepoint_check m
  if (m.cr cr0).eq then
    let m := exec load_object m
    if (m.cr cr0).eq then .slow_path m
    else
      let m := exec locate_entry m
      if (m.cr cr0).eq then load_value tos_states (exec load_type m) else .slow_path m
  else .slow_path m

inductive FastEntry where
  | empty | accessor
  deriving DecidableEq, Repr
def FastEntry.code : FastEntry → Machine → FastExit
  | empty => empty_entry
  | accessor => accessor_entry

-- What an accessor reads, and what a field of each type is to Java.
def receiver (m : Machine) : Int := m.read (m.gpr Rlocals)
def field_index (m : Machine) : Int := andImmediate (m.read32 (m.read (m.gpr Rmethod + const_offset) + codes_offset)) 0xffff
def cache_entry (m : Machine) : Int :=
  m.read (m.read (m.gpr Rmethod + constants_offset) + cache_offset_in_bytes) + base_offset + field_index m * 2^(log_entry_words + LogBytesPerWord)
def field_address (m : Machine) : Int := receiver m + m.read (cache_entry m + f2_offset)
def field_type (m : Machine) : Int := m.read (cache_entry m + flags_offset) / 2^tosBits

def field_value (x : TosState) (m : Machine) (a : Int) : JavaValue :=
  match x with
  | atos => .object (m.read a)
  | itos => .int (BitVec.ofInt 32 (m.read32 a))
  | btos => .int ((BitVec.ofInt 8 (read8 m a)).signExtend 32)
  | stos => .int ((BitVec.ofInt 16 (m.read16 a)).signExtend 32)
  | ctos => .int ((BitVec.ofInt 16 (m.read16 a)).zeroExtend 32)

-- A method returns a field of that type with ireturn or areturn.
def Returns (x : TosState) (t : BasicType) : Prop :=
  if x = atos then t = T_OBJECT else t ∈ [T_BOOLEAN,T_CHAR,T_BYTE,T_SHORT,T_INT]

def fast_places : List Place := [.gpr r0,.gpr r3,.gpr r4,.gpr r5,.gpr r6,.gpr r7,.gpr r8,.cr cr0]

-- A fast entry changes volatile registers only.
structure Quiet (m m' : Machine) : Prop where
  mem : m'.mem = m.mem
  keeps : Keeps fast_places m m'

variable {e : Entry} {as : List Activation} {p : Int} {m m' m₁ : Machine} {x : TosState} {t : BasicType}

omit [FastCode] in
theorem Quiet.trans (one : Quiet m m₁) (two : Quiet m₁ m') : Quiet m m' :=
  ⟨two.mem.trans one.mem,(one.keeps.trans two.keeps).mono (by simp)⟩

theorem code_quiet (code : List Instr) (registers : ∀ p ∈ written code, p ∈ fast_places) (mem : (exec code m).mem = m.mem) :
    Quiet m (exec code m) := ⟨mem,(exec_keeps code m).mono registers⟩

omit [FastCode] in
theorem set_quiet (v : Int) : Quiet m (m.set r3 v) := by
  refine ⟨rfl,fun p free => ?_⟩
  cases p with
  | gpr r => exact (Machine.set_gpr m r3 r v).trans (if_neg fun same => free (by subst same; simp [fast_places]))
  | fpr f => rfl
  | cr c => rfl
  | lr => rfl
  | ctr => rfl

theorem load_field_quiet (x : TosState) (m : Machine) : Quiet m (load_field x m) := by
  cases x with
  | atos => exact set_quiet _
  | itos =>
    unfold load_field lwax
    cases Target.cpu with
    | ppc32 => exact set_quiet _
    | ppc64 => exact (set_quiet _).trans (set_quiet _)
  | btos => exact (set_quiet _).trans (set_quiet _)
  | stos => exact (set_quiet _).trans (set_quiet _)
  | ctos => exact set_quiet _

theorem load_value_spec {states : List TosState} (left : load_value states m = .blr m') :
    ∃ x m₁, x ∈ states ∧ m.gpr r8 = tos x ∧ m' = load_field x m₁ ∧ Quiet m m₁ ∧ m₁.gpr = m.gpr := by
  induction states generalizing m with
  | nil => cases left
  | cons x rest ih =>
    have compared : Quiet m (step m (.compareImm cr0 r8 (tos x))) := ⟨rfl,(step_keeps _ m).mono (by simp [Instr.written,fast_places])⟩
    unfold load_value at left
    dsimp only at left
    split at left
    · rename_i same
      cases left
      exact ⟨x,_,List.mem_cons_self,by simpa [step] using same,rfl,compared,rfl⟩
    · obtain ⟨y,m₁,member,type,loaded,quiet,gpr⟩ := ih left
      exact ⟨y,m₁,List.mem_cons_of_mem _ member,type,loaded,compared.trans quiet,gpr⟩

theorem load_value_not_slow {states : List TosState} : load_value states m ≠ .slow_path m' := by
  induction states generalizing m with
  | nil => exact fun same => nomatch same
  | cons x rest ih =>
    unfold load_value
    dsimp only
    split
    · exact fun same => nomatch same
    · exact ih

theorem check_quiet (m : Machine) : Quiet m (exec safepoint_check m) :=
  code_quiet _ (by simp [safepoint_check,written,Instr.written,fast_places]) rfl
theorem object_quiet (m : Machine) : Quiet m (exec load_object m) :=
  code_quiet _ (by simp [load_object,written,Instr.written,fast_places]) rfl
theorem locate_quiet (m : Machine) : Quiet m (exec locate_entry m) :=
  code_quiet _ (by simp [locate_entry,written,Instr.written,fast_places]) rfl
theorem type_quiet (m : Machine) : Quiet m (exec load_type m) :=
  code_quiet _ (by simp [load_type,written,Instr.written,fast_places]) rfl

def located (m : Machine) : Machine := exec load_type (exec locate_entry (exec load_object (exec safepoint_check m)))

theorem located_quiet (m : Machine) : Quiet m (located m) :=
  (((check_quiet m).trans (object_quiet _)).trans (locate_quiet _)).trans (type_quiet _)

theorem accessor_fast (left : accessor_entry m = .blr m') : load_value tos_states (located m) = .blr m' := by
  unfold accessor_entry at left
  dsimp only at left
  split at left
  · split at left
    · cases left
    · split at left
      · exact left
      · cases left
  · cases left

theorem fast_entry_quiet (entry : FastEntry) (left : (entry.code m).machine = some m') : Quiet m m' := by
  cases entry with
  | empty =>
    unfold FastEntry.code empty_entry at left
    dsimp only at left
    split at left <;> exact Option.some.inj left ▸ check_quiet m
  | accessor =>
    unfold FastEntry.code accessor_entry at left
    dsimp only at left
    split at left
    · split at left
      · exact Option.some.inj left ▸ (check_quiet m).trans (object_quiet _)
      · split at left
        · change (load_value tos_states (located m)).machine = some m' at left
          cases value : load_value tos_states (located m) with
          | blr m₂ =>
            rw [value] at left
            obtain ⟨y,m₁,_,_,rfl,quiet,_⟩ := load_value_spec value
            exact Option.some.inj left ▸ ((located_quiet m).trans quiet).trans (load_field_quiet y m₁)
          | slow_path m₂ => exact absurd value load_value_not_slow
          | unknown_type => rw [value] at left; cases left
        · exact Option.some.inj left ▸ ((check_quiet m).trans (object_quiet _)).trans (locate_quiet _)
    · exact Option.some.inj left ▸ check_quiet m

theorem located_registers (m : Machine) :
    (located m).gpr r4 + (located m).gpr r7 = field_address m ∧ (located m).gpr r8 = field_type m := by
  constructor <;> simp [located,safepoint_check,load_object,locate_entry,load_type,field_address,field_type,receiver,cache_entry,field_index,
    step,Machine.ea,Machine.read,Machine.read32]

theorem load_field_value (returns : Returns x t) (m : Machine) :
    register_value t (load_field x m) = field_value x m (m.gpr r4 + m.gpr r7) := by
  have half : ∀ a, m.read16 a % 2^16 = m.read16 a := fun a => by
    unfold Machine.read16
    split <;> exact Int.emod_emod_of_dvd _ (Int.dvd_refl _)
  have number : ∀ {m' : Machine}, x ≠ atos → register_value t m' = .int (BitVec.ofInt 32 (m'.gpr r3)) := fun other => by
    rw [Returns,if_neg other] at returns
    simp only [List.mem_cons,List.not_mem_nil,or_false] at returns
    rcases returns with rfl|rfl|rfl|rfl|rfl <;> rfl
  cases x with
  | atos =>
    rw [Returns,if_pos rfl] at returns
    subst returns
    simp [register_value,field_value,load_field,step]
  | itos =>
    rw [number (by decide)]
    unfold load_field lwax
    cases Target.cpu with
    | ppc32 => simp [field_value,lwzx]
    | ppc64 => simp [field_value,lwzx,step,extended_int]
  | btos =>
    rw [number (by decide)]
    simp [load_field,lbax,lbzx,field_value,step,extended_byte]
  | stos =>
    rw [number (by decide)]
    simp [load_field,lhax,lhzx,field_value,step,extended_short]
  | ctos =>
    rw [number (by decide)]
    have extended := extended_char (m.read16 (m.gpr r4 + m.gpr r7))
    rw [half] at extended
    simpa [load_field,lhzx,field_value] using extended

-- The fast path of an accessor returns the field's value.
theorem accessor_value (fast : accessor_entry m = .blr m') (type : field_type m = tos x) (returns : Returns x t) :
    register_value t m' = field_value x m (field_address m) := by
  obtain ⟨y,m₁,_,found,rfl,quiet,gpr⟩ := load_value_spec (accessor_fast fast)
  obtain ⟨address,own⟩ := located_registers m
  obtain rfl : x = y := tos_apart _ _ (type.symm.trans (own.symm.trans found))
  have mem : m₁.mem = m.mem := quiet.mem.trans (located_quiet m).mem
  rw [load_field_value returns,gpr,address]
  unfold field_value Machine.read Machine.read32 Machine.read16 read8
  rw [mem]

theorem quiet_calling {b : Activation} {rest : List Activation} (quiet : Quiet m m') (calling : Calling e b rest p m) : Calling e b rest p m' := by
  have top : m'.gpr r1 = m.gpr r1 := quiet.keeps.gpr r1 (by simp [fast_places])
  have locals : m'.gpr Rlocals = m.gpr Rlocals := quiet.keeps.gpr Rlocals (by simp [fast_places])
  have thread : m'.gpr Rthread = m.gpr Rthread := quiet.keeps.gpr Rthread (by simp [fast_places])
  have fields : ∀ f, b.field m' f = b.field m f := fun f => by rw [Activation.field,quiet.mem]; rfl
  refine ⟨?_,?_,?_,calling.nonneg,thread.trans calling.thread⟩
  · rw [top]
    exact live_mem calling.live quiet.mem
  · rw [locals,fields]
    exact calling.locals
  · rw [locals,fields]
    exact calling.pushed

theorem quiet_sizes (quiet : Quiet m m') : size_of_parameters m' = size_of_parameters m ∧ result_type m' = result_type m := by
  have method : m'.gpr Rmethod = m.gpr Rmethod := quiet.keeps.gpr Rmethod (by simp [fast_places])
  constructor
  · change m'.read16 (m'.gpr Rmethod + size_of_parameters_offset) = m.read16 (m.gpr Rmethod + size_of_parameters_offset)
    rw [method,Machine.read16,quiet.mem]
    rfl
  · simp only [result_type,Machine.ea,Machine.read32,quiet.mem,method]

-- How a fast entry comes to return: at once, or by the frame manager.
inductive FastReturned (e : Entry) (as : List Activation) : FastExit → Machine → Prop where
  | fast {m : Machine} : FastReturned e as (.blr m) m
  | slow {m m' : Machine} {as' : List Activation} (covered : size_of_parameters m ≤ size_of_locals m)
      (inner : Steps (nested e as m) (entered (nested e as m)) ⟨as',.blr m'⟩) : FastReturned e as (.slow_path m) m'

-- What the frame manager takes a callee to do.
theorem fast_entry_returned (ready : e.Ready) {b : Activation} {rest : List Activation} (calling : Calling e b rest p m)
    (parameters : size_of_parameters m = p) (entry : FastEntry) (returned : FastReturned e (b :: rest) (entry.code m) m')
    (fits : m'.read (m'.gpr Rthread + pending_exception_offset) = 0 → ∃ t, result_type m' = some t ∧
      ∀ b' rest', b :: rest = b' :: rest' → b'.field m' .stack_limit ≤ m'.gpr Rlocals - result_words t * wordSize) :
    m'.lr = m.lr ∧ CalleeReturned e (b :: rest) m m' := by
  generalize exit : entry.code m = left at returned
  have quiet : ∀ {m₁}, left.machine = some m₁ → Quiet m m₁ := fun machine => fast_entry_quiet entry (by rw [exit]; exact machine)
  cases returned with
  | fast =>
    have same := quiet rfl
    have top : m'.gpr r1 = m.gpr r1 := same.keeps.gpr r1 (by simp [fast_places])
    have words : ∀ w, m'.read w = m.read w := fun w => congrArg (Cells.word wide · w) same.mem
    obtain ⟨_,frame⟩ := live_frame calling.live
    refine ⟨same.keeps.lr (by simp [fast_places]),Int.le_of_eq top,?_,?_,?_,?_,fun w _ => words w,fits⟩
    · rw [top]
      exact (frame_bounds frame).aligned
    · rw [top,words]
    · exact same.keeps.gpr Rlocals (by simp [fast_places])
    · exact same.keeps.gpr Rthread (by simp [fast_places])
  | @slow m₁ _ as' covered inner =>
    have same := quiet rfl
    have ready' := nested_ready ready (quiet_calling same calling) ((quiet_sizes same).1.trans parameters) covered
    cases reached_good ready' inner with
    | blr left =>
      have top : m₁.gpr r1 = m.gpr r1 := same.keeps.gpr r1 (by simp [fast_places])
      have words : ∀ w, m₁.read w = m.read w := fun w => congrArg (Cells.word wide · w) same.mem
      have lower := left.caller.lower
      change _ ≤ m₁.gpr r1 at lower
      refine ⟨left.return_address.trans (same.keeps.lr (by simp [fast_places])),by rw [← top]; exact lower,left.caller.aligned,?_,?_,?_,
        fun w member => (left.caller.outer w member).trans (words w),fits⟩
      · rw [left.caller.back_chain]
        change m₁.read (m₁.gpr r1) = _
        rw [top,words]
      · exact left.locals.trans (same.keeps.gpr Rlocals (by simp [fast_places]))
      · exact left.thread.trans (same.keeps.gpr Rthread (by simp [fast_places]))

-- An empty method or an accessor is a callee as the frame manager expects it, on
-- either path.
theorem fast_entry_returns (ready : e.Ready) (run : Steps e (entered e) ⟨as,.call_non_interpreted_method p m⟩) (entry : FastEntry)
    (returned : FastReturned e as (entry.code m) m')
    (fits : m'.read (m'.gpr Rthread + pending_exception_offset) = 0 → ∃ t, result_type m' = some t ∧
      ∀ b rest, as = b :: rest → b.field m' .stack_limit ≤ m'.gpr Rlocals - result_words t * wordSize) :
    m'.lr = site .callee_returned ∧ Step e ⟨as,.call_non_interpreted_method p m⟩ ⟨as,.callee_returned p m'⟩ := by
  cases reached_good ready run with
  | call_non_interpreted_method calling positive parameters address =>
    obtain ⟨lr,ran⟩ := fast_entry_returned ready calling parameters entry returned fits
    exact ⟨lr.trans address,.callee ran⟩

-- A call of an accessor that takes its fast path leaves the field's value in place
-- of the receiver, when the frame manager goes on from where the accessor left it.
theorem accessor_pushes (ready : e.Ready) (run : Steps e (entered e) ⟨as,.call_non_interpreted_method 1 m⟩)
    (fast : accessor_entry m = .blr m') (none : m.read (m.gpr Rthread + pending_exception_offset) = 0)
    (result : result_type m = some t) (type : field_type m = tos x) (returns : Returns x t) :
    Step e ⟨as,.call_non_interpreted_method 1 m⟩ ⟨as,.callee_returned 1 m'⟩ ∧
    ∃ m₁, callee_returned m' = some (.call_interpreter m₁) ∧ ∀ b rest, as = b :: rest →
      b.field m₁ .stack = b.field m .stack ∧ on_top t m₁.mem (b.field m₁ .stack) = field_value x m (field_address m) := by
  cases reached_good ready run with
  | @call_non_interpreted_method rest _ _ b calling positive parameters address =>
    have same := fast_entry_quiet (m := m) .accessor (by rw [FastEntry.code,fast]; rfl)
    have one : result_words t = 1 := by
      unfold Returns at returns
      split at returns
      · subst returns; rfl
      · simp only [List.mem_cons,List.not_mem_nil,or_false] at returns
        rcases returns with rfl|rfl|rfl|rfl|rfl <;> rfl
    have result' : result_type m' = some t := (quiet_sizes same).2.trans result
    have calling' := quiet_calling same calling
    have locals := calling'.locals
    obtain ⟨_,frame⟩ := live_frame calling'.live
    have limit := (frame_bounds frame).limit
    have fits : b.field m' .stack_limit ≤ m'.gpr Rlocals - result_words t * wordSize := by
      rw [one,locals]
      push_cast
      omega
    obtain ⟨_,ran⟩ := fast_entry_returned ready calling parameters .accessor (by rw [FastEntry.code,fast]; exact .fast)
      fun _ => ⟨t,result',fun b' rest' here => by obtain ⟨rfl,rfl⟩ := List.cons.inj here; exact fits⟩
    obtain ⟨c,handled⟩ := callee_handled fun _ => ⟨t,result'⟩
    have none' : m'.read (m'.gpr Rthread + pending_exception_offset) = 0 := by
      rw [same.keeps.gpr Rthread (by simp [fast_places]),Machine.read,same.mem]
      exact none
    obtain ⟨m₁,rfl,running,_,_,pushed⟩ := callee_resumed ready calling' positive handled fun _ t' type' => by
      obtain rfl := Option.some.inj (type'.symm.trans result')
      exact fits
    rw [if_pos none'] at pushed
    obtain ⟨t',type',stack,value⟩ := pushed
    obtain rfl := Option.some.inj (type'.symm.trans result')
    refine ⟨.callee ran,m₁,handled,fun b' rest' here => ?_⟩
    obtain ⟨rfl,rfl⟩ := List.cons.inj here
    have before : b.field m' .stack = b.field m .stack := by rw [Activation.field,same.mem]; rfl
    refine ⟨?_,value.trans (accessor_value fast type returns)⟩
    rw [stack,one,locals,before]
    push_cast
    omega

@[reducible] def FastCode.plain : FastCode := {Code.plain with
  address_of_state := 0xb000
  not_synchronized := 0
  base_offset := 0
  log_entry_words := 2
  indices_offset := 0
  f2_offset := 16
  flags_offset := 24
  tosBits := 28
  getfield := 180
  tos := fun x => x.ctorIdx
  tos_apart := fun x y same => by cases x <;> cases y <;> first | rfl | exact absurd same (by decide)}

-- A method that reads the int at offset 8 of its receiver by entry 3 of its constant
-- pool cache, and a caller of it.
def accessor_method : Cells := fun a =>
  if a = 0x9000 then 0x10001 else if a = 0x9004 then 0x10000 else if a = 0x9014 then 0xd000 else if a = 0x901c then 0xe000
  else if a = 0x9020 then 4 else if a = 0xd000 then 0x2ab40003 else if a = 0xe00c then 0xf000 else if a = 0xf064 then 0xb40000
  else if a = 0xf074 then 8 else if a = 0xf07c then 0x10000000 else if a = 0xc008 then 42 else 0
def getter_entry : Entry := ⟨{at_entry with mem := accessor_method},[],16,0x2000⟩

def asked_getter : Machine :=
  let m := requesting 0 .call_method (call_interpreter (start getter_entry.machine))
  let base := state m .stack_base
  {m with mem := (m.mem.putWord wide (base - 8) 0xc000).setField (m.gpr Rstate) .stack (base - 16)}
theorem asked_getter_gpr : asked_getter.gpr = (call_interpreter (start getter_entry.machine)).gpr := rfl

def called_getter : Machine :=
  let m := step (exec interpreter_returned asked_getter) (.compareImm cr0 r4 (message .call_method))
  {exec [.mtctr r0] (exec prepare_call m) with lr := site .callee_returned}
def got_field : Machine := load_field itos (step (step (located called_getter) (.compareImm cr0 r8 (tos atos))) (.compareImm cr0 r8 (tos itos)))

omit [FastCode] in
theorem getter_ready : letI := FastCode.plain; getter_entry.Ready :=
  letI := FastCode.plain
  ⟨by decide,by decide,(fun _ member => absurd member List.not_mem_nil),by decide,by decide,
    by rintro o (rfl|rfl) <;> decide⟩

omit [FastCode] in
theorem asks_for_getter : letI := FastCode.plain
    Step getter_entry (entered getter_entry) ⟨(entered getter_entry).activations,.interpreter_returned asked_getter⟩ := by
  let := FastCode.plain
  refine .interpreter ?room ?ran
  case room => decide
  case ran =>
    constructor
    case registers => exact fun r _ => congrFun asked_getter_gpr r
    case back_chain => decide
    case words => decide
    case stack => exact ⟨1,by decide,by decide⟩
    case request => exact ⟨.call_method,by decide,.call_method (by decide) (by decide)⟩

omit [FastCode] in
theorem getter_called : letI := FastCode.plain
    Step getter_entry ⟨(entered getter_entry).activations,.interpreter_returned asked_getter⟩
      ⟨(entered getter_entry).activations,.call_non_interpreted_method 1 called_getter⟩ := by
  let := FastCode.plain
  have found : examine_message requests (exec interpreter_returned asked_getter) = some (.call_method,_) := if_pos (by decide)
  have handled : handle_message .call_method _ = some (.call_non_interpreted_method called_getter) :=
    congrArg some (if_neg (by decide))
  have called := (Step.message found handled : Step getter_entry ⟨(entered getter_entry).activations,_⟩ _)
  have parameters : size_of_parameters (callee (step (exec interpreter_returned asked_getter) (.compareImm cr0 r4 (message .call_method)))) = 1 := by
    decide
  unfold after at called
  rw [parameters] at called
  exact called

omit [FastCode] in
theorem calls_getter : letI := FastCode.plain
    Steps getter_entry (entered getter_entry) ⟨(entered getter_entry).activations,.call_non_interpreted_method 1 called_getter⟩ :=
  letI := FastCode.plain
  .tail (.single asks_for_getter) getter_called

set_option maxRecDepth 4000 in
omit [FastCode] in
theorem getter_fast : letI := FastCode.plain; accessor_entry called_getter = .blr got_field := by
  let := FastCode.plain
  unfold accessor_entry
  dsimp only
  rw [if_pos (by decide),if_neg (by decide),if_pos (by decide)]
  unfold tos_states load_value
  dsimp only
  rw [if_neg (by decide)]
  unfold load_value
  exact if_pos (by decide)

omit [FastCode] in
theorem accessor_pushes_int : letI := FastCode.plain
    ∃ m₁, callee_returned got_field = some (.call_interpreter m₁) ∧ ∀ b rest, (entered getter_entry).activations = b :: rest →
      on_top T_INT m₁.mem (b.field m₁ .stack) = .int 42 := by
  let := FastCode.plain
  obtain ⟨_,m₁,handled,pushed⟩ := accessor_pushes (x := itos) getter_ready calls_getter getter_fast (by decide) (t := T_INT) (by decide)
    (by decide) (by unfold Returns; decide)
  have value : field_value itos called_getter (field_address called_getter) = .int 42 := by decide
  exact ⟨m₁,handled,fun b rest same => ((pushed b rest same).2).trans value⟩

omit [FastCode] in
theorem fast_entry_returns_int : letI := FastCode.plain
    got_field.lr = site .callee_returned ∧ Step getter_entry
      ⟨(entered getter_entry).activations,.call_non_interpreted_method 1 called_getter⟩
      ⟨(entered getter_entry).activations,.callee_returned 1 got_field⟩ := by
  let := FastCode.plain
  refine fast_entry_returns getter_ready calls_getter .accessor (by rw [FastEntry.code,getter_fast]; exact .fast) fun _ =>
    ⟨T_INT,by decide,fun b rest same => ?_⟩
  obtain ⟨rfl,rfl⟩ := List.cons.inj same
  decide
end IcedTea.CppInterpreter

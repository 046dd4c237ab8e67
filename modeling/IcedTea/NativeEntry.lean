import IcedTea.Vm

namespace IcedTea.NativeEntry
open Target Vm

abbrev Object := Nat

-- Mark words. An unlocked object has its header there, with the low bits of
-- markOopDesc::unlocked_value; a locked one the address of a monitor record, or
-- of an inflated monitor.
def unlocked_value : Int := 1
def Unlocked (mark : Int) : Prop := mark % 4 = 1
def Inflated (mark : Int) : Prop := mark % 4 = 2

instance (mark : Int) : Decidable (Unlocked mark) := inferInstanceAs (Decidable (_ = _))

def set_unlocked (mark : Int) : Int := mark - andImmediate mark unlocked_value + unlocked_value

inductive ThreadState where
  | thread_in_Java | thread_in_native | thread_in_native_trans
  deriving DecidableEq, Repr

structure Method where
  synchronized : Bool
  static : Bool
  mirror : Object

-- What the entry reads and writes. `obj` and `displaced_header` are the monitor
-- record; objects keep their names when the collector moves them, `oop` is where
-- they are.
structure State where
  marks : Object → Int
  oop : Object → Int
  obj : Option Object
  displaced_header : Int
  signature_handler : Int
  native_function : Int
  pending_exception : Int
  thread_state : ThreadState
  last_Java_frame : Bool
  not_synchronized : Bool
  suspend_flags : Int
  handles : Int → Int
  handle_block_top : Int
  oop_temp : Int
  r3 : Int

-- What code elsewhere may do meanwhile: a monitor record is its activation's, and
-- the mark word of an object that is locked is not unlocked by anyone else,
-- though the lock may be inflated.
structure Respects (s s' : State) : Prop where
  obj : s'.obj = s.obj
  displaced_header : s'.displaced_header = s.displaced_header
  marks : ∀ o, s.obj = some o → ¬ Unlocked (s.marks o) → s'.marks o = s.marks o ∨ Inflated (s'.marks o)

-- The code that is called.
structure Callees where
  prepare_native_call : State → State
  signature_handler : Int → State → State × Int
  native_function : Int → State → State
  check_special_condition_for_native_trans : State → State
  result_handler : Int → Int → Int
  object_result : Int
  prepare_respects : ∀ s, Respects s (prepare_native_call s)
  handler_respects : ∀ handler s, Respects s (signature_handler handler s).1
  native_respects : ∀ function s, Respects s (native_function function s)
  check_respects : ∀ s, Respects s (check_special_condition_for_native_trans s)

variable [Vm]

-- What compute_interpreter_state puts in the record of a synchronized method.
def Method.lockee (m : Method) (receiver : Object) : Object := if m.static then m.mirror else receiver

def compute_interpreter_state (m : Method) (receiver : Object) (s : State) : State :=
  if m.synchronized then {s with obj := some (m.lockee receiver)} else s

-- InterpreterMacroAssembler::lock_object; none is unimplemented().
def lock_object (entry : Int) (s : State) : Option State :=
  match s.obj with
  | none => none
  | some lockee =>
    let displaced := set_unlocked (s.marks lockee)
    let s := {s with displaced_header := displaced}
    if s.marks lockee = displaced then some {s with marks := Function.update s.marks lockee entry} else none

-- InterpreterMacroAssembler::unlock_object. Where the comment has set_obj(NULL)
-- the code loads obj, and leaves it.
def unlock_object (entry : Int) (s : State) : Option State :=
  match s.obj with
  | none => none
  | some lockee =>
    let lock := entry + lock_offset_in_bytes
    let header := s.displaced_header
    if header = 0 then some s else
    if s.marks lockee = lock then some {s with marks := Function.update s.marks lockee header} else none

def lock_if_necessary (m : Method) (entry : Int) (s : State) : Option State :=
  if m.synchronized then lock_object entry s else some s

def unlock_if_necessary (m : Method) (entry : Int) (s : State) : Option State :=
  if m.synchronized then unlock_object entry s else some s

-- Up to got_signature_handler.
def prepare (c : Callees) (s : State) : State := if s.signature_handler ≠ 0 then s else c.prepare_native_call s

def pass_mirror (m : Method) (s : State) : State := if m.static then {s with oop_temp := s.oop m.mirror} else s

def set_last_Java_frame (s : State) : State := {s with last_Java_frame := true, thread_state := .thread_in_native}

def block_if_necessary (c : Callees) (s : State) : State :=
  let s := {s with thread_state := .thread_in_native_trans}
  let s := if ¬ s.not_synchronized ∨ s.suspend_flags ≠ 0 then c.check_special_condition_for_native_trans s else s
  {s with last_Java_frame := false, thread_state := .thread_in_Java}

-- An object among the results is taken out of its handle and put in the frame.
def unbox (c : Callees) (handler r3_save : Int) (s : State) : State × Int :=
  let r3_save : Int := if handler = c.object_result ∧ r3_save ≠ 0 then s.handles r3_save else r3_save
  let s := if handler = c.object_result then {s with oop_temp := r3_save} else s
  ({s with handle_block_top := 0},r3_save)

-- From the call of the signature handler to the reset of the handle block; the
-- result and the result handler come along.
def call_native (m : Method) (c : Callees) (s : State) : State × Int × Int :=
  let function := s.native_function
  let (s,handler) := c.signature_handler s.signature_handler s
  let s := c.native_function function (set_last_Java_frame (pass_mirror m s))
  let (s,r3_save) := unbox c handler s.r3 (block_if_necessary c s)
  (s,r3_save,handler)

-- generate_native_entry, as far as return_to_caller.
def native_entry (m : Method) (c : Callees) (entry : Int) (receiver : Object) (s : State) : Option State := do
  let s := compute_interpreter_state m receiver s
  let s ← lock_if_necessary m entry s
  let prepared := prepare c s
  if s.signature_handler = 0 ∧ prepared.pending_exception ≠ 0 then some prepared else
  let (s,r3_save,handler) := call_native m c prepared
  if s.pending_exception ≠ 0 then some s else
  let s ← unlock_if_necessary m entry s
  some {s with r3 := c.result_handler handler r3_save}

-- Neither of the two exceptional branches to return_to_caller is taken.
def NoException (m : Method) (c : Callees) (entry : Int) (receiver : Object) (s : State) : Prop :=
  ∀ locked, lock_if_necessary m entry (compute_interpreter_state m receiver s) = some locked →
    (locked.signature_handler = 0 → (prepare c locked).pending_exception = 0) ∧
    (call_native m c (prepare c locked)).1.pending_exception = 0

omit [Vm] in
theorem set_unlocked_same (mark : Int) (unlocked : Unlocked mark) : set_unlocked mark = mark := by
  have bit : andImmediate mark unlocked_value = 1 := by
    unfold andImmediate unlocked_value
    unfold Unlocked at unlocked
    have value : (1 : Int).toNat = 2^1 - 1 := rfl
    rw [value,Nat.and_two_pow_sub_one_eq_mod]
    omega
  rw [set_unlocked,bit]
  exact Int.sub_add_cancel mark 1

-- A locked object: the record holds its header, and its mark word is the address
-- of the record or of an inflated monitor.
structure Locked (lockee : Object) (header entry : Int) (s : State) : Prop where
  obj : s.obj = some lockee
  displaced_header : s.displaced_header = header
  mark : s.marks lockee = entry ∨ Inflated (s.marks lockee)

omit [Vm] in
theorem Locked.not_unlocked {lockee : Object} {header entry : Int} {s : State} (locked : Locked lockee header entry s)
    (aligned : entry % 4 = 0) : ¬ Unlocked (s.marks lockee) := by
  intro unlocked
  unfold Unlocked at unlocked
  rcases locked.mark with own|inflated
  · rw [own] at unlocked
    omega
  · unfold Inflated at inflated
    omega

omit [Vm] in
theorem Locked.respected {lockee : Object} {header entry : Int} {s s' : State} (locked : Locked lockee header entry s)
    (aligned : entry % 4 = 0) (respects : Respects s s') : Locked lockee header entry s' := by
  constructor
  case obj => exact respects.obj.trans locked.obj
  case displaced_header => exact respects.displaced_header.trans locked.displaced_header
  case mark =>
    rcases respects.marks lockee locked.obj (locked.not_unlocked aligned) with same|inflated
    · rw [same]
      exact locked.mark
    · exact Or.inr inflated

-- Steps that leave the record and the mark words alone.
omit [Vm] in
theorem Locked.same {lockee : Object} {header entry : Int} {s s' : State} (locked : Locked lockee header entry s)
    (obj : s'.obj = s.obj) (displaced_header : s'.displaced_header = s.displaced_header) (marks : s'.marks = s.marks) :
    Locked lockee header entry s' :=
  ⟨obj.trans locked.obj,displaced_header.trans locked.displaced_header,by rw [marks]; exact locked.mark⟩

omit [Vm] in
theorem prepare_locked {lockee : Object} {header entry : Int} {s : State} (c : Callees)
    (locked : Locked lockee header entry s) (aligned : entry % 4 = 0) : Locked lockee header entry (prepare c s) := by
  unfold prepare
  split
  · exact locked
  · exact locked.respected aligned (c.prepare_respects s)

omit [Vm] in
theorem block_locked {lockee : Object} {header entry : Int} {s : State} (c : Callees)
    (locked : Locked lockee header entry s) (aligned : entry % 4 = 0) :
    Locked lockee header entry (block_if_necessary c s) := by
  have in_trans : Locked lockee header entry {s with thread_state := .thread_in_native_trans} :=
    locked.same rfl rfl rfl
  unfold block_if_necessary
  simp only
  split
  · exact (in_trans.respected aligned (c.check_respects _)).same rfl rfl rfl
  · exact in_trans.same rfl rfl rfl

omit [Vm] in
theorem unbox_locked {lockee : Object} {header entry : Int} {s : State} (c : Callees) (handler r3_save : Int)
    (locked : Locked lockee header entry s) : Locked lockee header entry (unbox c handler r3_save s).1 := by
  unfold unbox
  simp only
  split <;> exact locked.same rfl rfl rfl

omit [Vm] in
theorem call_native_locked {lockee : Object} {header entry : Int} {s : State} (m : Method) (c : Callees)
    (locked : Locked lockee header entry s) (aligned : entry % 4 = 0) :
    Locked lockee header entry (call_native m c s).1 := by
  have handled := locked.respected aligned (c.handler_respects s.signature_handler s)
  have passed : Locked lockee header entry (pass_mirror m (c.signature_handler s.signature_handler s).1) := by
    unfold pass_mirror
    split
    · exact handled.same rfl rfl rfl
    · exact handled
  have in_native : Locked lockee header entry (set_last_Java_frame _) := passed.same rfl rfl rfl
  have called := in_native.respected aligned (c.native_respects s.native_function _)
  exact unbox_locked c _ _ (block_locked c called aligned)

omit [Vm] in
-- The lock is taken: the lockee was unlocked.
theorem lock_taken {m : Method} (synchronized : m.synchronized = true) (entry : Int) (receiver : Object) {s : State}
    (unlocked : Unlocked (s.marks (m.lockee receiver))) :
    ∃ locked, lock_if_necessary m entry (compute_interpreter_state m receiver s) = some locked ∧
      Locked (m.lockee receiver) (s.marks (m.lockee receiver)) entry locked := by
  have header := set_unlocked_same _ unlocked
  unfold lock_if_necessary compute_interpreter_state lock_object
  simp only [synchronized,if_true,header]
  exact ⟨_,rfl,rfl,rfl,.inl (Function.update_self ..)⟩

theorem unlock_restores {m : Method} (synchronized : m.synchronized = true) {entry header : Int} {lockee : Object}
    {s s' : State} (locked : Locked lockee header entry s) (unlocked : Unlocked header)
    (run : unlock_if_necessary m entry s = some s') : s'.marks lockee = header := by
  have some_header : header ≠ 0 := by
    unfold Unlocked at unlocked
    omega
  unfold unlock_if_necessary unlock_object at run
  simp only [synchronized,if_true,locked.obj,locked.displaced_header,some_header,if_false] at run
  split at run
  · cases run
    exact Function.update_self ..
  · cases run

-- The lock a synchronized native method takes is released at return_to_caller
-- exactly when no exception got there first.
theorem native_lock_released (m : Method) (c : Callees) (entry : Int) (receiver : Object) (s s' : State)
    (synchronized : m.synchronized = true) (aligned : entry % 4 = 0)
    (unlocked : Unlocked (s.marks (m.lockee receiver))) (run : native_entry m c entry receiver s = some s') :
    (s'.marks (m.lockee receiver) = s.marks (m.lockee receiver) ∧ s'.marks (m.lockee receiver) ≠ entry) ↔
      NoException m c entry receiver s := by
  obtain ⟨taken,lock_run,locked⟩ := lock_taken synchronized entry receiver unlocked
  have prepared := prepare_locked c locked aligned
  have called := call_native_locked m c prepared aligned
  have header_differs : s.marks (m.lockee receiver) ≠ entry := by
    unfold Unlocked at unlocked
    omega
  have held : ∀ t, Locked (m.lockee receiver) (s.marks (m.lockee receiver)) entry t →
      t.marks (m.lockee receiver) ≠ s.marks (m.lockee receiver) := by
    intro t still same
    apply still.not_unlocked aligned
    rwa [same]
  unfold native_entry at run
  simp only at run
  rw [lock_run,Option.bind_eq_bind,Option.bind_some] at run
  unfold NoException
  simp only [lock_run,Option.some.injEq,forall_eq']
  by_cases raised : taken.signature_handler = 0 ∧ (prepare c taken).pending_exception ≠ 0
  · rw [if_pos raised] at run
    cases run
    constructor
    · intro back
      exact absurd back.1 (held _ prepared)
    · intro no_exception
      exact absurd (no_exception.1 raised.1) raised.2
  · rw [if_neg raised] at run
    have got_handler : taken.signature_handler = 0 → (prepare c taken).pending_exception = 0 := by
      intro none_yet
      by_contra pending
      exact raised ⟨none_yet,pending⟩
    by_cases pending : (call_native m c (prepare c taken)).1.pending_exception ≠ 0
    · rw [if_pos pending] at run
      cases run
      constructor
      · intro back
        exact absurd back.1 (held _ called)
      · intro no_exception
        exact absurd no_exception.2 pending
    · rw [if_neg pending] at run
      obtain ⟨released,unlock_run,result⟩ := Option.bind_eq_some_iff.mp run
      have restored := unlock_restores synchronized called unlocked unlock_run
      cases result
      constructor
      · intro _
        exact ⟨got_handler,not_not.mp pending⟩
      · intro _
        exact ⟨restored,by rw [restored]; exact header_differs⟩

-- A native method that returns at once, with an exception or without.
def returns (pending : Int) : Callees where
  prepare_native_call s := s
  signature_handler _ s := (s,0)
  native_function _ s := {s with pending_exception := pending}
  check_special_condition_for_native_trans s := s
  result_handler _ r3 := r3
  object_result := 1
  prepare_respects _ := ⟨rfl,rfl,fun _ _ _ => .inl rfl⟩
  handler_respects _ _ := ⟨rfl,rfl,fun _ _ _ => .inl rfl⟩
  native_respects _ _ := ⟨rfl,rfl,fun _ _ _ => .inl rfl⟩
  check_respects _ := ⟨rfl,rfl,fun _ _ _ => .inl rfl⟩

def entered : State :=
  ⟨fun _ => 5,fun _ => 0,none,0,0x1000,0x2000,0,.thread_in_Java,false,true,0,fun _ => 0,0,0,0⟩

-- A monitor record with its lock first.
@[reducible] def lock_first : Vm := {Vm.plain ppc32 with lock_offset_in_bytes := 0}

omit [Vm] in
theorem native_lock_released_plain :
    letI := lock_first
    ∃ s', native_entry ⟨true,true,3⟩ (returns 0) 0x4000 7 entered = some s' ∧
      ((s'.marks 3 = 5 ∧ s'.marks 3 ≠ 0x4000) ↔ NoException ⟨true,true,3⟩ (returns 0) 0x4000 7 entered) :=
  letI := lock_first
  ⟨_,rfl,native_lock_released ⟨true,true,3⟩ (returns 0) 0x4000 7 entered _ rfl (by decide) (by decide) rfl⟩

omit [Vm] in
theorem native_lock_kept :
    letI := lock_first
    ∃ s', native_entry ⟨true,true,3⟩ (returns 1) 0x4000 7 entered = some s' ∧
      ¬ (s'.marks 3 = 5 ∧ s'.marks 3 ≠ 0x4000) := by
  let vm := lock_first
  refine ⟨_,rfl,?_⟩
  intro back
  exact absurd back.1 (by decide)

end IcedTea.NativeEntry

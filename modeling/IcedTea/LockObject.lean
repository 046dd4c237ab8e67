import IcedTea.MacroAssembler
import IcedTea.NativeEntry

namespace IcedTea.LockObject
open Vm NativeEntry

-- A monitor record's displaced header is inside it, apart from its obj.
class Layout extends Vm where
  mark_offset_in_bytes : Int
  displaced_inside : 0 ≤ lock_offset_in_bytes + displaced_header_offset_in_bytes ∧
    lock_offset_in_bytes + displaced_header_offset_in_bytes + wordSize ≤ interpreter_frame_monitor_size * wordSize
  displaced_apart : obj_offset_in_bytes + wordSize ≤ lock_offset_in_bytes + displaced_header_offset_in_bytes ∨
    lock_offset_in_bytes + displaced_header_offset_in_bytes + wordSize ≤ obj_offset_in_bytes
open Layout

section
variable [Target]

-- A conditional store may fail without cause.
def store_conditional_indexed (fails : Bool) (src b : Register) (m : Machine) : Machine :=
  if fails then m.setField cr0 0 else (m.write (m.gpr b) (m.gpr src)).setField cr0 2

-- MacroAssembler::cmpxchg_ on a word no other thread stores to meanwhile; the
-- conditional store fails `failures` times.
def cmpxchg_ (exchange dst comp : Register) : Nat → Machine → Machine
  | 0,m =>
    let m := exec [.load r0 ⟨dst,0⟩,.compare cr0 r0 comp] m
    if (m.cr cr0).eq then store_conditional_indexed false exchange dst m else m
  | failures+1,m =>
    let m := exec [.load r0 ⟨dst,0⟩,.compare cr0 r0 comp] m
    if (m.cr cr0).eq then cmpxchg_ exchange dst comp failures (store_conditional_indexed true exchange dst m) else m
theorem cmpxchg_same (exchange dst comp : Register) (failures : Nat) (m : Machine) (exchange_apart : exchange ≠ r0)
    (dst_apart : dst ≠ r0) (comp_apart : comp ≠ r0) (equal : m.read (m.gpr dst) = m.gpr comp) :
    let m' := cmpxchg_ exchange dst comp failures m
    (m'.cr cr0).eq ∧ m'.mem = m.mem.putWord wide (m.gpr dst) (m.gpr exchange) ∧ ∀ r, r ≠ r0 → m'.gpr r = m.gpr r := by
  simp only [r0] at exchange_apart dst_apart comp_apart
  have loaded : ((exec [.load r0 ⟨dst,0⟩,.compare cr0 r0 comp] m).cr cr0).eq := by
    simpa [step,comp_apart] using equal
  have registers : ∀ r, r ≠ 0 → (exec [.load r0 ⟨dst,0⟩,.compare cr0 r0 comp] m).gpr r = m.gpr r := by
    intro r other
    simp [step,other]
  induction failures generalizing m with
  | zero =>
    simp only [cmpxchg_,if_pos loaded,store_conditional_indexed,Bool.false_eq_true,if_false]
    refine ⟨?_,?_,registers⟩
    · simp [Field.eq]
    · change Cells.putWord wide m.mem _ _ = _
      rw [registers dst dst_apart,registers exchange exchange_apart]
  | succ failures ih =>
    simp only [cmpxchg_,if_pos loaded,store_conditional_indexed,if_true]
    let m₁ := (exec [.load r0 ⟨dst,0⟩,.compare cr0 r0 comp] m).setField cr0 0
    have again : ∀ r, r ≠ 0 → m₁.gpr r = m.gpr r := registers
    obtain ⟨eq,mem,gpr⟩ := ih m₁
      (by rw [again dst dst_apart,again comp comp_apart]; exact equal)
      (by
        have once_more : m₁.read (m₁.gpr dst) = m₁.gpr comp := by
          rw [again dst dst_apart,again comp comp_apart]
          exact equal
        simpa [step,comp_apart] using once_more)
      (by
        intro r other
        simp [step,other])
    refine ⟨eq,?_,fun r other => (gpr r other).trans (again r other)⟩
    rw [mem,again dst dst_apart,again exchange exchange_apart]
    rfl

-- Whatever the word holds, nothing else is stored to.
theorem cmpxchg_outside (exchange dst comp : Register) (failures : Nat) (m : Machine) (dst_apart : dst ≠ r0) :
    Cells.SameOutside (m.gpr dst) (m.gpr dst + wordSize) m.mem (cmpxchg_ exchange dst comp failures m).mem := by
  simp only [r0] at dst_apart
  have register : (exec [.load r0 ⟨dst,0⟩,.compare cr0 r0 comp] m).gpr dst = m.gpr dst := by simp [step,dst_apart]
  induction failures generalizing m with
  | zero =>
    simp only [cmpxchg_]
    split
    · simp only [store_conditional_indexed,Bool.false_eq_true,if_false]
      have put := @Cells.SameOutside.putWord (m.gpr dst) (m.gpr dst) wide (m.gpr dst + wordSize) m.mem
        ((exec [.load r0 ⟨dst,0⟩,.compare cr0 r0 comp] m).gpr exchange) (Int.le_refl _) (Int.le_refl _)
      rw [← register] at put ⊢
      exact put
    · exact Cells.SameOutside.refl _ _ _
  | succ failures ih =>
    simp only [cmpxchg_]
    split
    · let m₁ := store_conditional_indexed true exchange dst (exec [.load r0 ⟨dst,0⟩,.compare cr0 r0 comp] m)
      have again : m₁.gpr dst = m.gpr dst := register
      have rest := ih m₁ (by simp [step,dst_apart])
      rw [again] at rest
      exact rest
    · exact Cells.SameOutside.refl _ _ _
end

section
variable [Layout]

-- InterpreterMacroAssembler::lock_object; none is unimplemented().
def lock_object (entry : Register) (failures : Nat) (m : Machine) : Option Machine :=
  let lockee := r3
  let mark := r4
  let displaced := r5
  let m := exec
    [.load lockee ⟨entry,obj_offset_in_bytes⟩,
     .la mark ⟨lockee,mark_offset_in_bytes⟩,
     .load displaced ⟨mark,0⟩,
     .ori displaced displaced unlocked_value,
     .store displaced ⟨entry,lock_offset_in_bytes + displaced_header_offset_in_bytes⟩] m
  let m := cmpxchg_ entry mark displaced failures m
  if (m.cr cr0).eq then some m else none

-- InterpreterMacroAssembler::unlock_object. Under the comment
-- entry->set_obj(NULL) the second instruction is a load as well.
def unlock_object (entry : Register) (failures : Nat) (m : Machine) : Option Machine :=
  let lockee := r3
  let mark := r4
  let lock := r5
  let header := r6
  let m := exec
    [.load lockee ⟨entry,obj_offset_in_bytes⟩,
     .la mark ⟨lockee,mark_offset_in_bytes⟩,
     .compareImm cr0 lockee 0] m
  if (m.cr cr0).eq then none else
  let m := exec
    [.la lock ⟨entry,lock_offset_in_bytes⟩,
     .load header ⟨lock,displaced_header_offset_in_bytes⟩,
     .loadImm r0 0,
     .load r0 ⟨entry,obj_offset_in_bytes⟩,
     .compareImm cr0 header 0] m
  if (m.cr cr0).eq then some m else
  let m := cmpxchg_ header mark lock failures m
  if (m.cr cr0).eq then some m else none

-- The addresses of a record's two words, and of an object's mark word.
def obj_addr (record : Int) : Int := record + obj_offset_in_bytes
def displaced_header_addr (record : Int) : Int := record + (lock_offset_in_bytes + displaced_header_offset_in_bytes)
def mark_addr (o : Int) : Int := o + mark_offset_in_bytes

-- A record whose obj field refers to an unlocked object.
structure Unlocked (entry : Register) (m : Machine) (o : Int) : Prop where
  different : [entry,r0,r3,r4,r5,r6].Nodup
  refers : m.read (obj_addr (m.gpr entry)) = o
  not_null : o ≠ 0
  unlocked : andImmediate (m.read (mark_addr o)) unlocked_value = unlocked_value
  apart : Range.Disjoint (mark_addr o,wordSize) (m.gpr entry,monitor_size)

-- No memory differs but an object's mark word and a record.
def SameElsewhere (o record : Int) (m m' : Machine) : Prop :=
  ∀ b, (b < mark_addr o ∨ mark_addr o + wordSize ≤ b) → (b < record ∨ record + monitor_size ≤ b) → m'.mem b = m.mem b

-- The lock as it was taken, whatever happened elsewhere.
structure Held (entry : Register) (o record : Int) (m m' : Machine) : Prop where
  entry : m'.gpr entry = record
  mark : m'.read (mark_addr o) = record
  record : ∀ b, record ≤ b → b < record + monitor_size → m'.mem b = m.mem b

-- What is said of taking the lock, and then of releasing it.
structure Released (o record before : Int) (obj : Int) (m m' : Machine) : Prop where
  mark : m'.read (mark_addr o) = before
  obj : m'.read (obj_addr record) = obj
  elsewhere : SameElsewhere o record m m'

def LocksAndUnlocks (entry : Register) (m : Machine) (o obj : Int) : Prop :=
  ∀ failures, ∃ locked, lock_object entry failures m = some locked ∧ SameElsewhere o (m.gpr entry) m locked ∧
    locked.read (mark_addr o) = m.gpr entry ∧
    ∀ failures' m', Held entry o (m.gpr entry) locked m' → ∃ freed, unlock_object entry failures' m' = some freed ∧
      Released o (m.gpr entry) (m.read (mark_addr o)) obj m' freed


theorem displaced_header_outside (o record v : Int) (m : Machine) :
    SameElsewhere o record m (m.write (displaced_header_addr record) v) := by
  intro b _ outside
  have inside := displaced_inside
  apply Cells.putWord_outside
  change b < displaced_header_addr record ∨ displaced_header_addr record + wordSize ≤ b
  unfold displaced_header_addr monitor_size at *
  omega

-- Locking displaces the header and leaves the record in its place.
theorem lock_object_spec {entry : Register} {m : Machine} {o : Int} (object : Unlocked entry m o) (failures : Nat) :
    ∃ locked, lock_object entry failures m = some locked ∧ locked.gpr entry = m.gpr entry ∧
      locked.mem = (m.mem.putWord wide (displaced_header_addr (m.gpr entry)) (m.read (mark_addr o))).putWord wide
        (mark_addr o) (m.gpr entry) := by
  obtain ⟨different,refers,not_null,unlocked,apart⟩ := object
  simp only [r0,r3,r4,r5,r6,List.nodup_cons,List.mem_cons,List.not_mem_nil,or_false,not_or] at different
  obtain ⟨⟨entry_0,entry_3,entry_4,entry_5,entry_6⟩,-⟩ := different
  let m₁ := exec
    [.load r3 ⟨entry,obj_offset_in_bytes⟩,
     .la r4 ⟨r3,mark_offset_in_bytes⟩,
     .load r5 ⟨r4,0⟩,
     .ori r5 r5 unlocked_value,
     .store r5 ⟨entry,lock_offset_in_bytes + displaced_header_offset_in_bytes⟩] m
  have lockee : m.read (m.gpr entry + obj_offset_in_bytes) = o := refers
  have header : m.read (o + mark_offset_in_bytes) - andImmediate (m.read (o + mark_offset_in_bytes)) unlocked_value
      + unlocked_value = m.read (mark_addr o) := by
    change m.read (mark_addr o) - andImmediate (m.read (mark_addr o)) unlocked_value + unlocked_value = _
    rw [unlocked]
    exact Int.sub_add_cancel _ _
  have at_entry : m₁.gpr entry = m.gpr entry := by simp [m₁,step,entry_3,entry_4,entry_5]
  have at_mark : m₁.gpr r4 = mark_addr o := by simp [m₁,step,lockee,mark_addr]
  have at_displaced : m₁.gpr r5 = m.read (mark_addr o) := by simp [m₁,step,lockee,header]
  have mem : m₁.mem = m.mem.putWord wide (displaced_header_addr (m.gpr entry)) (m.read (mark_addr o)) := by
    simp [m₁,step,lockee,header,entry_3,entry_4,entry_5,displaced_header_addr]
  have inside := displaced_inside
  have equal : m₁.read (m₁.gpr r4) = m₁.gpr r5 := by
    rw [at_mark,at_displaced,Machine.read,mem]
    apply Cells.word_putWord_apart
    simp only [Range.Disjoint] at apart
    change displaced_header_addr (m.gpr entry) + wordSize ≤ mark_addr o ∨
      mark_addr o + wordSize ≤ displaced_header_addr (m.gpr entry)
    unfold displaced_header_addr monitor_size at *
    omega
  obtain ⟨eq,stored,registers⟩ := cmpxchg_same entry r4 r5 failures m₁ entry_0 (by decide) (by decide) equal
  refine ⟨_,if_pos eq,(registers entry entry_0).trans at_entry,?_⟩
  rw [stored,at_mark,at_entry,mem]

theorem obj_range (record o : Int) (apart : Range.Disjoint (mark_addr o,wordSize) (record,monitor_size)) :
    mark_addr o + wordSize ≤ obj_addr record ∨ obj_addr record + wordSize ≤ mark_addr o := by
  have inside := obj_inside
  simp only [Range.Disjoint] at apart
  unfold obj_addr monitor_size at *
  omega

theorem locked_obj {entry : Register} {m locked : Machine} {o : Int} (object : Unlocked entry m o)
    (mem : locked.mem = (m.mem.putWord wide (displaced_header_addr (m.gpr entry)) (m.read (mark_addr o))).putWord wide
      (mark_addr o) (m.gpr entry)) : locked.read (obj_addr (m.gpr entry)) = o := by
  have far := obj_range (m.gpr entry) o object.apart
  have apart := displaced_apart
  rw [Machine.read,mem,Cells.word_putWord_apart _ _ far,Cells.word_putWord_apart]
  · exact object.refers
  · change displaced_header_addr (m.gpr entry) + wordSize ≤ obj_addr (m.gpr entry) ∨
      obj_addr (m.gpr entry) + wordSize ≤ displaced_header_addr (m.gpr entry)
    unfold displaced_header_addr obj_addr
    omega

-- Unlocking stores to the mark word of the record's object, if anything.
theorem unlock_object_outside {entry : Register} {m m' : Machine} {failures : Nat}
    (run : unlock_object entry failures m = some m') :
    Cells.SameOutside (mark_addr (m.read (obj_addr (m.gpr entry))))
      (mark_addr (m.read (obj_addr (m.gpr entry))) + wordSize) m.mem m'.mem := by
  unfold unlock_object at run
  simp only at run
  split at run
  · cases run
  · split at run
    · cases run
      exact Cells.SameOutside.refl _ _ _
    · split at run
      · cases run
        have stored := cmpxchg_outside r6 r4 r5 failures
          (exec
            [.la r5 ⟨entry,lock_offset_in_bytes⟩,.load r6 ⟨r5,displaced_header_offset_in_bytes⟩,.loadImm r0 0,
             .load r0 ⟨entry,obj_offset_in_bytes⟩,.compareImm cr0 r6 0]
            (exec
              [.load r3 ⟨entry,obj_offset_in_bytes⟩,.la r4 ⟨r3,mark_offset_in_bytes⟩,.compareImm cr0 r3 0] m)) (by decide)
        have at_mark : (exec
            [.la r5 ⟨entry,lock_offset_in_bytes⟩,.load r6 ⟨r5,displaced_header_offset_in_bytes⟩,.loadImm r0 0,
             .load r0 ⟨entry,obj_offset_in_bytes⟩,.compareImm cr0 r6 0]
            (exec
              [.load r3 ⟨entry,obj_offset_in_bytes⟩,.la r4 ⟨r3,mark_offset_in_bytes⟩,.compareImm cr0 r3 0] m)).gpr r4 =
            mark_addr (m.read (obj_addr (m.gpr entry))) := by
          simp [step,mark_addr,obj_addr]
        rw [at_mark] at stored
        exact stored
      · cases run

theorem unlock_object_spec {entry : Register} {m : Machine} {o record header : Int} (different : [entry,r0,r3,r4,r5,r6].Nodup)
    (at_entry : m.gpr entry = record) (refers : m.read (obj_addr record) = o) (not_null : o ≠ 0)
    (displaced : m.read (displaced_header_addr record) = header) (not_recursive : header ≠ 0)
    (mark : m.read (mark_addr o) = record + lock_offset_in_bytes) (failures : Nat) :
    ∃ freed, unlock_object entry failures m = some freed ∧ freed.mem = m.mem.putWord wide (mark_addr o) header := by
  simp only [r0,r3,r4,r5,r6,List.nodup_cons,List.mem_cons,List.not_mem_nil,or_false,not_or] at different
  obtain ⟨⟨entry_0,entry_3,entry_4,entry_5,entry_6⟩,-⟩ := different
  have lockee : m.read (record + obj_offset_in_bytes) = o := refers
  have header_at : m.read (record + lock_offset_in_bytes + displaced_header_offset_in_bytes) = header := by
    rw [Int.add_assoc]
    exact displaced
  let m₁ := exec [.load r3 ⟨entry,obj_offset_in_bytes⟩,.la r4 ⟨r3,mark_offset_in_bytes⟩,.compareImm cr0 r3 0] m
  have held : ¬ (m₁.cr cr0).eq := by simpa [m₁,step,at_entry,lockee] using not_null
  let m₂ := exec
    [.la r5 ⟨entry,lock_offset_in_bytes⟩,
     .load r6 ⟨r5,displaced_header_offset_in_bytes⟩,
     .loadImm r0 0,
     .load r0 ⟨entry,obj_offset_in_bytes⟩,
     .compareImm cr0 r6 0] m₁
  have first : ¬ (m₂.cr cr0).eq := by
    simpa [m₂,m₁,step,at_entry,entry_0,entry_3,entry_4,header_at] using not_recursive
  have at_mark : m₂.gpr r4 = mark_addr o := by simp [m₂,m₁,step,at_entry,lockee,mark_addr]
  have at_lock : m₂.gpr r5 = record + lock_offset_in_bytes := by
    simp [m₂,m₁,step,at_entry,entry_3,entry_4]
  have at_header : m₂.gpr r6 = header := by simp [m₂,m₁,step,at_entry,entry_3,entry_4,header_at]
  have mem : m₂.mem = m.mem := by simp [m₂,m₁,step]
  have equal : m₂.read (m₂.gpr r4) = m₂.gpr r5 := by
    rw [at_mark,at_lock,Machine.read,mem]
    exact mark
  obtain ⟨eq,stored,-⟩ := cmpxchg_same r6 r4 r5 failures m₂ (by decide) (by decide) (by decide) equal
  refine ⟨_,(if_neg held).trans ((if_neg first).trans (if_pos eq)),?_⟩
  rw [stored,at_mark,at_header,mem]

-- The two leave the obj field as it was: the record is not free, and all else that
-- is said of them holds.
theorem locks_and_unlocks {entry : Register} {m : Machine} {o : Int} (object : Unlocked entry m o)
    (lock_first : lock_offset_in_bytes = 0) : LocksAndUnlocks entry m o o := by
  intro failures
  obtain ⟨locked,run,at_entry,mem⟩ := lock_object_spec object failures
  have obj_kept := locked_obj object mem
  have inside := displaced_inside
  have obj_in := obj_inside
  have far : mark_addr o + wordSize ≤ m.gpr entry ∨ m.gpr entry + monitor_size ≤ mark_addr o := object.apart
  have header : locked.read (displaced_header_addr (m.gpr entry)) = m.read (mark_addr o) := by
    rw [Machine.read,mem,Cells.word_putWord_apart,Cells.word_putWord]
    change mark_addr o + wordSize ≤ displaced_header_addr (m.gpr entry) ∨
      displaced_header_addr (m.gpr entry) + wordSize ≤ mark_addr o
    unfold displaced_header_addr monitor_size at *
    omega
  refine ⟨locked,run,?_,?_,fun failures' m' held => ?_⟩
  · intro b outside_mark outside_record
    rw [mem,Cells.putWord_outside _ _ outside_mark]
    exact displaced_header_outside o (m.gpr entry) _ m b outside_mark outside_record
  · rw [Machine.read,mem]
    exact Cells.word_putWord _ _ _
  · have same : ∀ a, m.gpr entry ≤ a → a + wordSize ≤ m.gpr entry + monitor_size → m'.read a = locked.read a :=
      fun a low high => Cells.word_congr fun b lower upper => held.record b (by omega)
        (by change b < a + wordSize at upper; omega)
    have obj_same := same (obj_addr (m.gpr entry)) (by unfold obj_addr; omega) (by unfold obj_addr monitor_size; omega)
    have header_same := same (displaced_header_addr (m.gpr entry)) (by unfold displaced_header_addr; omega)
      (by unfold displaced_header_addr monitor_size; omega)
    have not_recursive : m.read (mark_addr o) ≠ 0 := by
      intro zero
      have bit := object.unlocked
      rw [zero] at bit
      exact absurd bit (by decide)
    obtain ⟨freed,unlocked,stored⟩ := unlock_object_spec object.different held.entry (obj_same.trans obj_kept) object.not_null
      (header_same.trans header) not_recursive (by rw [held.mark,lock_first,Int.add_zero]) failures'
    refine ⟨freed,unlocked,?_,?_,?_⟩
    · rw [Machine.read,stored]
      exact Cells.word_putWord _ _ _
    · rw [Machine.read,stored,Cells.word_putWord_apart _ _ (obj_range (m.gpr entry) o object.apart)]
      exact obj_same.trans obj_kept
    · intro b outside_mark _
      rw [stored,Cells.putWord_outside _ _ outside_mark]

theorem obj_not_changed {entry : Register} {m : Machine} {o obj : Int} (object : Unlocked entry m o)
    (property : LocksAndUnlocks entry m o obj) : obj = o := by
  obtain ⟨locked,run,-,mark,rest⟩ := property 0
  obtain ⟨locked',run',at_entry,mem⟩ := lock_object_spec object 0
  obtain rfl := Option.some.inj (run.symm.trans run')
  obtain ⟨m',unlocked,released⟩ := rest 0 locked ⟨at_entry,mark,fun _ _ _ => rfl⟩
  have same := unlock_object_outside unlocked
  have obj_kept := locked_obj object mem
  rw [at_entry,obj_kept] at same
  have far := obj_range (m.gpr entry) o object.apart
  have after : m'.read (obj_addr (m.gpr entry)) = o := (same.word far.symm).trans obj_kept
  exact released.obj.symm.trans after

-- A record that was locked is never free again.
theorem not_freed {entry : Register} {m : Machine} {o : Int} (object : Unlocked entry m o) : ¬ LocksAndUnlocks entry m o 0 :=
  fun freed => object.not_null (obj_not_changed object freed).symm

end

@[reducible] def Layout.plain (target : Target) : Layout where
  toVm := Vm.plain target
  mark_offset_in_bytes := 0
  displaced_inside := by
    have pos := wordSize_pos
    change 0 ≤ 0 + 0 ∧ 0 + 0 + wordSize ≤ 2 * wordSize
    omega
  displaced_apart := by
    change _ ∨ 0 + 0 + wordSize ≤ wordSize
    omega

-- A record at 0x1000, its lock first, for an object at 0x2000.
def one_object : Machine where
  gpr r := if r = Rmonitor then 0x1000 else 0
  fpr _ := 0
  cr _ := 0
  lr := 0
  ctr := 0
  mem a := if a = 0x1004 then 0x2000 else if a = 0x2000 then 1 else 0

theorem one_object_unlocked : let _ := Layout.plain ppc32; Unlocked Rmonitor one_object 0x2000 :=
  let _ := Layout.plain ppc32
  ⟨by decide,by decide,by decide,by decide,by decide⟩

theorem not_freed_one_object : let _ := Layout.plain ppc32; ¬ LocksAndUnlocks Rmonitor one_object 0x2000 0 :=
  let _ := Layout.plain ppc32
  not_freed one_object_unlocked

theorem not_always_freed : ¬ ∀ (_ : Layout) (entry : Register) (m : Machine) (o : Int), Unlocked entry m o →
    LocksAndUnlocks entry m o 0 := by
  intro always
  let _ := Layout.plain ppc32
  have freed := always inferInstance Rmonitor one_object 0x2000 one_object_unlocked
  exact absurd (obj_not_changed one_object_unlocked freed) (by decide)

end IcedTea.LockObject

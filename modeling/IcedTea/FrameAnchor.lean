import IcedTea.FrameManager

namespace IcedTea.FrameAnchor
open Target Vm CppInterpreter
variable [Code]

-- NULL is 0.
structure JavaFrameAnchor where
  last_Java_sp : Int
  last_Java_pc : Int
  deriving DecidableEq, Repr

-- One store of the VM's own code to an anchor.
inductive Store where
  | last_Java_sp (value : Int) | last_Java_pc (value : Int)
  deriving DecidableEq, Repr

section Anchor
omit [Code]

def Store.apply (a : JavaFrameAnchor) : Store → JavaFrameAnchor
  | last_Java_sp value => {a with last_Java_sp := value}
  | last_Java_pc value => {a with last_Java_pc := value}

def clear : List Store := [.last_Java_sp 0,.last_Java_pc 0]

def copy (this src : JavaFrameAnchor) : List Store :=
  (if this.last_Java_sp ≠ src.last_Java_sp then [.last_Java_sp 0] else []) ++
    [.last_Java_pc src.last_Java_pc,.last_Java_sp src.last_Java_sp]

end Anchor

-- The anchor of a thread, in memory.
def anchor (thread : Int) (m : Machine) : JavaFrameAnchor :=
  ⟨m.read (thread + last_Java_sp_offset),m.read (thread + last_Java_pc_offset)⟩

def Store.write (thread : Int) (m : Machine) : Store → Machine
  | last_Java_sp value => m.write (thread + last_Java_sp_offset) value
  | last_Java_pc value => m.write (thread + last_Java_pc_offset) value

-- The two fields of the anchor are apart.
def Apart : Prop := last_Java_sp_offset + wordSize ≤ last_Java_pc_offset ∨ last_Java_pc_offset + wordSize ≤ last_Java_sp_offset

inductive Operation where
  | clear | copy (src : JavaFrameAnchor) | set_last_Java_frame (pc : Int) | reset_last_Java_frame

namespace Operation
variable (thread : Int) (m : Machine)

-- What can be seen from before an operation to its end: stores of the VM, and
-- instructions of generated code.
def views : Operation → List Machine
  | clear => FrameAnchor.clear.scanl (Store.write thread) m
  | copy src => (FrameAnchor.copy (anchor thread m) src).scanl (Store.write thread) m
  | set_last_Java_frame pc => (CppInterpreter.set_last_Java_frame pc).scanl step m
  | reset_last_Java_frame => CppInterpreter.reset_last_Java_frame.scanl step m

def result : Operation → Machine
  | clear => FrameAnchor.clear.foldl (Store.write thread) m
  | copy src => (FrameAnchor.copy (anchor thread m) src).foldl (Store.write thread) m
  | set_last_Java_frame pc => exec (CppInterpreter.set_last_Java_frame pc) m
  | reset_last_Java_frame => exec CppInterpreter.reset_last_Java_frame m

-- Generated code has the thread in its register, and sets an anchor that is not set.
def Allowed : Operation → Prop
  | set_last_Java_frame _ => m.gpr Rthread = thread ∧ (anchor thread m).last_Java_sp = 0
  | reset_last_Java_frame => m.gpr Rthread = thread
  | _ => True

-- The pair that a set or a copy puts there.
def installs : Operation → Option JavaFrameAnchor
  | set_last_Java_frame pc => some ⟨m.gpr r1,pc⟩
  | copy src => some src
  | _ => none
end Operation

-- A thread's operations, with the pairs they install, and any other code between
-- them. A new thread's anchor is cleared.
inductive Run (thread : Int) : List JavaFrameAnchor → Machine → Prop where
  | start (m : Machine) (cleared : anchor thread m = ⟨0,0⟩) : Run thread [] m
  | operation (op : Operation) (allowed : op.Allowed thread m) (run : Run thread pairs m) :
      Run thread (pairs ++ (op.installs m).toList) (op.result thread m)
  | elsewhere (m' : Machine) (same : anchor thread m' = anchor thread m) (run : Run thread pairs m) : Run thread pairs m'

section Stores
variable {thread : Int} {m : Machine}

theorem anchor_write (apart : Apart) (s : Store) : anchor thread (s.write thread m) = s.apply (anchor thread m) := by
  unfold Apart wordSize at apart
  cases s with
  | last_Java_sp value =>
    have other : (m.mem.putWord wide (thread + last_Java_sp_offset) value).word wide (thread + last_Java_pc_offset) =
        m.mem.word wide (thread + last_Java_pc_offset) := Cells.word_putWord_apart _ _ (by omega)
    have same : (m.mem.putWord wide (thread + last_Java_sp_offset) value).word wide (thread + last_Java_sp_offset) = value :=
      Cells.word_putWord _ _ _
    unfold anchor Store.write Store.apply Machine.write Machine.read
    rw [same,other]
  | last_Java_pc value =>
    have other : (m.mem.putWord wide (thread + last_Java_pc_offset) value).word wide (thread + last_Java_sp_offset) =
        m.mem.word wide (thread + last_Java_sp_offset) := Cells.word_putWord_apart _ _ (by omega)
    have same : (m.mem.putWord wide (thread + last_Java_pc_offset) value).word wide (thread + last_Java_pc_offset) = value :=
      Cells.word_putWord _ _ _
    unfold anchor Store.write Store.apply Machine.write Machine.read
    rw [same,other]

-- Stores are seen in the anchor one by one.
theorem anchor_stores (apart : Apart) (stores : List Store) (m : Machine) :
    (stores.scanl (Store.write thread) m).map (anchor thread) = stores.scanl Store.apply (anchor thread m) := by
  induction stores generalizing m with
  | nil => simp
  | cons s stores ih => rw [List.scanl_cons,List.scanl_cons,List.map_cons,ih,anchor_write apart]

-- What an operation may show: what there was, no frame, or what it installs.
def Shown (a : JavaFrameAnchor) (installed : Option JavaFrameAnchor) (seen : JavaFrameAnchor) : Prop :=
  seen = a ∨ seen.last_Java_sp = 0 ∨ installed = some seen

omit [Code] in
theorem clear_shown (a seen : JavaFrameAnchor) (view : seen ∈ clear.scanl Store.apply a) : Shown a none seen := by
  simp only [clear,Store.apply,List.scanl_cons,List.scanl_nil,List.mem_cons,List.not_mem_nil,or_false] at view
  rcases view with rfl | rfl | rfl
  · exact .inl rfl
  · exact .inr (.inl rfl)
  · exact .inr (.inl rfl)

-- When the sp is that of the source already, the pc makes it the source's pair.
omit [Code] in
theorem copy_shown (a src seen : JavaFrameAnchor) (view : seen ∈ (copy a src).scanl Store.apply a) : Shown a (some src) seen := by
  unfold copy at view
  split at view
  · simp only [Store.apply,List.cons_append,List.nil_append,List.scanl_cons,List.scanl_nil,List.mem_cons,List.not_mem_nil,or_false] at view
    rcases view with rfl | rfl | rfl | rfl
    · exact .inl rfl
    · exact .inr (.inl rfl)
    · exact .inr (.inl rfl)
    · exact .inr (.inr rfl)
  · rename_i same
    have same := not_not.mp same
    simp only [Store.apply,List.nil_append,List.scanl_cons,List.scanl_nil,List.mem_cons,List.not_mem_nil,or_false] at view
    rcases view with rfl | rfl | rfl
    · exact .inl rfl
    · refine .inr (.inr ?_)
      rw [same]
    · exact .inr (.inr rfl)

theorem set_shown (apart : Apart) {pc : Int} (thread_register : m.gpr Rthread = thread) (unset : (anchor thread m).last_Java_sp = 0)
    {seen : Machine} (view : seen ∈ (CppInterpreter.set_last_Java_frame pc).scanl step m) :
    Shown (anchor thread m) (some ⟨m.gpr r1,pc⟩) (anchor thread seen) := by
  simp only [CppInterpreter.set_last_Java_frame,List.scanl_cons,List.scanl_nil,List.mem_cons,List.not_mem_nil,or_false] at view
  -- Up to the stores the code is in its registers.
  let m₁ := step m (.mpclr pc)
  let m₂ := step m₁ (.mflr r0)
  let m₃ := step m₂ (.store r0 ⟨Rthread,last_Java_pc_offset⟩)
  let m₄ := step m₃ (.store r1 ⟨Rthread,last_Java_sp_offset⟩)
  have register₂ : m₂.gpr Rthread = thread := by simpa [m₂,m₁,step] using thread_register
  have value₂ : m₂.gpr r0 = pc := by simp [m₂,m₁,step]
  have same₂ : anchor thread m₂ = anchor thread m := rfl
  have stored₃ : m₃ = Store.write thread m₂ (.last_Java_pc pc) := by
    rw [← value₂,← register₂]
    rfl
  have seen₃ : anchor thread m₃ = ⟨(anchor thread m).last_Java_sp,pc⟩ := by
    rw [stored₃,anchor_write apart,same₂]
    rfl
  have register₃ : m₃.gpr Rthread = thread := register₂
  have value₃ : m₃.gpr r1 = m.gpr r1 := by simp [m₃,m₂,m₁,step]
  have stored₄ : m₄ = Store.write thread m₃ (.last_Java_sp (m.gpr r1)) := by
    rw [← value₃,← register₃]
    rfl
  have seen₄ : anchor thread m₄ = ⟨m.gpr r1,pc⟩ := by
    rw [stored₄,anchor_write apart,seen₃]
    rfl
  rcases view with rfl | rfl | rfl | rfl | rfl
  · exact .inl rfl
  · exact .inl rfl
  · exact .inl same₂
  · refine .inr (.inl ?_)
    rw [seen₃]
    exact unset
  · exact .inr (.inr (congrArg some seen₄.symm))

theorem reset_shown (apart : Apart) (thread_register : m.gpr Rthread = thread) {seen : Machine}
    (view : seen ∈ CppInterpreter.reset_last_Java_frame.scanl step m) : Shown (anchor thread m) none (anchor thread seen) := by
  simp only [CppInterpreter.reset_last_Java_frame,List.scanl_cons,List.scanl_nil,List.mem_cons,List.not_mem_nil,or_false] at view
  have stored : step (step m (.loadImm r0 0)) (.store r0 ⟨Rthread,last_Java_sp_offset⟩) =
      Store.write thread (step m (.loadImm r0 0)) (.last_Java_sp 0) := by
    rw [← thread_register]
    simp [step,Store.write]
  rcases view with rfl | rfl | rfl
  · exact .inl rfl
  · exact .inl rfl
  · refine .inr (.inl ?_)
    rw [stored,anchor_write apart]
    rfl

theorem operation_shown (apart : Apart) {op : Operation} (allowed : op.Allowed thread m) {seen : Machine}
    (view : seen ∈ op.views thread m) : Shown (anchor thread m) (op.installs m) (anchor thread seen) := by
  have of_stores (stores : List Store) (view : seen ∈ stores.scanl (Store.write thread) m) :
      anchor thread seen ∈ stores.scanl Store.apply (anchor thread m) := by
    rw [← anchor_stores apart]
    exact List.mem_map_of_mem view
  cases op with
  | clear => exact clear_shown _ _ (of_stores _ view)
  | copy src => exact copy_shown _ _ _ (of_stores _ view)
  | set_last_Java_frame pc => exact set_shown apart allowed.1 allowed.2 view
  | reset_last_Java_frame => exact reset_shown apart allowed view

end Stores

omit [Code] in
theorem foldl_mem_scanl {α β : Type} (f : β → α → β) (l : List α) (b : β) : l.foldl f b ∈ l.scanl f b := by
  induction l generalizing b with
  | nil => simp
  | cons a l ih =>
    rw [List.scanl_cons,List.foldl_cons]
    exact List.mem_cons_of_mem _ (ih _)

theorem result_view (thread : Int) (m : Machine) (op : Operation) : op.result thread m ∈ op.views thread m := by
  cases op <;> exact foldl_mem_scanl _ _ _

-- Between operations a frame that is there is one that was installed.
theorem run_installed (apart : Apart) {thread : Int} {pairs : List JavaFrameAnchor} {m : Machine} (run : Run thread pairs m)
    (visible : (anchor thread m).last_Java_sp ≠ 0) : anchor thread m ∈ pairs := by
  induction run with
  | start m cleared =>
    rw [cleared] at visible
    exact absurd rfl visible
  | operation op allowed run ih =>
    rename_i m pairs
    rcases operation_shown apart allowed (result_view thread m op) with same | none | installed
    · rw [same] at visible ⊢
      exact List.mem_append_left _ (ih visible)
    · exact absurd none visible
    · rw [installed]
      exact List.mem_append_right _ (List.mem_singleton.mpr rfl)
  | elsewhere m' same run ih =>
    rw [same] at visible ⊢
    exact ih visible

-- An observer may look between any two stores of any operation.
theorem never_mixed (apart : Apart) (thread : Int) (pairs : List JavaFrameAnchor) (m : Machine) (run : Run thread pairs m)
    (op : Operation) (allowed : op.Allowed thread m) (seen : Machine) (view : seen ∈ op.views thread m)
    (visible : (anchor thread seen).last_Java_sp ≠ 0) : anchor thread seen ∈ pairs ++ (op.installs m).toList := by
  rcases operation_shown apart allowed view with same | none | installed
  · rw [same] at visible ⊢
    exact List.mem_append_left _ (run_installed apart run visible)
  · exact absurd none visible
  · rw [installed]
    exact List.mem_append_right _ (List.mem_singleton.mpr rfl)

-- A thread at 1024 with its stack at 64.
@[reducible] def plain : Code := {Vm.plain ppc64 with
  RecursiveInterpreterActivation := 0
  normal_entry := 0
  site := fun _ => 0
  tosca_to_stack := 0
  stack_to_stack := 0
  stack_to_native_abi := 0}

def new_thread : Machine where
  gpr r := if r = Rthread then 1024 else 64
  fpr _ := 0
  cr _ := 0
  lr := 0
  ctr := 0
  mem _ := 0

-- The thread sets a frame and resets it, the VM copies another to it.
def set_frame : Machine := letI := plain; Operation.result 1024 new_thread (.set_last_Java_frame 4)
def reset_frame : Machine := letI := plain; Operation.result 1024 set_frame .reset_last_Java_frame
def copied_frame : Machine := letI := plain; Operation.result 1024 reset_frame (.copy ⟨32,9⟩)

omit [Code] in
theorem copied_run : letI := plain; Run 1024 [⟨64,4⟩,⟨32,9⟩] copied_frame :=
  letI := plain
  .operation (.copy ⟨32,9⟩) trivial (.operation .reset_last_Java_frame rfl
    (.operation (.set_last_Java_frame 4) ⟨rfl,by decide⟩ (.start new_thread (by decide))))

-- A copy of a frame with the same sp, seen when its pc is stored and its sp is not.
omit [Code] in
theorem never_mixed_between : letI := plain
    let seen := Store.write 1024 copied_frame (.last_Java_pc 5)
    (anchor 1024 seen).last_Java_sp = 32 ∧ anchor 1024 seen ∈ [JavaFrameAnchor.mk 64 4,⟨32,9⟩,⟨32,5⟩] := by
  let := plain
  intro seen
  have there : (anchor 1024 seen).last_Java_sp = 32 := by decide
  have stores : copy (anchor 1024 copied_frame) ⟨32,5⟩ = [.last_Java_pc 5,.last_Java_sp 32] := by decide
  have view : seen ∈ (Operation.copy ⟨32,5⟩).views 1024 copied_frame := by
    change seen ∈ (copy (anchor 1024 copied_frame) ⟨32,5⟩).scanl (Store.write 1024) copied_frame
    rw [stores]
    exact .tail _ (.head _)
  exact ⟨there,never_mixed (.inl (by decide)) 1024 _ copied_frame copied_run (.copy ⟨32,5⟩) trivial seen view
    (by rw [there]; decide)⟩

end IcedTea.FrameAnchor

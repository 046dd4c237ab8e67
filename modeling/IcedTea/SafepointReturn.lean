import Mathlib.Data.Int.Basic
import Mathlib.Tactic.ByContra

namespace IcedTea.SafepointReturn

inductive ThreadState where
  | thread_in_native | thread_in_native_trans | thread_in_Java | thread_blocked
  deriving DecidableEq, Repr

inductive SafepointState where
  | not_synchronized | synchronizing | synchronized
  deriving DecidableEq, Repr

-- Points of the native entry from the native call on, one for each access to
-- memory the VM thread shares. `check` to `waiting` are the leaf call
-- check_special_condition_for_native_trans.
inductive Pc where
  | native_call | fixup | save_result | store_trans | membar | test_state | test_suspend
  | check | suspended | poll | waiting | refixup
  | no_block | reset_anchor | unbox | reset_handles | test_exception | unlock | restore_result | result_handler
  | unwind | returned
  deriving DecidableEq, Repr

structure State where
  pc : Pc := .native_call
  Rmethod : Int
  method_slot : Int
  thread_state : ThreadState := .thread_in_native
  safepoint : SafepointState := .not_synchronized
  suspend_flags : Int := 0
  pending_exception : Int := 0
  synchronized : Bool := false
  deriving DecidableEq, Repr

-- fixup_after_potential_safepoint.
def reload (s : State) : State := {s with Rmethod := s.method_slot}

-- One step of the Java thread. A thread that is blocked goes on only when no
-- safepoint is under way.
def java (s : State) : Option State :=
  match s.pc with
  | .native_call => some {s with pc := .fixup}
  | .fixup => some {reload s with pc := .save_result}
  | .save_result => some {s with pc := .store_trans}
  | .store_trans => some {s with thread_state := .thread_in_native_trans,pc := .membar}
  | .membar => some {s with pc := .test_state}
  | .test_state => some {s with pc := if s.safepoint = .not_synchronized then .test_suspend else .check}
  | .test_suspend => some {s with pc := if s.suspend_flags = 0 then .no_block else .check}
  | .check =>
    if s.suspend_flags = 0 then some {s with pc := .poll}
    else some {s with thread_state := .thread_blocked,pc := .suspended}
  | .suspended =>
    if s.safepoint = .not_synchronized then some {s with thread_state := .thread_in_native_trans,pc := .poll} else none
  | .poll =>
    if s.safepoint = .not_synchronized then some {s with pc := .refixup}
    else some {s with thread_state := .thread_blocked,pc := .waiting}
  | .waiting =>
    if s.safepoint = .not_synchronized then some {s with thread_state := .thread_in_native_trans,pc := .refixup} else none
  | .refixup => some {reload s with pc := .no_block}
  | .no_block => some {s with thread_state := .thread_in_Java,pc := .reset_anchor}
  | .reset_anchor => some {s with pc := .unbox}
  | .unbox => some {s with pc := .reset_handles}
  | .reset_handles => some {s with pc := .test_exception}
  | .test_exception => some {s with pc := if s.pending_exception ≠ 0 then .unwind else .unlock}
  | .unlock => some {s with pc := .restore_result}
  | .restore_result => some {s with pc := .result_handler}
  | .result_handler => some {s with pc := .unwind}
  | .unwind => some {s with pc := .returned}
  | .returned => none

-- The VM thread stops a thread it finds in native or blocked, moves objects
-- while it is stopped and lets it go. Native code may raise an exception, and
-- other threads may suspend and resume this one at any time.
inductive Action where
  | java | begin | stop | move (method : Int) | finish | suspend (flags : Int) | raise (exception : Int)
  deriving DecidableEq, Repr

def act (s : State) : Action → Option State
  | .java => java s
  | .begin => if s.safepoint = .not_synchronized then some {s with safepoint := .synchronizing} else none
  | .stop =>
    if s.safepoint = .synchronizing ∧ (s.thread_state = .thread_in_native ∨ s.thread_state = .thread_blocked) then
      some {s with safepoint := .synchronized}
    else none
  | .move method => if s.safepoint = .synchronized then some {s with method_slot := method} else none
  | .finish => if s.safepoint = .synchronized then some {s with safepoint := .not_synchronized} else none
  | .suspend flags => some {s with suspend_flags := flags}
  | .raise exception => if s.pc = .native_call then some {s with pending_exception := exception} else none

def run (actions : List Action) (s : State) : Option State := actions.foldlM act s

-- At the native call the thread is in native; a safepoint may be under way.
def Entry (s : State) : Prop := s.pc = .native_call ∧ s.thread_state = .thread_in_native

-- The points behind the last load of Rmethod.
def Pc.left : Pc → Bool
  | no_block | reset_anchor | unbox | reset_handles | test_exception | unlock | restore_result | result_handler
  | unwind | returned => true
  | _ => false

-- Where a stopped thread can be: before the test of the safepoint state, or in
-- the leaf call.
def Pc.stoppable : Pc → Bool
  | native_call | fixup | save_result | store_trans | membar | test_state | check | suspended | poll | waiting => true
  | _ => false

def Pc.state : Pc → ThreadState
  | native_call | fixup | save_result | store_trans => .thread_in_native
  | membar | test_state | test_suspend | check | poll | refixup | no_block => .thread_in_native_trans
  | suspended | waiting => .thread_blocked
  | _ => .thread_in_Java

structure Inv (s : State) : Prop where
  state : s.thread_state = s.pc.state
  stopped : s.safepoint = .synchronized → s.pc.stoppable = true

theorem inv_entry (entry : Entry s) : Inv s := by
  obtain ⟨pc,state⟩ := entry
  refine ⟨?_,?_⟩ <;> simp [pc,state,Pc.state,Pc.stoppable]

-- A step to a point where the thread may be stopped, with the state that belongs to it.
theorem java_inv (inv : Inv s) (stepped : java s = some s') : Inv s' := by
  obtain ⟨state,stopped⟩ := inv
  cases pc : s.pc <;> simp only [java,pc,reduceCtorEq] at stepped <;>
    simp only [pc,Pc.state,Pc.stoppable,Bool.false_eq_true,imp_false,implies_true] at state stopped
  case test_state | test_suspend | test_exception =>
    cases stepped
    refine ⟨?_,?_⟩ <;> (try simp only) <;> split <;> simp_all [Pc.state,Pc.stoppable]
  case check | suspended | poll | waiting =>
    split at stepped <;> cases stepped <;> refine ⟨?_,?_⟩ <;> simp_all [Pc.state,Pc.stoppable]
  all_goals
    cases stepped
    refine ⟨?_,?_⟩ <;> simp_all [Pc.state,Pc.stoppable,reload]

theorem act_inv (inv : Inv s) (a : Action) (acted : act s a = some s') : Inv s' := by
  obtain ⟨state,stopped⟩ := inv
  cases a with
  | java => exact java_inv ⟨state,stopped⟩ acted
  | begin | finish =>
    simp only [act] at acted
    split at acted <;> cases acted
    exact ⟨state,by simp⟩
  | stop =>
    simp only [act] at acted
    split at acted <;> cases acted
    rename_i seen
    refine ⟨state,fun _ => ?_⟩
    have seen := seen.2
    rw [state] at seen
    cases pc : s.pc <;> simp_all [Pc.state,Pc.stoppable]
  | move method | raise exception =>
    simp only [act] at acted
    split at acted <;> cases acted
    exact ⟨state,stopped⟩
  | suspend flags => cases acted; exact ⟨state,stopped⟩

-- Behind the last load neither Rmethod nor the slot changes: the thread cannot
-- be stopped there.
theorem act_left (inv : Inv s) (left : s.pc.left = true) (a : Action) (acted : act s a = some s') :
    s'.pc.left = true ∧ s'.Rmethod = s.Rmethod ∧ s'.method_slot = s.method_slot := by
  cases a with
  | java =>
    simp only [act] at acted
    cases pc : s.pc <;> simp only [pc,Pc.left,Bool.false_eq_true] at left <;> simp only [java,pc,reduceCtorEq] at acted <;>
      cases acted <;> (try split) <;> simp [Pc.left]
  | move method =>
    simp only [act] at acted
    split at acted
    · rename_i synchronized
      have stopped := inv.stopped synchronized
      cases pc : s.pc <;> simp_all [Pc.left,Pc.stoppable]
    · cases acted
  | begin | stop | finish | raise =>
    simp only [act] at acted
    split at acted <;> cases acted
    exact ⟨left,rfl,rfl⟩
  | suspend flags => cases acted; exact ⟨left,rfl,rfl⟩

theorem run_cons (ran : run (a :: rest) s = some s') : ∃ s₁, act s a = some s₁ ∧ run rest s₁ = some s' := by
  simpa [run,Option.bind_eq_some_iff] using ran

theorem run_append (actions : List Action) (s : State) : run (actions ++ rest) s = run actions s >>= run rest := by
  simp only [run,List.foldlM_append]
  rfl

theorem run_inv (inv : Inv s) (ran : run actions s = some s') : Inv s' := by
  induction actions generalizing s with
  | nil => cases ran; exact inv
  | cons a rest ih =>
    obtain ⟨s₁,acted,ran⟩ := run_cons ran
    exact ih (act_inv inv a acted) ran

theorem run_left (inv : Inv s) (left : s.pc.left = true) (ran : run actions s = some s') :
    s'.pc.left = true ∧ s'.Rmethod = s.Rmethod ∧ s'.method_slot = s.method_slot := by
  induction actions generalizing s with
  | nil => cases ran; exact ⟨left,rfl,rfl⟩
  | cons a rest ih =>
    obtain ⟨s₁,acted,ran⟩ := run_cons ran
    obtain ⟨still,method,slot⟩ := act_left inv left a acted
    obtain ⟨still',method',slot'⟩ := ih (act_inv inv a acted) still ran
    exact ⟨still',method'.trans method,slot'.trans slot⟩

-- A run that gets somewhere has a step that gets there first.
theorem run_reaches (there : State → Bool) (ran : run actions s = some s') (before : there s = false) (after : there s' = true) :
    ∃ first a rest s₁ s₂, actions = first ++ a :: rest ∧ run first s = some s₁ ∧ there s₁ = false ∧ act s₁ a = some s₂ ∧
      there s₂ = true ∧ run rest s₂ = some s' := by
  induction actions generalizing s with
  | nil => cases ran; exact absurd (before.symm.trans after) (by decide)
  | cons a rest ih =>
    obtain ⟨s₁,acted,ran⟩ := run_cons ran
    cases arrives : there s₁ with
    | true => exact ⟨[],a,rest,s,s₁,rfl,rfl,before,acted,arrives,ran⟩
    | false =>
      obtain ⟨first,b,rest',s₂,s₃,rfl,ran₂,out,acted₂,reached,ran₃⟩ := ih ran arrives
      refine ⟨a :: first,b,rest',s₂,s₃,rfl,?_,out,acted₂,reached,ran₃⟩
      simpa [run,acted] using ran₂

-- Where the VM thread moves the method to.
def Action.moved : Action → Option Int
  | .move method => some method
  | _ => none

def moves (actions : List Action) : List Int := actions.filterMap Action.moved

theorem act_slot (acted : act s a = some s') : s'.method_slot = a.moved.getD s.method_slot := by
  cases a with
  | java =>
    simp only [act] at acted
    cases pc : s.pc <;> simp only [java,pc,reduceCtorEq] at acted <;> (try split at acted) <;> cases acted <;> rfl
  | begin | stop | move | finish | raise =>
    simp only [act] at acted
    split at acted <;> cases acted
    rfl
  | suspend flags => cases acted; rfl

-- The slot holds the method where the last move put it.
theorem run_slot (ran : run actions s = some s') : s'.method_slot = (moves actions).getLastD s.method_slot := by
  induction actions generalizing s with
  | nil => cases ran; rfl
  | cons a rest ih =>
    obtain ⟨s₁,acted,ran⟩ := run_cons ran
    rw [ih ran,act_slot acted]
    unfold moves
    cases moved : a.moved with
    | none => rw [List.filterMap_cons_none moved,Option.getD_none]
    | some method => rw [List.filterMap_cons_some moved,Option.getD_some,List.getLastD_cons]

-- Points behind the first reload.
def Pc.behind : Pc → Bool
  | native_call | fixup => false
  | _ => true

theorem act_behind (before : s.pc.behind = false) (acted : act s a = some s') (after : s'.pc.behind = true) :
    a = .java ∧ s.pc = .fixup ∧ s'.pc.left = false := by
  cases a with
  | java =>
    simp only [act] at acted
    cases pc : s.pc <;> simp only [pc,Pc.behind,Bool.true_eq_false] at before <;> simp only [java,pc] at acted <;>
      cases acted
    · cases after
    · exact ⟨rfl,rfl,rfl⟩
  | begin | stop | move | finish | raise =>
    simp only [act] at acted
    split at acted <;> cases acted
    exact absurd (before.symm.trans after) (by decide)
  | suspend flags => cases acted; exact absurd (before.symm.trans after) (by decide)

-- Between the loads Rmethod stays.
theorem act_between (behind : s.pc.behind = true) (acted : act s a = some s') (before : s'.pc.left = false) :
    s'.pc.behind = true ∧ s'.Rmethod = s.Rmethod ∧ s.pc.left = false := by
  cases a with
  | java =>
    simp only [act] at acted
    cases pc : s.pc <;> simp only [pc,Pc.behind,Bool.false_eq_true] at behind <;> simp only [java,pc,reduceCtorEq] at acted <;>
      (try split at acted) <;> cases acted <;> simp_all [Pc.left,Pc.behind]
  | begin | stop | move | finish | raise =>
    simp only [act] at acted
    split at acted <;> cases acted
    exact ⟨behind,rfl,before⟩
  | suspend flags => cases acted; exact ⟨behind,rfl,before⟩

theorem run_between (behind : s.pc.behind = true) (inv : Inv s) (ran : run actions s = some s') (before : s'.pc.left = false) :
    s'.Rmethod = s.Rmethod := by
  induction actions generalizing s with
  | nil => cases ran; rfl
  | cons a rest ih =>
    obtain ⟨s₁,acted,ran⟩ := run_cons ran
    have inv₁ := act_inv inv a acted
    have out : s₁.pc.left = false := by
      cases left : s₁.pc.left with
      | false => rfl
      | true => exact absurd (before.symm.trans (run_left inv₁ left ran).1) (by decide)
    obtain ⟨behind₁,method,-⟩ := act_between behind acted out
    exact (ih behind₁ inv₁ ran).trans method

-- The branch that does not block: the safepoint state was found clear, and now
-- the suspend flags are.
def Passes (s : State) : Prop := s.pc = .test_suspend ∧ s.suspend_flags = 0

-- The last move between the reload behind the native call and that branch, if
-- there is one, is to where the reload found the method.
def Timely (actions : List Action) (start : State) : Prop :=
  ∀ first between rest s s', actions = first ++ .java :: (between ++ .java :: rest) → run first start = some s →
    s.pc = .fixup → run (.java :: between) s = some s' → Passes s' → (moves between).getLastD s.method_slot = s.method_slot

-- The two ways to the last load's far side.
theorem act_leaves (before : s.pc.left = false) (acted : act s a = some s') (after : s'.pc.left = true) :
    a = .java ∧ (Passes s ∨ s'.Rmethod = s'.method_slot) := by
  cases a with
  | java =>
    simp only [act] at acted
    cases pc : s.pc <;> simp only [pc,Pc.left,Bool.true_eq_false] at before <;> simp only [java,pc] at acted <;>
      (try split at acted) <;> cases acted <;> simp_all [Pc.left,Passes,reload]
  | begin | stop | finish | move | raise =>
    simp only [act] at acted
    split at acted <;> cases acted
    exact absurd (before.symm.trans after) (by decide)
  | suspend flags => cases acted; exact absurd (before.symm.trans after) (by decide)

-- On the branch that does not block the thread goes on with what it loaded, and
-- with the slot as the moves since then left it.
theorem run_passes (inv : Inv s) (fixup : s.pc = .fixup) (ran : run (.java :: between) s = some s₁) (passes : Passes s₁)
    (rest_ran : run (.java :: rest) s₁ = some s') :
    s'.Rmethod = s.method_slot ∧ s'.method_slot = (moves between).getLastD s.method_slot := by
  obtain ⟨s₀,loaded,ran⟩ := run_cons ran
  have inv₀ := act_inv inv _ loaded
  have inv₁ := run_inv inv₀ ran
  simp only [act,java,fixup,Option.some.injEq] at loaded
  have kept := run_between (by rw [← loaded]; rfl) inv₀ ran (by rw [passes.1]; rfl)
  have slot := run_slot ran
  obtain ⟨s₂,acted,rest_ran⟩ := run_cons rest_ran
  have inv₂ := act_inv inv₁ _ acted
  simp only [act,java,passes.1,passes.2,if_true,Option.some.injEq] at acted
  obtain ⟨-,method,same⟩ := run_left inv₂ (by rw [← acted]; rfl) rest_ran
  rw [method,same,← acted]
  rw [← loaded] at kept slot
  exact ⟨kept,slot⟩

-- Every interleaving from the native call to the return.
theorem native_return (start s : State) (actions : List Action) (entry : Entry start)
    (ran : run actions start = some s) (returned : s.pc = .returned) :
    s.Rmethod = s.method_slot ↔ Timely actions start := by
  have inv := inv_entry entry
  constructor
  · rintro same first between rest s₀ s₁ rfl ran₀ fixup ran₁ passes
    rw [run_append,ran₀,← List.cons_append] at ran
    change run _ s₀ = some s at ran
    rw [run_append,ran₁] at ran
    obtain ⟨method,slot⟩ := run_passes (run_inv inv ran₀) fixup ran₁ passes ran
    rw [← slot,← same,method]
  · intro timely
    obtain ⟨first,a,after,s₀,s₁,rfl,ran₀,early,loaded,behind,ran₁⟩ := run_reaches (fun s => s.pc.behind) ran
      (by rw [entry.1]; rfl) (by rw [returned]; rfl)
    obtain ⟨rfl,fixup,out⟩ := act_behind early loaded behind
    obtain ⟨between,b,rest,s₂,s₃,rfl,ran₂,before,acted,left,ran₃⟩ := run_reaches (fun s => s.pc.left) ran₁ out
      (by rw [returned]; rfl)
    have inv₀ := run_inv inv ran₀
    have inv₃ := act_inv (run_inv (act_inv inv₀ _ loaded) ran₂) b acted
    have up_to : run (.java :: between) s₀ = some s₂ := by simpa [run,loaded] using ran₂
    obtain ⟨rfl,passes | same⟩ := act_leaves before acted left
    · have on : run (.java :: rest) s₂ = some s := by simpa [run,acted] using ran₃
      obtain ⟨method,slot⟩ := run_passes inv₀ fixup up_to passes on
      rw [method,slot]
      exact (timely first between rest s₀ s₂ rfl ran₀ fixup up_to passes).symm
    · obtain ⟨-,method,slot⟩ := run_left inv₃ left ran₃
      rw [method,slot,same]

-- A safepoint that the thread blocks for.
theorem native_return_blocked :
    let s : State := {pc := .returned,Rmethod := 2,method_slot := 2,thread_state := .thread_in_Java}
    s.Rmethod = s.method_slot ↔ Timely ([.java,.java,.java,.begin,.stop,.java,.java,.java,.java,.java,.move 2,.finish] ++
      List.replicate 11 .java) {Rmethod := 1,method_slot := 1} :=
  native_return _ _ _ ⟨rfl,rfl⟩ rfl rfl

-- A safepoint that starts after the reload and is over before the thread leaves native.
theorem missed_safepoint : ¬ ∀ start s actions, Entry start → run actions start = some s → s.pc = .returned →
    s.Rmethod = s.method_slot := by
  intro fresh
  have stale := fresh {Rmethod := 1,method_slot := 1}
    {pc := .returned,Rmethod := 1,method_slot := 2,thread_state := .thread_in_Java}
    ([.java,.java,.begin,.stop,.move 2,.finish] ++ List.replicate 14 .java) ⟨rfl,rfl⟩ rfl rfl
  exact absurd stale (by decide)

end IcedTea.SafepointReturn

import IcedTea.Machine
import Mathlib.Logic.Relation
import Mathlib.Data.List.Perm.Basic

namespace IcedTea.CompareAndExchange

-- The instructions of cmpxchg_. A branch names its target by its index.
inductive Instruction where
  | sync
  | isync
  | load_and_reserve_indexed (dst b : Register)
  | compare (a b : Register)
  | bne (target : Nat)
  | store_conditional_indexed (src b : Register)
  deriving DecidableEq, Repr

def loop : Nat := 1
def done : Nat := 7

def cmpxchg_ (exchange dst comp : Register) : List Instruction :=
  [.sync,
   .load_and_reserve_indexed 0 dst,
   .compare 0 comp,
   .bne done,
   .store_conditional_indexed exchange dst,
   .bne loop,
   .isync]

-- One run of cmpxchg_, with the contents its registers had when it began and
-- what it has read and stored: a store with the value it replaced.
structure Run where
  exchange : Register
  dst : Register
  comp : Register
  exchange_value : Int
  comp_value : Int
  pc : Nat
  loads : List Int
  stores : List (Int × Int)

structure Thread where
  gpr : Register → Int
  eq : Bool
  reserved : Option Int
  running : Option Run

inductive Operation where
  | exchanged (comp exchange : Int)
  | different (comp : Int)
  | stored (value : Int)
  deriving DecidableEq, Repr

-- What a thread has finished: a run with the cr0.eq it ended with, or a store.
inductive Completed where
  | run (run : Run) (eq : Bool)
  | store (value : Int)

def Completed.operation : Completed → Operation
  | run r eq => if eq then .exchanged r.comp_value r.exchange_value else .different r.comp_value
  | store value => .stored value

structure State (T : Type) where
  mem : Int → Int
  threads : T → Thread
  completed : List Completed

def Run.code (r : Run) : List Instruction := cmpxchg_ r.exchange r.dst r.comp

-- One instruction of a thread, and what it writes. A store-conditional stores
-- while the reservation is there, and may fail all the same.
def execute (mem : Int → Int) (fails : Bool) (th : Thread) (r : Run) : Instruction → Thread × Option (Int × Int)
  | .sync | .isync => ({th with running := some {r with pc := r.pc + 1}},none)
  | .load_and_reserve_indexed dst b =>
    let value := mem (th.gpr b)
    ({th with gpr := Function.update th.gpr dst value, reserved := some (th.gpr b),
              running := some {r with pc := r.pc + 1, loads := r.loads ++ [value]}},none)
  | .compare a b =>
    ({th with eq := th.gpr a = th.gpr b, running := some {r with pc := r.pc + 1}},none)
  | .bne target =>
    ({th with running := some {r with pc := if th.eq then r.pc + 1 else target}},none)
  | .store_conditional_indexed src b =>
    if th.reserved = some (th.gpr b) ∧ fails = false then
      ({th with eq := true, reserved := none,
                running := some {r with pc := r.pc + 1, stores := r.stores ++ [(mem (th.gpr b),th.gpr src)]}},
        some (th.gpr b,th.gpr src))
    else ({th with eq := false, reserved := none, running := some {r with pc := r.pc + 1}},none)

variable {T : Type} [DecidableEq T]

def Thread.cancel (th : Thread) (a : Int) : Thread := if th.reserved = some a then {th with reserved := none} else th

-- A store of thread t cancels what the others have reserved.
def State.write (s : State T) (t : T) : Option (Int × Int) → State T
  | none => s
  | some (a,value) =>
    {s with mem := Function.update s.mem a value,
            threads := fun u => if u = t then s.threads u else (s.threads u).cancel a}

def State.set (s : State T) (t : T) (th : Thread) : State T := {s with threads := Function.update s.threads t th}

def Run.begin (exchange dst comp : Register) (gpr : Register → Int) : Run :=
  ⟨exchange,dst,comp,gpr exchange,gpr comp,0,[],[]⟩

-- One step of the threads that share the word at `location`.
inductive Step (location : Int) : State T → State T → Prop where
  | begin (t : T) (exchange dst comp : Register) (gpr : Register → Int) (idle : (s.threads t).running = none)
      (different : [exchange,dst,comp,0].Nodup) (same_word : gpr dst = location) :
      Step location s (s.set t {s.threads t with gpr := gpr, running := some (.begin exchange dst comp gpr)})
  | instruction (t : T) (fails : Bool) (running : (s.threads t).running = some r) (here : r.code[r.pc]? = some i)
      (effect : execute s.mem fails (s.threads t) r i = (th,written)) :
      Step location s ((s.write t written).set t th)
  | finish (t : T) (running : (s.threads t).running = some r) (last : r.pc = r.code.length) :
      Step location s {s.set t {s.threads t with running := none} with
        completed := s.completed ++ [.run r (s.threads t).eq]}
  | store (t : T) (value : Int) (idle : (s.threads t).running = none) :
      Step location s {s.write t (some (location,value)) with completed := s.completed ++ [.store value]}
  | lose_reservation (t : T) :
      Step location s (s.set t {s.threads t with reserved := none})

-- The word after one operation, where it can have happened.
def Operation.apply (word : Int) : Operation → Option Int
  | exchanged comp exchange => if word = comp then some exchange else none
  | different comp => if word = comp then none else some word
  | stored value => some value

-- What a run in progress has already done: it has stored, or has loaded a value
-- that is not the expected one.
def Thread.effect (th : Thread) : Option Operation :=
  match th.running with
  | none => none
  | some r =>
    if r.stores ≠ [] then some (.exchanged r.comp_value r.exchange_value)
    else if 2 ≤ r.pc ∧ th.gpr 0 ≠ r.comp_value then some (.different r.comp_value)
    else none

-- What holds at each instruction of the run.
def Run.At (r : Run) (location word : Int) (th : Thread) : Prop :=
  match r.pc with
  | 0 | 1 => r.stores = []
  | 2 => r.stores = [] ∧ th.gpr 0 ∈ r.loads ∧ (th.reserved = some location → word = th.gpr 0)
  | 3 => r.stores = [] ∧ th.gpr 0 ∈ r.loads ∧ (th.reserved = some location → word = th.gpr 0) ∧
      th.eq = decide (th.gpr 0 = r.comp_value)
  | 4 => r.stores = [] ∧ th.gpr 0 = r.comp_value ∧ (th.reserved = some location → word = th.gpr 0)
  | 5 => r.stores = (if th.eq then [(r.comp_value,r.exchange_value)] else []) ∧ th.gpr 0 = r.comp_value
  | 6 => th.eq = true ∧ r.stores = [(r.comp_value,r.exchange_value)]
  | 7 => if th.eq then r.stores = [(r.comp_value,r.exchange_value)]
      else r.stores = [] ∧ th.gpr 0 ∈ r.loads ∧ th.gpr 0 ≠ r.comp_value
  | _ => False

structure Run.Ok (r : Run) (location word : Int) (th : Thread) : Prop where
  different : [r.exchange,r.dst,r.comp,0].Nodup
  same_word : th.gpr r.dst = location
  exchange : th.gpr r.exchange = r.exchange_value
  comp : th.gpr r.comp = r.comp_value
  here : r.At location word th

def Thread.Ok (location word : Int) (th : Thread) : Prop := ∀ r, th.running = some r → r.Ok location word th

-- A finished run stored once, or read another value.
def Completed.Atomic : Completed → Prop
  | run r eq =>
    (eq = true → r.stores = [(r.comp_value,r.exchange_value)]) ∧
    (eq = false → r.stores = [] ∧ ∃ value ∈ r.loads, value ≠ r.comp_value)
  | store _ => True

-- Losing a reservation does no harm, whatever the word is then.
theorem Thread.Ok.lost {th : Thread} (ok : th.Ok location word) (word' : Int) :
    Thread.Ok location word' {th with reserved := none} := by
  intro r running
  obtain ⟨different,same_word,exchange,comp,here⟩ := ok r running
  refine ⟨different,same_word,exchange,comp,?_⟩
  unfold Run.At at here ⊢
  split <;> simp_all

theorem Thread.Ok.cancel {th : Thread} (ok : th.Ok location word) (word' : Int) :
    (th.cancel location).Ok location word' := by
  unfold Thread.cancel
  split
  · exact ok.lost word'
  · rename_i free
    intro r running
    obtain ⟨different,same_word,exchange,comp,here⟩ := ok r running
    refine ⟨different,same_word,exchange,comp,?_⟩
    unfold Run.At at here ⊢
    split <;> simp_all

theorem effect_cancel (th : Thread) (a : Int) : (th.cancel a).effect = th.effect := by
  unfold Thread.cancel
  split <;> rfl

-- What one instruction of a run does to the word, and whether the run has taken
-- effect by it.
def Executed (location word : Int) (th th' : Thread) (written : Option (Int × Int)) : Prop :=
  ∃ word', (written = none ∧ word' = word ∨ written = some (location,word')) ∧ th'.Ok location word' ∧
    (th'.effect = th.effect ∧ word' = word ∨
      th.effect = none ∧ ∃ op, th'.effect = some op ∧ op.apply word = some word')

-- An instruction that touches nothing but the program counter and cr0.
theorem executed_quiet {th th' : Thread} (ok : th'.Ok location word) (effect : th'.effect = th.effect) :
    Executed location word th th' none := ⟨word,.inl ⟨rfl,rfl⟩,ok,.inl ⟨effect,rfl⟩⟩

section Instructions
variable {mem : Int → Int} {th : Thread} {r : Run}

theorem ok_of {th' : Thread} {r' : Run} (running : th'.running = some r') (ok : r'.Ok location word th') :
    th'.Ok location word := by
  intro other found
  rw [running] at found
  cases found
  exact ok

theorem sync_executed (ok : r.Ok location (mem location) th) (running : th.running = some r) (here : r.pc = 0) :
    Executed location (mem location) th {th with running := some {r with pc := r.pc + 1}} none := by
  obtain ⟨different,same_word,exchange,comp,at_⟩ := ok
  have no_stores : r.stores = [] := by simpa [Run.At,here] using at_
  apply executed_quiet
  · apply ok_of rfl
    exact ⟨different,same_word,exchange,comp,by simpa [Run.At,here] using no_stores⟩
  · simp [Thread.effect,running,here,no_stores]

theorem load_executed (ok : r.Ok location (mem location) th) (running : th.running = some r) (here : r.pc = 1) :
    Executed location (mem location) th
      {th with gpr := Function.update th.gpr 0 (mem (th.gpr r.dst)), reserved := some (th.gpr r.dst),
               running := some {r with pc := r.pc + 1, loads := r.loads ++ [mem (th.gpr r.dst)]}} none := by
  obtain ⟨different,same_word,exchange,comp,at_⟩ := ok
  have no_stores : r.stores = [] := by simpa [Run.At,here] using at_
  have apart : r.exchange ≠ 0 ∧ r.dst ≠ 0 ∧ r.comp ≠ 0 := by
    simp at different
    tauto
  refine ⟨mem location,.inl ⟨rfl,rfl⟩,?_,?_⟩
  · apply ok_of rfl
    constructor
    case different => exact different
    case same_word => exact (Function.update_of_ne apart.2.1 _ _).trans same_word
    case exchange => exact (Function.update_of_ne apart.1 _ _).trans exchange
    case comp => exact (Function.update_of_ne apart.2.2 _ _).trans comp
    case here => simp [Run.At,here,no_stores,same_word]
  · -- A run that has loaded another value is bound to fail.
    have before : th.effect = none := by simp [Thread.effect,running,here,no_stores]
    by_cases expected : mem location = r.comp_value
    · apply Or.inl
      rw [before]
      simp [Thread.effect,here,no_stores,same_word,expected]
    · refine Or.inr ⟨before,.different r.comp_value,?_,?_⟩
      · simp [Thread.effect,here,no_stores,same_word,expected]
      · simp [Operation.apply,expected]

theorem compare_executed (ok : r.Ok location (mem location) th) (running : th.running = some r) (here : r.pc = 2) :
    Executed location (mem location) th
      {th with eq := th.gpr 0 = th.gpr r.comp, running := some {r with pc := r.pc + 1}} none := by
  obtain ⟨different,same_word,exchange,comp,at_⟩ := ok
  obtain ⟨no_stores,loaded,held⟩ : r.stores = [] ∧ th.gpr 0 ∈ r.loads ∧
      (th.reserved = some location → mem location = th.gpr 0) := by simpa [Run.At,here] using at_
  apply executed_quiet
  · apply ok_of rfl
    exact ⟨different,same_word,exchange,comp,by simpa [Run.At,here,comp] using ⟨no_stores,loaded,held⟩⟩
  · simp [Thread.effect,running,here,no_stores]

theorem bne_done_executed (ok : r.Ok location (mem location) th) (running : th.running = some r) (here : r.pc = 3) :
    Executed location (mem location) th
      {th with running := some {r with pc := if th.eq then r.pc + 1 else done}} none := by
  obtain ⟨different,same_word,exchange,comp,at_⟩ := ok
  obtain ⟨no_stores,loaded,held,eq⟩ : r.stores = [] ∧ th.gpr 0 ∈ r.loads ∧
      (th.reserved = some location → mem location = th.gpr 0) ∧ th.eq = decide (th.gpr 0 = r.comp_value) := by
    simpa [Run.At,here] using at_
  by_cases expected : th.gpr 0 = r.comp_value
  · have taken : th.eq = true := by rw [eq]; exact decide_eq_true expected
    apply executed_quiet
    · apply ok_of rfl
      exact ⟨different,same_word,exchange,comp,by simpa [Run.At,here,taken,expected] using ⟨no_stores,expected ▸ held⟩⟩
    · simp [Thread.effect,running,here,no_stores,expected]
  · have not_taken : th.eq = false := by rw [eq]; exact decide_eq_false expected
    apply executed_quiet
    · apply ok_of rfl
      exact ⟨different,same_word,exchange,comp,by simpa [Run.At,done,not_taken] using ⟨no_stores,loaded,expected⟩⟩
    · simp [Thread.effect,running,here,done,not_taken,no_stores]

theorem store_executed (ok : r.Ok location (mem location) th) (running : th.running = some r) (here : r.pc = 4)
    (reserved : th.reserved = some (th.gpr r.dst)) :
    Executed location (mem location) th
      {th with eq := true, reserved := none,
               running := some {r with pc := r.pc + 1,
                                       stores := r.stores ++ [(mem (th.gpr r.dst),th.gpr r.exchange)]}}
      (some (th.gpr r.dst,th.gpr r.exchange)) := by
  obtain ⟨different,same_word,exchange,comp,at_⟩ := ok
  obtain ⟨no_stores,expected,held⟩ : r.stores = [] ∧ th.gpr 0 = r.comp_value ∧
      (th.reserved = some location → mem location = th.gpr 0) := by simpa [Run.At,here] using at_
  have word : mem location = r.comp_value := (held (by rw [reserved,same_word])).trans expected
  refine ⟨r.exchange_value,.inr (by rw [same_word,exchange]),?_,.inr ⟨?_,.exchanged r.comp_value r.exchange_value,?_,?_⟩⟩
  · apply ok_of rfl
    exact ⟨different,same_word,exchange,comp,by simp [Run.At,here,no_stores,same_word,exchange,word,expected]⟩
  · simp [Thread.effect,running,no_stores,expected]
  · simp [Thread.effect]
  · simp [Operation.apply,word]

theorem store_failed (ok : r.Ok location (mem location) th) (running : th.running = some r) (here : r.pc = 4) :
    Executed location (mem location) th
      {th with eq := false, reserved := none, running := some {r with pc := r.pc + 1}} none := by
  obtain ⟨different,same_word,exchange,comp,at_⟩ := ok
  obtain ⟨no_stores,expected,_⟩ : r.stores = [] ∧ th.gpr 0 = r.comp_value ∧
      (th.reserved = some location → mem location = th.gpr 0) := by simpa [Run.At,here] using at_
  apply executed_quiet
  · apply ok_of rfl
    exact ⟨different,same_word,exchange,comp,by simpa [Run.At,here] using ⟨no_stores,expected⟩⟩
  · simp [Thread.effect,running,here,no_stores,expected]

theorem bne_loop_executed (ok : r.Ok location (mem location) th) (running : th.running = some r) (here : r.pc = 5) :
    Executed location (mem location) th
      {th with running := some {r with pc := if th.eq then r.pc + 1 else loop}} none := by
  obtain ⟨different,same_word,exchange,comp,at_⟩ := ok
  obtain ⟨stores,expected⟩ : r.stores = (if th.eq then [(r.comp_value,r.exchange_value)] else []) ∧
      th.gpr 0 = r.comp_value := by simpa [Run.At,here] using at_
  cases eq : th.eq with
  | true =>
    rw [eq,if_pos rfl] at stores
    apply executed_quiet
    · apply ok_of rfl
      exact ⟨different,same_word,exchange,comp,by simpa [Run.At,here,eq] using stores⟩
    · simp [Thread.effect,running,stores]
  | false =>
    rw [eq] at stores
    have no_stores : r.stores = [] := stores
    apply executed_quiet
    · apply ok_of rfl
      exact ⟨different,same_word,exchange,comp,by simpa [Run.At,loop] using no_stores⟩
    · simp [Thread.effect,running,no_stores,loop,expected]

theorem isync_executed (ok : r.Ok location (mem location) th) (running : th.running = some r) (here : r.pc = 6) :
    Executed location (mem location) th {th with running := some {r with pc := r.pc + 1}} none := by
  obtain ⟨different,same_word,exchange,comp,at_⟩ := ok
  obtain ⟨eq,stores⟩ : th.eq = true ∧ r.stores = [(r.comp_value,r.exchange_value)] := by
    simpa [Run.At,here] using at_
  apply executed_quiet
  · apply ok_of rfl
    exact ⟨different,same_word,exchange,comp,by simpa [Run.At,here,eq] using stores⟩
  · simp [Thread.effect,running,stores]

theorem execute_spec (ok : r.Ok location (mem location) th) (running : th.running = some r)
    (here : r.code[r.pc]? = some i) (effect : execute mem fails th r i = (th',written)) :
    Executed location (mem location) th th' written := by
  have inside : r.pc < 7 := (List.getElem?_eq_some_iff.mp here).1
  match pc : r.pc,inside with
  | 0,_ =>
    rw [pc] at here
    cases here
    cases effect
    exact sync_executed ok running pc
  | 1,_ =>
    rw [pc] at here
    cases here
    cases effect
    exact load_executed ok running pc
  | 2,_ =>
    rw [pc] at here
    cases here
    cases effect
    exact compare_executed ok running pc
  | 3,_ =>
    rw [pc] at here
    cases here
    cases effect
    exact bne_done_executed ok running pc
  | 4,_ =>
    rw [pc] at here
    cases here
    simp only [execute] at effect
    split at effect
    · rename_i reserved
      cases effect
      exact store_executed ok running pc reserved.1
    · cases effect
      exact store_failed ok running pc
  | 5,_ =>
    rw [pc] at here
    cases here
    cases effect
    exact bne_loop_executed ok running pc
  | 6,_ =>
    rw [pc] at here
    cases here
    cases effect
    exact isync_executed ok running pc

end Instructions
def replay (word : Int) (order : List Operation) : Option Int := order.foldlM Operation.apply word

omit [DecidableEq T] in
theorem replay_snoc {initial word word' : Int} {order : List Operation} (so_far : replay initial order = some word)
    {op : Operation} (next : op.apply word = some word') : replay initial (order ++ [op]) = some word' := by
  unfold replay at so_far ⊢
  rw [List.foldlM_append,so_far]
  change (op.apply word).bind some = some word'
  rw [next]
  rfl

-- A sequential order that explains the word: the finished operations, and those
-- of the `pending` threads, whose runs have taken effect but not ended.
structure Explained (initial location : Int) (s : State T) (order : List Operation) (pending : List T) : Prop where
  replayed : replay initial order = some (s.mem location)
  once : pending.Nodup
  taken : ∀ t, t ∈ pending ↔ ((s.threads t).effect).isSome
  explains : order.Perm (s.completed.map Completed.operation ++ pending.filterMap fun t => (s.threads t).effect)

structure Invariant (initial location : Int) (s : State T) : Prop where
  threads : ∀ t, (s.threads t).Ok location (s.mem location)
  completed : ∀ c ∈ s.completed, c.Atomic
  explained : ∃ order pending, Explained initial location s order pending

section Systems
variable {initial location : Int} {s s' : State T}

omit [DecidableEq T] in
theorem Explained.same (explained : Explained initial location s order pending)
    (word : s'.mem location = s.mem location) (completed : s'.completed = s.completed)
    (effects : ∀ t, (s'.threads t).effect = (s.threads t).effect) : Explained initial location s' order pending := by
  constructor
  case replayed => rw [word]; exact explained.replayed
  case once => exact explained.once
  case taken =>
    intro t
    rw [effects]
    exact explained.taken t
  case explains =>
    rw [completed]
    simp only [effects]
    exact explained.explains

-- A thread's run takes effect.
omit [DecidableEq T] in
theorem Explained.effect (explained : Explained initial location s order pending) {t : T} {op : Operation}
    (before : (s.threads t).effect = none) (after : (s'.threads t).effect = some op)
    (applied : op.apply (s.mem location) = some (s'.mem location)) (completed : s'.completed = s.completed)
    (others : ∀ u, u ≠ t → (s'.threads u).effect = (s.threads u).effect) :
    Explained initial location s' (order ++ [op]) (t :: pending) := by
  have absent : t ∉ pending := by
    rw [explained.taken t,before]
    decide
  have unchanged : pending.filterMap (fun u => (s'.threads u).effect) =
      pending.filterMap fun u => (s.threads u).effect := by
    apply List.filterMap_congr
    intro u member
    exact others u (fun same => absent (same ▸ member))
  constructor
  case replayed => exact replay_snoc explained.replayed applied
  case once => exact List.nodup_cons.mpr ⟨absent,explained.once⟩
  case taken =>
    intro u
    by_cases same : u = t
    · subst same
      simp [after]
    · rw [List.mem_cons,or_iff_right same,others u same]
      exact explained.taken u
  case explains =>
    rw [completed,List.filterMap_cons_some (f := fun u => (s'.threads u).effect) after,unchanged]
    apply ((explained.explains.append_right [op]).trans List.perm_append_comm).trans
    rw [List.singleton_append]
    exact List.perm_middle.symm

-- A run ends that has taken effect.
theorem Explained.finish (explained : Explained initial location s order pending) {t : T} {c : Completed}
    (before : (s.threads t).effect = some c.operation) (after : (s'.threads t).effect = none)
    (word : s'.mem location = s.mem location) (completed : s'.completed = s.completed ++ [c])
    (others : ∀ u, u ≠ t → (s'.threads u).effect = (s.threads u).effect) :
    Explained initial location s' order (pending.erase t) := by
  have present : t ∈ pending := by
    rw [explained.taken t,before]
    rfl
  have absent : t ∉ pending.erase t := explained.once.not_mem_erase
  have unchanged : (pending.erase t).filterMap (fun u => (s'.threads u).effect) =
      (pending.erase t).filterMap fun u => (s.threads u).effect := by
    apply List.filterMap_congr
    intro u member
    exact others u (fun same => absent (same ▸ member))
  constructor
  case replayed => rw [word]; exact explained.replayed
  case once => exact explained.once.erase t
  case taken =>
    intro u
    by_cases same : u = t
    · subst same
      simp [after,absent]
    · rw [List.mem_erase_of_ne same,others u same]
      exact explained.taken u
  case explains =>
    have split := (List.perm_cons_erase present).filterMap fun u => (s.threads u).effect
    rw [List.filterMap_cons_some (f := fun u => (s.threads u).effect) before] at split
    rw [completed,unchanged,List.map_append,List.append_assoc]
    exact explained.explains.trans (split.append_left _)

omit [DecidableEq T] in
theorem Explained.store (explained : Explained initial location s order pending) {value : Int}
    (word : s'.mem location = value) (completed : s'.completed = s.completed ++ [.store value])
    (effects : ∀ t, (s'.threads t).effect = (s.threads t).effect) :
    Explained initial location s' (order ++ [.stored value]) pending := by
  constructor
  case replayed => exact replay_snoc explained.replayed (by rw [word]; rfl)
  case once => exact explained.once
  case taken =>
    intro t
    rw [effects]
    exact explained.taken t
  case explains =>
    rw [completed,List.map_append,List.append_assoc]
    simp only [effects]
    apply ((explained.explains.append_right _).trans _)
    rw [List.append_assoc]
    exact List.perm_append_comm.append_left _

@[simp] theorem set_threads_self (t : T) (th : Thread) : (s.set t th).threads t = th := Function.update_self ..

@[simp] theorem set_threads_other (t : T) (th : Thread) {u : T} (other : u ≠ t) :
    (s.set t th).threads u = s.threads u := Function.update_of_ne other ..

@[simp] theorem set_mem (t : T) (th : Thread) : (s.set t th).mem = s.mem := rfl

@[simp] theorem set_completed (t : T) (th : Thread) : (s.set t th).completed = s.completed := rfl

@[simp] theorem write_completed (t : T) (written : Option (Int × Int)) : (s.write t written).completed = s.completed := by
  cases written <;> rfl

theorem write_effect (t u : T) (written : Option (Int × Int)) :
    ((s.write t written).threads u).effect = (s.threads u).effect := by
  cases written with
  | none => rfl
  | some w =>
    change (if u = t then s.threads u else (s.threads u).cancel w.1).effect = _
    split
    · rfl
    · exact effect_cancel _ _

-- The other threads' invariants survive a write to the word.
theorem write_ok (threads : ∀ t, (s.threads t).Ok location (s.mem location)) (t : T) {u : T} (other : u ≠ t)
    {written : Option (Int × Int)} {word : Int}
    (write : written = none ∧ word = s.mem location ∨ written = some (location,word)) :
    (s.write t written).mem location = word ∧ ((s.write t written).threads u).Ok location word := by
  rcases write with ⟨rfl,rfl⟩|rfl
  · exact ⟨rfl,threads u⟩
  · constructor
    · exact Function.update_self ..
    · change (if u = t then s.threads u else (s.threads u).cancel location).Ok location word
      rw [if_neg other]
      exact (threads u).cancel word

-- What begins or ends outside the word's effects.
theorem set_invariant (invariant : Invariant initial location s) (t : T) (th : Thread)
    (ok : th.Ok location (s.mem location)) (effect : th.effect = (s.threads t).effect) :
    Invariant initial location (s.set t th) := by
  obtain ⟨order,pending,explained⟩ := invariant.explained
  constructor
  case threads =>
    intro u
    by_cases same : u = t
    · subst same
      rw [set_threads_self]
      exact ok
    · rw [set_threads_other t th same]
      exact invariant.threads u
  case completed => exact invariant.completed
  case explained =>
    apply Exists.intro order
    apply Exists.intro pending
    refine explained.same ?_ ?_ ?_
    · rfl
    · rfl
    intro u
    by_cases same : u = t
    · subst same
      rw [set_threads_self,effect]
    · rw [set_threads_other t th same]

theorem instruction_invariant (invariant : Invariant initial location s) (t : T) {th : Thread}
    {written : Option (Int × Int)} (executed : Executed location (s.mem location) (s.threads t) th written) :
    Invariant initial location ((s.write t written).set t th) := by
  obtain ⟨order,pending,explained⟩ := invariant.explained
  obtain ⟨word,write,ok,effect⟩ := executed
  have word_after : (s.write t written).mem location = word := by
    rcases write with ⟨rfl,rfl⟩|rfl
    · rfl
    · exact Function.update_self ..
  have others : ∀ u, u ≠ t → (((s.write t written).set t th).threads u).effect = (s.threads u).effect := by
    intro u other
    rw [set_threads_other t th other,write_effect]
  constructor
  case threads =>
    intro u
    rw [set_mem,word_after]
    by_cases same : u = t
    · subst same
      rw [set_threads_self]
      exact ok
    · rw [set_threads_other t th same]
      exact (write_ok invariant.threads t same write).2
  case completed =>
    rw [set_completed,write_completed]
    exact invariant.completed
  case explained =>
    rcases effect with ⟨unchanged,same_word⟩|⟨before,op,after,applied⟩
    · apply Exists.intro order
      apply Exists.intro pending
      refine explained.same ?_ ?_ ?_
      · exact word_after.trans same_word
      · exact write_completed t written
      intro u
      by_cases same : u = t
      · subst same
        rw [set_threads_self,unchanged]
      · exact others u same
    · apply Exists.intro (order ++ [op])
      apply Exists.intro (t :: pending)
      refine explained.effect before ?_ ?_ ?_ others
      · rw [set_threads_self,after]
      · rw [set_mem,word_after,applied]
      · exact write_completed t written

-- What a run has done when it reaches the end.
theorem finished_atomic {r : Run} {th : Thread} (ok : r.Ok location word th) (running : th.running = some r)
    (last : r.pc = r.code.length) :
    (Completed.run r th.eq).Atomic ∧ th.effect = some (Completed.run r th.eq).operation := by
  have here : r.pc = 7 := last
  have at_ := ok.here
  unfold Run.At at at_
  rw [here] at at_
  cases eq : th.eq with
  | true =>
    have stores : r.stores = [(r.comp_value,r.exchange_value)] := by simpa [eq] using at_
    refine ⟨⟨fun _ => stores,?_⟩,?_⟩
    · intro clear
      cases clear
    · simp [Thread.effect,running,stores,Completed.operation]
  | false =>
    obtain ⟨no_stores,loaded,different⟩ : r.stores = [] ∧ th.gpr 0 ∈ r.loads ∧ th.gpr 0 ≠ r.comp_value := by
      simpa [eq] using at_
    refine ⟨⟨?_,fun _ => ⟨no_stores,th.gpr 0,loaded,different⟩⟩,?_⟩
    · intro set
      cases set
    · simp [Thread.effect,running,here,no_stores,different,Completed.operation]

theorem step_invariant (invariant : Invariant initial location s) (step : Step location s s') :
    Invariant initial location s' := by
  cases step with
  | begin t exchange dst comp gpr idle different same_word =>
    apply set_invariant invariant
    · apply ok_of rfl
      exact ⟨different,same_word,rfl,rfl,rfl⟩
    · simp [Thread.effect,idle,Run.begin]
  | instruction t fails running here effect =>
    apply instruction_invariant invariant
    exact execute_spec (invariant.threads t _ running) running here effect
  | finish t running last =>
    obtain ⟨order,pending,explained⟩ := invariant.explained
    obtain ⟨atomic,effect⟩ := finished_atomic (invariant.threads t _ running) running last
    constructor
    case threads =>
      intro u
      by_cases same : u = t
      · subst same
        intro other found
        simp at found
      · rw [show (State.threads _ u) = s.threads u from set_threads_other t _ same]
        exact invariant.threads u
    case completed =>
      intro c member
      rcases List.mem_append.mp member with old|new
      · exact invariant.completed c old
      · rw [List.mem_singleton.mp new]
        exact atomic
    case explained =>
      apply Exists.intro order
      apply Exists.intro (pending.erase t)
      refine explained.finish effect ?_ ?_ ?_ ?_
      · exact congrArg Thread.effect (set_threads_self t _)
      · rfl
      · rfl
      · intro u other
        exact congrArg Thread.effect (set_threads_other t _ other)
  | store t value idle =>
    obtain ⟨order,pending,explained⟩ := invariant.explained
    have write := @write_ok T _ location s invariant.threads t
    constructor
    case threads =>
      intro u
      by_cases same : u = t
      · subst same
        intro r running
        have still : (s.threads u).running = some r := by simpa [State.write] using running
        rw [idle] at still
        cases still
      · have kept := write same (.inr rfl : (some (location,value)) = none ∧ value = s.mem location ∨ _)
        rw [← kept.1] at kept
        exact kept.2
    case completed =>
      intro c member
      rcases List.mem_append.mp member with old|new
      · exact invariant.completed c old
      · rw [List.mem_singleton.mp new]
        trivial
    case explained =>
      apply Exists.intro (order ++ [.stored value])
      apply Exists.intro pending
      refine explained.store ?_ ?_ ?_
      · exact Function.update_self ..
      · rfl
      · intro u
        exact write_effect (s := s) t u (some (location,value))
  | lose_reservation t =>
    apply set_invariant invariant
    · exact (invariant.threads t).lost _
    · rfl

end Systems

-- Nobody is inside cmpxchg_, and nothing has been done yet.
omit [DecidableEq T] in
def Initial (s : State T) : Prop := (∀ t, (s.threads t).running = none) ∧ s.completed = []

theorem run_invariant {location : Int} {s s' : State T} (start : Initial s)
    (steps : Relation.ReflTransGen (Step location) s s') : Invariant (s.mem location) location s' := by
  induction steps with
  | refl =>
    have no_effect : ∀ t, (s.threads t).effect = none := by
      intro t
      simp [Thread.effect,start.1 t]
    constructor
    case threads =>
      intro t r running
      rw [start.1 t] at running
      cases running
    case completed =>
      rw [start.2]
      exact fun c member => absurd member List.not_mem_nil
    case explained =>
      refine ⟨[],[],rfl,List.nodup_nil,?_,?_⟩
      · intro t
        simp [no_effect t]
      · rw [start.2]
        exact List.Perm.refl _
  | tail _ step invariant => exact step_invariant invariant step

-- Every finished run exchanged the expected value for the new one in a single
-- store, or stored nothing and read another value. In some sequential order the
-- finished operations, with those that runs still inside have already done, lead
-- to the word; with nobody inside they are the finished ones alone.
theorem cmpxchg_atomic (location : Int) (s s' : State T) (start : Initial s)
    (steps : Relation.ReflTransGen (Step location) s s') :
    (∀ r eq, Completed.run r eq ∈ s'.completed →
      (eq = true → r.stores = [(r.comp_value,r.exchange_value)]) ∧
      (eq = false → r.stores = [] ∧ ∃ value ∈ r.loads, value ≠ r.comp_value)) ∧
    ∃ (order : List Operation) (inside : List T), replay (s.mem location) order = some (s'.mem location) ∧
      order.Perm (s'.completed.map Completed.operation ++ inside.filterMap fun t => (s'.threads t).effect) ∧
      inside.Nodup ∧ (∀ t ∈ inside, (s'.threads t).running ≠ none) := by
  have invariant := run_invariant start steps
  obtain ⟨order,pending,explained⟩ := invariant.explained
  constructor
  · intro r eq member
    exact invariant.completed _ member
  · refine ⟨order,pending,explained.replayed,explained.explains,explained.once,?_⟩
    intro t member idle
    have taken := (explained.taken t).mp member
    simp [Thread.effect,idle] at taken

-- Two threads and a word that holds 5.
def two_threads : State Bool := ⟨fun _ => 5,fun _ => ⟨fun _ => 0,false,none,none⟩,[]⟩

theorem two_threads_initial : Initial two_threads := ⟨fun _ => rfl,rfl⟩

-- One of them begins to exchange 5 for 7. The other stores 6 after its load, so
-- that it goes round the loop and gives up.
def arguments : Register → Int
  | 3 => 7
  | 4 => 8
  | 5 => 5
  | _ => 0

theorem two_threads_run : ∃ s', Relation.ReflTransGen (Step 8) two_threads s' ∧
    s'.mem 8 = 6 ∧ s'.completed.map Completed.operation = [.stored 6,.different 5] := by
  have first : Step 8 two_threads _ := .begin true 3 4 5 arguments rfl (by decide) rfl
  have begun := Relation.ReflTransGen.tail .refl first
  have synced := begun.tail (.instruction true false rfl rfl rfl)
  have loaded := synced.tail (.instruction true false rfl rfl rfl)
  have stored := loaded.tail (.store false 6 rfl)
  have compared := stored.tail (.instruction true false rfl rfl rfl)
  have kept_on := compared.tail (.instruction true false rfl rfl rfl)
  have failed := kept_on.tail (.instruction true false rfl rfl rfl)
  have looped := failed.tail (.instruction true false rfl rfl rfl)
  have reloaded := looped.tail (.instruction true false rfl rfl rfl)
  have compared_again := reloaded.tail (.instruction true false rfl rfl rfl)
  have left := compared_again.tail (.instruction true false rfl rfl rfl)
  have finished := left.tail (.finish true rfl rfl)
  exact ⟨_,finished,rfl,rfl⟩

theorem cmpxchg_atomic_two_threads :
    ∃ s' : State Bool, s'.mem 8 = 6 ∧ s'.completed.map Completed.operation = [.stored 6,.different 5] ∧
      (∀ r eq, Completed.run r eq ∈ s'.completed →
        (eq = true → r.stores = [(r.comp_value,r.exchange_value)]) ∧
        (eq = false → r.stores = [] ∧ ∃ value ∈ r.loads, value ≠ r.comp_value)) ∧
      ∃ (order : List Operation) (inside : List Bool), replay (two_threads.mem 8) order = some (s'.mem 8) ∧
        order.Perm (s'.completed.map Completed.operation ++ inside.filterMap fun t => (s'.threads t).effect) ∧
        inside.Nodup ∧ (∀ t ∈ inside, (s'.threads t).running ≠ none) := by
  obtain ⟨s',run,word,operations⟩ := two_threads_run
  exact ⟨s',word,operations,cmpxchg_atomic 8 two_threads s' two_threads_initial run⟩

end IcedTea.CompareAndExchange

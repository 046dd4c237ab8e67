import IcedTea.SignatureHandlerReach

namespace IcedTea.InterpreterRuntime
open StackFrame (link_area_words min_params)
open Vm Cells

-- The 64-bit ABI numbers every argument by its doubleword in the parameter
-- list, and the floating ones a second time among themselves.
structure Position where
  doubleword : Nat
  floats : Nat
  deriving DecidableEq, Repr

-- The JNIEnv is doubleword 0, the mirror of a static method doubleword 1.
def Position.start (is_static : Bool) : Position := ⟨if is_static then 2 else 1,0⟩
def Position.next (p : Position) (t : NativeType) : Position :=
  ⟨p.doubleword+1,if t.floating then p.floats+1 else p.floats⟩

-- The signatures the generator gets right: no general argument still to go into
-- a register after a floating one, and no float on the stack.
def Fits (p : Position) (t : NativeType) : Prop :=
  if t.floating then t = .float → p.floats < 13 else p.floats = 0 ∨ p.floats + 8 ≤ p.doubleword

def Conforms : Position → List NativeType → Prop
  | _,[] => True
  | p,t :: rest => Fits p t ∧ Conforms (p.next t) rest

instance (p : Position) (t : NativeType) : Decidable (Fits p t) := by unfold Fits; infer_instance
instance : (p : Position) → (params : List NativeType) → Decidable (Conforms p params)
  | _,[] => isTrue trivial
  | p,t :: rest => @instDecidableAnd _ _ inferInstance (instDecidableConforms (p.next t) rest)

section
variable [Target]

-- A two-word value is read at its second local.
def source (n : Nat) (t : NativeType) : Address := localAddress (n + t.words - 1)

-- The Java argument in a general register or a doubleword of the stack.
def generalValue (m : Cells) (a : Int) : NativeType → Int
  | .int => intValue m a
  | .object => objectValue m a
  | _ => m.word wide a

def floatingValue (m : Cells) (a : Int) : NativeType → Int
  | .float => Target.single_to_double (m a)
  | _ => m.word true a

def parameterAddress (m' : Machine) (k : Nat) : Int := m'.gpr r1 + ((link_area_words + k : Nat) : Int)*wordSize

-- The argument at `p` is where the ABI has the callee look for it.
def Delivered (m m' : Machine) (p : Position) (n : Nat) (t : NativeType) : Prop :=
  let src := m.ea (source n t)
  if t.floating then
    if p.floats < 13 then m'.fpr (1 + p.floats) = floatingValue m.mem src t
    else if t = .float then m'.read32 (parameterAddress m' p.doubleword + 4) = m.read32 src
    else m'.read (parameterAddress m' p.doubleword) = floatingValue m.mem src t
  else if p.doubleword < 8 then m'.gpr (3 + p.doubleword) = generalValue m.mem src t
  else m'.read (parameterAddress m' p.doubleword) = generalValue m.mem src t

def AllDelivered (m m' : Machine) : Position → Nat → List NativeType → Prop
  | _,_,[] => True
  | p,n,t :: rest => Delivered m m' p n t ∧ AllDelivered m m' (p.next t) (n + t.words) rest

-- Outside the parameter list memory is as before, but for the back chain and
-- the CR word of a frame that was extended.
def OnlyParameters (st_arg : Nat) (m m' : Machine) : Prop :=
  ∀ b, b < parameterAddress m' 0 ∨ parameterAddress m' st_arg ≤ b →
    ¬ (m'.gpr r1 < m.gpr r1 ∧ m'.gpr r1 ≤ b ∧ b < m'.gpr r1 + 2*wordSize) → m'.mem b = m.mem b

-- The counters follow the positions, but a general register is counted by the
-- general arguments alone.
structure Agrees (c : Counters) (p : Position) : Prop where
  st_arg : c.st_arg = p.doubleword
  gp_reg : c.gp_reg + p.floats = min (3 + p.doubleword) (11 + p.floats)
  fp_reg : c.fp_reg = min (1 + p.floats) 14
  among : p.floats < p.doubleword

def emit (dst : Register) (src : Address) : NativeType → Emitted
  | .int => .lwa dst src
  | .long => .load dst src
  | .float => .lfs dst src
  | .double => .lfd dst src
  | .object => .handle dst src

-- On the large processor every kind of argument is passed alike.
theorem pass_ppc64 (cpu : Target.cpu = .ppc64) (c : Counters) (n : Nat) (t : NativeType) : pass c n t =
    if t.floating then
      if c.fp_reg ≤ 13 then ⟨[emit c.fp_reg (source n t) t],[],⟨c.gp_reg,c.fp_reg+1,c.st_arg+1⟩⟩
      else ⟨[],[⟨(source n t).displacement,((link_area_words + c.st_arg : Nat) : Int)*wordSize,t⟩],{c with st_arg := c.st_arg+1}⟩
    else if c.gp_reg ≤ 10 then ⟨[emit c.gp_reg (source n t) t],[],⟨c.gp_reg+1,c.fp_reg,c.st_arg+1⟩⟩
    else ⟨[],[⟨(source n t).displacement,((link_area_words + c.st_arg : Nat) : Int)*wordSize,t⟩],{c with st_arg := c.st_arg+1}⟩ := by
  cases t <;> simp only [pass,pass_int,pass_long,pass_float,pass_double,pass_object,pass_on_stack,cpu,gp_reg_max,fp_reg_max,
    Counters.shadow,NativeType.floating,source,NativeType.words,emit,Bool.false_and,Bool.false_eq_true,if_false,if_true] <;> rfl

theorem agrees_start (cpu : Target.cpu = .ppc64) (is_static : Bool) :
    Agrees (Counters.start is_static) (Position.start is_static) := by
  cases is_static <;> constructor <;> simp [Counters.start,Position.start,cpu,gp_reg_start,fp_reg_start]

theorem agrees_pass (cpu : Target.cpu = .ppc64) (agrees : Agrees c p) (n : Nat) (t : NativeType) :
    Agrees (pass c n t).next (p.next t) := by
  obtain ⟨st_arg,gp_reg,fp_reg,among⟩ := agrees
  rw [pass_ppc64 cpu]
  cases floating : t.floating with
  | true =>
    by_cases few : c.fp_reg ≤ 13 <;> simp only [if_true,few,if_false,Position.next,floating] <;> constructor <;>
      simp only <;> omega
  | false =>
    by_cases few : c.gp_reg ≤ 10 <;>
      simp only [if_true,few,if_false,Position.next,floating,Bool.false_eq_true] <;> constructor <;> simp only <;> omega

def stackArgument (p : Position) (n : Nat) (t : NativeType) : StackArgument :=
  ⟨(source n t).displacement,((link_area_words + p.doubleword : Nat) : Int)*wordSize,t⟩

-- How an argument of a conforming signature goes: by one load, or by one store
-- to its own doubleword.
inductive Sent (q : Passed) (p : Position) (n : Nat) (t : NativeType) : Prop
  | general (plain : t.floating = false) (few : p.doubleword < 8)
      (member : emit (3 + p.doubleword) (source n t) t ∈ q.code)
  | floating (kind : t.floating = true) (few : p.floats < 13) (member : emit (1 + p.floats) (source n t) t ∈ q.code)
  | stacked (past : if t.floating then t ≠ .float ∧ ¬ p.floats < 13 else ¬ p.doubleword < 8)
      (member : stackArgument p n t ∈ q.st_args)

theorem sent_pass (cpu : Target.cpu = .ppc64) (agrees : Agrees c p) (n : Nat) (fits : Fits p t) :
    Sent (pass c n t) p n t := by
  obtain ⟨st_arg,gp_reg,fp_reg,among⟩ := agrees
  rw [pass_ppc64 cpu]
  cases floating : t.floating with
  | true =>
    simp only [Fits,floating,if_true] at fits ⊢
    by_cases few : p.floats < 13
    · have count : c.fp_reg = 1 + p.floats := by omega
      have inside : 1 + p.floats ≤ 13 := by omega
      refine .floating floating few ?_
      simp [count,inside]
    · have count : ¬ c.fp_reg ≤ 13 := by omega
      refine .stacked (by rw [if_pos floating]; exact ⟨fun kind => few (fits kind),few⟩) ?_
      simp [count,st_arg,stackArgument]
  | false =>
    simp only [Fits,floating,Bool.false_eq_true,if_false] at fits ⊢
    by_cases few : p.doubleword < 8
    · have count : c.gp_reg = 3 + p.doubleword := by omega
      have inside : 3 + p.doubleword ≤ 10 := by omega
      refine .general floating few ?_
      simp [count,inside]
    · have count : ¬ c.gp_reg ≤ 10 := by omega
      refine .stacked (by simp [floating]; omega) ?_
      simp [count,st_arg,stackArgument]

-- No float of a conforming signature is on the stack.
theorem conforms_spill (cpu : Target.cpu = .ppc64) (agrees : Agrees c p) (n : Nat) (conforms : Conforms p params) :
    ∀ a ∈ (iterate c n params).st_args, a.spill = 0 := by
  induction params generalizing c p n with
  | nil => simp [iterate]
  | cons t rest ih =>
    intro a member
    rcases List.mem_append.mp member with first | later
    · have fp := agrees.fp_reg
      have fits := conforms.1
      have kind : a.type ≠ .float := by
        rw [pass_ppc64 cpu] at first
        rintro float
        split at first
        · rename_i floating
          split at first
          · cases first
          · rw [List.mem_singleton.mp first] at float
            simp only [Fits,floating,if_true] at fits
            have := fits float
            omega
        · rename_i plain
          split at first
          · cases first
          · rw [List.mem_singleton.mp first] at float
            simp only at float
            exact plain (by rw [float]; rfl)
      unfold StackArgument.spill
      split
      · contradiction
      · rfl
    · exact ih (agrees_pass cpu agrees n t) (n + t.words) conforms.2 a later

end

variable [Vm]

omit [Vm] in
theorem general_register (few : k < 8) : ¬ Scratch (.gpr (3 + k)) :=
  (by decide : ∀ k : Fin 8, ¬ Scratch (.gpr (3 + k.val))) ⟨k,few⟩

theorem delivered_of_sent (cpu : Target.cpu = .ppc64) (handled : Handled q result_handler extra m m') (listed : Listed c 0 words q)
    (inside : ∀ a ∈ q.st_args, a.spill = 0) (sent : Sent q p n t) : Delivered m m' p n t := by
  have broad : wide = true := by simp [wide,cpu]
  unfold Delivered
  cases sent with
  | general plain few member =>
    simp only [plain,few,Bool.false_eq_true,if_false,if_true]
    have held := handled.register listed member (by
      cases t <;> first | exact general_register few | cases plain)
    cases t <;> first | exact held | cases plain
  | floating kind few member =>
    simp only [kind,few,if_true]
    have held := handled.register listed member (by
      cases t <;> first | (simp [emit,Emitted.dst,Scratch]; done) | cases kind)
    cases t with
    | float => exact held
    | double => exact held
    | _ => cases kind
  | stacked past member =>
    have held := handled.stored listed inside member
    have general : ∀ v, (stackArgument p n t).cells (m'.gpr r1) (m.gpr Rlocals) m.mem =
        wordCells wide (parameterAddress m' p.doubleword) v → m'.read (parameterAddress m' p.doubleword) = v :=
      fun v same => word_of_cells (by rw [← same]; exact held)
    cases kind : t.floating with
    | true =>
      rw [kind,if_pos rfl] at past
      simp only [if_true,past,if_false]
      refine general _ ?_
      cases t with
      | double => rw [broad]; rfl
      | float => exact absurd rfl past.1
      | _ => cases kind
    | false =>
      simp only [kind,Bool.false_eq_true,if_false] at past
      simp only [Bool.false_eq_true,past,if_false]
      refine general _ ?_
      cases t with
      | long => simp only [StackArgument.cells,stackArgument,cpu]; rfl
      | int => rfl
      | object => rfl
      | _ => cases kind

theorem all_delivered (cpu : Target.cpu = .ppc64) (handled : Handled q result_handler extra m m') (listed : Listed c₀ 0 words q)
    (inside : ∀ a ∈ q.st_args, a.spill = 0) (agrees : Agrees c p) (n : Nat) (conforms : Conforms p params)
    (code : ∀ e ∈ (iterate c n params).code, e ∈ q.code) (st_args : ∀ a ∈ (iterate c n params).st_args, a ∈ q.st_args) :
    AllDelivered m m' p n params := by
  induction params generalizing c p n with
  | nil => trivial
  | cons t rest ih =>
    refine ⟨?_,ih (agrees_pass cpu agrees n t) (n + t.words) conforms.2 (fun e member => code e (List.mem_append_right _ member))
      fun a member => st_args a (List.mem_append_right _ member)⟩
    refine delivered_of_sent cpu handled listed inside ?_
    cases sent_pass cpu agrees n conforms.1 with
    | general plain few member => exact .general plain few (code _ (List.mem_append_left _ member))
    | floating kind few member => exact .floating kind few (code _ (List.mem_append_left _ member))
    | stacked past member => exact .stacked past (st_args _ (List.mem_append_left _ member))

theorem only_parameters (handled : Handled q result_handler extra m m') (listed : Listed c 0 words q)
    (inside : ∀ a ∈ q.st_args, a.spill = 0) : OnlyParameters q.next.st_arg m m' := by
  intro b outside plain
  have stack := handled.stack
  refine handled.stacked.kept (fun found => plain ⟨by omega,found.1,by omega⟩) fun found => ?_
  obtain ⟨cell,listing,rfl⟩ := List.mem_map.mp found
  obtain ⟨a,member,found⟩ := List.mem_flatMap.mp listing
  have member := List.mem_reverse.mp member
  have above := arguments_above listed m member cell found
  have range := cells_range found
  have high := (listed.stack a member).2.1
  have own := inside a member
  simp only [parameterAddress,Nat.add_zero] at outside
  omega

-- The walk over a signature in two parts.
section
variable [Target]
omit [Vm]

theorem iterate_append (c : Counters) (n : Nat) (one two : List NativeType) :
    let first := iterate c n one
    let later := iterate first.next (n + parameterWords one) two
    iterate c n (one ++ two) = ⟨first.code ++ later.code,first.st_args ++ later.st_args,later.next⟩ := by
  induction one generalizing c n with
  | nil => simp [iterate,parameterWords]
  | cons t rest ih =>
    simp only [List.cons_append,iterate,ih,List.append_assoc,parameterWords,List.map_cons,List.sum_cons,Nat.add_assoc]

theorem agrees_iterate (cpu : Target.cpu = .ppc64) (agrees : Agrees c p) (n : Nat) (params : List NativeType) :
    Agrees (iterate c n params).next (params.foldl Position.next p) := by
  induction params generalizing c p n with
  | nil => exact agrees
  | cons t rest ih => exact ih (agrees_pass cpu agrees n t) (n + t.words)

omit [Target] in
theorem not_conforms (wrong : ¬ Conforms p params) :
    ∃ before t after, params = before ++ t :: after ∧ ¬ Fits (before.foldl Position.next p) t := by
  induction params generalizing p with
  | nil => exact absurd trivial wrong
  | cons t rest ih =>
    by_cases fits : Fits p t
    · obtain ⟨before,u,after,same,unfit⟩ := ih fun conforms => wrong ⟨fits,conforms⟩
      exact ⟨t :: before,u,after,by rw [same]; rfl,unfit⟩
    · exact ⟨[],t,rest,rfl,fits⟩

theorem delivered_at (before after : List NativeType) (all : AllDelivered m m' p n (before ++ t :: after)) :
    Delivered m m' (before.foldl Position.next p) (n + parameterWords before) t := by
  induction before generalizing p n with
  | nil => exact all.1
  | cons u rest ih =>
    have later := ih all.2
    simpa only [parameterWords,List.map_cons,List.sum_cons,List.foldl_cons,Nat.add_assoc] using later
end

-- A state whose only non-zero Java value is local `k`.
def marked (words k : Nat) : Machine where
  gpr r := if r = Rstate then wordSize else if r = Rlocals then wordSize + sizeof_BytecodeInterpreter + words*wordSize else 0
  fpr _ := 0
  cr _ := 0
  lr := 0
  ctr := 0
  mem b := if b = wordSize + sizeof_BytecodeInterpreter + words*wordSize - k*wordSize ∨
    b = wordSize + sizeof_BytecodeInterpreter + words*wordSize - k*wordSize + 4 then 1 else 0

theorem marked_local (words k n : Nat) : (marked words k).ea (localAddress n) =
    wordSize + sizeof_BytecodeInterpreter + words*wordSize - n*wordSize := by
  simp [marked,localAddress,local_offset_in_bytes]
  omega

theorem marked_zero (cpu : Target.cpu = .ppc64) (words : Nat) (other : n ≠ k) :
    (marked words k).mem ((marked words k).ea (localAddress n)) = 0 ∧
      (marked words k).mem ((marked words k).ea (localAddress n) + 4) = 0 := by
  rw [marked_local]
  simp only [marked,wordSize_ppc64 cpu]
  constructor <;> rw [if_neg] <;> omega

theorem marked_below (words : Nat) (inside : k < words) (below : b < wordSize + sizeof_BytecodeInterpreter) :
    (marked words k).mem b = 0 := by
  have pos := wordSize_pos
  have room := Int.mul_le_mul_of_nonneg_right (show ((k+1 : Nat) : Int) ≤ words by omega) (Int.le_of_lt pos)
  push_cast [Int.add_mul] at room
  simp only [marked]
  rw [if_neg]
  omega

theorem marked_entry (inside : k < words) : HandlerEntry words (marked words k) := by
  have pos := wordSize_pos
  have object := state_inside .stack_limit
  have bytes : StateField.bytes .stack_limit = wordSize := rfl
  constructor
  · have zero : (marked words k).read ((marked words k).ea (STATE .stack_limit)) = 0 := by
      have at_ : (marked words k).ea (STATE .stack_limit) = wordSize + state_offset .stack_limit := by simp [marked,STATE]
      rw [at_]
      refine word_of_cells fun cell found => ?_
      have range := wordCells_range (v := 0) found
      have value : cell.2 = 0 := by
        cases w : wide <;> simp [wordCells,w] at found <;> rcases found with rfl | rfl <;> rfl
      rw [value]
      refine marked_below words inside ?_
      change _ ∧ _ ≤ _ + wordSize at range
      omega
    rw [zero]
    simp [marked]
  · intro n less
    have room := Int.mul_le_mul_of_nonneg_right (show ((n+1 : Nat) : Int) ≤ words by omega) (Int.le_of_lt pos)
    push_cast [Int.add_mul] at room
    rw [marked_local]
    simp only [marked,if_true]
    omega

-- Code that reads other locals than the marked one passes zeros.
structure Quiet (m : Machine) (q : Passed) : Prop where
  code : ∀ e ∈ q.code, ∀ r, e.dst = .gpr r → e.value m.mem (m.ea e.src) = 0
  st_args : ∀ a ∈ q.st_args, ∀ base, ∀ cell ∈ a.cells base (m.gpr Rlocals) m.mem, cell.2 = 0

section
variable [Target]
omit [Vm]

omit [Target] in
theorem zero_word (here : m a = 0) (next : m (a+4) = 0) (w : Bool) : word w m a = 0 := by
  cases w <;> simp [word,here,next]

theorem zero_value (e : Emitted) (general : e.dst = .gpr r) (here : m a = 0) (next : m (a+4) = 0) : e.value m a = 0 := by
  cases e with
  | lwa dst src => simp [Emitted.value,intValue,here,extsw]
  | lwz dst src => simp [Emitted.value,cellValue,here]
  | load dst src => exact zero_word here next _
  | handle dst src => simp [Emitted.value,objectValue,zero_word here next]
  | lfs dst src => cases general
  | lfd dst src => cases general

theorem zero_cells (cpu : Target.cpu = .ppc64) (a : StackArgument) (here : m (locals + a.src_offset) = 0)
    (next : m (locals + a.src_offset + 4) = 0) : ∀ cell ∈ a.cells base locals m, cell.2 = 0 := by
  have word : ∀ w at_ v, v = 0 → ∀ cell ∈ wordCells w at_ v, cell.2 = 0 := by
    rintro w at_ v rfl cell found
    cases w <;> simp [wordCells] at found <;> rcases found with rfl | rfl <;> rfl
  obtain ⟨src,dst,type⟩ := a
  simp only [StackArgument.cells,cpu]
  cases type with
  | int => exact word _ _ _ (by simp [intValue,here,extsw])
  | long => exact word _ _ _ (zero_word here next _)
  | float => simp [here]
  | double => exact word _ _ _ (zero_word here next _)
  | object => exact word _ _ _ (by simp [objectValue,zero_word here next])
end

theorem quiet_listed (cpu : Target.cpu = .ppc64) (listed : Listed c n words q)
    (apart : ∀ i, n ≤ i → i < n + words → i ≠ k) : Quiet (marked total k) q := by
  constructor
  · intro e member r general
    obtain ⟨⟨i,low,high,src⟩,_⟩ := listed.code e member
    obtain ⟨here,next⟩ := marked_zero cpu total (apart i low high)
    rw [← src] at here next
    exact zero_value e general here next
  · intro a member base
    obtain ⟨_,_,i,low,high,src⟩ := listed.stack a member
    obtain ⟨here,next⟩ := marked_zero cpu total (apart i low high)
    refine zero_cells cpu a ?_ ?_ <;> rw [src]
    · exact here
    · exact next

-- The marked value is not zero for any kind of argument.
theorem marked_value (total k : Nat) (inside : k < total) (t : NativeType) (plain : t.floating = false) :
    generalValue (marked total k).mem ((marked total k).ea (localAddress k)) t ≠ 0 := by
  have pos := wordSize_pos
  have object := sizeof_large
  have room := Int.mul_le_mul_of_nonneg_right (show ((k+1 : Nat) : Int) ≤ total by omega) (Int.le_of_lt pos)
  push_cast [Int.add_mul] at room
  have one : (marked total k).mem ((marked total k).ea (localAddress k)) = 1 := by rw [marked_local]; simp [marked]
  have two : (marked total k).mem ((marked total k).ea (localAddress k) + 4) = 1 := by rw [marked_local]; simp [marked]
  have word : word wide (marked total k).mem ((marked total k).ea (localAddress k)) ≠ 0 := by
    unfold word
    split
    · rw [one,two]; decide
    · rw [one]; decide
  cases t with
  | int =>
    simp only [generalValue,intValue,one]
    split <;> decide
  | long => exact word
  | object =>
    simp only [generalValue,objectValue,if_neg word]
    rw [marked_local]
    omega
  | _ => cases plain

-- The handler's code round one argument, the only one with a value.
structure Around (is_static : Bool) (before : List NativeType) (t : NativeType) (after : List NativeType)
    (middle q : Passed) (m : Machine) : Prop where
  code : ∀ e ∈ q.code, e ∈ middle.code ∨ ∀ r, e.dst = .gpr r → e.value m.mem (m.ea e.src) = 0
  st_args : ∀ a ∈ q.st_args, a ∈ middle.st_args ∨ ∀ base, ∀ cell ∈ a.cells base (m.gpr Rlocals) m.mem, cell.2 = 0
  count : ((before.foldl Position.next (Position.start is_static)).doubleword : Int) < q.next.st_arg

theorem around_argument (cpu : Target.cpu = .ppc64) (is_static : Bool) (before : List NativeType) (t : NativeType)
    (after : List NativeType) (total : Nat) :
    let c := (iterate (Counters.start is_static) 0 before).next
    Around is_static before t after (pass c (parameterWords before) t)
      (iterate (Counters.start is_static) 0 (before ++ t :: after)) (marked total (parameterWords before + t.words - 1)) ∧
    Agrees c (before.foldl Position.next (Position.start is_static)) := by
  have one := iterate_listed (ready_start is_static) 0 before
  have agrees := agrees_iterate cpu (agrees_start cpu is_static) 0 before
  have two := pass_listed one.ready (parameterWords before) t
  have three := iterate_listed two.ready (parameterWords before + t.words) after
  have some : 0 < t.words := by cases t <;> decide
  have first : Quiet (marked total (parameterWords before + t.words - 1)) _ :=
    quiet_listed cpu one (fun i _ _ => by omega)
  have last : Quiet (marked total (parameterWords before + t.words - 1)) _ :=
    quiet_listed cpu three (fun i _ _ => by omega)
  rw [iterate_append]
  simp only [Nat.zero_add,iterate] at *
  refine ⟨⟨fun e member => ?_,fun a member => ?_,?_⟩,agrees⟩
  · rcases List.mem_append.mp member with early | member
    · exact .inr (first.code e early)
    · rcases List.mem_append.mp member with here | late
      · exact .inl here
      · exact .inr (last.code e late)
  · rcases List.mem_append.mp member with early | member
    · exact .inr (first.st_args a early)
    · rcases List.mem_append.mp member with here | late
      · exact .inl here
      · exact .inr (last.st_args a late)
  · have moved := (agrees_pass cpu agrees (parameterWords before) t).st_arg
    have count := three.st
    simp only [Position.next] at moved ⊢
    omega

-- A cell of the argument's own doubleword is still zero when the argument is
-- not stored there.
theorem stack_zero (cpu : Target.cpu = .ppc64) (handled : Handled q result_handler extra (marked total k) m')
    (around : Around is_static before t after middle q (marked total k)) (inside : k < total) (p : Position)
    (here : p = before.foldl Position.next (Position.start is_static)) (large : 8 ≤ p.doubleword)
    (low : parameterAddress m' p.doubleword ≤ b) (high : b < parameterAddress m' p.doubleword + 8)
    (missed : ∀ a ∈ middle.st_args, ∀ cell ∈ a.cells (m'.gpr r1) ((marked total k).gpr Rlocals) (marked total k).mem, cell.1 ≠ b) :
    m'.mem b = 0 := by
  have size := wordSize_ppc64 cpu
  have count := around.count
  rw [← here] at count
  have more : min_params < q.next.st_arg := by simp only [min_params,cpu]; omega
  have room := handled.room more
  have limit : (marked total k).read ((marked total k).ea (STATE .stack_limit)) + wordSize ≤ wordSize := by
    have entry := (marked_entry inside).state
    simpa only [marked,if_true] using entry
  have object := sizeof_large
  simp only [parameterAddress,size] at low high
  simp only [size] at room limit
  push_cast at low high room
  have link : (2 : Int) ≤ link_area_words := by simp [link_area_words,cpu]
  refine handled.stacked.constant (q := b) (by rw [size]; omega) (marked_below total inside (by rw [size]; omega)) fun u found => ?_
  obtain ⟨a,member,found⟩ := List.mem_flatMap.mp found
  rcases around.st_args a (List.mem_reverse.mp member) with own | quiet
  · exact absurd rfl (missed a own _ found)
  · exact quiet _ _ found

theorem misdelivered (cpu : Target.cpu = .ppc64) (is_static : Bool) (before : List NativeType) (t : NativeType)
    (after : List NativeType) (unfit : ¬ Fits (before.foldl Position.next (Position.start is_static)) t) :
    ∃ m, HandlerEntry (parameterWords (before ++ t :: after)) m ∧ ∀ m' result_handler extra,
      Handled (iterate (Counters.start is_static) 0 (before ++ t :: after)) result_handler extra m m' →
      ¬ Delivered m m' (before.foldl Position.next (Position.start is_static)) (parameterWords before) t := by
  have some : 0 < t.words := by cases t <;> decide
  have inside : parameterWords before + t.words - 1 < parameterWords (before ++ t :: after) := by
    simp only [parameterWords,List.map_append,List.sum_append,List.map_cons,List.sum_cons]
    omega
  obtain ⟨around,agrees⟩ := around_argument cpu is_static before t after (parameterWords (before ++ t :: after))
  generalize place : before.foldl Position.next (Position.start is_static) = p at unfit agrees
  generalize parameterWords (before ++ t :: after) = total at inside around
  refine ⟨_,marked_entry inside,fun m' result_handler extra handled delivered => ?_⟩
  obtain ⟨st_arg,gp_reg,fp_reg,among⟩ := agrees
  have size := wordSize_ppc64 cpu
  have passed := pass_ppc64 cpu (iterate (Counters.start is_static) 0 before).next (parameterWords before) t
  cases kind : t.floating with
  | true =>
    simp only [Fits,kind,if_true,Classical.not_imp] at unfit
    obtain ⟨rfl,many⟩ := unfit
    have spilled : ¬ (iterate (Counters.start is_static) 0 before).next.fp_reg ≤ 13 := by omega
    simp only [Delivered,kind,many,if_true,if_false] at delivered
    simp only [kind,spilled,if_true,if_false] at passed
    -- the word is stored eight bytes on, in the next doubleword
    have zero : m'.mem (parameterAddress m' p.doubleword + 4) = 0 := by
      refine stack_zero cpu handled around inside p place.symm ?_ (by omega) (by omega) fun a member cell found same => ?_
      · omega
      · rw [passed] at member
        rw [List.mem_singleton.mp member] at found
        simp only [StackArgument.cells,cpu,List.mem_singleton] at found
        rw [found,size] at same
        simp only [parameterAddress,size,st_arg] at same
        omega
    have one : (marked total (parameterWords before + NativeType.float.words - 1)).mem
        ((marked total (parameterWords before + NativeType.float.words - 1)).ea (source (parameterWords before) .float)) = 1 := by
      rw [source,marked_local]
      simp [marked]
    simp only [Machine.read32,zero,one] at delivered
    split at delivered <;> simp at delivered
  | false =>
    simp only [Fits,kind,Bool.false_eq_true,if_false,not_or,not_le] at unfit
    have few : (iterate (Counters.start is_static) 0 before).next.gp_reg ≤ 10 := by omega
    simp only [kind,few,Bool.false_eq_true,if_true,if_false] at passed
    have value := marked_value total _ inside t kind
    simp only [Delivered,kind,Bool.false_eq_true,if_false] at delivered
    split at delivered
    · rename_i small
      refine value (delivered.symm.trans ?_)
      refine handled.registers.constant (q := .gpr (3 + p.doubleword)) (general_register small) ?_ fun u found => ?_
      · have other : ∀ r : Nat, r < 28 → (marked total (parameterWords before + t.words - 1)).gpr r = 0 := by
          intro r low
          simp only [marked,Rstate,Rlocals]
          rw [if_neg (Nat.ne_of_lt (by omega)),if_neg (Nat.ne_of_lt (by omega))]
        exact other (3 + p.doubleword) (by omega)
      · obtain ⟨e,member,found⟩ := List.mem_flatMap.mp found
        rw [List.mem_singleton,Prod.mk.injEq] at found
        rcases around.code e (List.mem_reverse.mp member) with own | quiet
        · rw [passed] at own
          rw [List.mem_singleton.mp own] at found
          have dst : (emit (iterate (Counters.start is_static) 0 before).next.gp_reg (source (parameterWords before) t) t).dst =
              .gpr (iterate (Counters.start is_static) 0 before).next.gp_reg := by cases t <;> first | rfl | cases kind
          rw [dst,Destination.gpr.injEq] at found
          have same : 3 + p.doubleword = (iterate (Counters.start is_static) 0 before).next.gp_reg := found.1
          omega
        · rw [found.2]
          exact quiet _ found.1.symm
    · rename_i large
      refine value (delivered.symm.trans (zero_word ?_ ?_ wide))
      all_goals
        refine stack_zero cpu handled around inside p place.symm (by omega) (by omega) (by omega) fun a member => ?_
        rw [passed] at member
        cases member

-- The generated handler passes every argument by the 64-bit ABI, whatever the
-- Java values are, exactly when the signature conforms. Its displacements reach
-- every argument of a Java method.
theorem native_arguments (cpu : Target.cpu = .ppc64) (is_static : Bool) (signature : List NativeType)
    (within : InReach is_static signature) (result_handler : Int) :
    (∀ m, HandlerEntry (parameterWords (parameters is_static signature)) m →
      let m' := generate_narrow is_static signature result_handler m
      AllDelivered m m' (Position.start is_static) 0 (parameters is_static signature) ∧
      OnlyParameters (iterate (Counters.start is_static) 0 (parameters is_static signature)).next.st_arg m m') ↔
    Conforms (Position.start is_static) (parameters is_static signature) := by
  have listed := iterate_listed (ready_start is_static) 0 (parameters is_static signature)
  have agrees := agrees_start cpu is_static
  constructor
  · intro correct
    by_contra wrong
    obtain ⟨before,t,after,params,unfit⟩ := not_conforms wrong
    obtain ⟨m,entry,missed⟩ := misdelivered cpu is_static before t after unfit
    rw [← params] at entry missed
    obtain ⟨loaded,same⟩ := generate_narrow_eq is_static signature within result_handler m
    obtain ⟨extra,handled⟩ := generate_spec is_static signature loaded m entry
    have all := (correct m entry).1
    rw [same] at all
    generalize generate is_static signature loaded m = m' at all handled
    rw [params] at all
    have delivered := delivered_at before after all
    rw [Nat.zero_add] at delivered
    exact missed m' loaded extra handled delivered
  · intro conforms m entry
    obtain ⟨loaded,same⟩ := generate_narrow_eq is_static signature within result_handler m
    obtain ⟨extra,handled⟩ := generate_spec is_static signature loaded m entry
    have inside := conforms_spill cpu agrees 0 conforms
    dsimp only
    rw [same]
    exact ⟨all_delivered cpu handled listed inside agrees 0 conforms (fun _ member => member) fun _ member => member,
      only_parameters handled listed inside⟩

section
omit [Vm]

-- Nine general arguments after the mirror: the last three go to the stack.
theorem native_arguments_nine : letI := Vm.plain ppc64
    Conforms (Position.start true) (List.replicate 9 .int) ∧
    ((∀ m, HandlerEntry 9 m → AllDelivered m (generate_narrow true (List.replicate 9 .int) 0 m) ⟨2,0⟩ 0 (List.replicate 9 .int) ∧
      OnlyParameters 11 m (generate_narrow true (List.replicate 9 .int) 0 m)) ↔
    Conforms (Position.start true) (List.replicate 9 .int)) := by
  let := Vm.plain ppc64
  exact ⟨by decide,native_arguments rfl true (List.replicate 9 .int) (in_reach true _ (by decide)) 0⟩

-- An instance method with a float and then an int: the int is looked for in r6
-- and passed in r5.
theorem int_after_float : letI := Vm.plain ppc64
    ¬ ∀ m, HandlerEntry 3 m →
      AllDelivered m (generate_narrow false [.float,.int] 0 m) ⟨1,0⟩ 0 (parameters false [.float,.int]) := by
  let := Vm.plain ppc64
  intro correct
  have all := correct (marked 3 2) (marked_entry (by decide))
  have found : (generate_narrow false [.float,.int] 0 (marked 3 2)).gpr 6 = 1 := all.2.2.1
  exact absurd found (by decide)

end
end IcedTea.InterpreterRuntime

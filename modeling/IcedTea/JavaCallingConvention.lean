import IcedTea.Machine
import Mathlib.Data.List.Pairwise
import Mathlib.Tactic.ByContra

namespace IcedTea.SharedRuntime
variable [Target]

inductive BasicType where
  | T_BOOLEAN | T_CHAR | T_FLOAT | T_DOUBLE | T_BYTE | T_SHORT | T_INT | T_LONG
  | T_OBJECT | T_ARRAY | T_VOID | T_ADDRESS | T_CONFLICT
  deriving DecidableEq, Repr
open BasicType

-- Names of 32-bit places: registers by number, floating registers above them,
-- and the slots of the outgoing area.
inductive VMReg where
  | reg (n : Nat) | stack (n : Nat)
  deriving DecidableEq, Repr

def VMReg.next : VMReg → VMReg
  | reg n => reg (n+1)
  | stack n => stack (n+1)

def max_gpr : Nat := 32
def as_VMReg (r : Register) : VMReg := .reg r
def float_as_VMReg (r : FloatRegister) : VMReg := .reg (r + max_gpr)
def stack2reg (n : Nat) : VMReg := .stack n

inductive VMRegPair where
  | bad | set1 (v : VMReg) | set2 (v : VMReg)
  deriving DecidableEq, Repr

-- A pair names the place and the next one, a single only the place.
def VMRegPair.places : VMRegPair → List VMReg
  | bad => []
  | set1 v => [v]
  | set2 v => [v,v.next]

def int_arg_register : List Register := [r3,r4,r5,r6,r7,r8,r9,r10]
def int_reg_max : Nat := 8
def fp_arg_register : List FloatRegister :=
  match Target.cpu with | .ppc32 => [1,2,3,4,5,6,7,8] | .ppc64 => [1,2,3,4,5,6,7,8,9,10,11,12,13]
def fp_reg_max : Nat := match Target.cpu with | .ppc32 => 8 | .ppc64 => 13
def slots_per_reg : Nat := match Target.cpu with | .ppc32 => 1 | .ppc64 => 2

structure Counters where
  int_args : Nat := 0
  fp_args : Nat := 0
  stk_args : Nat := 0
  deriving DecidableEq, Repr

-- The cases of the switch. A lookup past the end of a register array has no
-- result.
def pass_int (c : Counters) : Option (VMRegPair × Counters) :=
  if c.int_args < int_reg_max then
    int_arg_register[c.int_args]?.map fun r => (.set1 (as_VMReg r),{c with int_args := c.int_args+1})
  else
    let stk := c.stk_args + slots_per_reg
    some (.set1 (stack2reg stk),{c with stk_args := stk})

-- A long on the small processor.
def pass_long (c : Counters) : Option (VMRegPair × Counters) :=
  if c.int_args < int_reg_max - 1 then
    let int_args := (if c.int_args % 2 = 1 then c.int_args+1 else c.int_args) + 2
    int_arg_register[int_args]?.map fun r => (.set2 (as_VMReg r),{c with int_args})
  else
    let stk := (if c.stk_args % 2 = 1 then c.stk_args+1 else c.stk_args) + 2
    some (.set2 (stack2reg stk),{c with stk_args := stk})

-- A long or an address on the large one.
def pass_word (c : Counters) : Option (VMRegPair × Counters) :=
  if c.int_args < int_reg_max then
    int_arg_register[c.int_args]?.map fun r => (.set2 (as_VMReg r),{c with int_args := c.int_args+1})
  else
    let stk := c.stk_args + 2
    some (.set2 (stack2reg stk),{c with stk_args := stk})

def pass_float (c : Counters) : Option (VMRegPair × Counters) :=
  if c.fp_args < fp_reg_max then
    fp_arg_register[c.fp_args]?.map fun r => (.set1 (float_as_VMReg r),{c with fp_args := c.fp_args+1})
  else
    let stk := c.stk_args + slots_per_reg
    some (.set1 (stack2reg stk),{c with stk_args := stk})

def pass_double (c : Counters) : Option (VMRegPair × Counters) :=
  if c.fp_args < fp_reg_max then
    fp_arg_register[c.fp_args]?.map fun r => (.set2 (float_as_VMReg r),{c with fp_args := c.fp_args+1})
  else
    let stk := (if c.stk_args % 2 = 1 then c.stk_args+1 else c.stk_args) + 2
    some (.set2 (stack2reg stk),{c with stk_args := stk})

def pass (c : Counters) : BasicType → Option (VMRegPair × Counters)
  | T_BOOLEAN | T_CHAR | T_BYTE | T_SHORT | T_INT => pass_int c
  | T_OBJECT | T_ARRAY | T_ADDRESS => match Target.cpu with | .ppc32 => pass_int c | .ppc64 => pass_word c
  | T_LONG => match Target.cpu with | .ppc32 => pass_long c | .ppc64 => pass_word c
  | T_FLOAT => pass_float c
  | T_DOUBLE => pass_double c
  | T_VOID => some (.bad,c)
  | T_CONFLICT => none

-- The switch's assertions on the neighbours of a type.
def expected (before : Option BasicType) (t : BasicType) (rest : List BasicType) : Prop :=
  match t with
  | T_LONG | T_DOUBLE => rest.head? = some T_VOID
  | T_VOID => before = some T_LONG ∨ before = some T_DOUBLE
  | _ => True

instance : Decidable (expected before t rest) := by
  unfold expected; cases t <;> infer_instance

def loop (before : Option BasicType) : List BasicType → Counters → Option (List VMRegPair × Counters)
  | [],c => some ([],c)
  | t :: rest,c =>
    if expected before t rest then
      (pass c t).bind fun (pair,c) => (loop (some t) rest c).map fun (regs,c) => (pair :: regs,c)
    else none

-- The locations, one for each entry of the signature, and the slots used.
def java_calling_convention (sig_bt : List BasicType) : Option (List VMRegPair × Nat) :=
  (loop none sig_bt {}).map fun (regs,c) => (regs,c.stk_args)

-- A signature as the callers build it: the types of two words carry T_VOID.
inductive WellFormed : List BasicType → Prop where
  | nil : WellFormed []
  | word (t : BasicType) (single : t ≠ T_LONG ∧ t ≠ T_DOUBLE ∧ t ≠ T_VOID ∧ t ≠ T_CONFLICT) :
    WellFormed rest → WellFormed (t :: rest)
  | long : WellFormed rest → WellFormed (T_LONG :: T_VOID :: rest)
  | double : WellFormed rest → WellFormed (T_DOUBLE :: T_VOID :: rest)

def Apart (p q : VMRegPair) : Prop := ∀ v ∈ p.places, v ∉ q.places

-- What the adapters rely on, for the locations of one signature and the slots
-- the caller reserves.
structure Placed (regs : List VMRegPair) (slots : Nat) : Prop where
  apart : regs.Pairwise Apart
  aligned : Target.cpu = .ppc32 → ∀ p ∈ regs, ∀ k, p = .set2 (.stack k) → k % 2 = 0
  reserved : ∀ p ∈ regs, ∀ k, .stack k ∈ p.places → k < slots

def Sound (sig_bt : List BasicType) : Prop :=
  ∃ regs slots, java_calling_convention sig_bt = some (regs,slots) ∧ Placed regs slots

-- The arguments by the registers they ask for.
def floating (t : BasicType) : Bool := t = T_FLOAT || t = T_DOUBLE
def set2_int (t : BasicType) : Bool :=
  match Target.cpu with
  | .ppc32 => t = T_LONG
  | .ppc64 => t = T_LONG || t = T_OBJECT || t = T_ARRAY || t = T_ADDRESS
def ints (sig_bt : List BasicType) : List BasicType := sig_bt.filter fun t => t ≠ T_VOID ∧ floating t = false
def floats (sig_bt : List BasicType) : List BasicType := sig_bt.filter floating

-- Everything fits in registers and no pair meets the argument after it: a
-- double is the last floating argument; on the large processor a pair of a
-- general register is the last of these, and on the small one only longs follow
-- a long, which then start two registers later than they could.
def IntsFit (used : Nat) (l : List BasicType) : Prop :=
  match Target.cpu with
  | .ppc32 =>
    let words := (l.filter fun t => !set2_int t).length
    let longs := (l.filter set2_int).length
    l.Pairwise (fun t u => set2_int t = true → set2_int u = true) ∧
      if longs = 0 then used + words ≤ 8 else used + words + (used + words) % 2 + 2*longs ≤ 6
  | .ppc64 => l.Pairwise (fun t _ => set2_int t = false) ∧ used + l.length ≤ 8

def FloatsFit (used : Nat) (l : List BasicType) : Prop :=
  l.Pairwise (fun t _ => t = T_FLOAT) ∧ used + l.length ≤ fp_reg_max

def InRegisters (sig_bt : List BasicType) : Prop := IntsFit 0 (ints sig_bt) ∧ FloatsFit 0 (floats sig_bt)

instance (sig_bt : List BasicType) : Decidable (InRegisters sig_bt) := by
  unfold InRegisters IntsFit FloatsFit
  cases Target.cpu <;> infer_instance

-- The loop over the arguments alone, without the assertions.
def passes : List BasicType → Counters → Option (List VMRegPair × Counters)
  | [],c => some ([],c)
  | t :: rest,c => (pass c t).bind fun (pair,c) => (passes rest c).map fun (regs,c) => (pair :: regs,c)

def arguments (sig_bt : List BasicType) : List BasicType := sig_bt.filter (· ≠ T_VOID)

-- One step: which case of the switch a type takes.
theorem pass_single (c : Counters) (word : floating t = false ∧ t ≠ T_VOID ∧ t ≠ T_CONFLICT)
    (single : set2_int t = false) : pass c t = pass_int c := by
  unfold set2_int at single
  unfold pass
  cases cpu : Target.cpu <;> cases t <;> simp_all [floating]

theorem pass_pair32 (c : Counters) (cpu : Target.cpu = .ppc32) (pair : set2_int t = true) : pass c t = pass_long c := by
  simp only [set2_int,cpu,decide_eq_true_eq] at pair
  simp only [pair,pass,cpu]

theorem pass_pair64 (c : Counters) (cpu : Target.cpu = .ppc64) (pair : set2_int t = true) : pass c t = pass_word c := by
  simp only [set2_int,cpu] at pair
  cases t <;> simp_all [pass]

theorem pass_int_register (c : Counters) (low : c.int_args < 8) :
    pass_int c = some (.set1 (.reg (3 + c.int_args)),{c with int_args := c.int_args+1}) := by
  have entry : ∀ i < 8, int_arg_register[i]? = some (3+i) := by decide
  simp [pass_int,int_reg_max,low,entry _ low,as_VMReg]

omit [Target] in
theorem pass_word_register (c : Counters) (low : c.int_args < 8) :
    pass_word c = some (.set2 (.reg (3 + c.int_args)),{c with int_args := c.int_args+1}) := by
  have entry : ∀ i < 8, int_arg_register[i]? = some (3+i) := by decide
  simp [pass_word,int_reg_max,low,entry _ low,as_VMReg]

omit [Target] in
theorem pass_long_register (c : Counters) (low : c.int_args < 7) : pass_long c =
    if c.int_args + c.int_args % 2 + 2 < 8 then
      some (.set2 (.reg (3 + (c.int_args + c.int_args % 2 + 2))),{c with int_args := c.int_args + c.int_args % 2 + 2})
    else none := by
  have entry : ∀ i < 7, int_arg_register[(if i % 2 = 1 then i+1 else i) + 2]? =
      if i + i % 2 + 2 < 8 then some (3 + (i + i % 2 + 2)) else none := by decide
  have even : (if c.int_args % 2 = 1 then c.int_args + 1 else c.int_args) = c.int_args + c.int_args % 2 := by
    split <;> omega
  simp only [pass_long,int_reg_max,low,if_true,entry _ low]
  rw [even]
  split <;> rfl

theorem pass_floating_register (c : Counters) (float : floating t = true) (low : c.fp_args < fp_reg_max) :
    pass c t = some (if t = T_FLOAT then .set1 (.reg (33 + c.fp_args)) else .set2 (.reg (33 + c.fp_args)),{c with fp_args := c.fp_args+1}) := by
  have entry : fp_arg_register[c.fp_args]? = some (1 + c.fp_args) := by
    have entries : ∀ i < fp_reg_max, fp_arg_register[i]? = some (1+i) := by
      unfold fp_reg_max fp_arg_register
      cases Target.cpu <;> decide
    exact entries _ low
  have number : 1 + c.fp_args + 32 = 33 + c.fp_args := by omega
  cases t <;> simp_all [floating,pass,pass_float,pass_double,float_as_VMReg,max_gpr]

-- Either no slot is used, or the counter ends on a slot just given away.
def LastSlot (c c' : Counters) (places : List VMReg) : Prop :=
  (c'.stk_args = c.stk_args ∧ ∀ k, .stack k ∉ places) ∨ .stack c'.stk_args ∈ places

omit [Target] in
theorem choice {p : Prop} [Decidable p] {entry : Option Nat} {f : Nat → VMRegPair × Counters} {g : VMRegPair × Counters}
    {P : VMRegPair × Counters → Prop} (chosen : (if p then entry.map f else some g) = some out)
    (register : ∀ r, P (f r)) (slot : P g) : P out := by
  split at chosen
  · obtain ⟨r,_,given⟩ := Option.map_eq_some_iff.mp chosen
    exact given ▸ register r
  · exact Option.some.inj chosen ▸ slot

theorem pass_kinds (t : BasicType) (c : Counters) : pass c t = pass_int c ∨ pass c t = pass_long c ∨
    pass c t = pass_word c ∨ pass c t = pass_float c ∨ pass c t = pass_double c ∨
    (t = T_VOID ∧ pass c t = some (.bad,c)) ∨ pass c t = none := by
  unfold pass
  cases t <;> cases Target.cpu <;> simp

theorem pass_valued (valued : t ≠ T_VOID) (passed : pass c t = some out) : out.1 ≠ .bad := by
  have kinds := pass_kinds t c
  rw [passed] at kinds
  rcases kinds with int | long | word | float | double | void | conflict
  · exact choice (P := fun out => out.1 ≠ .bad) int.symm (by simp) (by simp)
  · exact choice (P := fun out => out.1 ≠ .bad) long.symm (by simp) (by simp)
  · exact choice (P := fun out => out.1 ≠ .bad) word.symm (by simp) (by simp)
  · exact choice (P := fun out => out.1 ≠ .bad) float.symm (by simp) (by simp)
  · exact choice (P := fun out => out.1 ≠ .bad) double.symm (by simp) (by simp)
  · exact absurd void.1 valued
  · cases conflict

theorem pass_slot (t : BasicType) (c : Counters) (passed : pass c t = some out) : LastSlot c out.2 out.1.places := by
  have kinds := pass_kinds t c
  rw [passed] at kinds
  rcases kinds with int | long | word | float | double | ⟨_,void⟩ | conflict
  · exact choice (P := fun out => LastSlot c out.2 out.1.places) int.symm
      (by simp [LastSlot,VMRegPair.places,as_VMReg]) (by simp [LastSlot,VMRegPair.places,stack2reg])
  · exact choice (P := fun out => LastSlot c out.2 out.1.places) long.symm
      (by simp [LastSlot,VMRegPair.places,as_VMReg,VMReg.next]) (by simp [LastSlot,VMRegPair.places,stack2reg])
  · exact choice (P := fun out => LastSlot c out.2 out.1.places) word.symm
      (by simp [LastSlot,VMRegPair.places,as_VMReg,VMReg.next]) (by simp [LastSlot,VMRegPair.places,stack2reg])
  · exact choice (P := fun out => LastSlot c out.2 out.1.places) float.symm
      (by simp [LastSlot,VMRegPair.places,float_as_VMReg]) (by simp [LastSlot,VMRegPair.places,stack2reg])
  · exact choice (P := fun out => LastSlot c out.2 out.1.places) double.symm
      (by simp [LastSlot,VMRegPair.places,float_as_VMReg,VMReg.next]) (by simp [LastSlot,VMRegPair.places,stack2reg])
  · cases void; exact .inl ⟨rfl,by simp [VMRegPair.places]⟩
  · cases conflict

theorem passes_slot (passed : passes l c = some (regs,c')) : LastSlot c c' (regs.flatMap VMRegPair.places) := by
  induction l generalizing c regs with
  | nil => cases passed; exact .inl ⟨rfl,by simp⟩
  | cons t rest ih =>
    simp only [passes,Option.bind_eq_some_iff,Option.map_eq_some_iff] at passed
    obtain ⟨⟨pair,c₁⟩,first,⟨regs',c₂⟩,later,same⟩ := passed
    cases same
    have head := pass_slot t c first
    rcases ih later with ⟨kept,none⟩ | slot
    · rcases head with ⟨kept',none'⟩ | slot
      · exact .inl ⟨kept.trans kept',by simp only [List.flatMap_cons,List.mem_append,not_or]; exact fun k => ⟨none' k,none k⟩⟩
      · exact .inr (by rw [List.flatMap_cons,kept]; exact List.mem_append_left _ slot)
    · exact .inr (by rw [List.flatMap_cons]; exact List.mem_append_right _ slot)

omit [Target] in
theorem last_alone {p : Prop} {l : List BasicType} : (∀ u ∈ l, p) ↔ (¬p → l = []) := by
  cases l with
  | nil => simp
  | cons u rest =>
    constructor
    · exact fun all fails => absurd (all u (by simp)) fails
    · intro empty _ _
      by_contra fails
      exact absurd (empty fails) (by simp)

-- The conditions, one argument at a time.
theorem ints_fit_pair64 (cpu : Target.cpu = .ppc64) : IntsFit used (t :: l) ↔
    used < 8 ∧ (set2_int t = true → l = []) ∧ IntsFit (used+1) l := by
  simp only [IntsFit,cpu,List.pairwise_cons,last_alone,Bool.not_eq_false,List.length_cons]
  constructor
  · rintro ⟨⟨last,rest⟩,room⟩; exact ⟨by omega,last,rest,by omega⟩
  · rintro ⟨_,last,rest,room⟩; exact ⟨⟨last,rest⟩,by omega⟩

theorem ints_fit_word32 (cpu : Target.cpu = .ppc32) (word : set2_int t = false) :
    IntsFit used (t :: l) ↔ IntsFit (used+1) l := by
  simp only [IntsFit,cpu,List.pairwise_cons,word,Bool.false_eq_true,false_implies,implies_true,true_and,
    List.filter_cons,Bool.not_false,if_true,if_false,List.length_cons,
    show used + ((l.filter fun t => !set2_int t).length + 1) = used + 1 + (l.filter fun t => !set2_int t).length by omega]

theorem ints_fit_long32 (cpu : Target.cpu = .ppc32) (long : set2_int t = true) :
    IntsFit used (t :: l) ↔
      used + used % 2 + 2 < 8 ∧ (∀ u ∈ l, set2_int u = true) ∧ IntsFit (used + used % 2 + 2) l := by
  simp only [IntsFit,cpu,List.pairwise_cons,long,true_implies,List.filter_cons,Bool.not_true,Bool.false_eq_true,
    if_false,if_true,List.length_cons,Nat.add_eq_zero_iff,Nat.one_ne_zero,and_false]
  have none : (∀ u ∈ l, set2_int u = true) → (l.filter fun t => !set2_int t).length = 0 := by
    intro all
    rw [List.length_eq_zero_iff,List.filter_eq_nil_iff]
    simpa using all
  constructor
  · rintro ⟨⟨all,rest⟩,room⟩
    rw [none all] at room ⊢
    refine ⟨by omega,all,rest,?_⟩
    split <;> omega
  · rintro ⟨low,all,rest,room⟩
    rw [none all] at room ⊢
    refine ⟨⟨all,rest⟩,?_⟩
    split at room <;> omega

theorem ints_fit_low (cpu : Target.cpu = .ppc32) (word : set2_int t = false) (fits : IntsFit used (t :: l)) : used < 8 := by
  obtain ⟨_,room⟩ : _ ∧ _ := by simpa only [IntsFit,cpu] using fits
  simp only [List.filter_cons,word,Bool.not_false,if_true,Bool.false_eq_true,if_false,List.length_cons] at room
  split at room <;> omega

theorem floats_fit_cons : FloatsFit used (t :: l) ↔
    used < fp_reg_max ∧ (t ≠ T_FLOAT → l = []) ∧ FloatsFit (used+1) l := by
  simp only [FloatsFit,List.pairwise_cons,last_alone,List.length_cons]
  constructor
  · rintro ⟨⟨last,rest⟩,room⟩; exact ⟨by omega,last,rest,by omega⟩
  · rintro ⟨_,last,rest,room⟩; exact ⟨⟨last,rest⟩,by omega⟩

-- Locations in registers, without overlap.
def Clean (regs : List VMRegPair) : Prop := regs.Pairwise Apart ∧ ∀ k, .stack k ∉ regs.flatMap VMRegPair.places

def Valued (t : BasicType) : Prop := t ≠ T_VOID ∧ t ≠ T_CONFLICT

-- The places a list of arguments can take from a state of the counters on: only
-- registers not used so far, and for longs none of the next two.
def Ahead (c : Counters) (l : List BasicType) (v : VMReg) : Prop :=
  (∃ n, v = .reg n ∧ 3 + c.int_args ≤ n ∧ n ≤ 11 ∧ (∃ t ∈ l, floating t = false) ∧
    (Target.cpu = .ppc32 → (∀ t ∈ l, floating t = true ∨ set2_int t = true) → 5 + c.int_args ≤ n)) ∨
  (∃ n, v = .reg n ∧ 33 + c.fp_args ≤ n ∧ ∃ t ∈ l, floating t = true)

omit [Target] in
theorem int_list (t : BasicType) (rest : List BasicType) (word : floating t = false) (valued : t ≠ T_VOID) :
    ints (t :: rest) = t :: ints rest ∧ floats (t :: rest) = floats rest := by
  simp [ints,floats,word,valued]

omit [Target] in
theorem float_list (t : BasicType) (rest : List BasicType) (float : floating t = true) :
    ints (t :: rest) = ints rest ∧ floats (t :: rest) = t :: floats rest := by
  simp [ints,floats,float]

def Assigned (l : List BasicType) (c : Counters) : Prop :=
  ∃ regs c', passes l c = some (regs,c') ∧ regs.Pairwise Apart ∧ ∀ p ∈ regs, ∀ v ∈ p.places, Ahead c l v

theorem assigned_cons (first : pass c t = some (pair,c₁)) (later : Assigned rest c₁)
    (here : ∀ v ∈ pair.places, Ahead c (t :: rest) v)
    (ahead : ∀ v, Ahead c₁ rest v → Ahead c (t :: rest) v ∧ v ∉ pair.places) : Assigned (t :: rest) c := by
  obtain ⟨regs,c',passed,apart,places⟩ := later
  refine ⟨pair :: regs,c',by simp [passes,first,passed],List.pairwise_cons.mpr ⟨?_,apart⟩,?_⟩
  · intro q member v taken again
    exact (ahead v (places q member v again)).2 taken
  · intro p member v taken
    rcases List.mem_cons.mp member with rfl | old
    · exact here v taken
    · exact (ahead v (places p old v taken)).1

-- A place ahead of the rest is ahead of the whole list when the counters only grew.
theorem ahead_mono (ahead : Ahead c₁ rest v) (ints : c.int_args ≤ c₁.int_args) (floats : c.fp_args ≤ c₁.fp_args) :
    Ahead c (t :: rest) v := by
  rcases ahead with ⟨n,rfl,low,high,⟨u,member,word⟩,longs⟩ | ⟨n,rfl,low,u,member,float⟩
  · refine .inl ⟨n,rfl,by omega,high,⟨u,by simp [member],word⟩,fun cpu all => ?_⟩
    have := longs cpu fun w later => all w (by simp [later])
    omega
  · exact .inr ⟨n,rfl,by omega,u,by simp [member],float⟩

theorem fit_assigned (l : List BasicType) (c : Counters) (valued : ∀ t ∈ l, Valued t)
    (fits : IntsFit c.int_args (ints l)) (floats : FloatsFit c.fp_args (floats l)) : Assigned l c := by
  induction l generalizing c with
  | nil => exact ⟨[],c,rfl,.nil,by simp⟩
  | cons t rest ih =>
    have value := valued t (by simp)
    have valued : ∀ u ∈ rest, Valued u := fun u member => valued u (by simp [member])
    cases float : floating t with
    | true =>
      obtain ⟨same,next⟩ := float_list t rest float
      rw [same] at fits
      rw [next,floats_fit_cons] at floats
      obtain ⟨low,last,floats⟩ := floats
      refine assigned_cons (pass_floating_register c float low) (ih _ valued fits floats) ?_ ?_
      · intro v taken
        refine .inr ?_
        split at taken
        · exact ⟨_,List.mem_singleton.mp taken,by omega,t,by simp,float⟩
        · rcases List.mem_cons.mp taken with rfl | taken
          · exact ⟨_,rfl,by omega,t,by simp,float⟩
          · exact ⟨_,List.mem_singleton.mp taken,by omega,t,by simp,float⟩
      · intro v ahead
        refine ⟨ahead_mono ahead (Nat.le_refl _) (Nat.le_succ _),?_⟩
        · rcases ahead with ⟨n,rfl,low,high,_⟩ | ⟨n,rfl,low,u,member,again⟩
          · split <;> simp [VMRegPair.places,VMReg.next] <;> omega
          · -- a double has no floating argument after it
            simp only at low
            split
            · simp [VMRegPair.places]; omega
            · rename_i double
              have listed : u ∈ SharedRuntime.floats rest := by simp [SharedRuntime.floats,member,again]
              rw [last double] at listed
              cases listed
    | false =>
      obtain ⟨next,same⟩ := int_list t rest float value.1
      rw [same] at floats
      rw [next] at fits
      have known : floating t = false ∧ t ≠ T_VOID ∧ t ≠ T_CONFLICT := ⟨float,value⟩
      cases pair : set2_int t with
      | false =>
        have room : c.int_args < 8 ∧ IntsFit (c.int_args+1) (SharedRuntime.ints rest) := by
          cases cpu : Target.cpu with
          | ppc32 => exact ⟨ints_fit_low cpu pair fits,(ints_fit_word32 cpu pair).mp fits⟩
          | ppc64 => obtain ⟨low,_,fits⟩ := (ints_fit_pair64 cpu).mp fits; exact ⟨low,fits⟩
        refine assigned_cons ((pass_single c known pair).trans (pass_int_register c room.1))
          (ih {c with int_args := c.int_args+1} valued room.2 floats) ?_ ?_
        · intro v taken
          refine .inl ⟨_,List.mem_singleton.mp taken,by omega,by omega,⟨t,by simp,float⟩,fun _ all => ?_⟩
          have wide := all t (by simp)
          simp [float,pair] at wide
        · intro v ahead
          refine ⟨ahead_mono ahead (Nat.le_succ _) (Nat.le_refl _),?_⟩
          rcases ahead with ⟨n,rfl,low,_⟩ | ⟨n,rfl,low,_⟩
          · simp only at low
            simp [VMRegPair.places]; omega
          · simp [VMRegPair.places]; omega
      | true =>
        cases cpu : Target.cpu with
        | ppc32 =>
          obtain ⟨low,longs,fits⟩ := (ints_fit_long32 cpu pair).mp fits
          have passed : pass c t = some (.set2 (.reg (3 + (c.int_args + c.int_args % 2 + 2))),
              {c with int_args := c.int_args + c.int_args % 2 + 2}) := by
            rw [pass_pair32 c cpu pair,pass_long_register c (by omega),if_pos low]
          refine assigned_cons passed (ih _ valued fits floats) ?_ ?_
          · intro v taken
            refine .inl ?_
            rcases List.mem_cons.mp taken with rfl | taken
            · exact ⟨_,rfl,by omega,by omega,⟨t,by simp,float⟩,fun _ _ => by omega⟩
            · exact ⟨_,List.mem_singleton.mp taken,by omega,by omega,⟨t,by simp,float⟩,fun _ _ => by omega⟩
          · intro v ahead
            refine ⟨ahead_mono ahead (by simp only; omega) (Nat.le_refl _),?_⟩
            rcases ahead with ⟨n,rfl,_,_,_,after⟩ | ⟨n,rfl,low,_⟩
            · -- only longs follow, two registers on
              have far := after cpu fun u member => by
                cases again : floating u with
                | true => exact .inl rfl
                | false => exact .inr (longs u (by simp [SharedRuntime.ints,member,again,(valued u member).1]))
              simp only at far
              simp [VMRegPair.places,VMReg.next]; omega
            · simp [VMRegPair.places,VMReg.next]; omega
        | ppc64 =>
          obtain ⟨low,last,fits⟩ := (ints_fit_pair64 cpu).mp fits
          refine assigned_cons ((pass_pair64 c cpu pair).trans (pass_word_register c low))
            (ih {c with int_args := c.int_args+1} valued fits floats) ?_ ?_
          · intro v taken
            refine .inl ?_
            rcases List.mem_cons.mp taken with rfl | taken
            · exact ⟨_,rfl,by omega,by omega,⟨t,by simp,float⟩,fun small => by rw [small] at cpu; cases cpu⟩
            · exact ⟨_,List.mem_singleton.mp taken,by omega,by omega,⟨t,by simp,float⟩,
                fun small => by rw [small] at cpu; cases cpu⟩
          · intro v ahead
            refine ⟨ahead_mono ahead (Nat.le_succ _) (Nat.le_refl _),?_⟩
            rcases ahead with ⟨n,rfl,_,_,⟨u,member,word⟩,_⟩ | ⟨n,rfl,low,_⟩
            · have listed : u ∈ SharedRuntime.ints rest := by
                simp [SharedRuntime.ints,member,word,(valued u member).1]
              rw [last pair] at listed
              cases listed
            · simp [VMRegPair.places,VMReg.next]; omega

-- What a step that uses no slot can be.
inductive Registered (c : Counters) (t : BasicType) : VMRegPair → Counters → Prop where
  | float : floating t = true → c.fp_args < fp_reg_max →
    Registered c t (if t = T_FLOAT then .set1 (.reg (33 + c.fp_args)) else .set2 (.reg (33 + c.fp_args)))
      {c with fp_args := c.fp_args+1}
  | word : floating t = false → set2_int t = false → c.int_args < 8 →
    Registered c t (.set1 (.reg (3 + c.int_args))) {c with int_args := c.int_args+1}
  | long : Target.cpu = .ppc32 → floating t = false → set2_int t = true → c.int_args + c.int_args % 2 + 2 < 8 →
    Registered c t (.set2 (.reg (3 + (c.int_args + c.int_args % 2 + 2)))) {c with int_args := c.int_args + c.int_args % 2 + 2}
  | address : Target.cpu = .ppc64 → floating t = false → set2_int t = true → c.int_args < 8 →
    Registered c t (.set2 (.reg (3 + c.int_args))) {c with int_args := c.int_args+1}

omit [Target] in
theorem register_chosen {p : Prop} [Decidable p] {a : Option (VMRegPair × Counters)} {g : VMRegPair × Counters}
    (chosen : (if p then a else some g) = some (pair,c')) (slot : .stack g.2.stk_args ∈ g.1.places)
    (none : ∀ k, .stack k ∉ pair.places) : p := by
  by_contra other
  rw [if_neg other] at chosen
  rw [Option.some.inj chosen] at slot
  exact none _ slot

theorem pass_registered (valued : Valued t) (passed : pass c t = some (pair,c'))
    (none : ∀ k, .stack k ∉ pair.places) : Registered c t pair c' := by
  have slot : ∀ n, VMReg.stack n ∈ (VMRegPair.set1 (stack2reg n)).places ∧
      VMReg.stack n ∈ (VMRegPair.set2 (stack2reg n)).places := by simp [VMRegPair.places,stack2reg]
  cases float : floating t with
  | true =>
    have low : c.fp_args < fp_reg_max := by
      cases t <;> simp only [floating,reduceCtorEq,decide_false,Bool.or_self,Bool.false_eq_true] at float
      · exact register_chosen passed (slot _).1 none
      · exact register_chosen passed (slot _).2 none
    rw [pass_floating_register c float low] at passed
    cases passed
    exact .float float low
  | false =>
    cases pair2 : set2_int t with
    | false =>
      rw [pass_single c ⟨float,valued⟩ pair2] at passed
      have low : c.int_args < 8 := register_chosen passed (slot _).1 none
      rw [pass_int_register c low] at passed
      cases passed
      exact .word float pair2 low
    | true =>
      cases cpu : Target.cpu with
      | ppc32 =>
        rw [pass_pair32 c cpu pair2] at passed
        have low : c.int_args < 7 := register_chosen passed (slot _).2 none
        rw [pass_long_register c low] at passed
        split at passed
        · rename_i room
          cases passed
          exact .long cpu float pair2 room
        · cases passed
      | ppc64 =>
        rw [pass_pair64 c cpu pair2] at passed
        have low : c.int_args < 8 := register_chosen passed (slot _).2 none
        rw [pass_word_register c low] at passed
        cases passed
        exact .address cpu float pair2 low

theorem clean_cons (valued : Valued t) (clean : Clean regs) (passed : passes (t :: rest) c = some (regs,c')) :
    ∃ pair c₁ regs', regs = pair :: regs' ∧ Registered c t pair c₁ ∧ passes rest c₁ = some (regs',c') ∧ Clean regs' ∧
      ∀ v ∈ pair.places, v ∉ regs'.flatMap VMRegPair.places := by
  obtain ⟨apart,none⟩ := clean
  simp only [passes,Option.bind_eq_some_iff,Option.map_eq_some_iff] at passed
  obtain ⟨⟨pair,c₁⟩,first,⟨regs',c₂⟩,later,same⟩ := passed
  cases same
  simp only [List.flatMap_cons,List.mem_append,not_or] at none
  rw [List.pairwise_cons] at apart
  refine ⟨pair,c₁,regs',rfl,pass_registered valued first fun k => (none k).1,later,⟨apart.2,fun k => (none k).2⟩,?_⟩
  intro v taken elsewhere
  obtain ⟨q,member,place⟩ := List.mem_flatMap.mp elsewhere
  exact apart.1 q member v taken place

-- A clean run takes the next free register as soon as an argument asks for it.
theorem next_float (valued : ∀ t ∈ l, Valued t) (clean : Clean regs) (passed : passes l c = some (regs,c'))
    (some : floats l ≠ []) : .reg (33 + c.fp_args) ∈ regs.flatMap VMRegPair.places := by
  induction l generalizing c regs with
  | nil => exact absurd rfl some
  | cons t rest ih =>
    obtain ⟨pair,c₁,regs',rfl,step,later,tidy,_⟩ := clean_cons (valued t (by simp)) clean passed
    have rests := fun floats => ih (c := c₁) (fun u member => valued u (by simp [member])) tidy later floats
    rw [List.flatMap_cons,List.mem_append]
    cases step with
    | float float low => left; split <;> simp [VMRegPair.places]
    | word float | long _ float | address _ float =>
      right
      exact rests (by rwa [(int_list t rest float (valued t (by simp)).1).2] at some)

theorem next_int (valued : ∀ t ∈ l, Valued t) (clean : Clean regs) (passed : passes l c = some (regs,c'))
    (first : ints l = t :: l') (word : Target.cpu = .ppc32 → set2_int t = false) :
    .reg (3 + c.int_args) ∈ regs.flatMap VMRegPair.places := by
  induction l generalizing c regs with
  | nil => cases first
  | cons u rest ih =>
    obtain ⟨pair,c₁,regs',rfl,step,later,tidy,_⟩ := clean_cons (valued u (by simp)) clean passed
    rw [List.flatMap_cons,List.mem_append]
    cases step with
    | float float low =>
      right
      rw [(float_list u rest float).1] at first
      have taken := ih (fun v member => valued v (by simp [member])) tidy later first
      exact taken
    | word => left; simp [VMRegPair.places]
    | address => left; simp [VMRegPair.places]
    | long cpu float pair =>
      rw [(int_list u rest float (valued u (by simp)).1).1] at first
      obtain ⟨rfl,_⟩ := List.cons.inj first
      rw [word cpu] at pair
      cases pair

theorem clean_fits (valued : ∀ t ∈ l, Valued t) (clean : Clean regs) (passed : passes l c = some (regs,c'))
    (ints_low : c.int_args ≤ 8) (floats_low : c.fp_args ≤ fp_reg_max) :
    IntsFit c.int_args (ints l) ∧ FloatsFit c.fp_args (floats l) := by
  induction l generalizing c regs with
  | nil =>
    refine ⟨?_,.nil,floats_low⟩
    unfold IntsFit
    cases Target.cpu with
    | ppc32 => exact ⟨.nil,ints_low⟩
    | ppc64 => exact ⟨.nil,ints_low⟩
  | cons t rest ih =>
    obtain ⟨pair,c₁,regs',rfl,step,later,tidy,apart⟩ := clean_cons (valued t (by simp)) clean passed
    have valued' : ∀ u ∈ rest, Valued u := fun u member => valued u (by simp [member])
    have value := (valued t (by simp)).1
    cases step with
    | float float low =>
      obtain ⟨fits,floats⟩ := ih valued' tidy later ints_low low
      obtain ⟨same,next⟩ := float_list t rest float
      rw [same,next,floats_fit_cons]
      refine ⟨fits,low,fun double => ?_,floats⟩
      by_contra more
      have taken := next_float valued' tidy later more
      exact apart (.reg (34 + c.fp_args)) (by simp [double,VMRegPair.places,VMReg.next]; omega)
        (by rwa [show 34 + c.fp_args = 33 + (c.fp_args+1) by omega])
    | word float single low =>
      obtain ⟨fits,floats⟩ := ih valued' tidy later low floats_low
      obtain ⟨next,same⟩ := int_list t rest float value
      rw [same,next]
      refine ⟨?_,floats⟩
      cases cpu : Target.cpu with
      | ppc32 => exact (ints_fit_word32 cpu single).mpr fits
      | ppc64 => exact (ints_fit_pair64 cpu).mpr ⟨low,by simp [single],fits⟩
    | address cpu float pair low =>
      obtain ⟨fits,floats⟩ := ih valued' tidy later low floats_low
      obtain ⟨next,same⟩ := int_list t rest float value
      rw [same,next,ints_fit_pair64 cpu]
      refine ⟨⟨low,fun _ => ?_,fits⟩,floats⟩
      cases more : ints rest with
      | nil => rfl
      | cons u l' =>
        have taken := next_int valued' tidy later more fun small => by rw [small] at cpu; cases cpu
        exact absurd taken (apart _ (by simp [VMRegPair.places,VMReg.next]; omega))
    | long cpu float pair room =>
      obtain ⟨fits,floats⟩ := ih valued' tidy later (by simp only; omega) floats_low
      obtain ⟨next,same⟩ := int_list t rest float value
      rw [same,next,ints_fit_long32 cpu pair]
      refine ⟨⟨room,?_,fits⟩,floats⟩
      -- a word after the long would share its first register
      cases more : ints rest with
      | nil => simp
      | cons u l' =>
        cases head : set2_int u with
        | false =>
          have taken := next_int valued' tidy later more fun _ => head
          exact absurd taken (apart _ (by simp [VMRegPair.places]))
        | true =>
          rw [more,ints_fit_long32 cpu head] at fits
          exact fun v member => (List.mem_cons.mp member).elim (fun same => same ▸ head) (fits.2.1 v)

-- The loop's T_VOID entries only add places that are none.
theorem loop_word (allowed : expected before t rest) (valued : t ≠ T_VOID) (c : Counters)
    (later : ∀ c, (loop (some t) rest c).map (fun out => (out.1.filter (· ≠ .bad),out.2)) = passes l c) :
    (loop before (t :: rest) c).map (fun out => (out.1.filter (· ≠ .bad),out.2)) = passes (t :: l) c := by
  rw [loop,if_pos allowed,passes]
  cases first : pass c t with
  | none => rfl
  | some out =>
    have value := pass_valued valued first
    simp only [Option.bind_some,← later,Option.map_map,Function.comp_def,List.filter_cons,value,ne_eq,
      not_false_eq_true,decide_true,if_true]

theorem loop_void (before : BasicType) (wide : before = T_LONG ∨ before = T_DOUBLE) (rest : List BasicType) (c : Counters) :
    (loop (some before) (T_VOID :: rest) c).map (fun out => (out.1.filter (· ≠ .bad),out.2)) =
      (loop (some T_VOID) rest c).map (fun out => (out.1.filter (· ≠ .bad),out.2)) := by
  have allowed : expected (some before) T_VOID rest := by simpa [expected] using wide
  simp [loop,allowed,pass,Function.comp_def]

theorem loop_passes (wellFormed : WellFormed sig_bt) (before : Option BasicType) (c : Counters) :
    (loop before sig_bt c).map (fun out => (out.1.filter (· ≠ .bad),out.2)) = passes (arguments sig_bt) c := by
  induction wellFormed generalizing before c with
  | nil => rfl
  | @word rest t single _ ih =>
    have listed : arguments (t :: rest) = t :: arguments rest := by simp [arguments,single]
    rw [listed]
    refine loop_word ?_ single.2.2.1 c (ih _)
    unfold expected; cases t <;> simp_all
  | @long rest _ ih =>
    have listed : arguments (T_LONG :: T_VOID :: rest) = T_LONG :: arguments rest := by simp [arguments]
    rw [listed]
    exact loop_word (by simp [expected]) (by decide) c fun c => (loop_void T_LONG (.inl rfl) rest c).trans (ih _ c)
  | @double rest _ ih =>
    have listed : arguments (T_DOUBLE :: T_VOID :: rest) = T_DOUBLE :: arguments rest := by simp [arguments]
    rw [listed]
    exact loop_word (by simp [expected]) (by decide) c fun c => (loop_void T_DOUBLE (.inr rfl) rest c).trans (ih _ c)

omit [Target] in
theorem arguments_valued (wellFormed : WellFormed sig_bt) : ∀ t ∈ arguments sig_bt, Valued t := by
  intro t member
  induction wellFormed with
  | nil => cases member
  | @word rest u single _ ih =>
    have listed : arguments (u :: rest) = u :: arguments rest := by simp [arguments,single]
    rw [listed] at member
    exact (List.mem_cons.mp member).elim (fun same => same ▸ single.2.2) ih
  | @long rest _ ih =>
    have listed : arguments (T_LONG :: T_VOID :: rest) = T_LONG :: arguments rest := by simp [arguments]
    rw [listed] at member
    exact (List.mem_cons.mp member).elim (fun same => same ▸ ⟨by decide,by decide⟩) ih
  | @double rest _ ih =>
    have listed : arguments (T_DOUBLE :: T_VOID :: rest) = T_DOUBLE :: arguments rest := by simp [arguments]
    rw [listed] at member
    exact (List.mem_cons.mp member).elim (fun same => same ▸ ⟨by decide,by decide⟩) ih

omit [Target] in
theorem arguments_split (sig_bt : List BasicType) :
    ints (arguments sig_bt) = ints sig_bt ∧ floats (arguments sig_bt) = floats sig_bt := by
  constructor <;> simp only [ints,floats,arguments,List.filter_filter] <;> congr 1 <;> funext t <;>
    cases t <;> simp [floating]

-- A place that is none overlaps nothing.
omit [Target] in
theorem clean_filter (regs : List VMRegPair) : Clean (regs.filter (· ≠ .bad)) ↔ Clean regs := by
  have places : ∀ p : VMRegPair, p ≠ .bad ∨ p.places = [] := fun p => by cases p <;> simp [VMRegPair.places]
  constructor
  · rintro ⟨apart,none⟩
    rw [List.pairwise_filter] at apart
    refine ⟨apart.imp fun {p q} far v taken again => ?_,fun k slot => ?_⟩
    · rcases places p with some | empty
      · rcases places q with some' | empty
        · exact far (by simpa using some) (by simpa using some') v taken again
        · rw [empty] at again; cases again
      · rw [empty] at taken; cases taken
    · obtain ⟨p,member,slot⟩ := List.mem_flatMap.mp slot
      rcases places p with some | empty
      · exact none k (List.mem_flatMap.mpr ⟨p,List.mem_filter.mpr ⟨member,by simpa using some⟩,slot⟩)
      · rw [empty] at slot; cases slot
  · rintro ⟨apart,none⟩
    refine ⟨apart.filter _,fun k slot => none k ?_⟩
    obtain ⟨p,member,slot⟩ := List.mem_flatMap.mp slot
    exact List.mem_flatMap.mpr ⟨p,(List.mem_filter.mp member).1,slot⟩

-- A slot is always given away after the counter moved past it, so the last one
-- is outside what the caller reserves.
theorem placed_clean (wellFormed : WellFormed sig_bt) (assigned : java_calling_convention sig_bt = some (regs,slots)) :
    Placed regs slots ↔ Clean regs := by
  obtain ⟨⟨_,c⟩,looped,same⟩ := Option.map_eq_some_iff.mp assigned
  cases same
  have passed := loop_passes wellFormed none {}
  rw [looped,Option.map_some] at passed
  constructor
  · intro placed
    refine (clean_filter regs).mp ⟨placed.apart.filter _,?_⟩
    rcases passes_slot passed.symm with ⟨_,none⟩ | last
    · exact none
    · obtain ⟨p,member,slot⟩ := List.mem_flatMap.mp last
      exact absurd (placed.reserved p (List.mem_filter.mp member).1 _ slot) (Nat.lt_irrefl _)
  · rintro ⟨apart,none⟩
    have unused : ∀ p ∈ regs, ∀ k, .stack k ∉ p.places := fun p member k slot =>
      none k (List.mem_flatMap.mpr ⟨p,member,slot⟩)
    refine ⟨apart,fun _ p member k pair => ?_,fun p member k slot => absurd slot (unused p member k)⟩
    exact absurd (by simp [pair,VMRegPair.places]) (unused p member k)

-- Every well-formed signature on either processor.
theorem java_calling_convention_sound (sig_bt : List BasicType) (wellFormed : WellFormed sig_bt) :
    Sound sig_bt ↔ InRegisters sig_bt := by
  have valued := arguments_valued wellFormed
  obtain ⟨sameInts,sameFloats⟩ := arguments_split sig_bt
  have passed := loop_passes wellFormed none {}
  constructor
  · rintro ⟨regs,slots,assigned,placed⟩
    have clean := (placed_clean wellFormed assigned).mp placed
    obtain ⟨⟨_,c⟩,looped,same⟩ := Option.map_eq_some_iff.mp assigned
    cases same
    rw [looped,Option.map_some] at passed
    have fits := clean_fits valued ((clean_filter regs).mpr clean) passed.symm (Nat.zero_le _) (Nat.zero_le _)
    rwa [sameInts,sameFloats] at fits
  · rintro ⟨ints,floats⟩
    rw [← sameInts] at ints
    rw [← sameFloats] at floats
    obtain ⟨regs,c,given,apart,places⟩ := fit_assigned (arguments sig_bt) {} valued ints floats
    rw [given] at passed
    obtain ⟨⟨all,c'⟩,looped,same⟩ := Option.map_eq_some_iff.mp passed
    cases same
    have assigned : java_calling_convention sig_bt = some (all,c'.stk_args) := by
      simp only [java_calling_convention,looped,Option.map_some]
    refine ⟨all,_,assigned,(placed_clean wellFormed assigned).mpr ((clean_filter all).mp ⟨apart,fun k slot => ?_⟩)⟩
    obtain ⟨p,member,slot⟩ := List.mem_flatMap.mp slot
    rcases places p member _ slot with ⟨_,register,_⟩ | ⟨_,register,_⟩ <;> cases register

omit [Target] in
theorem java_calling_convention_int_long : letI := ppc32
    Sound [T_INT,T_LONG,T_VOID] ↔ InRegisters [T_INT,T_LONG,T_VOID] := by
  let := ppc32
  exact java_calling_convention_sound _ (.word T_INT (by decide) (.long .nil))

omit [Target] in
-- A long and an int on the small processor: the long is in r5 and r6, and the
-- int in r5.
theorem long_int_overlap : letI := ppc32
    java_calling_convention [T_LONG,T_VOID,T_INT] = some ([.set2 (.reg 5),.bad,.set1 (.reg 5)],0) ∧
      ¬ Sound [T_LONG,T_VOID,T_INT] := by
  let := ppc32
  refine ⟨by decide,?_⟩
  rintro ⟨regs,slots,assigned,placed⟩
  have known : java_calling_convention [T_LONG,T_VOID,T_INT] = some ([.set2 (.reg 5),.bad,.set1 (.reg 5)],0) := by decide
  rw [known] at assigned
  cases assigned
  have apart := (List.pairwise_cons.mp placed.apart).1 (.set1 (.reg 5)) (by simp)
  exact apart (.reg 5) (by decide) (by decide)

end IcedTea.SharedRuntime

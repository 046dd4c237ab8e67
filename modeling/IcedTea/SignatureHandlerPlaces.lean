import IcedTea.SignatureHandlerAbi

namespace IcedTea.InterpreterRuntime
open StackFrame (link_area_words min_params)
open Vm Cells

-- A register, or a word of the frame counted from r1.
inductive Part where
  | gpr (r : Register) | fpr (f : FloatRegister) | word (k : Nat)
  deriving DecidableEq, Repr

-- Where an argument is by the 32-bit ABI, a pair being two general registers.
inductive Place where
  | register (r : Nat) | pair (r : Nat) | float (f : Nat) | word (k : Nat) | words (k : Nat)
  deriving DecidableEq, Repr

section
variable [Target]

namespace Place

def parts : Place → List Part
  | register r => [.gpr r]
  | pair r => [.gpr r,.gpr (r+1)]
  | float f => [.fpr f]
  | word k => [.word k]
  | words k => [.word k,.word (k+1)]

def Apart (p q : Place) : Prop := p.parts.Disjoint q.parts

-- The places for each type when the frame has `st_arg` words of arguments.
def Allowed (st_arg : Nat) : NativeType → Place → Prop
  | .int,register r | .object,register r => gp_reg_start ≤ r ∧ r ≤ gp_reg_max
  | .long,pair r => gp_reg_start ≤ r ∧ r % 2 = 1 ∧ r+1 ≤ gp_reg_max
  | .float,float f | .double,float f => fp_reg_start ≤ f ∧ f ≤ fp_reg_max
  | .int,word k | .object,word k => link_area_words ≤ k ∧ k+1 ≤ link_area_words + st_arg
  | .long,words k | .float,words k | .double,words k => link_area_words ≤ k ∧ k % 2 = 0 ∧ k+2 ≤ link_area_words + st_arg
  | _,_ => False

-- The first register of a pair has the high word.
def Holds (m' : Machine) (v : Int) : Place → Prop
  | register r => m'.gpr r = v
  | pair r => m'.gpr r = v / 2^32 ∧ m'.gpr (r+1) % 2^32 = v % 2^32
  | float f => m'.fpr f = v
  | word k => m'.read (m'.gpr r1 + k*wordSize) = v
  | words k => m'.read64 (m'.gpr r1 + k*wordSize) = v

end Place

-- The value of the parameter whose first local is `n`.
def argument (m : Machine) (n : Nat) : NativeType → Int
  | .int => intValue m.mem (m.ea (localAddress n))
  | .object => objectValue m.mem (m.ea (localAddress n))
  | .float => Target.single_to_double (m.mem (m.ea (localAddress n)))
  | .long | .double => m.read64 (m.ea (localAddress (n+1)))

def AllPlaced (st_arg : Nat) (m m' : Machine) : Nat → List NativeType → List Place → Prop
  | _,[],[] => True
  | n,t :: rest,p :: places =>
    (p.Allowed st_arg t ∧ p.Holds m' (argument m n t)) ∧ AllPlaced st_arg m m' (n + t.words) rest places
  | _,_,_ => False

-- Where the counters put the next argument.
def even_word (c : Counters) : Nat := link_area_words + if c.st_arg % 2 = 1 then c.st_arg+1 else c.st_arg
def odd_register (c : Counters) : Nat := if c.gp_reg % 2 = 0 then c.gp_reg+1 else c.gp_reg

def place (c : Counters) : NativeType → Place
  | .int | .object => if c.gp_reg ≤ gp_reg_max then .register c.gp_reg else .word (link_area_words + c.st_arg)
  | .long => if c.gp_reg < gp_reg_max then .pair (odd_register c) else .words (even_word c)
  | .float | .double => if c.fp_reg ≤ fp_reg_max then .float c.fp_reg else .words (even_word c)

def places (c : Counters) (n : Nat) : List NativeType → List Place
  | [] => []
  | t :: rest => place c t :: places (pass c n t).next (n + t.words) rest

def Part.Between (c next : Counters) : Part → Prop
  | gpr r => c.gp_reg ≤ r ∧ r < next.gp_reg
  | fpr f => c.fp_reg ≤ f ∧ f < next.fp_reg
  | word k => link_area_words + c.st_arg ≤ k ∧ k < link_area_words + next.st_arg

-- A two-word argument of the stack is after what is already there.
theorem words_between (cpu : Target.cpu = .ppc32) (c : Counters) (src : Address) (type : NativeType)
    (wide_ : type = .long ∨ type = .float ∨ type = .double) :
    ∀ part ∈ (Place.words (even_word c)).parts, part.Between c (pass_on_stack c src type).next := by
  have next : (pass_on_stack c src type).next.st_arg + link_area_words = even_word c + 2 := by
    rcases wide_ with rfl|rfl|rfl <;> simp [pass_on_stack,cpu,even_word] <;> omega
  have start : link_area_words + c.st_arg ≤ even_word c := by
    unfold even_word
    split <;> omega
  intro part member
  rcases List.mem_cons.mp member with rfl|second
  · exact ⟨start,by omega⟩
  · rw [List.mem_singleton.mp second]
    exact ⟨by omega,by omega⟩

theorem word_between (cpu : Target.cpu = .ppc32) (c : Counters) (src : Address) (type : NativeType)
    (narrow : type = .int ∨ type = .object) :
    ∀ part ∈ (Place.word (link_area_words + c.st_arg)).parts, part.Between c (pass_on_stack c src type).next := by
  have next : (pass_on_stack c src type).next.st_arg = c.st_arg + 1 := by
    rcases narrow with rfl|rfl <;> simp [pass_on_stack,cpu]
  intro part member
  rw [List.mem_singleton.mp member]
  exact ⟨Nat.le_refl _,by omega⟩

theorem place_between (cpu : Target.cpu = .ppc32) (c : Counters) (n : Nat) (t : NativeType) :
    ∀ part ∈ (place c t).parts, part.Between c (pass c n t).next := by
  have general : ∀ code : List Emitted, ∀ part ∈ (Place.register c.gp_reg).parts,
      part.Between c (Passed.mk code [] {c.shadow with gp_reg := c.gp_reg+1}).next := by
    intro code part member
    rw [List.mem_singleton.mp member]
    exact ⟨Nat.le_refl _,Nat.lt_succ_self _⟩
  have floating : ∀ code : List Emitted, ∀ part ∈ (Place.float c.fp_reg).parts,
      part.Between c (Passed.mk code [] {c.shadow with fp_reg := c.fp_reg+1}).next := by
    intro code part member
    rw [List.mem_singleton.mp member]
    exact ⟨Nat.le_refl _,Nat.lt_succ_self _⟩
  cases t with
  | int =>
    simp only [place,pass,pass_int]
    split
    · exact general _
    · exact word_between cpu c _ _ (.inl rfl)
  | object =>
    simp only [place,pass,pass_object]
    split
    · exact general _
    · exact word_between cpu c _ _ (.inr rfl)
  | float =>
    simp only [place,pass,pass_float]
    split
    · exact floating _
    · exact words_between cpu c _ _ (.inr (.inl rfl))
  | double =>
    simp only [place,pass,pass_double]
    split
    · exact floating _
    · exact words_between cpu c _ _ (.inr (.inr rfl))
  | long =>
    simp only [place,pass,pass_long,cpu]
    split
    · have start : c.gp_reg ≤ odd_register c := by
        unfold odd_register
        split <;> omega
      intro part member
      rcases List.mem_cons.mp member with rfl|second
      · exact ⟨start,Nat.lt_succ_of_lt (Nat.lt_succ_self _)⟩
      · rw [List.mem_singleton.mp second]
        exact ⟨Nat.le_succ_of_le start,Nat.lt_succ_self _⟩
    · exact words_between cpu c _ _ (.inl rfl)

-- Places are handed out upwards, so no two share a part.
theorem places_between (cpu : Target.cpu = .ppc32) (ready : Ready c) (n : Nat) (params : List NativeType) :
    ∀ p ∈ places c n params, ∀ part ∈ p.parts, part.Between c (iterate c n params).next := by
  induction params generalizing c n with
  | nil => exact fun p member => absurd member List.not_mem_nil
  | cons t rest ih =>
    have first := pass_listed ready n t
    have later := iterate_listed first.ready (n + t.words) rest
    intro p member part inside
    rcases List.mem_cons.mp member with rfl|after
    · have between := place_between cpu c n t part inside
      cases part with
      | gpr r => exact ⟨between.1,Nat.lt_of_lt_of_le between.2 later.gp⟩
      | fpr f => exact ⟨between.1,Nat.lt_of_lt_of_le between.2 later.fp⟩
      | word k => exact ⟨between.1,Nat.lt_of_lt_of_le between.2 (Nat.add_le_add_left later.st _)⟩
    · have between := ih first.ready (n + t.words) p after part inside
      cases part with
      | gpr r => exact ⟨Nat.le_trans first.gp between.1,between.2⟩
      | fpr f => exact ⟨Nat.le_trans first.fp between.1,between.2⟩
      | word k => exact ⟨Nat.le_trans (Nat.add_le_add_left first.st _) between.1,between.2⟩

theorem places_apart (cpu : Target.cpu = .ppc32) (ready : Ready c) (n : Nat) (params : List NativeType) :
    (places c n params).Pairwise Place.Apart := by
  induction params generalizing c n with
  | nil => exact .nil
  | cons t rest ih =>
    have first := pass_listed ready n t
    refine .cons (fun p member part one two => ?_) (ih first.ready (n + t.words))
    have low := place_between cpu c n t part one
    have high := places_between cpu first.ready (n + t.words) rest p member part two
    cases part with
    | gpr r => exact Nat.lt_irrefl _ (Nat.lt_of_lt_of_le low.2 high.1)
    | fpr f => exact Nat.lt_irrefl _ (Nat.lt_of_lt_of_le low.2 high.1)
    | word k => exact Nat.lt_irrefl _ (Nat.lt_of_lt_of_le low.2 high.1)

theorem place_allowed (cpu : Target.cpu = .ppc32) (ready : Ready c) (n : Nat) (t : NativeType)
    (room : (pass c n t).next.st_arg ≤ st_arg) : (place c t).Allowed st_arg t := by
  have between := place_between cpu c n t
  have even : even_word c % 2 = 0 := by
    simp only [even_word,link_area_words,cpu]
    split <;> omega
  have above : link_area_words ≤ even_word c := Nat.le_add_right _ _
  have word : ∀ k, Part.Between c (pass c n t).next (.word k) → k < link_area_words + st_arg := fun k between =>
    Nat.lt_of_lt_of_le between.2 (Nat.add_le_add_left room _)
  have gp := ready.gp.1
  have fp := ready.fp.1
  cases t with
  | int =>
    simp only [place] at between ⊢
    by_cases few : c.gp_reg ≤ gp_reg_max
    · rw [if_pos few]
      exact ⟨gp,few⟩
    · rw [if_neg few] at between ⊢
      exact ⟨Nat.le_add_right _ _,word _ (between _ (List.mem_singleton_self _))⟩
  | object =>
    simp only [place] at between ⊢
    by_cases few : c.gp_reg ≤ gp_reg_max
    · rw [if_pos few]
      exact ⟨gp,few⟩
    · rw [if_neg few] at between ⊢
      exact ⟨Nat.le_add_right _ _,word _ (between _ (List.mem_singleton_self _))⟩
  | long =>
    simp only [place] at between ⊢
    by_cases few : c.gp_reg < gp_reg_max
    · rw [if_pos few]
      have odd : odd_register c % 2 = 1 ∧ c.gp_reg ≤ odd_register c ∧ odd_register c ≤ c.gp_reg + 1 := by
        unfold odd_register
        split <;> omega
      exact ⟨Nat.le_trans gp odd.2.1,odd.1,by simp only [gp_reg_max] at few ⊢; omega⟩
    · rw [if_neg few] at between ⊢
      exact ⟨above,even,word _ (between _ (List.mem_cons_of_mem _ (List.mem_singleton_self _)))⟩
  | float =>
    simp only [place] at between ⊢
    by_cases few : c.fp_reg ≤ fp_reg_max
    · rw [if_pos few]
      exact ⟨fp,few⟩
    · rw [if_neg few] at between ⊢
      exact ⟨above,even,word _ (between _ (List.mem_cons_of_mem _ (List.mem_singleton_self _)))⟩
  | double =>
    simp only [place] at between ⊢
    by_cases few : c.fp_reg ≤ fp_reg_max
    · rw [if_pos few]
      exact ⟨fp,few⟩
    · rw [if_neg few] at between ⊢
      exact ⟨above,even,word _ (between _ (List.mem_cons_of_mem _ (List.mem_singleton_self _)))⟩

theorem spill_ppc32 (cpu : Target.cpu = .ppc32) (a : StackArgument) : a.spill = 0 := by
  unfold StackArgument.spill
  simp [cpu]

omit [Target]

-- Two cells copied make a copy of the eight bytes.
theorem words_of_cells {m m' : Machine} {a b : Int} (high : m'.mem b = m.mem a) (low : m'.mem (b + 4) = m.mem (a + 4)) :
    m'.read64 b = m.read64 a := by
  simp only [Machine.read64,word,if_true,high,low]

theorem argument_register (start : gp_reg_start ≤ r) (few : r ≤ gp_reg_max) : ¬ Scratch (.gpr r) :=
  (by decide : ∀ r : Fin (gp_reg_max + 1), gp_reg_start ≤ r.val → ¬ Scratch (.gpr r.val)) ⟨r,Nat.lt_succ_of_le few⟩ start

theorem argument_float (start : fp_reg_start ≤ f) : ¬ Scratch (.fpr f) := by
  rintro (same|same|same|same|same) <;> cases same
  exact absurd start (by decide)

end

variable [Vm]

-- The one stack argument of two words.
omit [Vm] in
theorem pass_on_stack_words [Target] (cpu : Target.cpu = .ppc32) (c : Counters) (src : Address) (type : NativeType)
    (wide_ : type = .long ∨ type = .float ∨ type = .double) :
    ⟨src.displacement,even_word c*wordSize,type⟩ ∈ (pass_on_stack c src type).st_args := by
  rcases wide_ with rfl|rfl|rfl <;> simp [pass_on_stack,cpu,even_word]

theorem place_holds (cpu : Target.cpu = .ppc32) (handled : Handled q result_handler extra m m') (listed : Listed c₀ 0 words q)
    (ready : Ready c) (n : Nat) (t : NativeType) (code : ∀ e ∈ (pass c n t).code, e ∈ q.code)
    (st_args : ∀ a ∈ (pass c n t).st_args, a ∈ q.st_args) : (place c t).Holds m' (argument m n t) := by
  have narrow : wide = false := by simp [wide,cpu]
  have size := wordSize_ppc32 cpu
  have gp := ready.gp.1
  have fp := ready.fp.1
  have in_register := fun e (member : e ∈ (pass c n t).code) plain => handled.register listed (code e member) plain
  have on_stack := fun a (member : a ∈ (pass c n t).st_args) =>
    handled.stored listed (fun a _ => spill_ppc32 cpu a) (st_args a member)
  cases t with
  | int =>
    simp only [place,pass,pass_int] at in_register on_stack ⊢
    by_cases few : c.gp_reg ≤ gp_reg_max
    · simp only [if_pos few] at in_register ⊢
      exact in_register _ (List.mem_singleton_self _) (argument_register gp few)
    · simp only [if_neg few] at on_stack ⊢
      have held := on_stack _ (List.mem_singleton_self _)
      simp only [StackArgument.cells,cpu,decide_false,Bool.false_or,Bool.false_and,reduceCtorEq,Bool.false_eq_true,if_false] at held
      exact word_of_cells held
  | object =>
    simp only [place,pass,pass_object] at in_register on_stack ⊢
    by_cases few : c.gp_reg ≤ gp_reg_max
    · simp only [if_pos few] at in_register ⊢
      exact in_register _ (List.mem_singleton_self _) (argument_register gp few)
    · simp only [if_neg few] at on_stack ⊢
      have held := on_stack _ (List.mem_singleton_self _)
      simp only [StackArgument.cells,cpu,decide_false,Bool.false_or,Bool.false_and,reduceCtorEq,Bool.false_eq_true,if_false] at held
      exact word_of_cells held
  | float =>
    simp only [place,pass,pass_float] at in_register on_stack ⊢
    by_cases few : c.fp_reg ≤ fp_reg_max
    · simp only [if_pos few] at in_register ⊢
      exact in_register _ (List.mem_singleton_self _) (argument_float fp)
    · simp only [if_neg few] at on_stack ⊢
      have held := on_stack _ (pass_on_stack_words cpu c _ _ (.inr (.inl rfl)))
      simp only [StackArgument.cells,cpu] at held
      exact word_of_cells held
  | double =>
    simp only [place,pass,pass_double] at in_register on_stack ⊢
    by_cases few : c.fp_reg ≤ fp_reg_max
    · simp only [if_pos few] at in_register ⊢
      exact in_register _ (List.mem_singleton_self _) (argument_float fp)
    · simp only [if_neg few] at on_stack ⊢
      have held := on_stack _ (pass_on_stack_words cpu c _ _ (.inr (.inr rfl)))
      simp only [StackArgument.cells] at held
      exact word_of_cells held
  | long =>
    simp only [place,pass,pass_long,cpu] at in_register on_stack ⊢
    by_cases few : c.gp_reg < gp_reg_max
    · simp only [if_pos few] at in_register ⊢
      have odd : c.gp_reg ≤ odd_register c ∧ odd_register c + 1 ≤ gp_reg_max := by
        unfold odd_register gp_reg_max at *
        split <;> omega
      have high := in_register (.lwz (odd_register c) (localAddress (n+1))) List.mem_cons_self
        (argument_register (Nat.le_trans gp odd.1) (Nat.le_of_succ_le odd.2))
      have low := in_register (.lwz (odd_register c + 1) (localAddress n)) (List.mem_cons_of_mem _ (List.mem_singleton_self _))
        (argument_register (Nat.le_trans gp (Nat.le_succ_of_le odd.1)) odd.2)
      simp only [Emitted.dst,Emitted.value,Emitted.src,content,cellValue,narrow,Bool.false_eq_true,if_false] at high low
      -- the second local of the long is the word below the first
      have next : m.ea (localAddress n) = m.ea (localAddress (n+1)) + 4 := by
        simp only [Machine.ea,localAddress,local_offset_in_bytes,size]
        push_cast
        ring
      rw [next] at low
      simp only [Place.Holds,argument,Machine.read64,word,if_true,high,low]
      omega
    · simp only [if_neg few] at on_stack ⊢
      have held := on_stack _ (pass_on_stack_words cpu c _ _ (.inl rfl))
      simp only [StackArgument.cells,cpu,size,List.mem_cons,List.not_mem_nil,or_false,forall_eq_or_imp,forall_eq] at held
      refine words_of_cells ?_ ?_
      · simp only [size]
        exact held.2
      · simp only [size]
        exact held.1.trans (congrArg m.mem (Int.add_assoc _ _ _).symm)

-- Every argument at its own place, and nothing else of the frame's caller changed.
structure Placed (st_arg : Nat) (m m' : Machine) (params : List NativeType) (places : List Place) : Prop where
  each : AllPlaced st_arg m m' 0 params places
  apart : places.Pairwise Place.Apart
  below : ∀ p ∈ places, ∀ k, .word k ∈ p.parts →
    m'.gpr r1 + ((k+1 : Nat) : Int)*wordSize ≤ m.read (m.ea (STATE .stack_limit)) + wordSize
  only : OnlyParameters st_arg m m'

theorem all_placed (cpu : Target.cpu = .ppc32) (handled : Handled q result_handler extra m m') (listed : Listed c₀ 0 words q)
    (ready : Ready c) (n : Nat) (params : List NativeType) (code : ∀ e ∈ (iterate c n params).code, e ∈ q.code)
    (st_args : ∀ a ∈ (iterate c n params).st_args, a ∈ q.st_args) (room : (iterate c n params).next.st_arg ≤ q.next.st_arg) :
    AllPlaced q.next.st_arg m m' n params (places c n params) := by
  induction params generalizing c n with
  | nil => trivial
  | cons t rest ih =>
    have first := pass_listed ready n t
    have later := iterate_listed first.ready (n + t.words) rest
    refine ⟨⟨place_allowed cpu ready n t (Nat.le_trans later.st room),place_holds cpu handled listed ready n t
      (fun e member => code e (List.mem_append_left _ member)) fun a member => st_args a (List.mem_append_left _ member)⟩,?_⟩
    exact ih first.ready (n + t.words) (fun e member => code e (List.mem_append_right _ member))
      (fun a member => st_args a (List.mem_append_right _ member)) room

theorem placed (cpu : Target.cpu = .ppc32) (is_static : Bool) (signature : List NativeType) (result_handler : Int) (m : Machine)
    (entry : HandlerEntry (parameterWords (parameters is_static signature)) m) :
    let q := iterate (Counters.start is_static) 0 (parameters is_static signature)
    Placed q.next.st_arg m (generate is_static signature result_handler m) (parameters is_static signature)
      (places (Counters.start is_static) 0 (parameters is_static signature)) := by
  have ready := ready_start is_static
  have listed := iterate_listed ready 0 (parameters is_static signature)
  obtain ⟨extra,handled⟩ := generate_spec is_static signature result_handler m entry
  refine ⟨all_placed cpu handled listed ready 0 _ (fun _ member => member) (fun _ member => member) (Nat.le_refl _),
    places_apart cpu ready 0 _,fun p member k part => ?_,only_parameters handled listed fun a _ => spill_ppc32 cpu a⟩
  obtain ⟨low,high⟩ := places_between cpu ready 0 _ p member _ part
  have room := handled.room (by simp only [min_params,cpu]; omega)
  have inside := Int.mul_le_mul_of_nonneg_right (show ((k+1 : Nat) : Int) ≤
    ((link_area_words + (iterate (Counters.start is_static) 0 (parameters is_static signature)).next.st_arg : Nat) : Int) by
    omega) (Int.le_of_lt wordSize_pos)
  omega

end IcedTea.InterpreterRuntime

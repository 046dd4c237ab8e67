import IcedTea.SlowSignatureWords

namespace IcedTea.InterpreterRuntime
open StackFrame (link_area_words min_params)
open CppInterpreter (size_of_parameters)
open Vm Cells

section
variable [Target]

-- The parts the generated code loads and stores.
def Destination.part : Destination → Part
  | .gpr r => .gpr r
  | .fpr f => .fpr f

def StackArgument.parts (a : StackArgument) : List Part :=
  (List.range' (a.dst_offset / wordSize).toNat (a.bytes / wordSize).toNat).map .word

def Passed.parts (p : Passed) : List Part := (p.code.map fun e => e.dst.part) ++ p.st_args.flatMap StackArgument.parts

def fast_parts (c : Counters) (n : Nat) : List NativeType → List (List Part)
  | [] => []
  | t :: rest => (pass c n t).parts :: fast_parts (pass c n t).next (n + t.words) rest

def Part.content (m' : Machine) : Part → Int
  | gpr r => m'.gpr r
  | fpr f => m'.fpr f
  | word k => m'.read (m'.gpr r1 + k*wordSize)

-- The counters of the one walk are the pointers of the other.
structure Level (c : Counters) (p : Spot) : Prop where
  gp_reg : c.gp_reg = gp_reg_start + p.images
  st_arg : c.st_arg = p.stack

theorem level_start (is_static : Bool) : Level (Counters.start is_static) (.start is_static) := by
  cases is_static <;> exact ⟨rfl,rfl⟩

-- A long on the stack of the small processor is after an even number of words.
def Straight (p : Spot) (t : NativeType) : Prop := t = .long → Target.cpu = .ppc32 → p.images < 6 ∨ p.stack % 2 = 0

def Lined (p : Spot) : List NativeType → Prop
  | [] => True
  | t :: rest => Straight p t ∧ Lined (p.next t) rest

instance (p : Spot) (t : NativeType) : Decidable (Straight p t) := by unfold Straight; infer_instance
instance : (p : Spot) → (params : List NativeType) → Decidable (Lined p params)
  | _,[] => isTrue trivial
  | p,t :: rest => @instDecidableAnd _ _ inferInstance (instDecidableLined (p.next t) rest)

theorem loaded (e : Emitted) (next : Counters) : (Passed.mk [e] [] next).parts = [e.dst.part] := rfl

theorem stacked_word (k : Nat) (bytes : (StackArgument.mk src ((k : Nat)*wordSize) t).bytes = wordSize) (next : Counters) :
    (Passed.mk [] [⟨src,(k : Nat)*wordSize,t⟩] next).parts = (Place.word k).parts := by
  have pos := Int.ne_of_gt wordSize_pos
  simp only [Passed.parts,List.map_nil,List.nil_append,List.flatMap_cons,List.flatMap_nil,List.append_nil,StackArgument.parts,bytes,
    Int.mul_ediv_cancel _ pos,Int.ediv_self pos]
  rfl

theorem stacked_words (k : Nat) (bytes : (StackArgument.mk src ((k : Nat)*wordSize) t).bytes = 2*wordSize) (next : Counters) :
    (Passed.mk [] [⟨src,(k : Nat)*wordSize,t⟩] next).parts = (Place.words k).parts := by
  have pos := Int.ne_of_gt wordSize_pos
  simp only [Passed.parts,List.map_nil,List.nil_append,List.flatMap_cons,List.flatMap_nil,List.append_nil,StackArgument.parts,bytes,
    Int.mul_ediv_cancel _ pos]
  rfl

-- The two walks side by side on the large processor.
theorem pass_parts_ppc64 (cpu : Target.cpu = .ppc64) (level : Level c p) (n : Nat) (plain : t.floating = false) :
    (pass c n t).parts = (p.place t).parts ∧ Level (pass c n t).next (p.next t) := by
  obtain ⟨gp,st⟩ := level
  have eight : wordSize = 8 := wordSize_ppc64 cpu
  have start : gp_reg_start = 4 := rfl
  rw [pass_ppc64 cpu,place_single p (.inl cpu)]
  simp only [plain,Bool.false_eq_true,if_false,Spot.next,cpu]
  by_cases few : p.images ≤ 6
  · have dst : (emit c.gp_reg (source n t) t).dst = .gpr c.gp_reg := by cases t <;> first | rfl | cases plain
    rw [if_pos (by omega),if_pos few,if_pos few,loaded,dst,gp]
    exact ⟨rfl,rfl,congrArg (· + 1) st⟩
  · have bytes : ∀ src dst, (StackArgument.mk src dst t).bytes = wordSize := fun src dst => by
      rw [eight]
      cases t <;> first | (simp [StackArgument.bytes,cpu]; done) | cases plain
    rw [if_neg (by omega),if_neg few,if_neg few,stacked_word _ (bytes _ _),st]
    exact ⟨rfl,gp,rfl⟩

theorem pass_on_stack_parts (cpu : Target.cpu = .ppc32) (c : Counters) (src : Address) (plain : t.floating = false) :
    (pass_on_stack c src t).parts =
      if t = .long then (Place.words (even_word c)).parts else (Place.word (link_area_words + c.st_arg)).parts := by
  have four : wordSize = 4 := wordSize_ppc32 cpu
  have narrow : ∀ src dst, t ≠ .long → (StackArgument.mk src dst t).bytes = wordSize := fun src dst short => by
    rw [four]
    cases t <;> first | (simp [StackArgument.bytes,cpu]; done) | exact absurd rfl short | cases plain
  cases t with
  | int =>
    simp only [pass_on_stack,cpu,reduceCtorEq,decide_false,Bool.false_or,Bool.false_and,Bool.false_eq_true,if_false]
    exact stacked_word _ (narrow _ _ (by decide)) _
  | object =>
    simp only [pass_on_stack,cpu,reduceCtorEq,decide_false,Bool.false_or,Bool.false_and,Bool.false_eq_true,if_false]
    exact stacked_word _ (narrow _ _ (by decide)) _
  | long =>
    simp only [pass_on_stack,cpu,decide_true,Bool.true_or,Bool.true_and,decide_eq_true_eq,if_true]
    exact stacked_words _ (by simp [StackArgument.bytes,cpu,four]) _
  | float => cases plain
  | double => cases plain

-- On the small processor a long is where the slow handler puts it when it is straight.
theorem pass_parts_ppc32 (cpu : Target.cpu = .ppc32) (level : Level c p) (n : Nat) (plain : t.floating = false) :
    ((pass c n t).parts = (p.place t).parts ↔ Straight p t) ∧
      (Straight p t → Level (pass c n t).next (p.next t)) := by
  obtain ⟨gp,st⟩ := level
  have start : gp_reg_start = 4 := rfl
  have last : gp_reg_max = 10 := rfl
  have same : c.shadow = c := by simp [Counters.shadow,cpu]
  have single : ∀ e src, t ≠ .long → e.dst = .gpr c.gp_reg →
      let passed := if c.gp_reg ≤ gp_reg_max then ⟨[e],[],{c.shadow with gp_reg := c.gp_reg+1}⟩ else pass_on_stack c src t
      (passed.parts = (p.place t).parts ↔ Straight p t) ∧ (Straight p t → Level passed.next (p.next t)) := by
    intro e src short dst
    have straight : Straight p t := fun long => absurd long short
    have stacked : (pass_on_stack c src t).next = {c with st_arg := c.st_arg+1} := by
      cases t <;> first | (simp [pass_on_stack,cpu]; done) | exact absurd rfl short | cases plain
    rw [place_single p (.inr short)]
    simp only [Spot.next,cpu,if_neg short]
    by_cases few : p.images ≤ 6
    · rw [if_pos (by omega),if_pos few,if_pos few,loaded,dst,gp,same]
      exact ⟨iff_of_true rfl straight,fun _ => ⟨rfl,st⟩⟩
    · rw [if_neg (by omega),if_neg few,if_neg few,pass_on_stack_parts cpu c src plain,if_neg short,stacked,st]
      exact ⟨iff_of_true rfl straight,fun _ => ⟨gp,rfl⟩⟩
  cases t with
  | int => exact single _ _ (by decide) rfl
  | object => exact single _ _ (by decide) rfl
  | long =>
    simp only [pass,pass_long,cpu,place_pair cpu,Spot.next,if_true]
    by_cases few : p.images < 6
    · have straight : Straight p .long := fun _ _ => .inl few
      have pair : odd_register c = gp_reg_start + p.pair := by
        simp only [odd_register,Spot.pair,gp]
        split <;> split <;> omega
      rw [if_pos (by omega),if_pos few,if_pos few]
      refine ⟨iff_of_true ?_ straight,fun _ => ⟨?_,st⟩⟩
      · change [Part.gpr (odd_register c),Part.gpr (odd_register c + 1)] = _
        rw [pair]
        rfl
      · change odd_register c + 2 = _
        rw [pair]
        rfl
    · have even : Straight p .long ↔ p.stack % 2 = 0 := by
        simp only [Straight,cpu,true_imp_iff,few,false_or]
      have word : even_word c = link_area_words + p.stack ↔ p.stack % 2 = 0 := by
        simp only [even_word,st]
        split <;> omega
      have next : (pass_on_stack c (localAddress (n+1)) .long).next = {c with st_arg := (even_word c - link_area_words) + 2} := by
        simp [pass_on_stack,cpu,even_word]
      rw [if_neg (by omega),if_neg few,if_neg few,pass_on_stack_parts cpu c _ plain,if_pos rfl,even,← word,next]
      refine ⟨⟨fun found => ?_,fun found => by rw [found]⟩,fun found => ⟨gp,?_⟩⟩
      · have first := List.head_eq_of_cons_eq found
        exact Part.word.inj first
      · simp only
        omega
  | float => cases plain
  | double => cases plain

theorem straight_ppc64 (cpu : Target.cpu = .ppc64) (p : Spot) (t : NativeType) : Straight p t := by
  intro _ small
  rw [cpu] at small
  cases small

theorem pass_parts (level : Level c p) (n : Nat) (plain : t.floating = false) :
    ((pass c n t).parts = (p.place t).parts ↔ Straight p t) ∧ (Straight p t → Level (pass c n t).next (p.next t)) := by
  cases cpu : Target.cpu with
  | ppc32 => exact pass_parts_ppc32 cpu level n plain
  | ppc64 =>
    obtain ⟨same,next⟩ := pass_parts_ppc64 cpu level n plain
    exact ⟨iff_of_true same (straight_ppc64 cpu p t),fun _ => next⟩

-- The two walks put every parameter at the same place exactly when the longs are lined up.
theorem fast_parts_iff (level : Level c p) (n : Nat) (general : General params) :
    fast_parts c n params = p.parts params ↔ Lined p params := by
  induction params generalizing c p n with
  | nil => exact iff_of_true rfl trivial
  | cons t rest ih =>
    obtain ⟨here,next⟩ := pass_parts level n (general t List.mem_cons_self)
    simp only [fast_parts,Spot.parts,Lined,List.cons.injEq,here]
    exact and_congr_right fun straight => ih (next straight) _ fun u member => general u (List.mem_cons_of_mem t member)

omit [Target] in
theorem general_conforms (p : Position) (none : p.floats = 0) (general : General params) : Conforms p params := by
  induction params generalizing p with
  | nil => trivial
  | cons t rest ih =>
    have plain := general t List.mem_cons_self
    refine ⟨?_,ih _ ?_ fun u member => general u (List.mem_cons_of_mem t member)⟩
    · simp only [Fits,plain,Bool.false_eq_true,if_false]
      exact .inl none
    · simp only [Position.next,plain,Bool.false_eq_true,if_false]
      exact none

theorem general_spill (is_static : Bool) (general : General params) :
    ∀ a ∈ (iterate (Counters.start is_static) 0 params).st_args, a.spill = 0 := by
  cases cpu : Target.cpu with
  | ppc32 => exact fun a _ => spill_ppc32 cpu a
  | ppc64 => exact conforms_spill cpu (agrees_start cpu is_static) 0 (general_conforms _ rfl general)

theorem local_before (from_ : Int) (n : Nat) :
    from_ + local_offset_in_bytes n = from_ + (local_offset_in_bytes (n+1) + wordSize) := by
  unfold local_offset_in_bytes
  push_cast
  ring
end

variable [Vm]

omit [Vm] in
theorem word_held [Target] (held : ∀ cell ∈ wordCells wide (m'.gpr r1 + (k : Nat)*wordSize) v, m'.mem cell.1 = cell.2) :
    (Place.word k).parts.map (Part.content m') = [v] := congrArg (fun v => [v]) (word_of_cells held)

-- The generated code leaves a parameter's words at its parts.
theorem passed_words (handled : Handled q result_handler extra m m') (listed : Listed c₀ 0 words q)
    (inside : ∀ a ∈ q.st_args, a.spill = 0) (ready : Ready c) (n : Nat) (plain : t.floating = false)
    (code : ∀ e ∈ (pass c n t).code, e ∈ q.code) (st_args : ∀ a ∈ (pass c n t).st_args, a ∈ q.st_args) :
    (pass c n t).parts.map (Part.content m') = general_words m.mem (m.gpr Rlocals) n t := by
  have gp := ready.gp.1
  have in_register := fun e (member : e ∈ (pass c n t).code) plain => handled.register listed (code e member) plain
  have on_stack := fun a (member : a ∈ (pass c n t).st_args) => handled.stored listed inside (st_args a member)
  cases cpu : Target.cpu with
  | ppc64 =>
    have shape := pass_ppc64 cpu c n t
    simp only [plain,Bool.false_eq_true,if_false] at shape
    by_cases few : c.gp_reg ≤ 10
    · rw [if_pos few] at shape
      rw [shape] at in_register ⊢
      have dst : (emit c.gp_reg (source n t) t).dst = .gpr c.gp_reg := by cases t <;> first | rfl | cases plain
      have held := in_register _ (List.mem_singleton_self _) (by rw [dst]; exact argument_register gp few)
      rw [loaded,dst]
      rw [dst] at held
      refine (congrArg (fun v => [v]) held).trans ?_
      cases t <;> first | (simp only [general_words,cpu]; rfl) | cases plain
    · have bytes : ∀ src dst, (StackArgument.mk src dst t).bytes = wordSize := fun src dst => by
        rw [wordSize_ppc64 cpu]
        cases t <;> first | (simp [StackArgument.bytes,cpu]; done) | cases plain
      rw [if_neg few] at shape
      rw [shape] at on_stack ⊢
      rw [stacked_word _ (bytes _ _)]
      have held := on_stack _ (List.mem_singleton_self _)
      cases t with
      | int => exact word_held held
      | object => exact word_held held
      | long =>
        simp only [StackArgument.cells,cpu] at held
        simp only [general_words,cpu]
        exact word_held held
      | float => cases plain
      | double => cases plain
  | ppc32 =>
    have narrow : wide = false := by simp [wide,cpu]
    cases t with
    | int =>
      simp only [pass,pass_int] at in_register on_stack ⊢
      by_cases few : c.gp_reg ≤ gp_reg_max
      · simp only [if_pos few] at in_register ⊢
        exact congrArg (fun v => [v]) (in_register _ (List.mem_singleton_self _) (argument_register gp few))
      · simp only [if_neg few] at on_stack ⊢
        rw [pass_on_stack_parts cpu c _ plain,if_neg (by decide)]
        have held := on_stack _ (List.mem_singleton_self _)
        simp only [StackArgument.cells,cpu,decide_false,Bool.false_or,Bool.false_and,reduceCtorEq,Bool.false_eq_true,if_false] at held
        exact word_held held
    | object =>
      simp only [pass,pass_object] at in_register on_stack ⊢
      by_cases few : c.gp_reg ≤ gp_reg_max
      · simp only [if_pos few] at in_register ⊢
        exact congrArg (fun v => [v]) (in_register _ (List.mem_singleton_self _) (argument_register gp few))
      · simp only [if_neg few] at on_stack ⊢
        rw [pass_on_stack_parts cpu c _ plain,if_neg (by decide)]
        have held := on_stack _ (List.mem_singleton_self _)
        simp only [StackArgument.cells,cpu,decide_false,Bool.false_or,Bool.false_and,reduceCtorEq,Bool.false_eq_true,if_false] at held
        exact word_held held
    | long =>
      simp only [pass,pass_long,cpu,general_words] at in_register on_stack ⊢
      by_cases few : c.gp_reg < gp_reg_max
      · simp only [if_pos few] at in_register ⊢
        have odd : c.gp_reg ≤ odd_register c ∧ odd_register c + 1 ≤ gp_reg_max := by
          unfold odd_register gp_reg_max at *
          split <;> omega
        have high := in_register (.lwz (odd_register c) (localAddress (n+1))) List.mem_cons_self
          (argument_register (Nat.le_trans gp odd.1) (Nat.le_of_succ_le odd.2))
        have low := in_register (.lwz (odd_register c + 1) (localAddress n)) (List.mem_cons_of_mem _ (List.mem_singleton_self _))
          (argument_register (Nat.le_trans gp (Nat.le_succ_of_le odd.1)) odd.2)
        have single : ∀ a, cellValue m.mem a = m.mem.word wide a := fun a => by simp [cellValue,word,narrow]
        simp only [Emitted.dst,Emitted.value,Emitted.src,content,single] at high low
        exact congrArg₂ (fun v w => [v,w]) high low
      · simp only [if_neg few] at on_stack ⊢
        rw [pass_on_stack_parts cpu c _ plain,if_pos rfl]
        have held := on_stack _ (pass_on_stack_words cpu c _ _ (.inl rfl))
        simp only [StackArgument.cells,cpu,List.mem_cons,List.not_mem_nil,or_false,forall_eq_or_imp,forall_eq] at held
        have first : Part.content m' (.word (even_word c)) = m.mem.word wide (m.gpr Rlocals + local_offset_in_bytes (n+1)) := by
          simp only [Part.content,Machine.read,word,narrow,Bool.false_eq_true,if_false]
          exact held.2
        have second : Part.content m' (.word (even_word c + 1)) = m.mem.word wide (m.gpr Rlocals + local_offset_in_bytes n) := by
          simp only [Part.content,Machine.read,word,narrow,Bool.false_eq_true,if_false]
          rw [local_before]
          refine (congrArg m'.mem ?_).trans held.1
          push_cast
          ring
        exact congrArg₂ (fun v w => [v,w]) first second
    | float => cases plain
    | double => cases plain

theorem fast_carries (handled : Handled q result_handler extra m m') (listed : Listed c₀ 0 words q)
    (inside : ∀ a ∈ q.st_args, a.spill = 0) (ready : Ready c) (n : Nat) (general : General params)
    (code : ∀ e ∈ (iterate c n params).code, e ∈ q.code) (st_args : ∀ a ∈ (iterate c n params).st_args, a ∈ q.st_args) :
    Carries (general_words m.mem (m.gpr Rlocals)) (Part.content m') n params (fast_parts c n params) := by
  induction params generalizing c n with
  | nil => trivial
  | cons t rest ih =>
    have first := pass_listed ready n t
    refine ⟨passed_words handled listed inside ready n (general t List.mem_cons_self)
      (fun e member => code e (List.mem_append_left _ member)) (fun a member => st_args a (List.mem_append_left _ member)),?_⟩
    exact ih first.ready (n + t.words) (fun u member => general u (List.mem_cons_of_mem t member))
      (fun e member => code e (List.mem_append_right _ member)) (fun a member => st_args a (List.mem_append_right _ member))

end IcedTea.InterpreterRuntime

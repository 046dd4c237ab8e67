import IcedTea.Machine

namespace IcedTea
variable [Target]

-- Addresses of the frame code carry a 16-bit displacement: the constructor's
-- int16_t parameter keeps the low half of what it is given.
def int16 (x : Int) : Int := (x + 2^15) % 2^16 - 2^15

omit [Target] in
theorem int16_small (low : -2^15 ≤ x) (high : x < 2^15) : int16 x = x := by unfold int16; omega

namespace StackFrame
def back_chain_offset : Nat := 0
def cr_save_offset : Nat := 1
def lr_save_offset : Nat := match Target.cpu with | .ppc32 => 1 | .ppc64 => 2
def link_area_words : Nat := match Target.cpu with | .ppc32 => 2 | .ppc64 => 6
def min_params : Nat := match Target.cpu with | .ppc32 => 0 | .ppc64 => 8
def max_gprs : Nat := 18
def max_fprs : Nat := 18
def max_crfs : Nat := 3
def num_vgprs : Nat := 11
def num_vsprs : Nat := 1
def num_vfprs : Nat := 14
def words_per_fpr : Nat := match Target.cpu with | .ppc32 => 2 | .ppc64 => 1
def StackAlignmentInBytes : Int := 16
end StackFrame
open StackFrame

inductive FrameState where
  | done_nothing | done_prolog | done_epilog
  deriving DecidableEq, Repr

structure StackFrame where
  params : Nat := 0
  locals : Nat := 0
  crfs : Nat := 0
  gprs : Nat := 0
  fprs : Nat := 0
  state : FrameState := .done_nothing
  frame_size : Int := 0
  save_volatiles : Bool := false
  deriving DecidableEq, Repr

namespace StackFrame

def slot (offset : Nat) : Address := ⟨r1,int16 (offset * wordSize)⟩

def get_parameter (f : StackFrame) : Option (Address × StackFrame) :=
  if f.state = .done_nothing ∧ f.locals = 0 then
    some (slot (link_area_words + f.params),{f with params := f.params+1})
  else none

def get_local_variable (f : StackFrame) : Option (Address × StackFrame) :=
  if f.state = .done_nothing then
    let params := if f.params < min_params then min_params else f.params
    some (slot (link_area_words + params + f.locals),{f with params := params,locals := f.locals+1})
  else none

def get_cr_field (f : StackFrame) : Option (Nat × StackFrame) :=
  if f.state = .done_nothing ∧ f.crfs < max_crfs then some (4 - f.crfs,{f with crfs := f.crfs+1}) else none

def get_register (f : StackFrame) : Option (Register × StackFrame) :=
  if f.state = .done_nothing ∧ f.gprs < max_gprs then some (31 - f.gprs,{f with gprs := f.gprs+1}) else none

def get_float_register (f : StackFrame) : Option (FloatRegister × StackFrame) :=
  if f.state = .done_nothing ∧ f.fprs < max_fprs then some (31 - f.fprs,{f with fprs := f.fprs+1}) else none

def set_save_volatiles (f : StackFrame) (value : Bool) : Option StackFrame :=
  if f.state = .done_nothing then some {f with save_volatiles := value} else none

def unaligned_words (f : StackFrame) : Nat :=
  let crfs := match Target.cpu with | .ppc32 => if f.crfs = 0 then 0 else 1 | .ppc64 => 0
  let params := if f.params < min_params then min_params else f.params
  let vgprs := if f.save_volatiles then num_vgprs else 0
  let vsprs := if f.save_volatiles then num_vsprs else 0
  let vfprs := if f.save_volatiles then num_vfprs * words_per_fpr else 0
  link_area_words + params + f.locals + vgprs + vsprs + vfprs + crfs + f.gprs + f.fprs * words_per_fpr

def unaligned_size (f : StackFrame) : Int := f.unaligned_words * wordSize

def start_of_locals_words (f : StackFrame) : Nat :=
  link_area_words + if f.params < min_params then min_params else f.params

def start_of_locals (f : StackFrame) : Int := f.start_of_locals_words * wordSize

-- The word after the local variables, where the saved registers begin.
def first_slot (f : StackFrame) : Nat := f.start_of_locals_words + f.locals

-- The loop that adds local words until the frame is aligned.
def pad (f : StackFrame) : StackFrame :=
  if f.unaligned_size % StackAlignmentInBytes = 0 then {f with frame_size := f.unaligned_size}
  else pad {f with locals := f.locals+1}
termination_by ((StackAlignmentInBytes - f.unaligned_size % StackAlignmentInBytes) % StackAlignmentInBytes).toNat
decreasing_by
  rename_i unaligned
  have grown : unaligned_size {f with locals := f.locals+1} = f.unaligned_size + wordSize := by
    simp only [unaligned_size,unaligned_words]; push_cast; ring
  have size : f.unaligned_size = f.unaligned_words * wordSize := rfl
  simp only [grown,StackAlignmentInBytes] at unaligned ⊢
  cases cpu : Target.cpu with
  | ppc32 => simp only [wordSize_ppc32 cpu] at size ⊢; omega
  | ppc64 => simp only [wordSize_ppc64 cpu] at size ⊢; omega

-- A register the frame saves, the code that saves it and the code that reloads
-- it. The special registers and the condition register go through r0.
inductive Saved where
  | gpr (r : Register) | fpr (f : FloatRegister) | ctr | cr
  deriving DecidableEq, Repr

namespace Saved
def words : Saved → Nat
  | fpr _ => words_per_fpr
  | _ => 1
def save (at_ : Address) : Saved → List Instr
  | gpr r => [.store r at_]
  | fpr f => [.stfd f at_]
  | ctr => [.mfctr r0,.store r0 at_]
  | cr => [.mfcr r0,.store r0 at_]
def reload (at_ : Address) : Saved → List Instr
  | gpr r => [.load r at_]
  | fpr f => [.lfd f at_]
  | ctr => [.load r0 at_,.mtctr r0]
  | cr => [.load r0 at_,.mtcr r0]
end Saved

-- The loops of the prolog and the epilog: one slot after the other.
def saves : List Saved → Nat → List Instr
  | [],_ => []
  | s :: rest,offset => s.save (slot offset) ++ saves rest (offset + s.words)
def reloads : List Saved → Nat → List Instr
  | [],_ => []
  | s :: rest,offset => s.reload (slot offset) ++ reloads rest (offset + s.words)

def volatiles (f : StackFrame) : List Saved :=
  if f.save_volatiles then
    (List.range' 3 10).map .gpr ++ [.ctr] ++ (List.range num_vfprs).map .fpr
  else []
def nonvolatiles (f : StackFrame) : List Saved :=
  (match Target.cpu with | .ppc32 => if f.crfs = 0 then [] else [.cr] | .ppc64 => []) ++
    (List.range' (32 - f.gprs) f.gprs).map .gpr ++ (List.range' (32 - f.fprs) f.fprs).map .fpr
-- On the large processor the condition register goes to the link area.
def link_crs (f : StackFrame) : List Saved :=
  match Target.cpu with | .ppc32 => [] | .ppc64 => if f.crfs = 0 then [] else [.cr]

def words (plan : List Saved) : Nat := (plan.map Saved.words).sum

def r0_save (f : StackFrame) : Address := slot f.first_slot

-- Save the link register and create the new frame.
def push (f : StackFrame) : List Instr :=
  if f.save_volatiles then
    [.store_update r1 ⟨r1,int16 (-f.frame_size)⟩,
     .store r0 f.r0_save,
     .mflr r0,
     .store r0 ⟨r1,int16 (f.frame_size + lr_save_offset * wordSize)⟩]
  else
    [.mflr r0,
     .store r0 ⟨r1,int16 (lr_save_offset * wordSize)⟩,
     .store_update r1 ⟨r1,int16 (-f.frame_size)⟩]

-- Remove the frame and restore the link register.
def pop (f : StackFrame) : List Instr :=
  if f.save_volatiles then
    [.load r0 ⟨r1,int16 (f.frame_size + lr_save_offset * wordSize)⟩,
     .mtlr r0,
     .load r0 f.r0_save,
     .addi r1 r1 f.frame_size]
  else
    [.addi r1 r1 f.frame_size,
     .load r0 ⟨r1,int16 (lr_save_offset * wordSize)⟩,
     .mtlr r0]

-- The word at `first_slot` is r0's; stepping over it is unconditional.
def prolog (f : StackFrame) : List Instr :=
  let offset := f.first_slot + 1
  f.push ++
    saves f.volatiles offset ++
    f.link_crs.flatMap (Saved.save (slot cr_save_offset)) ++
    saves f.nonvolatiles (offset + words f.volatiles) ++
    if f.save_volatiles then [.load r0 f.r0_save] else []

def epilog (f : StackFrame) : List Instr :=
  let offset := f.first_slot + 1
  reloads f.volatiles offset ++
    f.link_crs.flatMap (Saved.reload (slot cr_save_offset)) ++
    reloads f.nonvolatiles (offset + words f.volatiles) ++
    f.pop

def generate_prolog (f : StackFrame) : Option (List Instr × StackFrame) :=
  if f.state = .done_nothing then some (f.pad.prolog,{f.pad with state := .done_prolog}) else none

def generate_epilog (f : StackFrame) : Option (List Instr × StackFrame) :=
  if f.state ≠ .done_nothing then some (f.epilog,{f with state := .done_epilog}) else none

-- The prolog's padding loop only adds locals, and ends on an aligned size.
theorem pad_spec (f : StackFrame) : ∃ extra,
    f.pad = {f with locals := f.locals+extra,frame_size := f.pad.unaligned_size} ∧
      f.pad.frame_size % StackAlignmentInBytes = 0 := by
  fun_induction pad f with
  | case1 f aligned => exact ⟨0,rfl,aligned⟩
  | case2 f unaligned ih =>
    obtain ⟨extra,grown,aligned⟩ := ih
    refine ⟨extra+1,?_,aligned⟩
    rw [Nat.add_comm extra 1,← Nat.add_assoc]
    exact grown

theorem pad_fields (f : StackFrame) : f.pad.params = f.params ∧ f.locals ≤ f.pad.locals ∧ f.pad.crfs = f.crfs ∧
    f.pad.gprs = f.gprs ∧ f.pad.fprs = f.fprs ∧ f.pad.save_volatiles = f.save_volatiles := by
  obtain ⟨extra,padded,_⟩ := pad_spec f
  rw [padded]
  exact ⟨rfl,Nat.le_add_right _ _,rfl,rfl,rfl,rfl⟩

theorem pad_size (f : StackFrame) : f.pad.frame_size = f.pad.unaligned_size := by
  obtain ⟨extra,padded,_⟩ := pad_spec f
  exact congrArg StackFrame.frame_size padded

-- The least aligned size that holds the words asked for.
theorem pad_exact (f : StackFrame) :
    f.pad.frame_size = f.unaligned_size + (-f.unaligned_size) % StackAlignmentInBytes := by
  fun_induction pad f with
  | case1 f aligned => simp only [StackAlignmentInBytes] at aligned ⊢; omega
  | case2 f unaligned ih =>
    have grown : unaligned_size {f with locals := f.locals+1} = f.unaligned_size + wordSize := by
      simp only [unaligned_size,unaligned_words]; push_cast; ring
    have size : f.unaligned_size = f.unaligned_words * wordSize := rfl
    rw [ih,grown]
    simp only [StackAlignmentInBytes] at unaligned ⊢
    cases cpu : Target.cpu with
    | ppc32 => rw [wordSize_ppc32 cpu] at size ⊢; omega
    | ppc64 => rw [wordSize_ppc64 cpu] at size ⊢; omega

theorem pad_aligned (f : StackFrame) : f.pad.frame_size % StackAlignmentInBytes = 0 := by
  obtain ⟨_,_,aligned⟩ := pad_spec f
  exact aligned

@[simp] theorem words_nil : words [] = 0 := rfl
@[simp] theorem words_cons (s : Saved) (rest : List Saved) : words (s :: rest) = s.words + words rest := by
  simp [words]
@[simp] theorem words_append (one two : List Saved) : words (one ++ two) = words one + words two := by
  simp [words]

theorem words_gprs (l : List Register) : words (l.map .gpr) = l.length := by
  induction l with
  | nil => rfl
  | cons r rest ih => simp only [List.map_cons,words_cons,ih,List.length_cons,Saved.words]; omega

theorem words_fprs (l : List FloatRegister) : words (l.map .fpr) = l.length * words_per_fpr := by
  induction l with
  | nil => simp
  | cons r rest ih => simp only [List.map_cons,words_cons,ih,List.length_cons,Saved.words]; ring

-- The size counts one word for r0 only when the volatile registers are saved,
-- although the prolog always steps over that word.
theorem unaligned_words_eq (f : StackFrame) : f.unaligned_words =
    f.first_slot + (if f.save_volatiles then 1 + words f.volatiles else 0) + words f.nonvolatiles := by
  simp only [unaligned_words,first_slot,start_of_locals_words,volatiles,nonvolatiles,words_append,
    words_gprs,words_fprs,List.length_range']
  cases Target.cpu <;> cases f.save_volatiles <;> by_cases none : f.crfs = 0 <;>
    simp [none,words_gprs,words_fprs,Saved.words,num_vgprs,num_vsprs,num_vfprs] <;> omega

omit [Target] in
theorem volatiles_off (f : StackFrame) (off : f.save_volatiles = false) : f.volatiles = [] := by
  simp [volatiles,off]

theorem saved_words_pos (s : Saved) : 0 < s.words := by
  cases s with
  | fpr f => simp only [Saved.words,words_per_fpr]; cases Target.cpu <;> decide
  | _ => exact Nat.one_pos

-- What every save leaves alone.
theorem save_gpr (s : Saved) (at_ : Address) (m : Machine) (r : Register) (other : r ≠ r0) :
    (exec (s.save at_) m).gpr r = m.gpr r := by
  cases s <;> simp [Saved.save,step,other,Machine.write64]

theorem saves_gpr (plan : List Saved) (offset : Nat) (m : Machine) (r : Register) (other : r ≠ r0) :
    (exec (saves plan offset) m).gpr r = m.gpr r := by
  induction plan generalizing offset m with
  | nil => rfl
  | cons s rest ih => simp only [saves,exec_append,ih,save_gpr _ _ _ _ other]

end StackFrame
end IcedTea

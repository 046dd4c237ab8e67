import IcedTea.SlowSignatureHandler
import IcedTea.CallersStack

namespace IcedTea.InterpreterRuntime
open StackFrame (link_area_words)
open CppInterpreter (LogBytesPerWord shift_words size_of_parameters size_of_parameters_addr)
open Vm

section
variable [Target]

-- A walk with `i` register images and `s` words of the stack behind it.
structure Pointers (images to_ : Int) (i s : Nat) (h : SlowSignatureHandler) : Prop where
  gp_regs : h.gp_regs = images + i*wordSize
  st_args : h.st_args = to_ + s*wordSize
  gp_reg_max : h.gp_reg_max = images + 6*wordSize
  images : ∀ w ∈ h.images, images ≤ w.1 ∧ w.1 + w.2 ≤ images + gp_image_bytes
  stacked : ∀ w ∈ h.stacked, to_ ≤ w.1 ∧ w.1 + w.2 ≤ h.st_args

theorem gp_image_bytes_eq : gp_image_bytes = 7*wordSize := by
  unfold gp_image_bytes gp_reg_max gp_reg_start
  norm_num

theorem register_images_shift (size to_ : Int) : register_images size to_ = to_ + register_images size 0 := by
  unfold register_images
  cases Target.cpu <;> simp

namespace Pointers
variable {images to_ : Int} {i s : Nat} {h : SlowSignatureHandler}

theorem room (pointers : Pointers images to_ i s h) : h.gp_regs ≤ h.gp_reg_max ↔ i ≤ 6 := by
  rw [pointers.gp_regs,pointers.gp_reg_max,Int.add_le_add_iff_left]
  constructor
  · intro less
    have small := Int.le_of_mul_le_mul_right less wordSize_pos
    omega
  · exact fun small => Int.mul_le_mul_of_nonneg_right (by omega) (Int.le_of_lt wordSize_pos)

theorem room_for_two (pointers : Pointers images to_ i s h) : h.gp_regs < h.gp_reg_max ↔ i < 6 := by
  rw [pointers.gp_regs,pointers.gp_reg_max,Int.add_lt_add_iff_left]
  constructor
  · intro less
    have small := Int.lt_of_mul_lt_mul_right less (Int.le_of_lt wordSize_pos)
    omega
  · exact fun small => Int.mul_lt_mul_of_pos_right (by omega) wordSize_pos

theorem put_gp (pointers : Pointers images to_ i s h) (few : i ≤ 6) (small : bytes ≤ wordSize) (mem : Cells) :
    Pointers images to_ (i+1) s (h.put_gp bytes mem) := by
  have pos := wordSize_pos
  have up := Int.mul_le_mul_of_nonneg_right (show (i : Int) ≤ 6 by omega) (Int.le_of_lt pos)
  have low := Int.mul_nonneg (Int.natCast_nonneg i) (Int.le_of_lt pos)
  have size := gp_image_bytes_eq
  have gp := pointers.gp_regs
  refine ⟨?_,pointers.st_args,pointers.gp_reg_max,?_,pointers.stacked⟩
  · change h.gp_regs + wordSize = _
    rw [gp]
    push_cast
    ring
  · intro w member
    rcases List.mem_append.mp member with before|here
    · exact pointers.images w before
    · rw [List.mem_singleton.mp here]
      dsimp only
      omega

theorem put_st (pointers : Pointers images to_ i s h) (small : bytes ≤ wordSize) (mem : Cells) :
    Pointers images to_ i (s+1) (h.put_st bytes mem) := by
  have pos := wordSize_pos
  have low := Int.mul_nonneg (Int.natCast_nonneg s) (Int.le_of_lt pos)
  have st := pointers.st_args
  refine ⟨pointers.gp_regs,?_,pointers.gp_reg_max,pointers.images,?_⟩
  · change h.st_args + wordSize = _
    rw [st]
    push_cast
    ring
  · intro w member
    change to_ ≤ w.1 ∧ w.1 + w.2 ≤ h.st_args + wordSize
    rcases List.mem_append.mp member with before|here
    · have inside := pointers.stacked w before
      omega
    · rw [List.mem_singleton.mp here]
      dsimp only
      omega

theorem skip (pointers : Pointers images to_ i s h) : Pointers images to_ (i+1) s {h with gp_regs := h.gp_regs + wordSize} := by
  refine ⟨?_,pointers.st_args,pointers.gp_reg_max,pointers.images,pointers.stacked⟩
  change h.gp_regs + wordSize = _
  rw [pointers.gp_regs]
  push_cast
  ring

theorem shadow_ppc32 (cpu : Target.cpu = .ppc32) (pointers : Pointers images to_ i s h) : Pointers images to_ i s h.shadow := by
  unfold SlowSignatureHandler.shadow
  rw [cpu]
  exact pointers

theorem shadow_ppc64 (cpu : Target.cpu = .ppc64) (pointers : Pointers images to_ i s h) : Pointers images to_ i (s+1) h.shadow := by
  have pos := wordSize_pos
  unfold SlowSignatureHandler.shadow
  rw [cpu]
  refine ⟨pointers.gp_regs,?_,pointers.gp_reg_max,pointers.images,fun w member => ?_⟩
  · change h.st_args + wordSize = _
    rw [pointers.st_args]
    push_cast
    ring
  · have inside := pointers.stacked w member
    change to_ ≤ w.1 ∧ w.1 + w.2 ≤ h.st_args + wordSize
    omega

theorem below (pointers : Pointers images to_ i s h) (few : i ≤ 6) : h.gp_regs + wordSize ≤ images + gp_image_bytes := by
  have up := Int.mul_le_mul_of_nonneg_right (show (i : Int) ≤ 6 by omega) (Int.le_of_lt wordSize_pos)
  have size := gp_image_bytes_eq
  have gp := pointers.gp_regs
  omega

-- How many register images are left, less one.
theorem left (pointers : Pointers images to_ i s h) : (h.gp_reg_max - h.gp_regs) / wordSize = 6 - i := by
  have difference : h.gp_reg_max - h.gp_regs = (6 - (i : Int))*wordSize := by
    rw [pointers.gp_regs,pointers.gp_reg_max]
    ring
  rw [difference,Int.mul_ediv_cancel _ (Int.ne_of_gt wordSize_pos)]

end Pointers

-- How many register images and how many words of the stack a walk has passed.
structure Spot where
  images : Nat
  stack : Nat
  deriving DecidableEq, Repr

namespace Spot

def start (is_static : Bool) : Spot :=
  ⟨if is_static then 1 else 0,match Target.cpu with | .ppc32 => 0 | .ppc64 => if is_static then 2 else 1⟩

-- A pair begins at an odd register; the first image is of an even one.
def pair (p : Spot) : Nat := if p.images % 2 = 0 then p.images+1 else p.images

def next (p : Spot) (t : NativeType) : Spot :=
  match Target.cpu with
  | .ppc32 =>
    if t = .long then if p.images < 6 then {p with images := p.pair+2} else {p with stack := p.stack+2}
    else if p.images ≤ 6 then {p with images := p.images+1} else {p with stack := p.stack+1}
  | .ppc64 => if p.images ≤ 6 then ⟨p.images+1,p.stack+1⟩ else {p with stack := p.stack+1}

end Spot

def SlowSignatureHandler.At (images to_ : Int) (p : Spot) (h : SlowSignatureHandler) : Prop :=
  Pointers images to_ p.images p.stack h

theorem at_start (size : Int) (is_static : Bool) (from_ to_ : Int) (mem : Cells) :
    (SlowSignatureHandler.start size is_static from_ to_ mem).At (register_images size to_) to_ (.start is_static) := by
  refine ⟨?_,?_,?_,fun w member => absurd member List.not_mem_nil,fun w member => absurd member List.not_mem_nil⟩
  · cases is_static <;> simp [SlowSignatureHandler.start,Spot.start]
  · cases cpu : Target.cpu <;> cases is_static <;> simp [SlowSignatureHandler.start,Spot.start,cpu]
  · rfl

-- An argument that takes one image or one word of the stack.
theorem at_single {h : SlowSignatureHandler} (at_ : h.At images to_ p) (single : Target.cpu = .ppc64 ∨ t ≠ .long)
    (small : bytes ≤ wordSize) (mem mem' : Cells) :
    (if h.gp_regs ≤ h.gp_reg_max then (h.put_gp bytes mem).shadow else h.put_st bytes mem').At images to_ (p.next t) := by
  by_cases room : h.gp_regs ≤ h.gp_reg_max
  · rw [if_pos room]
    have few := at_.room.mp room
    have put := at_.put_gp few small mem
    cases cpu : Target.cpu with
    | ppc32 =>
      have next : p.next t = {p with images := p.images+1} := by
        simp only [Spot.next,cpu,if_neg (single.resolve_left (by rw [cpu]; decide)),if_pos few]
      rw [next]
      exact put.shadow_ppc32 cpu
    | ppc64 =>
      have next : p.next t = ⟨p.images+1,p.stack+1⟩ := by simp only [Spot.next,cpu,if_pos few]
      rw [next]
      exact put.shadow_ppc64 cpu
  · rw [if_neg room]
    have many := at_.room.not.mp room
    have next : p.next t = {p with stack := p.stack+1} := by
      cases cpu : Target.cpu with
      | ppc32 => simp only [Spot.next,cpu,if_neg (single.resolve_left (by rw [cpu]; decide)),if_neg many]
      | ppc64 => simp only [Spot.next,cpu,if_neg many]
    rw [next]
    exact at_.put_st small mem'

theorem at_long {h : SlowSignatureHandler} (at_ : h.At images to_ p) (n : Nat) : (h.pass_long n).At images to_ (p.next .long) := by
  unfold SlowSignatureHandler.pass_long
  cases cpu : Target.cpu with
  | ppc64 => exact at_single at_ (.inl cpu) (Int.le_refl _) _ _
  | ppc32 =>
    dsimp only
    by_cases room : h.gp_regs < h.gp_reg_max
    · have few := at_.room_for_two.mp room
      have next : p.next .long = {p with images := p.pair+2} := by simp only [Spot.next,cpu,if_true,if_pos few]
      rw [if_pos room,next,at_.left]
      unfold Spot.pair
      by_cases even : p.images % 2 = 0
      · have skip : (6 - (p.images : Int)) % 2 = 0 := by omega
        rw [if_pos even,if_pos skip]
        exact .put_gp (.put_gp at_.skip (by omega) (Int.le_refl _) _) (by omega) (Int.le_refl _) _
      · have straight : ¬ (6 - (p.images : Int)) % 2 = 0 := by omega
        rw [if_neg even,if_neg straight]
        exact .put_gp (.put_gp at_ (by omega) (Int.le_refl _) _) (by omega) (Int.le_refl _) _
    · have many := at_.room_for_two.not.mp room
      have next : p.next .long = {p with stack := p.stack+2} := by simp only [Spot.next,cpu,if_true,if_neg many]
      rw [if_neg room,next]
      exact .put_st (.put_st at_ (Int.le_refl _) _) (Int.le_refl _) _

theorem at_pass {h : SlowSignatureHandler} (at_ : h.At images to_ p) (n : Nat) (t : NativeType) (passed : h.pass n t = some h') :
    h'.At images to_ (p.next t) := by
  have small : 4 ≤ wordSize := by unfold wordSize Cells.width; split <;> decide
  cases t with
  | int =>
    cases passed
    exact at_single at_ (.inr (by decide)) small _ _
  | long =>
    cases passed
    exact at_long at_ n
  | object =>
    cases passed
    exact at_single at_ (.inr (by decide)) (Int.le_refl _) _ _
  | float => cases passed
  | double => cases passed

-- How the two counts go with the `o` parameter words passed. On the small
-- processor `r` words are in registers; a long skips one at most, so something is
-- spilled only after three words.
def Counted (i s o : Nat) : Prop :=
  i ≤ 7 ∧ match Target.cpu with
    | .ppc32 => ∃ r, o = r + s ∧ 2*i ≤ 2 + 3*r ∧ (s = 0 ∨ 3 ≤ r)
    | .ppc64 => s ≤ o + 2

theorem counted_ppc32 (cpu : Target.cpu = .ppc32) (i s o : Nat) :
    Counted i s o ↔ i ≤ 7 ∧ ∃ r, o = r + s ∧ 2*i ≤ 2 + 3*r ∧ (s = 0 ∨ 3 ≤ r) := by
  unfold Counted
  rw [cpu]

theorem counted_ppc64 (cpu : Target.cpu = .ppc64) (i s o : Nat) : Counted i s o ↔ i ≤ 7 ∧ s ≤ o + 2 := by
  unfold Counted
  rw [cpu]

theorem counted_next {p : Spot} (counted : Counted p.images p.stack o) (plain : t.floating = false) :
    Counted (p.next t).images (p.next t).stack (o + t.words) := by
  cases cpu : Target.cpu with
  | ppc64 =>
    have counts := (counted_ppc64 cpu _ _ _).mp counted
    have words : 0 < t.words := by cases t <;> decide
    rw [counted_ppc64 cpu]
    simp only [Spot.next,cpu]
    split <;> exact ⟨by dsimp only; omega,by dsimp only; omega⟩
  | ppc32 =>
    obtain ⟨most,r,counts⟩ := (counted_ppc32 cpu _ _ _).mp counted
    rw [counted_ppc32 cpu]
    by_cases long : t = .long
    · have words : t.words = 2 := by rw [long]; rfl
      simp only [Spot.next,cpu,if_pos long]
      by_cases few : p.images < 6
      · have pair : p.pair ≤ p.images + 1 ∧ p.pair ≤ 5 := by
          unfold Spot.pair
          split <;> omega
        rw [if_pos few]
        exact ⟨by dsimp only; omega,r+2,by dsimp only; omega⟩
      · rw [if_neg few]
        exact ⟨most,r,by dsimp only; omega⟩
    · have words : t.words = 1 := by
        cases t <;> first | rfl | exact absurd rfl long | cases plain
      simp only [Spot.next,cpu,if_neg long]
      by_cases few : p.images ≤ 6
      · rw [if_pos few]
        exact ⟨by dsimp only; omega,r+1,by dsimp only; omega⟩
      · rw [if_neg few]
        exact ⟨most,r,by dsimp only; omega⟩

-- The words of the stack end where the register images begin.
theorem stack_below_images (counted : Counted i s words) (large : Target.cpu = .ppc64 ∨ 3 ≤ words) :
    (s : Int)*wordSize ≤ register_images words 0 := by
  have pos := wordSize_pos
  cases cpu : Target.cpu with
  | ppc32 =>
    obtain ⟨-,r,counts⟩ := (counted_ppc32 cpu _ _ _).mp counted
    have enough : 3 ≤ words := large.resolve_left (by rw [cpu]; decide)
    simp only [register_images,cpu,Int.zero_add]
    exact Int.mul_le_mul_of_nonneg_right (by omega) (Int.le_of_lt pos)
  | ppc64 =>
    have counts := (counted_ppc64 cpu _ _ _).mp counted
    simp only [register_images,cpu,Int.zero_add]
    exact Int.mul_le_mul_of_nonneg_right (by omega) (Int.le_of_lt pos)

-- No float or double among the parameters.
def General (params : List NativeType) : Prop := ∀ t ∈ params, t.floating = false
instance (params : List NativeType) : Decidable (General params) := inferInstanceAs (Decidable (∀ _ ∈ _, _))

omit [Target] in
theorem General.parameters (general : General signature) (is_static : Bool) : General (parameters is_static signature) := by
  unfold InterpreterRuntime.parameters
  cases is_static with
  | true => exact general
  | false => exact fun t member => (List.mem_cons.mp member).elim (fun receiver => by rw [receiver]; rfl) (general t)

theorem at_iterate {h h' : SlowSignatureHandler} (at_ : h.At images to_ p) (n : Nat) (params : List NativeType)
    (run : h.iterate n params = some h') : h'.At images to_ (params.foldl Spot.next p) := by
  induction params generalizing h p n with
  | nil =>
    cases run
    exact at_
  | cons t rest ih =>
    obtain ⟨h₁,passed,run⟩ := Option.bind_eq_some_iff.mp run
    exact ih (at_pass at_ n t passed) _ run

theorem counted_start (is_static : Bool) : Counted (Spot.start is_static).images (Spot.start is_static).stack 0 := by
  cases cpu : Target.cpu with
  | ppc32 =>
    rw [counted_ppc32 cpu]
    cases is_static <;> simp [Spot.start,cpu]
  | ppc64 =>
    rw [counted_ppc64 cpu]
    cases is_static <;> simp [Spot.start,cpu]

theorem counted_iterate {p : Spot} (counted : Counted p.images p.stack o) (params : List NativeType) (general : General params) :
    Counted (params.foldl Spot.next p).images (params.foldl Spot.next p).stack (o + parameterWords params) := by
  induction params generalizing p o with
  | nil => exact counted
  | cons t rest ih =>
    have later := ih (counted_next counted (general t List.mem_cons_self)) fun u member => general u (List.mem_cons_of_mem t member)
    rw [Nat.add_assoc] at later
    exact later

theorem iterate_total (h : SlowSignatureHandler) (offset : Nat) (params : List NativeType) (general : General params) :
    ∃ h', h.iterate offset params = some h' := by
  induction params generalizing h offset with
  | nil => exact ⟨h,rfl⟩
  | cons t rest ih =>
    have plain := general t List.mem_cons_self
    have later : General rest := fun u member => general u (List.mem_cons_of_mem t member)
    cases t with
    | int => exact ih _ _ later
    | long => exact ih _ _ later
    | object => exact ih _ _ later
    | float => cases plain
    | double => cases plain

-- Memory changes only where a store is listed.
def Kept (mem : Cells) (h : SlowSignatureHandler) : Prop :=
  ∀ b, (∀ w ∈ h.images ++ h.stacked, b < w.1 ∨ w.1 + w.2 ≤ b) → h.mem b = mem b

namespace Kept
variable {mem mem' : Cells} {h : SlowSignatureHandler}

theorem put_gp (kept : Kept mem h) (outside : ∀ b, b < h.gp_regs ∨ h.gp_regs + bytes ≤ b → mem' b = h.mem b) :
    Kept mem (h.put_gp bytes mem') := by
  intro b apart
  have here := apart (h.gp_regs,bytes) (by simp [SlowSignatureHandler.put_gp])
  refine (outside b here).trans (kept b fun w member => apart w ?_)
  rcases List.mem_append.mp member with image|stack
  · exact List.mem_append_left _ (List.mem_append_left _ image)
  · exact List.mem_append_right _ stack

theorem put_st (kept : Kept mem h) (outside : ∀ b, b < h.st_args ∨ h.st_args + bytes ≤ b → mem' b = h.mem b) :
    Kept mem (h.put_st bytes mem') := by
  intro b apart
  have here := apart (h.st_args,bytes) (by simp [SlowSignatureHandler.put_st])
  refine (outside b here).trans (kept b fun w member => apart w ?_)
  rcases List.mem_append.mp member with image|stack
  · exact List.mem_append_left _ image
  · exact List.mem_append_right _ (List.mem_append_left _ stack)

theorem put_gp_word (kept : Kept mem h) (v : Int) : Kept mem (h.put_gp_word v) :=
  kept.put_gp fun _ outside => Cells.putWord_outside _ _ outside

theorem put_st_word (kept : Kept mem h) (v : Int) : Kept mem (h.put_st_word v) :=
  kept.put_st fun _ outside => Cells.putWord_outside _ _ outside

omit [Target] in
theorem skip (kept : Kept mem h) (gp_regs : Int) : Kept mem {h with gp_regs := gp_regs} := kept

theorem shadow (kept : Kept mem h) : Kept mem h.shadow := by
  unfold SlowSignatureHandler.shadow
  cases Target.cpu <;> exact kept

theorem pass (kept : Kept mem h) (offset : Nat) (t : NativeType) (passed : h.pass offset t = some h') : Kept mem h' := by
  have cell : ∀ a v b, b < a ∨ a + 4 ≤ b → h.mem.put a v b = h.mem b := fun a v b outside =>
    Cells.put_other _ _ (by omega)
  cases t with
  | int =>
    cases passed
    unfold SlowSignatureHandler.pass_int
    split
    · exact (kept.put_gp (cell _ _)).shadow
    · exact kept.put_st (cell _ _)
  | long =>
    cases passed
    unfold SlowSignatureHandler.pass_long
    cases Target.cpu with
    | ppc32 =>
      dsimp only
      split
      · split
        · exact ((kept.skip _).put_gp_word _).put_gp_word _
        · exact (kept.put_gp_word _).put_gp_word _
      · exact (kept.put_st_word _).put_st_word _
    | ppc64 =>
      dsimp only
      split
      · exact (kept.put_gp_word _).shadow
      · exact kept.put_st_word _
  | object =>
    cases passed
    unfold SlowSignatureHandler.pass_object
    dsimp only
    split
    · exact (kept.put_gp_word _).shadow
    · exact kept.put_st_word _
  | float => cases passed
  | double => cases passed

theorem iterate (kept : Kept mem h) (offset : Nat) (params : List NativeType) (run : h.iterate offset params = some h') :
    Kept mem h' := by
  induction params generalizing h offset with
  | nil =>
    cases run
    exact kept
  | cons t rest ih =>
    obtain ⟨h₁,passed,run⟩ := Option.bind_eq_some_iff.mp run
    exact ih (kept.pass offset t passed) _ run

end Kept
end

section
variable [Vm]

-- What generate_slow_signature_handler asks maybe_extend_frame for.
def required (m : Machine) : Int := (exec parameter_list_space m).gpr r11

-- The stored words and the register images are inside what was asked for, above
-- the link area and apart, and the generated code finds the images where they were stored.
structure Laid (m m₁ : Machine) (h : SlowSignatureHandler) : Prop where
  to_ : m₁.gpr r6 = m₁.gpr r1 + link_area_words*wordSize
  room : m₁.gpr r6 + required m ≤ m.read (m.ea (STATE .stack_limit)) + wordSize
  block : Range.Within (m₁.gpr r6) (m₁.gpr r6 + required m) (register_images (size_of_parameters m) (m₁.gpr r6),image_bytes)
  images : ∀ w ∈ h.images, Range.Within (register_images (size_of_parameters m) (m₁.gpr r6))
    (register_images (size_of_parameters m) (m₁.gpr r6) + gp_image_bytes) w
  stacked : ∀ w ∈ h.stacked, Range.Within (m₁.gpr r6) (m₁.gpr r6 + required m) w
  apart : ∀ w ∈ h.stacked, w.Disjoint (register_images (size_of_parameters m) (m₁.gpr r6),image_bytes)
  mem : Cells.SameOutside (m₁.gpr r6) (m₁.gpr r6 + required m) m₁.mem h.mem
  reloaded : ∀ m₂ : Machine, m₂.gpr r1 = m₁.gpr r1 → m₂.gpr r14 = m₁.gpr r14 →
    let block := register_images (size_of_parameters m) (m₁.gpr r6)
    let m₃ := exec (find_register_images ++ load_register_images) m₂
    (∀ i, gp_reg_start + i ≤ gp_reg_max → m₃.gpr (gp_reg_start + i) = m₂.read (block + i*wordSize)) ∧
    (∀ i, fp_reg_start + i ≤ fp_reg_max → m₃.fpr (fp_reg_start + i) = m₂.read64 (block + gp_image_bytes + i*8))

theorem parameter_list_space_spec (m : Machine) : let m' := exec parameter_list_space m
    let size := size_of_parameters m
    m'.gpr r11 = register_images size 0 + image_bytes ∧ m'.gpr r14 = register_images size 0 ∧ m'.mem = m.mem ∧
      m'.gpr r1 = m.gpr r1 ∧ m'.gpr Rstate = m.gpr Rstate := by
  have address : m.ea ⟨Rmethod,size_of_parameters_offset⟩ = m.ea size_of_parameters_addr := rfl
  cases cpu : Target.cpu with
  | ppc32 =>
    refine ⟨?_,?_,?_,?_,?_⟩ <;>
      simp [parameter_list_space,words_of_parameters,register_images,cpu,step,shift_words,address,size_of_parameters]
    all_goals exact .inl (by ring)
  | ppc64 =>
    refine ⟨?_,?_,?_,?_,?_⟩ <;>
      simp [parameter_list_space,words_of_parameters,register_images,cpu,step,shift_words,address,size_of_parameters]

theorem extend_for_call_spec (m : Machine) : let m₁ := extend_for_call m
    m₁.gpr r6 = m₁.gpr r1 + link_area_words*wordSize ∧
      m₁.gpr r14 = register_images (size_of_parameters m) 0 ∧
      m₁.gpr r6 + required m ≤ m.read (m.ea (STATE .stack_limit)) + wordSize ∧
      m₁.gpr Rlocals = m.gpr Rlocals ∧ ∀ b, m₁.gpr r6 ≤ b → m₁.mem b = m.mem b := by
  obtain ⟨_,block,mem,top,state⟩ := parameter_list_space_spec m
  have locals : (exec parameter_list_space m).gpr Rlocals = m.gpr Rlocals := by
    cases cpu : Target.cpu <;> simp [parameter_list_space,words_of_parameters,cpu,step]
  unfold extend_for_call required
  generalize exec parameter_list_space m = m₁ at block mem top state locals
  obtain ⟨extra,extended⟩ := maybe_extend_frame_spec (available m₁) r11 r12 (by decide) (by decide) (by decide)
  have asked : (available m₁).gpr r11 = m₁.gpr r11 := by simp [available,step]
  have free : (available m₁).gpr r12 = m₁.read (m₁.ea (STATE .stack_limit)) + (1 - (link_area_words : Int))*wordSize - m₁.gpr r1 := by
    simp [available,step,STATE,Machine.read]
  have start : (available m₁).gpr r1 = m₁.gpr r1 := by simp [available,step]
  have saved : (available m₁).gpr r14 = m₁.gpr r14 := by simp [available,step]
  have locals' : (available m₁).gpr Rlocals = m₁.gpr Rlocals := by simp [available,step]
  have cells : (available m₁).mem = m₁.mem := rfl
  have limit : m₁.read (m₁.ea (STATE .stack_limit)) = m.read (m.ea (STATE .stack_limit)) := by
    simp only [Machine.read,Machine.ea,mem,STATE,state]
  generalize available m₁ = m₂ at extended asked free start saved locals' cells
  have kept := extended.gpr r14 (by decide) (by decide) (by decide)
  have kept' := extended.gpr Rlocals (by decide) (by decide) (by decide)
  have outside := extended.mem
  have room := extended.room
  have stack := extended.stack
  generalize maybe_extend_frame r11 r12 m₂ = m₃ at extended kept kept' outside stack
  have above : (exec [.la r6 ⟨r1,(link_area_words : Int)*wordSize⟩] m₃).gpr r6 = m₃.gpr r1 + link_area_words*wordSize := by
    simp [step]
  have others : ∀ r, r ≠ r6 → (exec [.la r6 ⟨r1,(link_area_words : Int)*wordSize⟩] m₃).gpr r = m₃.gpr r := fun r other => by
    simp only [exec_cons,exec_nil,step,Machine.set_gpr,if_neg other]
  refine ⟨?_,?_,?_,?_,fun b high => ?_⟩
  · rw [above,others r1 (by decide)]
  · rw [others r14 (by decide),kept,saved,block]
  · rw [asked,free,limit,Int.sub_mul,Int.one_mul] at room
    rw [above]
    omega
  · rw [others Rlocals (by decide),kept',locals',locals]
  · have link := link_area_large
    rw [above] at high
    exact (outside b (.inr (by omega))).trans ((congrFun cells b).trans (congrFun mem b))

-- Registers loaded from consecutive places, with a base that is none of them.
omit [Vm] in
theorem load_gprs [Target] (base : Register) (regs : List Register) (place : Nat → Int) (m : Machine) (distinct : regs.Nodup)
    (apart : base ∉ regs) : let m' := exec (regs.mapIdx fun i r => .load r ⟨base,place i⟩) m
    (∀ i (inside : i < regs.length), m'.gpr regs[i] = m.read (m.gpr base + place i)) ∧ (∀ r, r ∉ regs → m'.gpr r = m.gpr r) ∧
      m'.mem = m.mem := by
  induction regs generalizing place m with
  | nil => exact ⟨fun i inside => absurd inside (Nat.not_lt_zero i),fun r _ => rfl,rfl⟩
  | cons r regs ih =>
    obtain ⟨fresh,distinct⟩ := List.nodup_cons.mp distinct
    obtain ⟨other,apart⟩ := not_or.mp (fun found => apart (List.mem_cons.mpr found))
    obtain ⟨loaded,kept,mem⟩ := ih (fun i => place (i+1)) (step m (.load r ⟨base,place 0⟩)) distinct apart
    rw [List.mapIdx_cons,exec_cons]
    have same : (step m (.load r ⟨base,place 0⟩)).gpr base = m.gpr base := by simp [step,other]
    refine ⟨fun i inside => ?_,fun s missing => ?_,mem⟩
    · cases i with
      | zero =>
        rw [List.getElem_cons_zero,kept r fresh]
        simp [step]
      | succ i =>
        rw [List.getElem_cons_succ,loaded i (Nat.lt_of_succ_lt_succ inside),same]
        rfl
    · obtain ⟨differs,missing⟩ := not_or.mp (fun found => missing (List.mem_cons.mpr found))
      rw [kept s missing]
      simp [step,differs]

omit [Vm] in
theorem load_fprs [Target] (base : Register) (regs : List FloatRegister) (place : Nat → Int) (m : Machine) (distinct : regs.Nodup) :
    let m' := exec (regs.mapIdx fun i f => .lfd f ⟨base,place i⟩) m
    (∀ i (inside : i < regs.length), m'.fpr regs[i] = m.read64 (m.gpr base + place i)) ∧ (∀ f, f ∉ regs → m'.fpr f = m.fpr f) ∧
      m'.gpr = m.gpr ∧ m'.mem = m.mem := by
  induction regs generalizing place m with
  | nil => exact ⟨fun i inside => absurd inside (Nat.not_lt_zero i),fun f _ => rfl,rfl,rfl⟩
  | cons f regs ih =>
    obtain ⟨fresh,distinct⟩ := List.nodup_cons.mp distinct
    obtain ⟨loaded,kept,gpr,mem⟩ := ih (fun i => place (i+1)) (step m (.lfd f ⟨base,place 0⟩)) distinct
    rw [List.mapIdx_cons,exec_cons]
    refine ⟨fun i inside => ?_,fun g missing => ?_,gpr,mem⟩
    · cases i with
      | zero =>
        rw [List.getElem_cons_zero,kept f fresh]
        simp [step,Machine.ea]
      | succ i =>
        rw [List.getElem_cons_succ,loaded i (Nat.lt_of_succ_lt_succ inside)]
        rfl
    · obtain ⟨differs,missing⟩ := not_or.mp (fun found => missing (List.mem_cons.mpr found))
      rw [kept g missing]
      simp [step,differs]

theorem load_register_images_spec (m : Machine) : let m' := exec load_register_images m
    (∀ i : Nat, gp_reg_start + i ≤ gp_reg_max → m'.gpr (gp_reg_start + i) = m.read (m.gpr r11 + i*wordSize)) ∧
    (∀ i : Nat, fp_reg_start + i ≤ fp_reg_max → m'.fpr (fp_reg_start + i) = m.read64 (m.gpr r11 + gp_image_bytes + i*8)) ∧
    m'.gpr r1 = m.gpr r1 ∧ m'.mem = m.mem := by
  unfold load_register_images
  rw [exec_append]
  obtain ⟨general,others,mem⟩ := load_gprs r11 (List.range' gp_reg_start (gp_reg_max + 1 - gp_reg_start)) (fun i => i*wordSize) m
    List.nodup_range' (by decide)
  generalize exec ((List.range' gp_reg_start (gp_reg_max + 1 - gp_reg_start)).mapIdx fun i r => .load r ⟨r11,i*wordSize⟩) m = m₁
    at general others mem ⊢
  obtain ⟨floating,_,gpr,cells⟩ := load_fprs r11 (List.range' fp_reg_start (fp_reg_max + 1 - fp_reg_start))
    (fun i => gp_image_bytes + i*8) m₁ List.nodup_range'
  have base := others r11 (by decide)
  refine ⟨fun i inside => ?_,fun i inside => ?_,(congrFun gpr r1).trans (others r1 (by decide)),cells.trans mem⟩
  · have found := general i (by rw [List.length_range']; omega)
    rw [List.getElem_range',Nat.one_mul] at found
    rw [gpr]
    exact found
  · have found := floating i (by rw [List.length_range']; omega)
    rw [List.getElem_range',Nat.one_mul,base,← Int.add_assoc] at found
    rw [found,Machine.read64,Machine.read64,mem]

theorem reload_spec (m₁ m₂ : Machine) (link : m₁.gpr r6 = m₁.gpr r1 + link_area_words*wordSize)
    (saved : m₁.gpr r14 = register_images size 0) (top : m₂.gpr r1 = m₁.gpr r1) (block : m₂.gpr r14 = m₁.gpr r14) :
    let images := register_images size (m₁.gpr r6)
    let m₃ := exec (find_register_images ++ load_register_images) m₂
    (∀ i : Nat, gp_reg_start + i ≤ gp_reg_max → m₃.gpr (gp_reg_start + i) = m₂.read (images + i*wordSize)) ∧
    (∀ i : Nat, fp_reg_start + i ≤ fp_reg_max → m₃.fpr (fp_reg_start + i) = m₂.read64 (images + gp_image_bytes + i*8)) ∧
    m₃.gpr r1 = m₂.gpr r1 ∧ m₃.mem = m₂.mem := by
  have found : (exec find_register_images m₂).gpr r11 = register_images size (m₁.gpr r6) := by
    have sum : (exec find_register_images m₂).gpr r11 = m₂.gpr r1 + link_area_words*wordSize + m₂.gpr r14 := by
      simp [find_register_images,step]
    rw [sum,top,block,saved,register_images_shift size (m₁.gpr r6),link]
  obtain ⟨general,floating,stack,mem⟩ := load_register_images_spec (exec find_register_images m₂)
  rw [found] at general floating
  dsimp only
  rw [exec_append]
  exact ⟨general,floating,stack.trans (by simp [find_register_images,step]),mem⟩

theorem Laid.enough {m m₁ : Machine} {h : SlowSignatureHandler} (laid : Laid m m₁ h)
    (sized : size_of_parameters m = (words : Nat)) : Target.cpu = .ppc64 ∨ 3 ≤ words := by
  cases cpu : Target.cpu with
  | ppc64 => exact .inl rfl
  | ppc32 =>
    refine .inr ?_
    by_contra few
    have start := laid.block.1
    have below : register_images (size_of_parameters m) 0 < 0 := by
      simp only [register_images,cpu,Int.zero_add]
      exact Int.mul_neg_of_neg_of_pos (by omega) wordSize_pos
    have shift := register_images_shift (size_of_parameters m) (m₁.gpr r6)
    dsimp only at start
    omega

-- On the small processor the size less three is negative for fewer words, and the
-- images begin below the reserved area.
theorem laid_iff (m : Machine) (is_static : Bool) (signature : List NativeType) (general : General signature)
    (sized : size_of_parameters m = parameterWords (parameters is_static signature)) :
    let m₁ := extend_for_call m
    ∃ h, slow_signature_handler (size_of_parameters m) is_static signature (m₁.gpr Rlocals) (m₁.gpr r6) m₁.mem = some h ∧
      (Laid m m₁ h ↔ Target.cpu = .ppc64 ∨ 3 ≤ parameterWords (parameters is_static signature)) := by
  obtain ⟨link,saved,room,-⟩ := extend_for_call_spec m
  have asked : required m = register_images (size_of_parameters m) 0 + image_bytes := (parameter_list_space_spec m).1
  dsimp only
  generalize extend_for_call m = m₁ at link saved room
  have all := general.parameters is_static
  obtain ⟨h,run⟩ := iterate_total (.start (size_of_parameters m) is_static (m₁.gpr Rlocals) (m₁.gpr r6) m₁.mem) 0
    (parameters is_static signature) all
  refine ⟨h,run,?_⟩
  have counted := counted_iterate (counted_start is_static) _ all
  have pointers : h.At _ _ _ := at_iterate (at_start _ is_static _ _ _) 0 _ run
  generalize (parameters is_static signature).foldl Spot.next (.start is_static) = p at counted pointers
  have kept : Kept m₁.mem h := Kept.iterate (fun b _ => rfl) 0 _ run
  rw [Nat.zero_add] at counted
  have shift := register_images_shift (size_of_parameters m) (m₁.gpr r6)
  have pos := wordSize_pos
  have gp := gp_image_bytes_eq
  have fp : gp_image_bytes ≤ image_bytes := by
    unfold image_bytes
    omega
  constructor
  · exact fun laid => laid.enough sized
  · intro large
    have spilled := stack_below_images counted large
    rw [← sized] at spilled
    have low := Int.mul_nonneg (Int.natCast_nonneg p.stack) (Int.le_of_lt pos)
    have st := pointers.st_args
    refine ⟨link,room,⟨?_,?_⟩,fun w member => pointers.images w member,fun w member => ?_,fun w member => .inl ?_,fun b outside => ?_,?_⟩
    · dsimp only; omega
    · dsimp only; omega
    · have inside := pointers.stacked w member
      exact ⟨inside.1,by omega⟩
    · have inside := pointers.stacked w member
      dsimp only; omega
    · refine kept b fun w member => ?_
      rcases List.mem_append.mp member with image|stack
      · have inside := pointers.images w image
        omega
      · have inside := pointers.stacked w stack
        omega
    · intro m₂ top block
      obtain ⟨general,floating,-⟩ := reload_spec m₁ m₂ link saved top block
      exact ⟨general,floating⟩

-- An object and an int: the int's image is the back chain.
theorem back_chain_stored (cpu : Target.cpu = .ppc32) (from_ to_ : Int) (mem : Cells) :
    ∃ h, slow_signature_handler 2 false [.int] from_ to_ mem = some h ∧ (to_ - link_area_words*wordSize,4) ∈ h.images := by
  refine ⟨_,rfl,?_⟩
  have size := wordSize_ppc32 cpu
  simp [SlowSignatureHandler.start,SlowSignatureHandler.pass_int,SlowSignatureHandler.pass_object,SlowSignatureHandler.put_gp_word,
    SlowSignatureHandler.put_gp,SlowSignatureHandler.shadow,register_images,link_area_words,cpu,size,gp_reg_max,gp_reg_start]
  omega

end

-- A native method of `words` parameter words is at 0x1000, the stack ends at 0x4000.
def calling (words : Int) : Machine where
  gpr r := if r = r1 then 0x4000 else if r = Rmethod then 0x1000 else 0
  fpr _ := 0
  cr _ := 0
  lr := 0
  ctr := 0
  mem a := if a = 0x1000 then words else 0

theorem laid_two_ints : letI := Vm.plain ppc32
    let m₁ := extend_for_call (calling 3)
    ∃ h, slow_signature_handler (size_of_parameters (calling 3)) false [.int,.int] (m₁.gpr Rlocals) (m₁.gpr r6) m₁.mem = some h ∧
      (Laid (calling 3) m₁ h ↔ Target.cpu = .ppc64 ∨ 3 ≤ parameterWords (parameters false [.int,.int])) :=
  @laid_iff (Vm.plain ppc32) (calling 3) false [.int,.int] (by decide) (by decide)

theorem not_always_laid : ¬ ∀ (_ : Vm) (m : Machine) (is_static : Bool) (signature : List NativeType), General signature →
    size_of_parameters m = parameterWords (parameters is_static signature) →
    let m₁ := extend_for_call m
    ∃ h, slow_signature_handler (size_of_parameters m) is_static signature (m₁.gpr Rlocals) (m₁.gpr r6) m₁.mem = some h ∧
      Laid m m₁ h := by
  intro always
  let _ := Vm.plain ppc32
  have sized : size_of_parameters (calling 2) = (2 : Nat) := by decide
  obtain ⟨h,_,laid⟩ := always (Vm.plain ppc32) (calling 2) false [.int] (by decide) sized
  rcases laid.enough sized with wide_|many
  · cases wide_
  · omega

end IcedTea.InterpreterRuntime

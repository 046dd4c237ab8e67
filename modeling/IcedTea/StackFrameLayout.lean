import IcedTea.StackFrame
import Mathlib.Data.List.Perm.Basic
import Mathlib.Tactic.Linarith
import Mathlib.Tactic.ByContra

namespace IcedTea.StackFrame
open Range
variable [Target]

-- The calls a client makes before the prolog, and what they hand out.
inductive Request where
  | get_parameter | get_local_variable | get_cr_field | get_register | get_float_register
  | set_save_volatiles (value : Bool)
  deriving DecidableEq, Repr

structure Built where
  frame : StackFrame := {}
  words : List Address := []
  fields : List Nat := []
  registers : List Register := []
  floats : List FloatRegister := []
  deriving DecidableEq, Repr

def request (b : Built) : Request → Option Built
  | .get_parameter => b.frame.get_parameter.map fun (a,f) => {b with frame := f,words := b.words ++ [a]}
  | .get_local_variable => b.frame.get_local_variable.map fun (a,f) => {b with frame := f,words := b.words ++ [a]}
  | .get_cr_field => b.frame.get_cr_field.map fun (c,f) => {b with frame := f,fields := b.fields ++ [c]}
  | .get_register => b.frame.get_register.map fun (r,f) => {b with frame := f,registers := b.registers ++ [r]}
  | .get_float_register => b.frame.get_float_register.map fun (r,f) => {b with frame := f,floats := b.floats ++ [r]}
  | .set_save_volatiles value => (b.frame.set_save_volatiles value).map fun f => {b with frame := f}

def build (requests : List Request) : Option Built := requests.foldlM request {}

-- Handed-out words are slots in increasing order, all below the first save
-- slot; once a local exists the parameter list has its minimum size.
structure Valid (b : Built) : Prop where
  fresh : b.frame.state = .done_nothing
  words : ∃ offsets : List Nat, b.words = offsets.map slot ∧ offsets.Pairwise (· < ·) ∧
    ∀ o ∈ offsets, link_area_words ≤ o ∧ o < link_area_words + b.frame.params + b.frame.locals
  full : b.frame.locals = 0 ∨ min_params ≤ b.frame.params
  fields : b.fields.length = b.frame.crfs
  registers : b.registers = (List.range b.frame.gprs).map (31 - ·) ∧ b.frame.gprs ≤ max_gprs
  floats : b.floats = (List.range b.frame.fprs).map (31 - ·) ∧ b.frame.fprs ≤ max_fprs

theorem valid_initial : Valid {} :=
  ⟨rfl,⟨[],rfl,.nil,by simp⟩,.inl rfl,rfl,⟨rfl,by decide⟩,⟨rfl,by decide⟩⟩

-- One more word, at or after the end of those handed out before.
omit [Target] in
theorem words_snoc {offsets : List Nat} (sorted : offsets.Pairwise (· < ·))
    (bounded : ∀ o ∈ offsets, low ≤ o ∧ o < next) (after : next ≤ new) (start : low ≤ new) :
    (offsets ++ [new]).Pairwise (· < ·) ∧ ∀ o ∈ offsets ++ [new], low ≤ o ∧ o < new+1 := by
  refine ⟨List.pairwise_append.mpr ⟨sorted,by simp,?_⟩,?_⟩
  · intro o member p same
    rw [List.mem_singleton.mp same]
    exact Nat.lt_of_lt_of_le (bounded o member).2 after
  · intro o member
    rcases List.mem_append.mp member with old | new
    · have := bounded o old; omega
    · rw [List.mem_singleton.mp new]; omega

theorem request_valid (valid : Valid b) (accepted : request b r = some next) : Valid next := by
  obtain ⟨fresh,⟨offsets,handed,sorted,bounded⟩,full,fields,registers,floats⟩ := valid
  cases r with
  | get_parameter =>
    simp only [request,get_parameter] at accepted
    split at accepted
    · rename_i allowed
      cases Option.some.inj accepted
      have grown := words_snoc sorted bounded (by omega : _ ≤ link_area_words + b.frame.params) (by omega)
      refine ⟨fresh,⟨offsets ++ [link_area_words + b.frame.params],by simp [handed],grown.1,?_⟩,?_,fields,registers,floats⟩
      · intro o member; have := grown.2 o member; simp only; omega
      · exact .inl allowed.2
    · cases accepted
  | get_local_variable =>
    simp only [request,get_local_variable,fresh,ite_true,Option.map_some] at accepted
    cases Option.some.inj accepted
    have grown := words_snoc sorted bounded
      (by split <;> omega : _ ≤ link_area_words + (if b.frame.params < min_params then min_params else b.frame.params)
        + b.frame.locals) (by omega)
    refine ⟨rfl,⟨_,by simp [handed],grown.1,?_⟩,?_,fields,registers,floats⟩
    · intro o member; have := grown.2 o member; simp only; omega
    · exact .inr (by simp only; split <;> omega)
  | get_cr_field =>
    simp only [request,get_cr_field] at accepted
    split at accepted
    · cases Option.some.inj accepted
      exact ⟨fresh,⟨offsets,handed,sorted,bounded⟩,full,by simp [fields],registers,floats⟩
    · cases accepted
  | get_register =>
    simp only [request,get_register] at accepted
    split at accepted
    · rename_i allowed
      cases Option.some.inj accepted
      exact ⟨fresh,⟨offsets,handed,sorted,bounded⟩,full,fields,
        ⟨by simp [registers.1,List.range_succ],allowed.2⟩,floats⟩
    · cases accepted
  | get_float_register =>
    simp only [request,get_float_register] at accepted
    split at accepted
    · rename_i allowed
      cases Option.some.inj accepted
      exact ⟨fresh,⟨offsets,handed,sorted,bounded⟩,full,fields,registers,
        ⟨by simp [floats.1,List.range_succ],allowed.2⟩⟩
    · cases accepted
  | set_save_volatiles value =>
    simp only [request,set_save_volatiles,fresh,ite_true,Option.map_some] at accepted
    cases Option.some.inj accepted
    exact ⟨rfl,⟨offsets,handed,sorted,bounded⟩,full,fields,registers,floats⟩

theorem requests_valid (valid : Valid b) (built : List.foldlM request b requests = some next) : Valid next := by
  induction requests generalizing b with
  | nil => cases Option.some.inj built; exact valid
  | cons r rest ih =>
    cases got : request b r with
    | none => simp [got] at built
    | some middle => exact ih (request_valid valid got) (by simpa [got] using built)

theorem build_valid (built : build requests = some b) : Valid b := requests_valid valid_initial built

def savedRanges (base : Int) : List Saved → Nat → List Range
  | [],_ => []
  | s :: rest,offset => (base + offset*wordSize,s.words*wordSize) :: savedRanges base rest (offset + s.words)

theorem slot_small {offset : Nat} (small : (offset : Int)*wordSize < 2^15) : slot offset = ⟨r1,offset*wordSize⟩ := by
  have nonneg : 0 ≤ (offset : Int)*wordSize := Int.mul_nonneg (by omega) (Int.le_of_lt wordSize_pos)
  rw [slot,int16_small (by omega) small]

theorem fpr_bytes : (words_per_fpr : Int)*wordSize = 8 := by
  cases cpu : Target.cpu <;> simp [words_per_fpr,cpu,wordSize,wide,Cells.width]

theorem save_stores (s : Saved) (m : Machine) (d : Int) :
    stores (s.save ⟨r1,d⟩) m = [(m.gpr r1 + d,s.words*wordSize)] := by
  cases s with
  | fpr f => simp [Saved.save,stores,Instr.stores,Saved.words,fpr_bytes]
  | _ => simp [Saved.save,stores,Instr.stores,Saved.words,step]

-- Every slot starts at least one word below the end of its plan.
theorem slot_start {offset : Nat} (fits : ((offset + words (s :: rest) : Nat) : Int)*wordSize < 2^15 + wordSize) :
    (offset : Int)*wordSize < 2^15 := by
  have size := saved_words_pos s
  have step : ((offset+1 : Nat) : Int)*wordSize ≤ ((offset + words (s :: rest) : Nat) : Int)*wordSize :=
    Int.mul_le_mul_of_nonneg_right (by rw [words_cons]; omega) (Int.le_of_lt wordSize_pos)
  push_cast at step fits
  linarith

theorem saves_stores (plan : List Saved) (offset : Nat) (m : Machine)
    (fits : ((offset + words plan : Nat) : Int)*wordSize < 2^15 + wordSize) :
    stores (saves plan offset) m = savedRanges (m.gpr r1) plan offset := by
  induction plan generalizing offset m with
  | nil => rfl
  | cons s rest ih =>
    have start := slot_start fits
    rw [words_cons,← Nat.add_assoc] at fits
    simp only [saves,stores_append,slot_small start,save_stores,savedRanges,List.singleton_append]
    rw [ih _ _ fits,save_gpr _ _ _ _ (by decide)]

theorem savedRanges_ascending (base : Int) (plan : List Saved) (offset : Nat) :
    Ascending (base + offset*wordSize) (base + ((offset + words plan : Nat) : Int)*wordSize)
      (savedRanges base plan offset) := by
  induction plan generalizing offset with
  | nil => simp [savedRanges,Ascending]
  | cons s rest ih =>
    refine ⟨Int.le_refl _,Int.mul_nonneg (by omega) (Int.le_of_lt wordSize_pos),?_⟩
    have tail := ih (offset + s.words)
    rw [words_cons,← Nat.add_assoc]
    refine tail.lower (Int.le_of_eq ?_)
    push_cast; ring

-- Handed-out words, as ranges of the new frame.
theorem words_ascending (base : Int) {offsets : List Nat} {low high : Nat} (sorted : offsets.Pairwise (· < ·))
    (bounded : ∀ o ∈ offsets, low ≤ o ∧ o < high) (le : low ≤ high) (small : (high : Int)*wordSize < 2^15 + wordSize) :
    Ascending (base + low*wordSize) (base + high*wordSize)
      ((offsets.map slot).map fun a => (base + a.displacement,wordSize)) := by
  have scale : ∀ {x y : Nat}, x ≤ y → (x : Int)*wordSize ≤ (y : Int)*wordSize := fun le =>
    Int.mul_le_mul_of_nonneg_right (by omega) (Int.le_of_lt wordSize_pos)
  induction offsets generalizing low with
  | nil => have := scale le; simp only [List.map_nil,Ascending]; omega
  | cons o rest ih =>
    have here := bounded o (by simp)
    have next := scale here.2
    have first := scale here.1
    push_cast at next
    have start : (o : Int)*wordSize < 2^15 := by linarith
    have place : (slot o).displacement = o*wordSize := by rw [slot_small start]
    rw [List.pairwise_cons] at sorted
    have tail := @ih (o+1) sorted.2
      (fun p member => ⟨sorted.1 p member,(bounded p (by simp [member])).2⟩) here.2
    simp only [List.map_cons,Ascending,place]
    refine ⟨by omega,Int.le_of_lt wordSize_pos,tail.lower (Int.le_of_eq ?_)⟩
    push_cast; ring

-- A frame as the prolog's padding loop leaves it, small enough for its size to
-- be a displacement.
structure Padded (f : StackFrame) : Prop where
  size : f.frame_size = f.unaligned_size
  aligned : f.frame_size % StackAlignmentInBytes = 0
  fits : f.frame_size < 2^15

theorem Padded.words (padded : Padded f) : f.frame_size =
    ((f.first_slot + (if f.save_volatiles then 1 + words f.volatiles else 0) + words f.nonvolatiles : Nat) : Int)*wordSize := by
  rw [padded.size,unaligned_size,unaligned_words_eq]

theorem Padded.nonneg (padded : Padded f) : 0 ≤ f.frame_size := by
  rw [padded.words]
  exact Int.mul_nonneg (by omega) (Int.le_of_lt wordSize_pos)

-- The last slot ends at most one word past the frame.
theorem Padded.saves_fit (padded : Padded f) :
    ((f.first_slot + 1 + StackFrame.words f.volatiles + StackFrame.words f.nonvolatiles : Nat) : Int)*wordSize
      < 2^15 + wordSize := by
  have size := padded.words
  have fits := padded.fits
  have pos := wordSize_pos
  cases saved : f.save_volatiles with
  | false =>
    simp only [saved,volatiles_off f saved,words_nil] at size ⊢
    push_cast at size ⊢
    linarith
  | true =>
    simp only [saved,if_true] at size
    push_cast at size ⊢
    linarith

theorem lr_small : int16 (lr_save_offset*wordSize) = lr_save_offset*wordSize := by
  cases cpu : Target.cpu <;> simp [lr_save_offset,cpu,wordSize,wide,Cells.width,int16]

theorem push_r1 (f : StackFrame) (padded : Padded f) (m : Machine) :
    (exec f.push m).gpr r1 = m.gpr r1 - f.frame_size := by
  have nonneg := padded.nonneg
  have fits := padded.fits
  unfold push
  split <;> simp [step,int16_small (show -2^15 ≤ -f.frame_size by omega) (by omega)] <;> ring

def pushRanges (f : StackFrame) (top : Int) : List Range :=
  let base := top - f.frame_size
  if f.save_volatiles then
    [(base,wordSize),(base + f.first_slot*wordSize,wordSize),
     (base + int16 (f.frame_size + lr_save_offset*wordSize),wordSize)]
  else [(top + lr_save_offset*wordSize,wordSize),(base,wordSize)]

theorem push_stores (f : StackFrame) (padded : Padded f) (m : Machine) :
    stores f.push m = f.pushRanges (m.gpr r1) := by
  have nonneg := padded.nonneg
  have fits := padded.fits
  have push : int16 (-f.frame_size) = -f.frame_size := int16_small (by omega) (by omega)
  cases saved : f.save_volatiles with
  | false => simp [StackFrame.push,pushRanges,saved,stores,Instr.stores,step,push,lr_small,Int.sub_eq_add_neg]
  | true =>
    have inside : (f.first_slot : Int)*wordSize ≤ f.frame_size := by
      rw [padded.words]
      exact Int.mul_le_mul_of_nonneg_right (by omega) (Int.le_of_lt wordSize_pos)
    have place := slot_small (show (f.first_slot : Int)*wordSize < 2^15 by omega)
    simp [StackFrame.push,pushRanges,saved,stores,Instr.stores,step,push,r0_save,place,Int.sub_eq_add_neg]

def linkRanges (f : StackFrame) (base : Int) : List Range :=
  f.link_crs.map fun _ => (base + cr_save_offset*wordSize,wordSize)

theorem link_gpr (f : StackFrame) (m : Machine) (r : Register) (other : r ≠ r0) :
    (exec (f.link_crs.flatMap (Saved.save (slot cr_save_offset))) m).gpr r = m.gpr r := by
  unfold link_crs
  cases Target.cpu with
  | ppc32 => rfl
  | ppc64 =>
    by_cases none : f.crfs = 0
    · simp [none]
    · simp only [none,if_false,List.flatMap_cons,List.flatMap_nil,List.append_nil]
      exact save_gpr _ _ _ _ other

theorem link_stores (f : StackFrame) (m : Machine) :
    stores (f.link_crs.flatMap (Saved.save (slot cr_save_offset))) m = f.linkRanges (m.gpr r1) := by
  have place : slot cr_save_offset = ⟨r1,cr_save_offset*wordSize⟩ :=
    slot_small (by cases cpu : Target.cpu <;> simp [cr_save_offset,wordSize,wide,cpu,Cells.width])
  unfold linkRanges link_crs
  cases Target.cpu with
  | ppc32 => rfl
  | ppc64 =>
    by_cases none : f.crfs = 0
    · simp [none,stores]
    · simp only [none,if_false,List.flatMap_cons,List.flatMap_nil,List.append_nil,place,save_stores,
        List.map_cons,List.map_nil,Saved.words,Nat.cast_one,Int.one_mul]

-- The prolog's stores, in order, for a frame created below `top`.
def prologRanges (f : StackFrame) (top : Int) : List Range :=
  let base := top - f.frame_size
  f.pushRanges top ++ savedRanges base f.volatiles (f.first_slot+1) ++ f.linkRanges base ++
    savedRanges base f.nonvolatiles (f.first_slot+1 + words f.volatiles)

theorem prolog_r1 (f : StackFrame) (padded : Padded f) (m : Machine) :
    (exec f.prolog m).gpr r1 = m.gpr r1 - f.frame_size := by
  have last : ∀ m : Machine, (exec (if f.save_volatiles then [.load r0 f.r0_save] else []) m).gpr r1 = m.gpr r1 := by
    intro m; split <;> simp [step]
  simp only [prolog,exec_append,last,saves_gpr _ _ _ r1 (by decide),link_gpr _ _ r1 (by decide),push_r1 f padded]

theorem prolog_stores (f : StackFrame) (padded : Padded f) (m : Machine) :
    stores f.prolog m = f.prologRanges (m.gpr r1) := by
  have fit := padded.saves_fit
  have fit' : ((f.first_slot + 1 + StackFrame.words f.volatiles : Nat) : Int)*wordSize < 2^15 + wordSize := by
    refine Int.lt_of_le_of_lt ?_ fit
    exact Int.mul_le_mul_of_nonneg_right (by omega) (Int.le_of_lt wordSize_pos)
  have last : ∀ m : Machine, stores (if f.save_volatiles then [.load r0 f.r0_save] else []) m = [] := by
    intro m; split <;> rfl
  simp only [prolog,stores_append,last,List.append_nil,push_stores f padded,saves_stores _ _ _ fit',
    saves_stores _ _ _ fit,link_stores,exec_append,saves_gpr _ _ _ r1 (by decide),link_gpr _ _ r1 (by decide),
    push_r1 f padded,prologRanges]

-- What the layout comment promises of the code that creates the frame: besides
-- the back chain and the caller's LR save word it stores only to words of the
-- frame that overlap neither each other, nor the link area, nor a word handed out.
def LayoutSound (f : StackFrame) (handed : List Address) (code : List Instr) (m : Machine) : Prop :=
  let base := (exec code m).gpr r1
  let callerLr : Range := (m.gpr r1 + lr_save_offset*wordSize,wordSize)
  base + f.frame_size = m.gpr r1 ∧ f.frame_size % StackAlignmentInBytes = 0 ∧
  ∃ saved : List Range, (stores code m).Perm ((base,wordSize) :: callerLr :: saved) ∧
    let frame := (base,link_area_words*wordSize) ::
      (handed.map (fun a => (base + a.displacement,wordSize)) ++ saved)
    frame.Pairwise Range.Disjoint ∧ ∀ w ∈ frame, Within base (base + f.frame_size) w

-- With the volatile registers every slot is counted. Without them one word is
-- missing as soon as anything is saved above the locals. The large processor's
-- condition register lands in the link area, and a volatile frame within 16
-- bytes of the limit has its LR save word out of reach.
def LayoutFits (f : StackFrame) : Prop :=
  (f.save_volatiles = true ∨ f.gprs = 0 ∧ f.fprs = 0 ∧ (f.crfs = 0 ∨ Target.cpu = .ppc64)) ∧
  (Target.cpu = .ppc64 → f.crfs = 0) ∧
  (Target.cpu = .ppc64 → f.save_volatiles = true → f.unaligned_size ≤ 2^15 - 32)

theorem savedRanges_last (base : Int) (plan : List Saved) (offset : Nat) (some : plan ≠ []) :
    ∃ w ∈ savedRanges base plan offset, w.1 + w.2 = base + ((offset + words plan : Nat) : Int)*wordSize := by
  induction plan generalizing offset with
  | nil => exact absurd rfl some
  | cons s rest ih =>
    cases rest with
    | nil => exact ⟨_,List.mem_singleton_self _,by simp; ring⟩
    | cons t rest =>
      obtain ⟨w,member,ends⟩ := ih (offset + s.words) (by simp)
      refine ⟨w,List.mem_cons_of_mem _ member,?_⟩
      rw [ends,words_cons s,Nat.add_assoc]

theorem frame_words_pos (padded : Padded f) : 2*wordSize ≤ f.frame_size := by
  have link : 2 ≤ f.first_slot := by
    have : 2 ≤ link_area_words := by unfold link_area_words; split <;> decide
    unfold first_slot start_of_locals_words; omega
  rw [padded.words]
  exact Int.mul_le_mul_of_nonneg_right (by omega) (Int.le_of_lt wordSize_pos)

theorem lr_beyond : wordSize ≤ lr_save_offset*wordSize := by
  have pos := wordSize_pos
  cases cpu : Target.cpu with
  | ppc32 => simp [lr_save_offset,cpu]
  | ppc64 => simp [lr_save_offset,cpu]; omega

theorem nonvolatiles_none (f : StackFrame) (nothing : f.nonvolatiles = []) :
    f.gprs = 0 ∧ f.fprs = 0 ∧ (f.crfs = 0 ∨ Target.cpu = .ppc64) := by
  unfold nonvolatiles at nothing
  cases cpu : Target.cpu <;> by_cases none : f.crfs = 0 <;> simp_all

theorem nonvolatiles_empty (f : StackFrame) (nothing : f.gprs = 0 ∧ f.fprs = 0 ∧ (f.crfs = 0 ∨ Target.cpu = .ppc64)) :
    f.nonvolatiles = [] := by
  obtain ⟨gprs,fprs,crfs⟩ := nothing
  unfold nonvolatiles
  cases cpu : Target.cpu <;> simp_all

-- A saved register without the volatile ones makes the last slot overrun.
theorem saves_nothing (padded : Padded f) (off : f.save_volatiles = false)
    (sound : LayoutSound f handed f.prolog m) : f.gprs = 0 ∧ f.fprs = 0 ∧ (f.crfs = 0 ∨ Target.cpu = .ppc64) := by
  apply nonvolatiles_none
  by_contra some
  obtain ⟨base,_,saved,stored,_,inside⟩ := sound
  rw [prolog_stores f padded,prolog_r1 f padded] at stored
  rw [prolog_r1 f padded] at inside
  have large := frame_words_pos padded
  have far := lr_beyond
  have pos := wordSize_pos
  have size := padded.words
  simp only [off,Bool.false_eq_true,if_false,Nat.add_zero] at size
  obtain ⟨w,member,ends⟩ := savedRanges_last (m.gpr r1 - f.frame_size) f.nonvolatiles (f.first_slot+1) some
  have ends : w.1 + w.2 = m.gpr r1 + wordSize := by
    rw [ends,size]; push_cast; ring
  have listed : w ∈ f.prologRanges (m.gpr r1) := by
    simp only [prologRanges,volatiles_off f off,words_nil,Nat.add_zero,List.mem_append]
    exact .inr member
  rcases List.mem_cons.mp (stored.subset listed) with rfl | rest
  · simp only at ends; omega
  · rcases List.mem_cons.mp rest with rfl | rest
    · simp only at ends; omega
    · have bounds := (inside w (List.mem_cons_of_mem _ (List.mem_append_right _ rest))).2
      omega

-- On the large processor the condition register is stored inside the link area.
theorem link_untouched (padded : Padded f) (cpu : Target.cpu = .ppc64)
    (sound : LayoutSound f handed f.prolog m) : f.crfs = 0 := by
  by_contra some
  obtain ⟨base,_,saved,stored,disjoint,_⟩ := sound
  rw [prolog_stores f padded,prolog_r1 f padded] at stored
  rw [prolog_r1 f padded] at disjoint
  have large := frame_words_pos padded
  have size := wordSize_ppc64 cpu
  have listed : (m.gpr r1 - f.frame_size + 8,8) ∈ f.prologRanges (m.gpr r1) := by
    simp only [prologRanges,linkRanges,link_crs,cpu,some,if_false,cr_save_offset,size,List.mem_append]
    exact .inl (.inr (by simp))
  rcases List.mem_cons.mp (stored.subset listed) with same | rest
  · have := congrArg Prod.fst same; simp only at this; omega
  · rcases List.mem_cons.mp rest with same | rest
    · have := congrArg Prod.fst same
      simp only [lr_save_offset,cpu,size] at this; push_cast at this; omega
    · have apart := (List.pairwise_cons.mp disjoint).1 _ (List.mem_append_right _ rest)
      simp only [Range.Disjoint,link_area_words,cpu,size] at apart
      push_cast at apart
      omega

theorem prologRanges_start (padded : Padded f) (saved : f.save_volatiles = true) (crfs : Target.cpu = .ppc64 → f.crfs = 0) :
    ∀ w ∈ f.prologRanges top, w.1 < top ∨ w.1 = top - f.frame_size + int16 (f.frame_size + lr_save_offset*wordSize) := by
  have size := padded.words
  have large := frame_words_pos padded
  have pos := wordSize_pos
  simp only [saved,if_true] at size
  have none : f.link_crs = [] := by
    unfold link_crs
    cases cpu : Target.cpu with
    | ppc32 => rfl
    | ppc64 => simp [crfs cpu]
  have room : (f.first_slot : Int)*wordSize + wordSize ≤ f.frame_size := by
    rw [size]; push_cast
    have := Int.mul_nonneg (show (0 : Int) ≤ words f.volatiles + words f.nonvolatiles by omega) (Int.le_of_lt pos)
    linarith
  -- every save slot has a positive length and ends inside the frame
  have inside : ∀ plan offset, ((offset + words plan : Nat) : Int)*wordSize ≤ f.frame_size →
      ∀ w ∈ savedRanges (top - f.frame_size) plan offset, w.1 < top := by
    intro plan
    induction plan with
    | nil => simp [savedRanges]
    | cons s rest ih =>
      intro offset fits w member
      rw [words_cons,← Nat.add_assoc] at fits
      rcases List.mem_cons.mp member with rfl | later
      · have long := Int.mul_le_mul_of_nonneg_right
          (show ((offset : Nat) : Int) + 1 ≤ ((offset + s.words + words rest : Nat) : Int) by
            have := saved_words_pos s; omega) (Int.le_of_lt pos)
        simp only; linarith
      · exact ih _ fits w later
  intro w member
  simp only [prologRanges,pushRanges,saved,if_true,linkRanges,none,List.map_nil,List.append_nil,List.mem_append,
    List.mem_cons,List.not_mem_nil,or_false] at member
  rcases member with ((rfl | rfl | rfl) | volatile) | nonvolatile
  · left; simp only; omega
  · left; simp only; omega
  · right; rfl
  · left
    refine inside _ _ ?_ w volatile
    rw [size]
    exact Int.mul_le_mul_of_nonneg_right (by push_cast; omega) (Int.le_of_lt pos)
  · left
    refine inside _ _ (Int.le_of_eq ?_) w nonvolatile
    rw [size]; push_cast; ring

-- The link register's displacement wraps in the last admissible volatile frame.
theorem lr_reached (padded : Padded f) (saved : f.save_volatiles = true) (crfs : Target.cpu = .ppc64 → f.crfs = 0)
    (cpu : Target.cpu = .ppc64) (sound : LayoutSound f handed f.prolog m) : f.frame_size ≤ 2^15 - 32 := by
  by_contra too_large
  obtain ⟨base,_,ranges,stored,_,_⟩ := sound
  rw [prolog_stores f padded] at stored
  have listed : (m.gpr r1 + lr_save_offset*wordSize,wordSize) ∈ f.prologRanges (m.gpr r1) := stored.symm.subset (by simp)
  have aligned := padded.aligned
  have fits := padded.fits
  have size := wordSize_ppc64 cpu
  simp only [StackAlignmentInBytes] at aligned
  have exact : f.frame_size = 32752 := by omega
  rcases prologRanges_start padded saved crfs _ listed with low | low
  · simp only [lr_save_offset,cpu,size] at low; push_cast at low; omega
  · simp only [lr_save_offset,cpu,size,exact,int16] at low; push_cast at low; omega

-- Sufficient half, over the slot offsets the requests handed out.
theorem sound_of_saved {offsets : List Nat} (saved : List Range) (padded : Padded f) (sorted : offsets.Pairwise (· < ·))
    (bounded : ∀ o ∈ offsets, link_area_words ≤ o ∧ o < f.first_slot)
    (stored : (f.prologRanges (m.gpr r1)).Perm ((m.gpr r1 - f.frame_size,wordSize) ::
      (m.gpr r1 + lr_save_offset*wordSize,wordSize) :: saved))
    (ascending : Ascending (m.gpr r1 - f.frame_size + f.first_slot*wordSize) (m.gpr r1) saved) :
    LayoutSound f (offsets.map slot) f.prolog m := by
  have pos := wordSize_pos
  have fit := padded.saves_fit
  have first : (f.first_slot : Int)*wordSize < 2^15 + wordSize := by
    refine Int.lt_of_le_of_lt ?_ fit
    exact Int.mul_le_mul_of_nonneg_right (by omega) (Int.le_of_lt pos)
  have link : link_area_words ≤ f.first_slot := by unfold first_slot start_of_locals_words; omega
  have area : Ascending (m.gpr r1 - f.frame_size) (m.gpr r1 - f.frame_size + link_area_words*wordSize)
      [(m.gpr r1 - f.frame_size,(link_area_words : Int)*wordSize)] :=
    ⟨Int.le_refl _,Int.mul_nonneg (by omega) (Int.le_of_lt pos),Int.le_refl _⟩
  have whole := (area.append (words_ascending (m.gpr r1 - f.frame_size) sorted bounded link first)).append ascending
  refine ⟨?_,padded.aligned,saved,?_,?_,?_⟩
  · rw [prolog_r1 f padded]; omega
  · rw [prolog_stores f padded,prolog_r1 f padded]; exact stored
  · rw [prolog_r1 f padded]; exact whole.disjoint
  · rw [prolog_r1 f padded]
    intro w member
    have inside := whole.within w member
    exact ⟨inside.1,by have := inside.2; omega⟩

theorem sound_volatile {offsets : List Nat} (padded : Padded f) (sorted : offsets.Pairwise (· < ·))
    (bounded : ∀ o ∈ offsets, link_area_words ≤ o ∧ o < f.first_slot)
    (saved : f.save_volatiles = true) (none : f.link_crs = [])
    (reach : f.frame_size + lr_save_offset*wordSize < 2^15) : LayoutSound f (offsets.map slot) f.prolog m := by
  have pos := wordSize_pos
  have size := padded.words
  simp only [saved,if_true] at size
  have lr : int16 (f.frame_size + lr_save_offset*wordSize) = f.frame_size + lr_save_offset*wordSize :=
    int16_small (by have := padded.nonneg; have := lr_beyond; omega) reach
  let base := m.gpr r1 - f.frame_size
  refine sound_of_saved ((base + f.first_slot*wordSize,wordSize) ::
    (savedRanges base f.volatiles (f.first_slot+1) ++
      savedRanges base f.nonvolatiles (f.first_slot+1 + words f.volatiles))) padded sorted bounded ?_ ?_
  · simp only [prologRanges,pushRanges,saved,if_true,linkRanges,none,List.map_nil,List.append_nil,lr,
      List.cons_append,List.nil_append]
    have top : m.gpr r1 - f.frame_size + (f.frame_size + lr_save_offset*wordSize)
        = m.gpr r1 + lr_save_offset*wordSize := by ring
    rw [top]
    exact .cons _ (.swap _ _ _)
  · refine ⟨Int.le_refl _,Int.le_of_lt pos,?_⟩
    have one := savedRanges_ascending base f.volatiles (f.first_slot+1)
    have two := savedRanges_ascending base f.nonvolatiles (f.first_slot+1 + words f.volatiles)
    refine ((one.append two).lower (Int.le_of_eq ?_)).raise (Int.le_of_eq ?_)
    · push_cast; ring
    · simp only [base,size]; push_cast; ring

theorem sound_bare {offsets : List Nat} (padded : Padded f) (sorted : offsets.Pairwise (· < ·))
    (bounded : ∀ o ∈ offsets, link_area_words ≤ o ∧ o < f.first_slot)
    (off : f.save_volatiles = false) (none : f.link_crs = []) (nothing : f.nonvolatiles = []) :
    LayoutSound f (offsets.map slot) f.prolog m := by
  have size := padded.words
  simp only [off,Bool.false_eq_true,if_false,nothing,words_nil,Nat.add_zero] at size
  refine sound_of_saved [] padded sorted bounded ?_ ?_
  · simp only [prologRanges,pushRanges,off,Bool.false_eq_true,if_false,volatiles_off f off,linkRanges,none,nothing,
      List.map_nil,List.append_nil,savedRanges]
    exact .swap _ _ _
  · simp only [Ascending,size]; omega

theorem pad_padded (f : StackFrame) (fits : f.pad.frame_size < 2^15) : Padded f.pad :=
  ⟨pad_size f,pad_aligned f,fits⟩

-- Every frame the requests can build, on either processor: the prolog keeps to
-- the layout exactly when the frame's counters satisfy `LayoutFits`.
theorem prolog_layout (requests : List Request) (b : Built) (code : List Instr) (f : StackFrame)
    (built : build requests = some b) (written : generate_prolog b.frame = some (code,f))
    (fits : f.frame_size < 2^15) :
    (∀ m, LayoutSound f b.words code m) ↔ LayoutFits b.frame := by
  have valid := build_valid built
  obtain ⟨offsets,handed,sorted,bounded⟩ := valid.words
  simp only [generate_prolog,valid.fresh,if_true,Option.some.injEq,Prod.mk.injEq] at written
  obtain ⟨rfl,rfl⟩ := written
  obtain ⟨params,locals,crfs,gprs,fprs,volatile⟩ := pad_fields b.frame
  have padded := pad_padded b.frame fits
  have exact := pad_exact b.frame
  have aligned := padded.aligned
  simp only [StackAlignmentInBytes] at exact aligned
  have room : ∀ o ∈ offsets, link_area_words ≤ o ∧ o < b.frame.pad.first_slot := by
    intro o member
    have := bounded o member
    unfold first_slot start_of_locals_words
    rw [params]
    split <;> omega
  simp only [handed]
  constructor
  · intro sound
    have sound := sound ⟨fun _ => 0,fun _ => 0,fun _ => 0,0,0,fun _ => 0⟩
    have linked : Target.cpu = .ppc64 → b.frame.crfs = 0 := fun cpu => crfs ▸ link_untouched padded cpu sound
    refine ⟨?_,linked,?_⟩
    · cases saved : b.frame.save_volatiles with
      | true => exact .inl rfl
      | false =>
        have nothing := saves_nothing padded (volatile.trans saved) sound
        rw [gprs,fprs,crfs] at nothing
        exact .inr nothing
    · intro cpu saved
      have := lr_reached padded (volatile.trans saved) (fun cpu => crfs.trans (linked cpu)) cpu sound
      omega
  · intro fit m
    obtain ⟨saved,linked,reach⟩ := fit
    have none : b.frame.pad.link_crs = [] := by
      unfold link_crs
      cases cpu : Target.cpu with
      | ppc32 => rfl
      | ppc64 => simp [crfs.trans (linked cpu)]
    rw [← volatile,← gprs,← fprs,← crfs] at saved
    cases kind : b.frame.pad.save_volatiles with
    | false =>
      have nothing := nonvolatiles_empty _ (by simpa [kind] using saved)
      exact sound_bare padded sorted room kind none nothing
    | true =>
      refine sound_volatile padded sorted room kind none ?_
      have small := padded.fits
      cases cpu : Target.cpu with
      | ppc32 => simp only [lr_save_offset,cpu,wordSize_ppc32 cpu]; push_cast; omega
      | ppc64 =>
        have := reach cpu (volatile.symm.trans kind)
        simp only [lr_save_offset,cpu,wordSize_ppc64 cpu]; push_cast; omega

omit [Target] in
-- A frame for dump_int: every volatile register, nothing handed out.
theorem prolog_layout_dump_int : letI := ppc32
    let f := pad {save_volatiles := true}
    (∀ m, LayoutSound {f with state := .done_prolog} [] f.prolog m) ↔ LayoutFits {save_volatiles := true} := by
  let := ppc32
  refine prolog_layout [.set_save_volatiles true] {frame := {save_volatiles := true}} _ _ rfl rfl ?_
  show (pad _).frame_size < _
  rw [pad_exact]
  decide

omit [Target] in
-- One register and no volatiles on the small processor: the frame has 16 bytes
-- and the register goes to the word at 16, the caller's back chain.
theorem one_register_overruns : letI := ppc32
    let f := pad {gprs := 1}
    build [.get_register] = some {frame := {gprs := 1},registers := [31]} ∧ f.frame_size < 2^15 ∧
      ¬ ∀ m, LayoutSound {f with state := .done_prolog} [] f.prolog m := by
  let := ppc32
  have fits : (pad {gprs := 1}).frame_size < 2^15 := by rw [pad_exact]; decide
  refine ⟨rfl,fits,fun sound => ?_⟩
  have padded := pad_padded {gprs := 1} fits
  obtain ⟨_,_,_,gprs,_,volatile⟩ := pad_fields {gprs := 1}
  have nothing := saves_nothing padded volatile (sound ⟨fun _ => 0,fun _ => 0,fun _ => 0,0,0,fun _ => 0⟩)
  rw [gprs] at nothing
  exact absurd nothing.1 (by decide)

end IcedTea.StackFrame

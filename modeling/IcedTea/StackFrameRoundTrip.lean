import IcedTea.StackFrameLayout

namespace IcedTea.StackFrame
variable [Target]

-- One saved register kept from machine to machine, and its value in memory.
def Saved.Same (m m' : Machine) : Saved → Prop
  | .gpr r => m'.gpr r = m.gpr r
  | .fpr f => m'.fpr f = m.fpr f
  | .ctr => m'.ctr = m.ctr
  | .cr => m'.cr = m.cr

def Saved.Held (m : Machine) (mem : Cells) (a : Int) : Saved → Prop
  | .gpr r => mem.word wide a = m.gpr r
  | .fpr f => mem.word true a = m.fpr f
  | .ctr => mem.word wide a = m.ctr
  | .cr => mem.word wide a = packFields m.cr

def HeldAll (m : Machine) (mem : Cells) (base : Int) : List Saved → Nat → Prop
  | [],_ => True
  | s :: rest,offset => s.Held m mem (base + offset*wordSize) ∧ HeldAll m mem base rest (offset + s.words)

theorem Saved.Held.congr {s : Saved} (held : s.Held m mem a)
    (same : ∀ b, a ≤ b → b < a + s.words*wordSize → mem' b = mem b) : s.Held m mem' a := by
  cases s with
  | fpr f =>
    simp only [Saved.words,fpr_bytes] at same
    exact (Cells.word_congr fun b low high => same b low (by simpa [Cells.width] using high)).trans held
  | _ =>
    simp only [Saved.words,Nat.cast_one,Int.one_mul] at same
    exact (Cells.word_congr fun b low high => same b low high).trans held

theorem HeldAll.congr (held : HeldAll m mem base plan offset)
    (same : ∀ b, base + offset*wordSize ≤ b → mem' b = mem b) : HeldAll m mem' base plan offset := by
  induction plan generalizing offset with
  | nil => trivial
  | cons s rest ih =>
    refine ⟨held.1.congr fun b low _ => same b low,ih held.2 fun b low => same b ?_⟩
    have above : (0 : Int) ≤ (s.words : Int)*wordSize := Int.mul_nonneg (by omega) (Int.le_of_lt wordSize_pos)
    push_cast at low
    linarith

-- Saving goes through r0; every other register keeps its value meanwhile.
theorem Saved.Same.held {s : Saved} (same : s.Same m m') : s.Held m' mem a ↔ s.Held m mem a := by
  cases s <;> simp only [Saved.Same] at same <;> simp only [Saved.Held,same]

theorem HeldAll.of_same (same : ∀ s ∈ plan, s.Same m m') :
    HeldAll m' mem base plan offset ↔ HeldAll m mem base plan offset := by
  induction plan generalizing offset with
  | nil => rfl
  | cons s rest ih =>
    simp only [HeldAll,(same s (by simp)).held,ih fun t member => same t (by simp [member])]

theorem save_same (s t : Saved) (at_ : Address) (m : Machine) (other : t ≠ .gpr r0) :
    t.Same m (exec (s.save at_) m) := by
  cases t with
  | gpr r => exact save_gpr s at_ m r fun same => other (by rw [same])
  | _ => cases s <;> rfl

theorem save_held (s : Saved) (d : Int) (m : Machine) :
    s.Held m (exec (s.save ⟨r1,d⟩) m).mem (m.gpr r1 + d) := by
  cases s <;> simp [Saved.save,Saved.Held,step,Machine.write64]

theorem saves_outside (plan : List Saved) (offset : Nat) (m : Machine)
    (fits : ((offset + words plan : Nat) : Int)*wordSize < 2^15 + wordSize)
    (outside : b < m.gpr r1 + offset*wordSize ∨ m.gpr r1 + ((offset + words plan : Nat) : Int)*wordSize ≤ b) :
    (exec (saves plan offset) m).mem b = m.mem b := by
  refine exec_outside _ _ fun w member => ?_
  rw [saves_stores _ _ _ fits] at member
  have inside := (savedRanges_ascending (m.gpr r1) plan offset).within w member
  simp only [Range.Within] at inside
  omega

-- Each slot holds its register's value from before the saves: the later slots
-- start above it, and only r0 changes on the way.
theorem saves_held (plan : List Saved) (offset : Nat) (m : Machine) (scratch : Saved.gpr r0 ∉ plan)
    (fits : ((offset + words plan : Nat) : Int)*wordSize < 2^15 + wordSize) :
    HeldAll m (exec (saves plan offset) m).mem (m.gpr r1) plan offset := by
  induction plan generalizing offset m with
  | nil => trivial
  | cons s rest ih =>
    have start := slot_start fits
    rw [words_cons,← Nat.add_assoc] at fits
    obtain ⟨_,later⟩ := List.ne_and_not_mem_of_not_mem_cons scratch
    have stack : (exec (s.save (slot offset)) m).gpr r1 = m.gpr r1 := save_gpr _ _ _ _ (by decide)
    have tail := ih (offset + s.words) (exec (s.save (slot offset)) m) later fits
    rw [stack,HeldAll.of_same fun t member => save_same s t _ m fun same => later (same ▸ member)] at tail
    rw [saves,exec_append]
    refine ⟨?_,tail⟩
    have here := save_held s (offset*wordSize) m
    rw [slot_small start] at stack ⊢
    refine here.congr fun b _ below => saves_outside _ _ _ fits (.inl ?_)
    rw [stack]; push_cast; linarith

-- What a reload does: memory, r1 and LR stay, the register gets the word held
-- for it, and everything else but r0 stays.
theorem reload_mem (s : Saved) (at_ : Address) (m : Machine) :
    (exec (s.reload at_) m).mem = m.mem ∧ (exec (s.reload at_) m).lr = m.lr := by cases s <;> exact ⟨rfl,rfl⟩

theorem reload_same (s t : Saved) (at_ : Address) (m : Machine) (scratch : t ≠ .gpr r0) (other : t ≠ s) :
    t.Same m (exec (s.reload at_) m) := by
  cases t with
  | gpr r =>
    have clean : r ≠ r0 := fun same => scratch (by rw [same])
    cases s with
    | gpr q => simp [Saved.Same,Saved.reload,step,show r ≠ q from fun same => other (by rw [same])]
    | fpr f => rfl
    | ctr => simp only [Saved.Same,Saved.reload,exec_cons,exec_nil,step,Machine.set_gpr,if_neg clean]
    | cr => simp only [Saved.Same,Saved.reload,exec_cons,exec_nil,step,Machine.set_gpr,if_neg clean]
  | fpr f =>
    cases s with
    | fpr g =>
      have apart : f ≠ g := fun same => other (by rw [same])
      simp only [Saved.Same,Saved.reload,exec_cons,exec_nil,step,Function.update_of_ne apart]
    | _ => rfl
  | ctr =>
    cases s with
    | ctr => exact absurd rfl other
    | _ => rfl
  | cr =>
    cases s with
    | cr => exact absurd rfl other
    | _ => rfl

theorem reload_cr (d : Int) (m : Machine) :
    (exec (Saved.cr.reload ⟨r1,d⟩) m).cr = unpackFields (m.read (m.gpr r1 + d)) := by
  have word : (step m (.load r0 ⟨r1,d⟩)).gpr r0 = m.read (m.gpr r1 + d) := by
    simp only [step,Machine.set_gpr,if_true,Machine.ea_mk]
  show unpackFields ((step m (.load r0 ⟨r1,d⟩)).gpr r0) = _
  rw [word]

theorem reload_held (s : Saved) (d : Int) (m m' : Machine) (held : s.Held m m'.mem (m'.gpr r1 + d)) :
    s.Same m (exec (s.reload ⟨r1,d⟩) m') := by
  cases s with
  | cr =>
    have word : m'.read (m'.gpr r1 + d) = packFields m.cr := held
    simp only [Saved.Same,reload_cr,word,unpack_pack]
  | _ => exact Eq.trans (by simp [Saved.reload,step,Machine.read,Machine.read64]) held

theorem reloads_mem (plan : List Saved) (offset : Nat) (m : Machine) :
    (exec (reloads plan offset) m).mem = m.mem ∧ (exec (reloads plan offset) m).lr = m.lr := by
  induction plan generalizing offset m with
  | nil => exact ⟨rfl,rfl⟩
  | cons s rest ih =>
    obtain ⟨mem,lr⟩ := ih (offset + s.words) (exec (s.reload (slot offset)) m)
    rw [reloads,exec_append,mem,lr]
    exact reload_mem s _ m

theorem reloads_same (plan : List Saved) (offset : Nat) (m : Machine) (t : Saved) (scratch : t ≠ .gpr r0)
    (absent : t ∉ plan) : t.Same m (exec (reloads plan offset) m) := by
  induction plan generalizing offset m with
  | nil => cases t <;> rfl
  | cons s rest ih =>
    obtain ⟨other,absent⟩ := List.ne_and_not_mem_of_not_mem_cons absent
    have first := reload_same s t (slot offset) m scratch other
    have later := ih (offset + s.words) (exec (s.reload (slot offset)) m) absent
    rw [reloads,exec_append]
    cases t <;> exact later.trans first

theorem reloads_held (plan : List Saved) (offset : Nat) (m m' : Machine)
    (held : HeldAll m m'.mem (m'.gpr r1) plan offset) (scratch : Saved.gpr r0 ∉ plan) (stack : Saved.gpr r1 ∉ plan)
    (fits : ((offset + words plan : Nat) : Int)*wordSize < 2^15 + wordSize) :
    ∀ s ∈ plan, s.Same m (exec (reloads plan offset) m') := by
  induction plan generalizing offset m' with
  | nil => simp
  | cons s rest ih =>
    have start := slot_start fits
    rw [words_cons,← Nat.add_assoc] at fits
    obtain ⟨notScratch,laterScratch⟩ := List.ne_and_not_mem_of_not_mem_cons scratch
    obtain ⟨notStack,laterStack⟩ := List.ne_and_not_mem_of_not_mem_cons stack
    have here : s.Same m (exec (s.reload (slot offset)) m') := by
      rw [slot_small start]; exact reload_held s _ m m' held.1
    have top : (exec (s.reload (slot offset)) m').gpr r1 = m'.gpr r1 :=
      reload_same s (.gpr r1) _ m' (by decide) notStack
    have tail := ih (offset + s.words) (exec (s.reload (slot offset)) m')
      (by rw [(reload_mem s _ m').1,top]; exact held.2) laterScratch laterStack fits
    rw [reloads,exec_append]
    intro t member
    by_cases again : t ∈ rest
    · exact tail t again
    · rcases List.mem_cons.mp member with rfl | later
      · have still := reloads_same rest (offset + t.words) (exec (t.reload (slot offset)) m') t (Ne.symm notScratch) again
        cases t <;> exact still.trans here
      · exact absurd later again

def plan (f : StackFrame) : List Saved := f.volatiles ++ f.nonvolatiles

theorem plan_fits (padded : Padded f) :
    ((f.first_slot + 1 + words f.plan : Nat) : Int)*wordSize < 2^15 + wordSize := by
  have fit := padded.saves_fit
  rwa [plan,words_append,← Nat.add_assoc]

-- Which registers the frame saves.
section
omit [Target]
theorem volatiles_gpr (f : StackFrame) (r : Nat) :
    Saved.gpr r ∈ f.volatiles ↔ f.save_volatiles = true ∧ 3 ≤ r ∧ r < 13 := by
  unfold volatiles; split <;> simp_all

theorem volatiles_fpr (f : StackFrame) (r : Nat) :
    Saved.fpr r ∈ f.volatiles ↔ f.save_volatiles = true ∧ r < num_vfprs := by
  unfold volatiles; split <;> simp_all

theorem volatiles_ctr (f : StackFrame) : Saved.ctr ∈ f.volatiles ↔ f.save_volatiles = true := by
  unfold volatiles; split <;> simp_all
end

theorem nonvolatiles_gpr (f : StackFrame) (r : Nat) :
    Saved.gpr r ∈ f.nonvolatiles ↔ 32 - f.gprs ≤ r ∧ r < 32 - f.gprs + f.gprs := by
  unfold nonvolatiles
  cases Target.cpu <;> by_cases none : f.crfs = 0 <;> simp [none]

theorem nonvolatiles_fpr (f : StackFrame) (r : Nat) :
    Saved.fpr r ∈ f.nonvolatiles ↔ 32 - f.fprs ≤ r ∧ r < 32 - f.fprs + f.fprs := by
  unfold nonvolatiles
  cases Target.cpu <;> by_cases none : f.crfs = 0 <;> simp [none]

theorem nonvolatiles_cr (f : StackFrame) : Saved.cr ∈ f.nonvolatiles ↔ Target.cpu = .ppc32 ∧ f.crfs ≠ 0 := by
  unfold nonvolatiles
  cases Target.cpu <;> by_cases none : f.crfs = 0 <;> simp [none]

theorem plan_clear (f : StackFrame) {r : Nat} (few : f.gprs ≤ max_gprs) (low : r ≤ 2) : Saved.gpr r ∉ f.plan := by
  simp only [plan,List.mem_append,volatiles_gpr,nonvolatiles_gpr,max_gprs] at few ⊢
  rintro (⟨_,above,_⟩ | ⟨above,_⟩) <;> omega

-- The displacement at which the frame addresses the saved link register.
def lrSlot (f : StackFrame) : Int :=
  if f.save_volatiles then int16 (f.frame_size + lr_save_offset*wordSize) else f.frame_size + lr_save_offset*wordSize

-- Where the displacement wraps it falls below the frame, so it never meets a
-- save slot or the words the body may write.
theorem lrSlot_apart (padded : Padded f) : f.lrSlot + wordSize ≤ 0 ∨
    ((f.first_slot + 1 + words f.plan : Nat) : Int)*wordSize ≤ f.lrSlot := by
  have size := padded.words
  have nonneg := padded.nonneg
  have fits := padded.fits
  have far := lr_beyond
  have near : lr_save_offset*wordSize + wordSize ≤ 24 := by
    cases cpu : Target.cpu <;> simp [lr_save_offset,cpu,wordSize,wide,Cells.width]
  have pos := wordSize_pos
  unfold lrSlot plan
  rw [words_append]
  cases saved : f.save_volatiles with
  | false =>
    right
    simp only [saved,volatiles_off f saved,words_nil,Bool.false_eq_true,if_false] at size ⊢
    push_cast at size ⊢
    linarith
  | true =>
    simp only [saved,if_true] at size ⊢
    have last : ((f.first_slot + 1 + (words f.volatiles + words f.nonvolatiles) : Nat) : Int)*wordSize = f.frame_size := by
      rw [size]; push_cast; ring
    rw [last]
    by_cases reach : f.frame_size + lr_save_offset*wordSize < 2^15
    · right; rw [int16_small (by omega) reach]; omega
    · left; unfold int16; omega

-- What the frame holds once the prolog is done, for the registers of `m`.
structure Framed (f : StackFrame) (m m' : Machine) : Prop where
  stack : m'.gpr r1 = m.gpr r1 - f.frame_size
  held : HeldAll m m'.mem (m'.gpr r1) f.plan (f.first_slot+1)
  link : m'.mem.word wide (m'.gpr r1 + f.lrSlot) = m.lr
  scratch : f.save_volatiles = true → m'.mem.word wide (m'.gpr r1 + f.first_slot*wordSize) = m.gpr r0

theorem push_same (f : StackFrame) (m : Machine) (t : Saved) (scratch : t ≠ .gpr r0) (stack : t ≠ .gpr r1) :
    t.Same m (exec f.push m) := by
  unfold push
  split <;> cases t <;> simp_all [Saved.Same,step]

theorem r0_inside (padded : Padded f) (saved : f.save_volatiles = true) :
    (f.first_slot : Int)*wordSize + wordSize ≤ f.frame_size := by
  have size := padded.words
  simp only [saved,if_true] at size
  have more : (0 : Int) ≤ (words f.volatiles + words f.nonvolatiles : Nat)*wordSize :=
    Int.mul_nonneg (by omega) (Int.le_of_lt wordSize_pos)
  rw [size]
  push_cast at more ⊢
  linarith

theorem push_words (padded : Padded f) (m : Machine) :
    (exec f.push m).mem.word wide (m.gpr r1 - f.frame_size + f.lrSlot) = m.lr ∧
      (f.save_volatiles = true →
        (exec f.push m).mem.word wide (m.gpr r1 - f.frame_size + f.first_slot*wordSize) = m.gpr r0) := by
  have nonneg := padded.nonneg
  have fits := padded.fits
  have push : int16 (-f.frame_size) = -f.frame_size := int16_small (by omega) (by omega)
  have apart := lrSlot_apart padded
  have pos := wordSize_pos
  cases saved : f.save_volatiles with
  | false =>
    refine ⟨?_,by simp⟩
    have large := frame_words_pos padded
    have far := lr_beyond
    simp only [lrSlot,saved,StackFrame.push,Bool.false_eq_true,if_false,exec_cons,exec_nil,step,Machine.set_gpr,
      Machine.ea_mk,push,lr_small,Machine.set_mem,Machine.write_mem,Machine.write_gpr,r0,r1]
    rw [Cells.word_putWord_apart _ _ (.inl (show _ + wordSize ≤ _ by simp only [one_ne_zero,if_false]; omega))]
    have top : m.gpr 1 - f.frame_size + (f.frame_size + lr_save_offset*wordSize) = m.gpr 1 + lr_save_offset*wordSize := by ring
    rw [top]
    simp
  | true =>
    have room := r0_inside padded saved
    have place := slot_small (show (f.first_slot : Int)*wordSize < 2^15 by omega)
    simp only [StackFrame.push,saved,if_true,exec_cons,exec_nil,step,Machine.set_gpr,Machine.set_lr,Machine.write_lr,
      Machine.ea_mk,push,Machine.set_mem,Machine.write_mem,Machine.write_gpr,r0_save,place,r0,r1,forall_const,
      one_ne_zero,zero_ne_one,if_false,← Int.sub_eq_add_neg]
    simp only [lrSlot,saved,if_true] at apart ⊢
    refine ⟨Cells.word_putWord _ _ _,?_⟩
    have above : ((f.first_slot + 1 : Nat) : Int)*wordSize ≤ ((f.first_slot + 1 + words f.plan : Nat) : Int)*wordSize :=
      Int.mul_le_mul_of_nonneg_right (by omega) (Int.le_of_lt pos)
    have low : (0 : Int) ≤ f.first_slot*wordSize := Int.mul_nonneg (by omega) (Int.le_of_lt pos)
    push_cast at above apart
    rw [Cells.word_putWord_apart _ _ (show _ + wordSize ≤ _ ∨ _ + wordSize ≤ _ by rcases apart with below | beyond <;> [left;right] <;> linarith)]
    simp

theorem saves_append (one two : List Saved) (offset : Nat) :
    saves (one ++ two) offset = saves one offset ++ saves two (offset + words one) := by
  induction one generalizing offset with
  | nil => rfl
  | cons s rest ih => simp only [List.cons_append,saves,ih,words_cons,List.append_assoc,Nat.add_assoc]

theorem reloads_append (one two : List Saved) (offset : Nat) :
    reloads (one ++ two) offset = reloads one offset ++ reloads two (offset + words one) := by
  induction one generalizing offset with
  | nil => rfl
  | cons s rest ih => simp only [List.cons_append,reloads,ih,words_cons,List.append_assoc,Nat.add_assoc]

theorem prolog_framed (padded : Padded f) (few : f.gprs ≤ max_gprs) (none : f.link_crs = []) (m : Machine) :
    Framed f m (exec f.prolog m) := by
  have fits := plan_fits padded
  have pos := wordSize_pos
  have code : f.prolog = f.push ++ saves f.plan (f.first_slot+1) ++ if f.save_volatiles then [.load r0 f.r0_save] else [] := by
    simp only [prolog,none,List.flatMap_nil,List.append_nil,plan,saves_append,List.append_assoc]
  have last : ∀ m : Machine, (exec (if f.save_volatiles then [.load r0 f.r0_save] else []) m).mem = m.mem := by
    intro m; split <;> rfl
  have stack := prolog_r1 f padded m
  have pushed := push_r1 f padded m
  obtain ⟨link,scratch⟩ := push_words padded m
  -- the saves write between the r0 slot and the end of the plan
  have same : ∀ a, a + wordSize ≤ (f.first_slot+1 : Nat)*wordSize ∨ ((f.first_slot + 1 + words f.plan : Nat) : Int)*wordSize ≤ a →
      (exec f.prolog m).mem.word wide (m.gpr r1 - f.frame_size + a) = (exec f.push m).mem.word wide (m.gpr r1 - f.frame_size + a) := by
    intro a outside
    rw [code,exec_append,exec_append,last]
    refine Cells.word_congr fun b low high => saves_outside _ _ _ fits ?_
    rw [pushed]
    simp only [wordSize] at outside ⊢
    omega
  refine ⟨stack,?_,?_,?_⟩
  · have held := saves_held f.plan (f.first_slot+1) (exec f.push m) (plan_clear f few (by decide)) fits
    rw [HeldAll.of_same fun t member => push_same f m t (fun same => plan_clear f few (by decide) (same ▸ member))
      fun same => plan_clear f few (by decide) (same ▸ member)] at held
    rw [stack,code,exec_append,exec_append,last,← pushed]
    exact held
  · rw [stack,same _ ?_]
    · exact link
    · rcases lrSlot_apart padded with below | beyond
      · have low : (0 : Int) ≤ (f.first_slot+1 : Nat)*wordSize := Int.mul_nonneg (by omega) (Int.le_of_lt pos)
        exact .inl (by omega)
      · exact .inr beyond
  · intro saved
    rw [stack,same _ (.inl (by push_cast; linarith))]
    exact scratch saved

-- A body keeps r1 and writes below the save slots only: the link area, the
-- parameters and the local variables.
def Body (f : StackFrame) (m m' : Machine) : Prop :=
  m'.gpr r1 = m.gpr r1 ∧ Cells.SameOutside (m.gpr r1) (m.gpr r1 + f.first_slot*wordSize) m.mem m'.mem

theorem Framed.body (framed : Framed f m m') (padded : Padded f) (body : Body f m' m'') : Framed f m m'' := by
  obtain ⟨stack,same⟩ := body
  have pos := wordSize_pos
  have above : ((f.first_slot + 1 : Nat) : Int)*wordSize ≤ ((f.first_slot + 1 + words f.plan : Nat) : Int)*wordSize :=
    Int.mul_le_mul_of_nonneg_right (by omega) (Int.le_of_lt pos)
  push_cast at above
  refine ⟨stack.trans framed.stack,?_,?_,?_⟩
  · rw [stack]
    exact framed.held.congr fun b low => same b (.inr (by push_cast at low; linarith))
  · rw [stack,same.word ?_]
    · exact framed.link
    · rcases lrSlot_apart padded with below | beyond
      · exact .inl (by simp only [wordSize] at below; omega)
      · exact .inr (by push_cast at beyond; linarith)
  · intro saved
    rw [stack,same.word (.inr (Int.le_refl _))]
    exact framed.scratch saved

theorem pop_same (f : StackFrame) (m : Machine) (t : Saved) (scratch : t ≠ .gpr r0) (stack : t ≠ .gpr r1) :
    t.Same m (exec f.pop m) := by
  unfold pop
  split <;> cases t <;> simp_all [Saved.Same,step]

-- Once the registers are reloaded, the last step brings back r0, r1 and LR.
theorem pop_framed (padded : Padded f) (framed : Framed f m m') :
    (exec f.pop m').gpr r1 = m.gpr r1 ∧ (exec f.pop m').lr = m.lr ∧
      (f.save_volatiles = true → (exec f.pop m').gpr r0 = m.gpr r0) := by
  have stack := framed.stack
  have link := framed.link
  cases saved : f.save_volatiles with
  | false =>
    have top : m'.gpr r1 + f.frame_size = m.gpr r1 := by rw [stack]; ring
    simp only [lrSlot,saved,Bool.false_eq_true,if_false,← Int.add_assoc,top] at link
    refine ⟨?_,?_,by simp⟩
    · simpa [StackFrame.pop,saved,step] using top
    · simp only [StackFrame.pop,saved,Bool.false_eq_true,if_false,exec_cons,exec_nil,step,Machine.set_gpr,if_true,
        Machine.ea_mk,lr_small,Machine.read,Machine.set_mem,top]
      exact link
  | true =>
    have scratch := framed.scratch saved
    have room := r0_inside padded saved
    have fits := padded.fits
    have pos := wordSize_pos
    have place := slot_small (show (f.first_slot : Int)*wordSize < 2^15 by omega)
    simp only [lrSlot,saved,if_true] at link
    have top : m'.gpr r1 + f.frame_size = m.gpr r1 := by rw [stack]; ring
    refine ⟨?_,?_,fun _ => ?_⟩
    · simpa [StackFrame.pop,saved,step] using top
    · simpa [StackFrame.pop,saved,step,Machine.read] using link
    · simpa [StackFrame.pop,saved,step,Machine.read,r0_save,place] using scratch

-- What the caller and the code that asked for the frame get back.
structure Restored (b : Built) (m m' : Machine) : Prop where
  stack : m'.gpr r1 = m.gpr r1
  link : m'.lr = m.lr
  registers : ∀ r ∈ b.registers, m'.gpr r = m.gpr r
  floats : ∀ r ∈ b.floats, m'.fpr r = m.fpr r
  condition : b.fields ≠ [] → m'.cr = m.cr
  volatiles : b.frame.save_volatiles = true → m'.gpr r0 = m.gpr r0 ∧
    (∀ r : Nat, 3 ≤ r → r ≤ 12 → m'.gpr r = m.gpr r) ∧ m'.ctr = m.ctr ∧ ∀ r : Nat, r ≤ 13 → m'.fpr r = m.fpr r

theorem epilog_framed (padded : Padded f) (few : f.gprs ≤ max_gprs) (none : f.link_crs = []) (framed : Framed f m m') :
    (exec f.epilog m').gpr r1 = m.gpr r1 ∧ (exec f.epilog m').lr = m.lr ∧
      (f.save_volatiles = true → (exec f.epilog m').gpr r0 = m.gpr r0) ∧ ∀ s ∈ f.plan, s.Same m (exec f.epilog m') := by
  have code : f.epilog = reloads f.plan (f.first_slot+1) ++ f.pop := by
    simp only [epilog,none,List.flatMap_nil,List.append_nil,plan,reloads_append]
  have clear : ∀ {r : Nat}, r ≤ 2 → Saved.gpr r ∉ f.plan := fun low => plan_clear f few low
  obtain ⟨mem,_⟩ := reloads_mem f.plan (f.first_slot+1) m'
  have top : (exec (reloads f.plan (f.first_slot+1)) m').gpr r1 = m'.gpr r1 :=
    reloads_same f.plan _ m' (.gpr r1) (by decide) (clear (by decide))
  have again : Framed f m (exec (reloads f.plan (f.first_slot+1)) m') := by
    refine ⟨?_,?_,?_,?_⟩ <;> rw [top]
    · exact framed.stack
    · rw [mem]; exact framed.held
    · rw [mem]; exact framed.link
    · rw [mem]; exact framed.scratch
  rw [code,exec_append]
  obtain ⟨stack,link,scratch⟩ := pop_framed padded again
  refine ⟨stack,link,scratch,fun s member => ?_⟩
  have restored := reloads_held f.plan _ m m' framed.held (clear (by decide)) (clear (by decide)) (plan_fits padded) s member
  have kept := pop_same f (exec (reloads f.plan (f.first_slot+1)) m') s (fun same => clear (by decide) (same ▸ member))
    fun same => clear (by decide) (same ▸ member)
  cases s <;> exact kept.trans restored

-- Every handed-out register is one the frame saves.
theorem registers_saved {r : Nat} (valid : Valid b) (member : r ∈ b.registers) : Saved.gpr r ∈ b.frame.pad.plan := by
  obtain ⟨_,_,_,gprs,_,_⟩ := pad_fields b.frame
  have few := valid.registers.2
  rw [valid.registers.1] at member
  obtain ⟨i,low,rfl⟩ := List.mem_map.mp member
  simp only [List.mem_range,max_gprs] at low few
  exact List.mem_append_right _ ((nonvolatiles_gpr _ (31 - i : Nat)).mpr (by rw [gprs]; omega))

theorem floats_saved {r : Nat} (valid : Valid b) (member : r ∈ b.floats) : Saved.fpr r ∈ b.frame.pad.plan := by
  obtain ⟨_,_,_,_,fprs,_⟩ := pad_fields b.frame
  have few := valid.floats.2
  rw [valid.floats.1] at member
  obtain ⟨i,low,rfl⟩ := List.mem_map.mp member
  simp only [List.mem_range,max_fprs] at low few
  exact List.mem_append_right _ ((nonvolatiles_fpr _ (31 - i : Nat)).mpr (by rw [fprs]; omega))

theorem restored (valid : Valid b) (padded : Padded b.frame.pad) (fields : Target.cpu = .ppc32 ∨ b.fields = [])
    (body : Body b.frame.pad (exec b.frame.pad.prolog m) m') : Restored b m (exec b.frame.pad.epilog m') := by
  obtain ⟨_,_,crfs,gprs,_,volatile⟩ := pad_fields b.frame
  have few : b.frame.pad.gprs ≤ max_gprs := gprs ▸ valid.registers.2
  have none : b.frame.pad.link_crs = [] := by
    rcases fields with cpu | nothing
    · simp only [link_crs,cpu]
    · have zero : b.frame.crfs = 0 := by rw [← valid.fields,nothing]; rfl
      simp only [link_crs,crfs,zero,if_true]
      cases Target.cpu <;> rfl
  have framed := (prolog_framed padded few none m).body padded body
  obtain ⟨stack,link,scratch,same⟩ := epilog_framed padded few none framed
  refine ⟨stack,link,fun r member => same (.gpr r) (registers_saved valid member),
    fun r member => same (.fpr r) (floats_saved valid member),fun asked => ?_,fun saved => ⟨?_,fun r low high => ?_,?_,fun r high => ?_⟩⟩
  · have cpu := fields.resolve_right asked
    refine same .cr (List.mem_append_right _ ((nonvolatiles_cr _).mpr ⟨cpu,?_⟩))
    rw [crfs,← valid.fields]
    simpa using asked
  · exact scratch (volatile.trans saved)
  · exact same (.gpr r) (List.mem_append_left _ ((volatiles_gpr _ _).mpr ⟨volatile.trans saved,low,by omega⟩))
  · exact same .ctr (List.mem_append_left _ ((volatiles_ctr _).mpr (volatile.trans saved)))
  · exact same (.fpr r) (List.mem_append_left _ ((volatiles_fpr _ _).mpr ⟨volatile.trans saved,by simp only [num_vfprs]; omega⟩))

-- The large processor reloads the condition register from its own frame's CR
-- save word, whatever is there by then.
theorem epilog_cr {f : StackFrame} (cpu : Target.cpu = .ppc64) (some : f.crfs ≠ 0) (few : f.gprs ≤ max_gprs) (m : Machine) :
    (exec f.epilog m).cr = unpackFields (m.read (m.gpr r1 + cr_save_offset*wordSize)) := by
  have place : slot cr_save_offset = ⟨r1,cr_save_offset*wordSize⟩ :=
    slot_small (by simp [cr_save_offset,wordSize,wide,cpu,Cells.width])
  have link : f.link_crs = [.cr] := by simp only [link_crs,cpu,some,if_false]
  have clear : Saved.gpr r1 ∉ f.volatiles := fun member => plan_clear f few (by decide) (List.mem_append_left _ member)
  have absent : Saved.cr ∉ f.nonvolatiles := by rw [nonvolatiles_cr,cpu]; simp
  simp only [epilog,exec_append,link,List.flatMap_cons,List.flatMap_nil,List.append_nil,place]
  generalize first : exec (reloads f.volatiles (f.first_slot+1)) m = m₁
  have stack : m₁.gpr r1 = m.gpr r1 := first ▸ reloads_same f.volatiles _ m (.gpr r1) (by decide) clear
  have mem : m₁.mem = m.mem := first ▸ (reloads_mem f.volatiles _ m).1
  refine (pop_same f _ .cr (by simp) (by simp)).trans ?_
  refine (reloads_same f.nonvolatiles _ _ .cr (by simp) absent).trans ?_
  rw [reload_cr,stack,Machine.read,mem,Machine.read]

-- A body that stores another condition register there, as a callee may.
def overwrite (m : Machine) : Machine := m.write (m.gpr r1 + cr_save_offset*wordSize) (packFields fun _ => 1)

theorem overwrite_body (f : StackFrame) (m : Machine) : Body f m (overwrite m) := by
  have pos := wordSize_pos
  have link : 2 ≤ f.first_slot := by
    have : 2 ≤ link_area_words := by unfold link_area_words; split <;> decide
    unfold first_slot start_of_locals_words; omega
  have inside := Int.mul_le_mul_of_nonneg_right (show (2 : Int) ≤ f.first_slot by omega) (Int.le_of_lt pos)
  refine ⟨rfl,Cells.SameOutside.putWord _ _ ?_ ?_⟩ <;> simp only [cr_save_offset] <;> simp only [wordSize] at * <;> omega

theorem not_restored (valid : Valid b) (cpu : Target.cpu = .ppc64) (asked : b.fields ≠ []) :
    ¬ ∀ m m', Body b.frame.pad (exec b.frame.pad.prolog m) m' → Restored b m (exec b.frame.pad.epilog m') := by
  intro all
  obtain ⟨_,_,crfs,gprs,_,_⟩ := pad_fields b.frame
  have some : b.frame.pad.crfs ≠ 0 := by rw [crfs,← valid.fields]; simpa using asked
  let m : Machine := ⟨fun _ => 0,fun _ => 0,fun _ => 0,0,0,fun _ => 0⟩
  have back := (all m _ (overwrite_body _ _)).condition asked
  rw [epilog_cr cpu some (gprs ▸ valid.registers.2)] at back
  have value : (overwrite (exec b.frame.pad.prolog m)).read
      ((overwrite (exec b.frame.pad.prolog m)).gpr r1 + cr_save_offset*wordSize) = packFields fun _ => 1 :=
    Cells.word_putWord _ _ _
  rw [value,unpack_pack] at back
  exact absurd (congrFun back 0) (by decide)

-- Every frame the requests can build, every machine and every body: the epilog
-- brings back what was promised, except that the large processor loses the
-- condition register as soon as a field of it was handed out.
theorem round_trip (requests : List Request) (b : Built) (code back : List Instr) (f f' : StackFrame)
    (built : build requests = some b) (written : generate_prolog b.frame = some (code,f))
    (rewritten : generate_epilog f = some (back,f')) (fits : f.frame_size < 2^15) :
    (∀ m m', Body f (exec code m) m' → Restored b m (exec back m')) ↔ (Target.cpu = .ppc32 ∨ b.fields = []) := by
  have valid := build_valid built
  simp only [generate_prolog,valid.fresh,if_true,Option.some.injEq,Prod.mk.injEq] at written
  obtain ⟨rfl,rfl⟩ := written
  simp only [generate_epilog,ne_eq,reduceCtorEq,not_false_eq_true,if_true,Option.some.injEq,Prod.mk.injEq] at rewritten
  obtain ⟨rfl,_⟩ := rewritten
  have padded := pad_padded b.frame fits
  constructor
  · intro all
    cases cpu : Target.cpu with
    | ppc32 => exact .inl rfl
    | ppc64 =>
      right
      by_contra asked
      exact not_restored valid cpu asked all
  · exact fun fields m m' body => restored valid padded fields body

omit [Target] in
-- A frame with every volatile register and two handed-out ones.
theorem round_trip_register_and_field : letI := ppc32
    let f := {pad {gprs := 1,crfs := 1,save_volatiles := true} with state := .done_prolog}
    (∀ m m', Body f (exec f.prolog m) m' →
      Restored ⟨{gprs := 1,crfs := 1,save_volatiles := true},[],[4],[31],[]⟩ m (exec f.epilog m')) ↔
    (ppc32.cpu = .ppc32 ∨ [4] = ([] : List Nat)) := by
  let := ppc32
  refine round_trip [.get_register,.get_cr_field,.set_save_volatiles true]
    ⟨{gprs := 1,crfs := 1,save_volatiles := true},[],[4],[31],[]⟩ _ _ _ _ rfl rfl rfl ?_
  show (pad _).frame_size < _
  rw [pad_exact]
  decide

omit [Target] in
-- One condition field on the large processor: the body stores 0x11111111 in the
-- frame's CR save word, and the epilog takes it for the caller's.
theorem condition_lost : letI := ppc64
    let f := pad {crfs := 1}
    build [.get_cr_field] = some {frame := {crfs := 1},fields := [4]} ∧ f.frame_size < 2^15 ∧
      ¬ ∀ m m', Body f (exec f.prolog m) m' → Restored {frame := {crfs := 1},fields := [4]} m (exec f.epilog m') := by
  let := ppc64
  have fits : (pad {crfs := 1}).frame_size < 2^15 := by rw [pad_exact]; decide
  have built : build [.get_cr_field] = some {frame := {crfs := 1},fields := [4]} := rfl
  exact ⟨built,fits,not_restored (build_valid built) rfl (by simp)⟩

end IcedTea.StackFrame

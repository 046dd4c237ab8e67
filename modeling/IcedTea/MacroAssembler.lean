import IcedTea.Vm
import IcedTea.StackFrame
import IcedTea.WriteSet

namespace IcedTea
open StackFrame

section
variable [Target]

def calc_padding_for_alignment (dst src : Register) (align : Int) : List Instr :=
  [.andi_ dst src (align-1),.subfic dst dst align,.andi_ dst dst (align-1)]

-- The extension keeps the back chain and, where the ABI has one, the CR save word.
def push_extra (scratch saved_r1 : Register) : List Instr :=
  [.mr saved_r1 r1,
   .neg scratch scratch,
   .store_update_indexed r1 r1 scratch,
   .load scratch ⟨saved_r1,back_chain_offset*wordSize⟩,
   .store scratch ⟨r1,back_chain_offset*wordSize⟩] ++
  match Target.cpu with
  | .ppc32 => []
  | .ppc64 =>
    [.load scratch ⟨saved_r1,cr_save_offset*wordSize⟩,
     .store scratch ⟨r1,cr_save_offset*wordSize⟩]

def extend_frame (required_bytes available_bytes : Register) : List Instr :=
  let extra_bytes := required_bytes
  let padding := available_bytes
  [.sub extra_bytes required_bytes available_bytes] ++
  calc_padding_for_alignment padding extra_bytes StackAlignmentInBytes ++
  [.add extra_bytes extra_bytes padding] ++
  push_extra extra_bytes padding

def maybe_extend_frame (required_bytes available_bytes : Register) (m : Machine) : Machine :=
  let m := step m (.compare cr0 required_bytes available_bytes)
  if (m.cr cr0).gt then exec (extend_frame required_bytes available_bytes) m else m

omit [Target] in
theorem andImmediate_mask (x : Int) : andImmediate x 15 = x % 16 := by
  have digits := Nat.and_two_pow_sub_one_eq_mod (x % 2^16).toNat 4
  simp only [andImmediate]
  have mask : (15 : Int).toNat = 2^4-1 := rfl
  rw [mask,digits]
  omega

-- The padding is the distance to the next multiple of 16.
theorem calc_padding_spec (m : Machine) (dst src : Register) :
    let m' := exec (calc_padding_for_alignment dst src StackAlignmentInBytes) m
    (∀ r, m'.gpr r = if r = dst then -m.gpr src % 16 else m.gpr r) ∧ m'.fpr = m.fpr ∧
      (∀ c, c ≠ cr0 → m'.cr c = m.cr c) ∧ m'.lr = m.lr ∧ m'.ctr = m.ctr ∧ m'.mem = m.mem := by
  have align : StackAlignmentInBytes = 16 := rfl
  have wrap : (16 - m.gpr src % 16) % 16 = -m.gpr src % 16 := by omega
  refine ⟨fun r => ?_,rfl,fun c other => ?_,rfl,rfl,rfl⟩
  · by_cases same : r = dst <;>
      simp [calc_padding_for_alignment,step,align,andImmediate_mask,same,wrap]
  · simp only [cr0] at other
    simp [calc_padding_for_alignment,step,other]

-- What the extension by `extra` bytes changes: r1 and the two working
-- registers, condition field 0 and the link area at the new r1.
structure Extended (required_bytes available_bytes : Register) (extra : Int) (m m' : Machine) : Prop where
  aligned : extra % 16 = 0
  nonneg : 0 ≤ extra
  room : m.gpr required_bytes ≤ m.gpr available_bytes + extra
  stack : m'.gpr r1 = m.gpr r1 - extra
  gpr : ∀ r, r ≠ r1 → r ≠ required_bytes → r ≠ available_bytes → m'.gpr r = m.gpr r
  fpr : m'.fpr = m.fpr
  cr : ∀ c, c ≠ cr0 → m'.cr c = m.cr c
  lr : m'.lr = m.lr
  ctr : m'.ctr = m.ctr
  back_chain : m'.read (m'.gpr r1) = m.read (m.gpr r1)
  cr_word : Target.cpu = .ppc64 → m'.read (m'.gpr r1 + wordSize) = m.read (m.gpr r1 + wordSize)
  mem : Cells.SameOutside (m'.gpr r1) (m'.gpr r1 + min extra (2*wordSize)) m.mem m'.mem

theorem Extended.keeps (extended : Extended required_bytes available_bytes extra m m') :
    Keeps [.gpr r1,.gpr required_bytes,.gpr available_bytes,.cr cr0] m m' := by
  intro p absent
  simp only [List.mem_cons,List.not_mem_nil,or_false,not_or] at absent
  obtain ⟨top,required,available,field⟩ := absent
  cases p with
  | gpr r =>
    exact extended.gpr r (fun same => top (by rw [same])) (fun same => required (by rw [same])) (fun same => available (by rw [same]))
  | fpr f => exact congrFun extended.fpr f
  | cr c => exact extended.cr c fun same => field (by rw [same])
  | lr => exact extended.lr
  | ctr => exact extended.ctr

theorem push_extra_mem (m : Machine) (scratch saved_r1 : Register) (apart : scratch ≠ saved_r1) (stack : scratch ≠ r1)
    (stack' : saved_r1 ≠ r1) (enough : 16 ≤ m.gpr scratch) :
    let base := m.gpr r1 - m.gpr scratch
    let chained := (m.mem.putWord wide base (m.gpr r1)).putWord wide base (m.read (m.gpr r1))
    (exec (push_extra scratch saved_r1) m).mem = match Target.cpu with
      | .ppc32 => chained
      | .ppc64 => chained.putWord wide (base + wordSize) (m.read (m.gpr r1 + wordSize)) := by
  simp only [r1] at stack stack'
  have size := wordSize_le
  have first : ∀ v, (m.mem.putWord wide (m.gpr 1 + -m.gpr scratch) v).word wide (m.gpr 1) = m.read (m.gpr 1) :=
    fun v => Cells.word_putWord_apart _ _ (.inl (show _ + wordSize ≤ _ by omega))
  have second : ∀ v w, ((m.mem.putWord wide (m.gpr 1 + -m.gpr scratch) v).putWord wide (m.gpr 1 + -m.gpr scratch) w).word wide
      (m.gpr 1 + wordSize) = m.read (m.gpr 1 + wordSize) := by
    intro v w
    have far : m.gpr 1 + -m.gpr scratch + Cells.width wide ≤ m.gpr 1 + wordSize := show _ + wordSize ≤ _ by omega
    rw [Cells.word_putWord_apart _ _ (.inl far),Cells.word_putWord_apart _ _ (.inl far)]
    rfl
  cases cpu : Target.cpu <;>
    simp [push_extra,cpu,step,apart,stack',apart.symm,back_chain_offset,cr_save_offset,Ne.symm stack,Ne.symm stack',
      Machine.read,first,second,Int.sub_eq_add_neg]

theorem push_extra_registers (m : Machine) (scratch saved_r1 : Register) (apart : scratch ≠ saved_r1) (stack : scratch ≠ r1)
    (stack' : saved_r1 ≠ r1) : let m' := exec (push_extra scratch saved_r1) m
    m'.gpr r1 = m.gpr r1 - m.gpr scratch ∧ (∀ r, r ≠ r1 → r ≠ scratch → r ≠ saved_r1 → m'.gpr r = m.gpr r) ∧
      m'.fpr = m.fpr ∧ m'.cr = m.cr ∧ m'.lr = m.lr ∧ m'.ctr = m.ctr := by
  simp only [r1] at stack stack'
  cases cpu : Target.cpu <;> refine ⟨?_,fun r top work saved => ?_,?_,?_,?_,?_⟩ <;>
    simp_all [push_extra,step,apart.symm,Ne.symm stack,Ne.symm stack',Int.sub_eq_add_neg]

-- The code up to the push computes the size, a multiple of 16.
theorem extend_frame_size (m : Machine) (required_bytes available_bytes : Register) (apart : required_bytes ≠ available_bytes) :
    ∃ m₁, exec (extend_frame required_bytes available_bytes) m = exec (push_extra required_bytes available_bytes) m₁ ∧
      m₁.gpr required_bytes = m.gpr required_bytes - m.gpr available_bytes +
        -(m.gpr required_bytes - m.gpr available_bytes) % 16 ∧
      (∀ r, r ≠ required_bytes → r ≠ available_bytes → m₁.gpr r = m.gpr r) ∧ m₁.fpr = m.fpr ∧
      (∀ c, c ≠ cr0 → m₁.cr c = m.cr c) ∧ m₁.lr = m.lr ∧ m₁.ctr = m.ctr ∧ m₁.mem = m.mem := by
  let m₀ := m.set required_bytes (m.gpr required_bytes - m.gpr available_bytes)
  obtain ⟨gpr,fpr,cr,lr,ctr,mem⟩ := calc_padding_spec m₀ available_bytes required_bytes
  refine ⟨step (exec (calc_padding_for_alignment available_bytes required_bytes StackAlignmentInBytes) m₀)
    (.add required_bytes required_bytes available_bytes),?_,?_,fun r work padding => ?_,fpr,cr,lr,ctr,mem⟩
  · simp only [extend_frame,exec_append,exec_cons,exec_nil,step,m₀]
  · simp only [step,Machine.set_gpr,if_true,gpr,if_neg apart,m₀]
  · simp only [step,Machine.set_gpr,gpr,if_neg work,if_neg padding,m₀]

theorem extend_frame_spec (m : Machine) (required_bytes available_bytes : Register)
    (apart : required_bytes ≠ available_bytes) (stack : required_bytes ≠ r1) (stack' : available_bytes ≠ r1)
    (short : m.gpr available_bytes < m.gpr required_bytes) :
    ∃ extra, 0 < extra ∧ Extended required_bytes available_bytes extra m (exec (extend_frame required_bytes available_bytes) m) := by
  obtain ⟨m₁,code,size,gpr,fpr,cr,lr,ctr,mem⟩ := extend_frame_size m required_bytes available_bytes apart
  have small := wordSize_le
  have pos := wordSize_pos
  have top : m₁.gpr r1 = m.gpr r1 := gpr r1 (Ne.symm stack) (Ne.symm stack')
  generalize extent : m₁.gpr required_bytes = extra at size
  have enough : 16 ≤ extra ∧ extra % 16 = 0 := by omega
  obtain ⟨gpr',regs⟩ := push_extra_registers m₁ required_bytes available_bytes apart stack stack'
  have words := push_extra_mem m₁ required_bytes available_bytes apart stack stack' (by omega)
  simp only [extent,top,Machine.read,mem] at gpr' words
  rw [code]
  generalize exec (push_extra required_bytes available_bytes) m₁ = m' at gpr' regs words
  obtain ⟨others,fpr',cr',lr',ctr'⟩ := regs
  refine ⟨extra,by omega,by omega,by omega,by omega,gpr',fun r a b c => (others r a b c).trans (gpr r b c),fpr'.trans fpr,
    fun c other => (congrFun cr' c).trans (cr c other),lr'.trans lr,ctr'.trans ctr,?_,fun cpu => ?_,?_⟩
  · rw [gpr',Machine.read,words]
    have far : m.gpr r1 - extra + Cells.width wide ≤ m.gpr r1 - extra + wordSize := Int.le_refl _
    cases Target.cpu with
    | ppc32 => exact Cells.word_putWord _ _ _
    | ppc64 => exact (Cells.word_putWord_apart _ _ (.inr far)).trans (Cells.word_putWord _ _ _)
  · rw [gpr',Machine.read,words,cpu]
    exact Cells.word_putWord _ _ _
  · rw [gpr',words,Int.min_eq_right (show 2*wordSize ≤ extra by omega)]
    have one : ∀ v, Cells.SameOutside (m.gpr r1 - extra) (m.gpr r1 - extra + 2*wordSize) m.mem
        (m.mem.putWord wide (m.gpr r1 - extra) v) := fun v =>
      Cells.SameOutside.putWord _ _ (Int.le_refl _) (show _ + wordSize ≤ _ by omega)
    have two := (one (m.gpr r1)).trans
      (Cells.SameOutside.putWord _ (m.mem.word wide (m.gpr r1)) (Int.le_refl _) (show _ + wordSize ≤ _ by omega))
    cases Target.cpu with
    | ppc32 => exact two
    | ppc64 => exact two.trans (Cells.SameOutside.putWord _ _ (by omega) (show _ + wordSize ≤ _ by omega))

theorem maybe_extend_frame_spec (m : Machine) (required_bytes available_bytes : Register)
    (apart : required_bytes ≠ available_bytes) (stack : required_bytes ≠ r1) (stack' : available_bytes ≠ r1) :
    ∃ extra, Extended required_bytes available_bytes extra m (maybe_extend_frame required_bytes available_bytes m) := by
  unfold maybe_extend_frame
  by_cases short : m.gpr available_bytes < m.gpr required_bytes
  · have taken : ((step m (.compare cr0 required_bytes available_bytes)).cr cr0).gt := by simpa [step] using short
    obtain ⟨extra,_,extended⟩ := extend_frame_spec (step m (.compare cr0 required_bytes available_bytes))
      required_bytes available_bytes apart stack stack' short
    refine ⟨extra,?_⟩
    simp only [if_pos taken]
    have field : ∀ c, c ≠ cr0 → (step m (.compare cr0 required_bytes available_bytes)).cr c = m.cr c := by
      intro c other
      simp only [step,Machine.setField_cr,if_neg other]
    exact {extended with cr := fun c other => (extended.cr c other).trans (field c other)}
  · have passed : ¬ ((step m (.compare cr0 required_bytes available_bytes)).cr cr0).gt := by simpa [step] using short
    simp only [if_neg passed]
    refine ⟨0,rfl,Int.le_refl _,by omega,by simp [step],by simp [step],rfl,fun c other => ?_,rfl,rfl,rfl,fun _ => rfl,
      fun _ _ => rfl⟩
    simp only [step,Machine.setField_cr,if_neg other]

end
end IcedTea

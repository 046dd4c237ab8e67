import IcedTea.MacroAssembler
import Mathlib.Logic.Relation
import Mathlib.Order.Bounds.Basic

namespace IcedTea
open StackFrame

variable [Target]

-- The frames found from `sp` by following back chains.
def BackChain (m : Machine) : Int → Int → Prop := Relation.TransGen fun sp sender => m.read sp = sender

-- A property of the machine before, between and after the instructions.
def Along (P : Machine → Prop) : List Instr → Machine → Prop
  | [],m => P m
  | i :: code,m => P m ∧ Along P code (step m i)

theorem Along.append (one : Along P first m) (two : Along P second (exec first m)) : Along P (first ++ second) m := by
  induction first generalizing m with
  | nil => exact two
  | cons i first ih => exact ⟨one.1,ih one.2 two⟩

-- Code that neither stores nor moves r1 keeps what depends on memory and r1.
theorem Along.quiet (P : Machine → Prop) (depends : ∀ m m', m'.mem = m.mem → m'.gpr r1 = m.gpr r1 → P m → P m')
    (code : List Instr) (m : Machine) (holds : P m) (silent : stores code m = []) (kept : .gpr r1 ∉ written code) :
    Along P code m := by
  induction code generalizing m with
  | nil => exact holds
  | cons i code ih =>
    simp only [stores,List.append_eq_nil_iff] at silent
    simp only [written,List.flatMap_cons,List.mem_append,not_or] at kept
    have mem : (step m i).mem = m.mem := funext fun b => step_outside i m (by simp [silent.1])
    have top : (step m i).gpr r1 = m.gpr r1 := (step_keeps i m).gpr r1 kept.1
    exact ⟨holds,ih (step m i) (depends m _ mem top holds) silent.2 kept.2⟩

theorem back_chain_depends (caller : Int) (m m' : Machine) (mem : m'.mem = m.mem) (top : m'.gpr r1 = m.gpr r1)
    (chain : BackChain m (m.gpr r1) caller) : BackChain m' (m'.gpr r1) caller := by
  rw [top]
  simpa only [BackChain,Machine.read,mem] using chain

theorem push_extra_chain (m : Machine) (scratch saved_r1 : Register) (apart : scratch ≠ saved_r1) (stack : scratch ≠ r1)
    (stack' : saved_r1 ≠ r1) (enough : 16 ≤ m.gpr scratch) :
    Along (fun m' => BackChain m' (m'.gpr r1) (m.read (m.gpr r1))) (push_extra scratch saved_r1) m := by
  simp only [r1] at stack stack'
  have size := wordSize_le
  have depends := back_chain_depends (m.read (m.gpr r1))
  let m₁ := exec [.mr saved_r1 r1,.neg scratch scratch] m
  let m₂ := step m₁ (.store_update_indexed r1 r1 scratch)
  let m₃ := step m₂ (.load scratch ⟨saved_r1,back_chain_offset*wordSize⟩)
  let m₄ := step m₃ (.store scratch ⟨r1,back_chain_offset*wordSize⟩)
  have top₁ : m₁.gpr r1 = m.gpr r1 := by simp [m₁,step,Ne.symm stack,Ne.symm stack']
  have chain₁ : BackChain m₁ (m₁.gpr r1) (m.read (m.gpr r1)) := depends m m₁ rfl top₁ (.single rfl)
  have top₂ : m₂.gpr r1 = m.gpr r1 - m.gpr scratch := by
    simp [m₂,m₁,step,apart,Ne.symm stack,Ne.symm stack',Int.sub_eq_add_neg]
  have mem₂ : m₂.mem = m.mem.putWord wide (m.gpr r1 - m.gpr scratch) (m.gpr r1) := by
    simp [m₂,m₁,step,apart,Ne.symm stack,Ne.symm stack',Int.sub_eq_add_neg]
  have old₂ : m₂.read (m.gpr r1) = m.read (m.gpr r1) := by
    rw [Machine.read,mem₂]
    exact Cells.word_putWord_apart _ _ (.inl (show _ + wordSize ≤ _ by omega))
  -- the new frame is empty and its caller is the old one
  have chain₂ : BackChain m₂ (m₂.gpr r1) (m.read (m.gpr r1)) := by
    refine .tail (.single (b := m.gpr r1) ?_) old₂
    rw [top₂,Machine.read,mem₂]
    exact Cells.word_putWord _ _ _
  have top₃ : m₃.gpr r1 = m₂.gpr r1 := by simp [m₃,step,Ne.symm stack]
  have scratch₃ : m₃.gpr scratch = m.read (m.gpr r1) := by
    have saved : m₂.gpr saved_r1 = m.gpr r1 := by simp [m₂,m₁,step,apart.symm,stack']
    rw [← old₂,← saved]
    simp [m₃,step,back_chain_offset]
  have top₄ : m₄.gpr r1 = m₂.gpr r1 := top₃
  have read₄ : m₄.read (m₂.gpr r1) = m.read (m.gpr r1) := by
    rw [← scratch₃,← top₃]
    simp [m₄,step,back_chain_offset,Machine.read]
  have chain₄ : BackChain m₄ (m₄.gpr r1) (m.read (m.gpr r1)) := .single (by rw [top₄]; exact read₄)
  have first : Along (fun m' => BackChain m' (m'.gpr r1) (m.read (m.gpr r1))) [.mr saved_r1 r1,.neg scratch scratch] m :=
    .quiet _ depends _ _ (.single rfl) rfl (by simp [written,Instr.written,Ne.symm stack,Ne.symm stack'])
  have middle : Along (fun m' => BackChain m' (m'.gpr r1) (m.read (m.gpr r1))) [.store_update_indexed r1 r1 scratch,
      .load scratch ⟨saved_r1,back_chain_offset*wordSize⟩,.store scratch ⟨r1,back_chain_offset*wordSize⟩] m₁ :=
    ⟨chain₁,chain₂,depends m₂ m₃ rfl top₃ chain₂,chain₄⟩
  refine Along.append (first.append middle) ?_
  change Along _ _ m₄
  cases Target.cpu with
  | ppc32 => exact chain₄
  | ppc64 =>
    let m₅ := step m₄ (.load scratch ⟨saved_r1,cr_save_offset*wordSize⟩)
    have top₅ : m₅.gpr r1 = m₂.gpr r1 := by rw [← top₄]; simp [m₅,step,Ne.symm stack]
    refine ⟨chain₄,depends m₄ m₅ rfl (top₅.trans top₄.symm) chain₄,.single ?_⟩
    -- the CR word is next to the back chain
    change (step m₅ (.store scratch ⟨r1,cr_save_offset*wordSize⟩)).read (m₅.gpr r1) = _
    rw [top₅,← read₄]
    simp only [step,Machine.read,Machine.write_mem,Machine.ea_mk,top₅,cr_save_offset,Nat.cast_one,Int.one_mul]
    exact Cells.word_putWord_apart _ _ (.inr (Int.le_refl _))

theorem push_extra_stores (m : Machine) (scratch saved_r1 : Register) (apart : scratch ≠ saved_r1) (stack : scratch ≠ r1)
    (stack' : saved_r1 ≠ r1) : ∀ w ∈ stores (push_extra scratch saved_r1) m,
      Range.Within (m.gpr r1 - m.gpr scratch) (m.gpr r1 - m.gpr scratch + link_area_words*wordSize) w := by
  simp only [r1] at stack stack'
  have pos := wordSize_pos
  cases cpu : Target.cpu <;>
    simp [push_extra,cpu,stores,Instr.stores,step,apart,Ne.symm stack,Ne.symm stack',back_chain_offset,cr_save_offset,
      link_area_words,Range.Within] <;> omega

-- The least multiple of 16 that is enough.
omit [Target] in
theorem least_extension (x : Int) : IsLeast {e | e % 16 = 0 ∧ x ≤ e} (x + -x % 16) := by
  refine ⟨⟨by omega,by omega⟩,fun e enough => ?_⟩
  obtain ⟨aligned,large⟩ := enough
  omega

-- The code that computes the size of the extension.
def size_of_extension (required_bytes available_bytes : Register) : List Instr :=
  [.sub required_bytes required_bytes available_bytes] ++
    calc_padding_for_alignment available_bytes required_bytes StackAlignmentInBytes ++
    [.add required_bytes required_bytes available_bytes]

theorem extend_frame_parts (required_bytes available_bytes : Register) : extend_frame required_bytes available_bytes =
    size_of_extension required_bytes available_bytes ++ push_extra required_bytes available_bytes := by
  simp only [extend_frame,size_of_extension]

theorem size_of_extension_spec (m : Machine) (required_bytes available_bytes : Register)
    (apart : required_bytes ≠ available_bytes) (stack : required_bytes ≠ r1) (stack' : available_bytes ≠ r1) :
    let m' := exec (size_of_extension required_bytes available_bytes) m
    let extra := m.gpr required_bytes - m.gpr available_bytes
    m'.gpr required_bytes = extra + -extra % 16 ∧ m'.gpr r1 = m.gpr r1 ∧ m'.mem = m.mem ∧
      stores (size_of_extension required_bytes available_bytes) m = [] ∧
      .gpr r1 ∉ written (size_of_extension required_bytes available_bytes) := by
  have quiet : .gpr r1 ∉ written (size_of_extension required_bytes available_bytes) := by
    simp only [r1] at stack stack'
    simp [written,size_of_extension,calc_padding_for_alignment,Instr.written,Ne.symm stack,Ne.symm stack']
  let m₀ := m.set required_bytes (m.gpr required_bytes - m.gpr available_bytes)
  obtain ⟨gpr,_⟩ := calc_padding_spec m₀ available_bytes required_bytes
  refine ⟨?_,(exec_keeps _ m).gpr r1 quiet,rfl,rfl,quiet⟩
  have code : exec (size_of_extension required_bytes available_bytes) m =
      step (exec (calc_padding_for_alignment available_bytes required_bytes StackAlignmentInBytes) m₀)
        (.add required_bytes required_bytes available_bytes) := by
    simp only [size_of_extension,exec_append,exec_cons,exec_nil,step,m₀]
  rw [code]
  simp only [step,Machine.set_gpr,if_true,gpr,if_neg apart,m₀]

section
variable (m : Machine) (required_bytes available_bytes : Register)

def compared : Machine := step m (.compare cr0 required_bytes available_bytes)

-- The frame is extended by what the code behind the branch computes first.
theorem extended_frame (apart : required_bytes ≠ available_bytes) (stack : required_bytes ≠ r1) (stack' : available_bytes ≠ r1)
    (short : m.gpr available_bytes < m.gpr required_bytes) :
    let sized := exec (size_of_extension required_bytes available_bytes) (compared m required_bytes available_bytes)
    let extra := m.gpr required_bytes - m.gpr available_bytes
    maybe_extend_frame required_bytes available_bytes m =
        exec (extend_frame required_bytes available_bytes) (compared m required_bytes available_bytes) ∧
      maybe_extend_frame required_bytes available_bytes m = exec (push_extra required_bytes available_bytes) sized ∧
      sized.gpr required_bytes = extra + -extra % 16 ∧ sized.gpr r1 = m.gpr r1 ∧ sized.mem = m.mem := by
  have taken : ((compared m required_bytes available_bytes).cr cr0).gt := by simpa [compared,step] using short
  have code : maybe_extend_frame required_bytes available_bytes m =
      exec (extend_frame required_bytes available_bytes) (compared m required_bytes available_bytes) := if_pos taken
  obtain ⟨size,top,mem,-,-⟩ := size_of_extension_spec (compared m required_bytes available_bytes)
    required_bytes available_bytes apart stack stack'
  refine ⟨code,?_,size,top,mem⟩
  rw [code,extend_frame_parts,exec_append]

theorem maybe_extend_frame_size (apart : required_bytes ≠ available_bytes) (stack : required_bytes ≠ r1)
    (stack' : available_bytes ≠ r1) :
    let m' := maybe_extend_frame required_bytes available_bytes m
    (m.gpr required_bytes ≤ m.gpr available_bytes → ∃ field, m' = m.setField cr0 field) ∧
    (m.gpr available_bytes < m.gpr required_bytes →
      IsLeast {e | e % StackAlignmentInBytes = 0 ∧ m.gpr required_bytes - m.gpr available_bytes ≤ e}
        (m.gpr r1 - m'.gpr r1)) := by
  refine ⟨fun enough => ?_,fun short => ?_⟩
  · have passed : ¬ ((compared m required_bytes available_bytes).cr cr0).gt := by simpa [compared,step] using enough
    exact ⟨_,if_neg passed⟩
  · obtain ⟨-,pushed,size,top,-⟩ := extended_frame m required_bytes available_bytes apart stack stack' short
    have down := (push_extra_registers (exec (size_of_extension required_bytes available_bytes)
      (compared m required_bytes available_bytes)) required_bytes available_bytes apart stack stack').1
    rw [pushed,down,top,size,Int.sub_sub_self]
    exact least_extension _
end

theorem maybe_extend_frame_least (m : Machine) (required_bytes available_bytes : Register)
    (apart : required_bytes ≠ available_bytes) (stack : required_bytes ≠ r1) (stack' : available_bytes ≠ r1) :
    let m' := maybe_extend_frame required_bytes available_bytes m
    (m.gpr required_bytes ≤ m.gpr available_bytes → ∃ field, m' = m.setField cr0 field) ∧
    (m.gpr available_bytes < m.gpr required_bytes →
      let code := extend_frame required_bytes available_bytes
      let compared := step m (.compare cr0 required_bytes available_bytes)
      m' = exec code compared ∧
      IsLeast {e | e % StackAlignmentInBytes = 0 ∧ m.gpr required_bytes - m.gpr available_bytes ≤ e} (m.gpr r1 - m'.gpr r1) ∧
      m'.read (m'.gpr r1) = m.read (m.gpr r1) ∧
      (Target.cpu = .ppc64 → m'.read (m'.gpr r1 + cr_save_offset*wordSize) = m.read (m.gpr r1 + cr_save_offset*wordSize)) ∧
      (∀ w ∈ stores code compared, Range.Within (m'.gpr r1) (m'.gpr r1 + link_area_words*wordSize) w) ∧
      Along (fun mid => BackChain mid (mid.gpr r1) (m.read (m.gpr r1))) code compared ∧
      Keeps [.gpr r1,.gpr required_bytes,.gpr available_bytes,.cr cr0] m m') := by
  obtain ⟨enough,least⟩ := maybe_extend_frame_size m required_bytes available_bytes apart stack stack'
  refine ⟨enough,fun short => ?_⟩
  obtain ⟨code,pushed,size,top,mem⟩ := extended_frame m required_bytes available_bytes apart stack stack' short
  obtain ⟨extra,extended⟩ := maybe_extend_frame_spec m required_bytes available_bytes apart stack stack'
  obtain ⟨-,-,-,silent,quiet⟩ := size_of_extension_spec (compared m required_bytes available_bytes)
    required_bytes available_bytes apart stack stack'
  have depends := back_chain_depends (m.read (m.gpr r1))
  have first : Along (fun mid => BackChain mid (mid.gpr r1) (m.read (m.gpr r1))) (size_of_extension required_bytes available_bytes)
      (compared m required_bytes available_bytes) := .quiet _ depends _ _ (.single rfl) silent quiet
  generalize sized : exec (size_of_extension required_bytes available_bytes)
    (compared m required_bytes available_bytes) = m₁ at pushed size top mem
  have bottom : (maybe_extend_frame required_bytes available_bytes m).gpr r1 = m₁.gpr r1 - m₁.gpr required_bytes := by
    rw [pushed,(push_extra_registers m₁ required_bytes available_bytes apart stack stack').1]
  refine ⟨code,least short,extended.back_chain,fun cpu => ?_,?_,?_,extended.keeps⟩
  · rw [show (cr_save_offset : Int)*wordSize = wordSize by simp [cr_save_offset]]
    exact extended.cr_word cpu
  · change ∀ w ∈ stores _ (compared m required_bytes available_bytes), _
    rw [extend_frame_parts,stores_append,silent,List.nil_append,sized,bottom]
    exact push_extra_stores m₁ required_bytes available_bytes apart stack stack'
  · have second := push_extra_chain m₁ required_bytes available_bytes apart stack stack' (by omega)
    have caller : m₁.read (m₁.gpr r1) = m.read (m.gpr r1) := by rw [top,Machine.read,mem]; rfl
    rw [caller] at second
    change Along _ _ (compared m required_bytes available_bytes)
    rw [extend_frame_parts]
    exact first.append (by rw [sized]; exact second)

omit [Target] in
-- Three words too few take two steps of 16 bytes.
theorem maybe_extend_frame_least_two : letI := ppc64
    let m : Machine := ⟨fun r => if r = r1 then 1024 else if r = r3 then 40 else 16,fun _ => 0,fun _ => 0,0,0,fun _ => 0⟩
    let m' := maybe_extend_frame r3 r4 m
    IsLeast {e | e % StackAlignmentInBytes = 0 ∧ m.gpr r3 - m.gpr r4 ≤ e} (m.gpr r1 - m'.gpr r1) := by
  let := ppc64
  intro m m'
  have short : m.gpr r4 < m.gpr r3 := by decide
  exact ((maybe_extend_frame_least m r3 r4 (by decide) (by decide) (by decide)).2 short).2.1

end IcedTea

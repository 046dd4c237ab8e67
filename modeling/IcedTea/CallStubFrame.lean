import IcedTea.CallStub
import Mathlib.Tactic.Positivity

namespace IcedTea.StubGenerator
open StackFrame (lr_save_offset cr_save_offset back_chain_offset StackAlignmentInBytes link_area_words min_params)
open CppInterpreter (LogBytesPerWord bdnz bdnz_loop shift_words)

section
variable [Target]

theorem base_size_eq : call_stub_base_size = call_stub_frame.start_of_locals + slots.length*wordSize := by
  unfold call_stub_base_size StackFrame.unaligned_size StackFrame.unaligned_words StackFrame.start_of_locals
    StackFrame.start_of_locals_words slots cr_slots gpr_slots call_stub_frame StackFrame.max_crfs StackFrame.max_gprs
  cases Target.cpu <;> simp <;> ring

theorem start_of_locals_eq : call_stub_frame.start_of_locals = link_area_words*wordSize + min_params*wordSize := by
  unfold StackFrame.start_of_locals StackFrame.start_of_locals_words call_stub_frame min_params
  cases Target.cpu <;> simp
  ring

theorem calculate_frame_size_spec (m : Machine) : let m' := exec calculate_frame_size m
    let size := m.gpr r9 * wordSize + call_stub_base_size
    m'.gpr r9 = m.gpr r9 * wordSize ∧ m'.gpr r12 = -size % 16 ∧ m'.gpr r11 = size + -size % 16 ∧ m'.mem = m.mem ∧
      Keeps [.gpr r9,.gpr r11,.gpr r12,.cr cr0] m m' := by
  let m₁ := exec [.shift_left r9 r9 LogBytesPerWord,.addi r11 r9 call_stub_base_size] m
  have words : m₁.gpr r9 = m.gpr r9 * wordSize := by simp [m₁,step,shift_words]
  have size : m₁.gpr r11 = m.gpr r9 * wordSize + call_stub_base_size := by simp [m₁,step,shift_words]
  obtain ⟨gpr,_,_,_,_,mem⟩ := calc_padding_spec m₁ r12 r11
  have code : exec calculate_frame_size m = step (exec (calc_padding_for_alignment r12 r11 StackAlignmentInBytes) m₁)
      (.add r11 r11 r12) := by simp only [calculate_frame_size,exec_append]; rfl
  have padding := gpr r12
  have same := gpr r11
  have bytes := gpr r9
  rw [if_pos rfl,size] at padding
  rw [if_neg (by decide),size] at same
  rw [if_neg (by decide),words] at bytes
  refine ⟨?_,?_,?_,by rw [code]; exact mem,(exec_keeps _ m).mono ?_⟩
  · rw [code]; simp only [step,Machine.set_gpr]; rw [if_neg (by decide),bytes]
  · rw [code]; simp only [step,Machine.set_gpr]; rw [if_neg (by decide),padding]
  · rw [code]; simp only [step,Machine.set_gpr,if_true,same,padding]
  · simp [written,calculate_frame_size,calc_padding_for_alignment,Instr.written]

theorem create_frame_spec (m : Machine) (large : 2*wordSize ≤ m.gpr r11) : let m' := exec create_frame m
    m'.gpr r1 = m.gpr r1 - m.gpr r11 ∧ m'.read (m'.gpr r1) = m.gpr r1 ∧
      (Target.cpu = .ppc64 → m'.read (m'.gpr r1 + cr_save_offset*wordSize) = packFields m.cr) ∧
      m'.read (m.gpr r1 + lr_save_offset*wordSize) = m.lr ∧
      (∀ b, b < m'.gpr r1 ∨ m'.gpr r1 + 2*wordSize ≤ b → b < m.gpr r1 + lr_save_offset*wordSize ∨
        m.gpr r1 + lr_save_offset*wordSize + wordSize ≤ b → m'.mem b = m.mem b) ∧
      Keeps [.gpr r0,.gpr r1] m m' := by
  have pos := wordSize_pos
  have low := CppInterpreter.lr_save_above
  have one : (cr_save_offset : Int)*wordSize = wordSize := by simp [cr_save_offset]
  have stack : (exec create_frame m).gpr r1 = m.gpr r1 - m.gpr r11 := by
    cases cpu : Target.cpu <;> simp [create_frame,cpu,step,Int.sub_eq_add_neg]
  have kept : Keeps [.gpr r0,.gpr r1] m (exec create_frame m) := by
    refine (exec_keeps _ m).mono ?_
    cases cpu : Target.cpu <;> simp [create_frame,cpu,written,Instr.written]
  let linked := (m.mem.putWord wide (m.gpr r1 + lr_save_offset*wordSize) m.lr).putWord wide (m.gpr r1 - m.gpr r11) (m.gpr r1)
  have chain : linked.word wide (m.gpr r1 - m.gpr r11) = m.gpr r1 := Cells.word_putWord _ _ _
  have lr : linked.word wide (m.gpr r1 + lr_save_offset*wordSize) = m.lr := by
    refine (Cells.word_putWord_apart _ _ (.inl (show _ + wordSize ≤ _ by omega))).trans ?_
    exact Cells.word_putWord _ _ _
  have others : ∀ b, b < m.gpr r1 - m.gpr r11 ∨ m.gpr r1 - m.gpr r11 + 2*wordSize ≤ b → b < m.gpr r1 + lr_save_offset*wordSize ∨
      m.gpr r1 + lr_save_offset*wordSize + wordSize ≤ b → linked b = m.mem b := fun b outside apart =>
    (Cells.putWord_outside _ _ (show _ ∨ _ + wordSize ≤ _ by omega)).trans
      (Cells.putWord_outside _ _ (show _ ∨ _ + wordSize ≤ _ by omega))
  dsimp only
  rw [stack]
  cases cpu : Target.cpu with
  | ppc32 =>
    have mem : (exec create_frame m).mem = linked := by simp [create_frame,cpu,step,linked,Int.sub_eq_add_neg]
    simp only [Machine.read,mem]
    exact ⟨trivial,chain,by simp,lr,others,kept⟩
  | ppc64 =>
    have mem : (exec create_frame m).mem = linked.putWord wide (m.gpr r1 - m.gpr r11 + cr_save_offset*wordSize) (packFields m.cr) := by
      simp [create_frame,cpu,step,linked,Int.sub_eq_add_neg]
    simp only [Machine.read,mem]
    refine ⟨trivial,?_,fun _ => Cells.word_putWord _ _ _,?_,fun b outside apart => ?_,kept⟩
    · exact (Cells.word_putWord_apart _ _ (.inr (show _ + wordSize ≤ _ by omega))).trans chain
    · exact (Cells.word_putWord_apart _ _ (.inl (show _ + wordSize ≤ _ by omega))).trans lr
    · exact (Cells.putWord_outside _ _ (show _ ∨ _ + wordSize ≤ _ by omega)).trans (others b outside apart)

-- The word of a slot, and what it holds.
def Slot.value (m : Machine) : Slot → Int
  | call_wrapper => m.gpr r3
  | result => m.gpr r4
  | result_type => m.gpr r5
  | cr => packFields m.cr
  | gpr r => m.gpr r

theorem save_slot_spec (s : Slot) (offset : Nat) (m : Machine) (real : s ≠ .gpr r0) : let m' := exec (s.save offset) m
    m'.mem = m.mem.putWord wide (m.gpr r11 + offset*wordSize) (s.value m) ∧ Keeps [.gpr r0] m m' ∧
      (∀ t : Slot, t ≠ .gpr r0 → t.value m' = t.value m) := by
  have kept : Keeps [.gpr r0] m (exec (s.save offset) m) := by
    refine (exec_keeps _ m).mono ?_
    cases s <;> simp [Slot.save,written,Instr.written]
  refine ⟨?_,kept,fun t other => ?_⟩
  · cases s <;> simp [Slot.save,Slot.at_,Slot.value,step]
  · cases t with
    | call_wrapper => exact kept.gpr r3 (by simp)
    | result => exact kept.gpr r4 (by simp)
    | result_type => exact kept.gpr r5 (by simp)
    | cr => exact congrArg packFields (funext fun c => kept.cr c (by simp))
    | gpr r =>
      have plain : r ≠ r0 := fun same => other (by rw [same])
      exact kept.gpr r (by simpa using plain)

-- Each slot is stored in the word of its own.
theorem save_slots_spec (l : List Slot) (offset : Nat) (m : Machine) (real : .gpr r0 ∉ l) : let m' := exec (save_slots l offset) m
    (∀ k s, l[k]? = some s → m'.read (m.gpr r11 + ((offset+k : Nat) : Int)*wordSize) = s.value m) ∧
      Cells.SameOutside (m.gpr r11 + offset*wordSize) (m.gpr r11 + ((offset+l.length : Nat) : Int)*wordSize) m.mem m'.mem ∧
      Keeps [.gpr r0] m m' := by
  have pos := wordSize_pos
  induction l generalizing offset m with
  | nil => exact ⟨fun k s found => by simp at found,Cells.SameOutside.refl _ _ _,Keeps.refl _ m⟩
  | cons s rest ih =>
    obtain ⟨mem,kept,values⟩ := save_slot_spec s offset m fun same => real (by simp [same])
    obtain ⟨words,outside,kept'⟩ := ih (offset+1) (exec (s.save offset) m) fun later => real (by simp [later])
    have code : exec (save_slots (s :: rest) offset) m = exec (save_slots rest (offset+1)) (exec (s.save offset) m) := by
      simp only [save_slots,exec_append]
    rw [code]
    have base : (exec (s.save offset) m).gpr r11 = m.gpr r11 := kept.gpr r11 (by simp)
    rw [base] at words outside
    rw [mem] at outside
    generalize exec (save_slots rest (offset+1)) (exec (s.save offset) m) = m' at *
    have up := Int.mul_nonneg (Int.natCast_nonneg rest.length) (Int.le_of_lt pos)
    have next : ((offset+1 : Nat) : Int)*wordSize = offset*wordSize + wordSize := by push_cast; ring
    have last : ((offset+(s :: rest).length : Nat) : Int)*wordSize = offset*wordSize + wordSize + rest.length*wordSize := by
      simp only [List.length_cons]; push_cast; ring
    have last' : ((offset+1+rest.length : Nat) : Int)*wordSize = offset*wordSize + wordSize + rest.length*wordSize := by
      push_cast; ring
    rw [next,last'] at outside
    refine ⟨fun k t found => ?_,?_,(kept.trans kept').mono (by simp)⟩
    · cases k with
      | zero =>
        simp only [List.getElem?_cons_zero,Option.some.injEq] at found
        rw [← found,Nat.add_zero,Machine.read,outside.word (.inl (show _ + wordSize ≤ _ by omega))]
        exact Cells.word_putWord _ _ _
      | succ k =>
        simp only [List.getElem?_cons_succ] at found
        have place : offset+(k+1) = offset+1+k := by omega
        have plain : t ≠ .gpr r0 := fun same => real (List.mem_cons_of_mem _ (same ▸ List.mem_of_getElem? found))
        rw [place,words k t found,values t plain]
    · rw [last]
      refine Cells.SameOutside.trans ?_ (outside.mono (by omega) (by omega))
      exact Cells.SameOutside.putWord _ _ (Int.le_refl _) (show _ + wordSize ≤ _ by omega)

-- The loop that passes the parameters, from r8 upwards to r12 downwards.
theorem copy_word_spec (m : Machine) : let m' := exec copy_word m
    m'.gpr r8 = m.gpr r8 + wordSize ∧ m'.gpr r12 = m.gpr r12 - wordSize ∧
      m'.mem = m.mem.putWord wide (m.gpr r12) (m.read (m.gpr r8)) ∧ Keeps [.gpr r0,.gpr r8,.gpr r12] m m' := by
  refine ⟨?_,?_,?_,(exec_keeps _ m).mono (by simp [written,copy_word,Instr.written])⟩ <;> simp [copy_word,step]

theorem copy_words_spec (n : Nat) (m : Machine) : let m' := bdnz copy_word n m
    (m.gpr r8 + n*wordSize ≤ m.gpr r12 - n*wordSize + wordSize ∨ m.gpr r12 + wordSize ≤ m.gpr r8 →
      ∀ i : Nat, i < n → m'.read (m.gpr r12 - i*wordSize) = m.read (m.gpr r8 + i*wordSize)) ∧
      Cells.SameOutside (m.gpr r12 - n*wordSize + wordSize) (m.gpr r12 + wordSize) m.mem m'.mem ∧
      Keeps [.gpr r0,.gpr r8,.gpr r12,.ctr] m m' := by
  have pos := wordSize_pos
  induction n generalizing m with
  | zero => exact ⟨fun _ i less => absurd less (Nat.not_lt_zero i),fun _ _ => rfl,Keeps.refl _ m⟩
  | succ n ih =>
    obtain ⟨src,dst,mem,kept⟩ := copy_word_spec m
    let m₁ := {exec copy_word m with ctr := (exec copy_word m).ctr-1}
    have kept₁ : Keeps [.gpr r0,.gpr r8,.gpr r12,.ctr] m m₁ := by
      intro p absent
      simp only [List.mem_cons,List.not_mem_nil,or_false,not_or] at absent
      have same := kept p (by simp [absent])
      cases p with
      | ctr => exact absurd rfl absent.2.2.2
      | _ => exact same
    obtain ⟨words,outside,kept'⟩ := ih m₁
    have code : bdnz copy_word (n+1) m = bdnz copy_word n m₁ := rfl
    have src₁ : m₁.gpr r8 = m.gpr r8 + wordSize := src
    have dst₁ : m₁.gpr r12 = m.gpr r12 - wordSize := dst
    have mem₁ : m₁.mem = m.mem.putWord wide (m.gpr r12) (m.read (m.gpr r8)) := mem
    rw [code]
    generalize bdnz copy_word n m₁ = m' at *
    rw [dst₁,mem₁] at outside
    rw [src₁,dst₁] at words
    have down := Int.mul_nonneg (Int.natCast_nonneg n) (Int.le_of_lt pos)
    have more : ((n+1 : Nat) : Int)*wordSize = n*wordSize + wordSize := by push_cast; ring
    rw [more]
    refine ⟨fun apart i less => ?_,?_,(kept₁.trans kept').mono (by simp)⟩
    · cases i with
      | zero =>
        simp only [Nat.cast_zero,Int.zero_mul,Int.sub_zero,Int.add_zero]
        rw [Machine.read,outside.word (.inr (by omega))]
        exact Cells.word_putWord _ _ _
      | succ i =>
        have word := words (by omega) i (by omega)
        have up : ∀ a : Int, a + ((i+1 : Nat) : Int)*wordSize = a + wordSize + i*wordSize := by intro a; push_cast; ring
        have low : ∀ a : Int, a - ((i+1 : Nat) : Int)*wordSize = a - wordSize - i*wordSize := by intro a; push_cast; ring
        have near := Int.mul_le_mul_of_nonneg_right (show (i : Int)+1 ≤ n by omega) (Int.le_of_lt pos)
        have nonneg := Int.mul_nonneg (Int.natCast_nonneg i) (Int.le_of_lt pos)
        rw [Int.add_mul] at near
        rw [up,low,word,Machine.read,mem₁]
        exact Cells.word_putWord_apart _ _ (show _ + wordSize ≤ _ ∨ _ + wordSize ≤ _ by omega)
    · refine Cells.SameOutside.trans ?_ (outside.mono (by omega) (by omega))
      exact Cells.SameOutside.putWord _ _ (by omega) (show _ + wordSize ≤ _ by omega)

theorem pass_parameters_spec (m : Machine) (n : Nat) (bytes : m.gpr r9 = n*wordSize) : let m' := pass_parameters m
    (n ≤ 2^(8*wordSize).toNat →
      m.gpr r8 + n*wordSize ≤ m.gpr r11 - n*wordSize + wordSize ∨ m.gpr r11 + wordSize ≤ m.gpr r8 →
      ∀ i : Nat, i < n → m'.read (m.gpr r11 - i*wordSize) = m.read (m.gpr r8 + i*wordSize)) ∧
      Cells.SameOutside (m.gpr r11 - n*wordSize + wordSize) (m.gpr r11 + wordSize) m.mem m'.mem ∧
      Keeps [.gpr r0,.gpr r8,.gpr r12,.cr cr0,.ctr] m m' := by
  have pos := wordSize_pos
  let m₁ := step m (.compareImm cr0 r9 0)
  have kept₁ : Keeps [.cr cr0] m m₁ := step_keeps (.compareImm cr0 r9 0) m
  have test : (m₁.cr cr0).gt ↔ 0 < m.gpr r9 := by simp [m₁,step]
  cases n with
  | zero =>
    have stop : ¬ (m₁.cr cr0).gt := by rw [test,bytes]; simp
    have code : pass_parameters m = m₁ := if_neg stop
    rw [code]
    exact ⟨fun _ _ i less => absurd less (Nat.not_lt_zero i),fun _ _ => rfl,kept₁.mono (by simp)⟩
  | succ n =>
    have more : 0 < ((n+1 : Nat) : Int)*wordSize := Int.mul_pos (by omega) pos
    let m₂ := exec [.mr r12 r11,.shift_right r0 r9 LogBytesPerWord,.mtctr r0] m₁
    have code : pass_parameters m = bdnz_loop copy_word m₂ := if_pos (test.mpr (by rw [bytes]; exact more))
    have kept₂ : Keeps [.gpr r12,.gpr r0,.ctr] m₁ m₂ := (exec_keeps _ m₁).mono (by simp [written,Instr.written])
    have dst : m₂.gpr r12 = m.gpr r11 := by simp [m₂,m₁,step]
    have src : m₂.gpr r8 = m.gpr r8 := (kept₂.gpr r8 (by simp)).trans (kept₁.gpr r8 (by simp))
    have mem : m₂.mem = m.mem := rfl
    have count : m₂.ctr = ((n+1 : Nat) : Int) := by
      have shift : (2 : Int)^LogBytesPerWord = wordSize := by
        have := shift_words 1
        rwa [Int.one_mul,Int.one_mul] at this
      have value : m₂.ctr = m.gpr r9 / 2^LogBytesPerWord := by simp [m₂,m₁,step]
      rw [value,bytes,shift,Int.mul_ediv_cancel _ (Int.ne_of_gt pos)]
    -- CTR counts in its own width, so no more than the words there are
    obtain ⟨turns,loop,few,enough⟩ : ∃ turns : Nat, bdnz_loop copy_word m₂ = bdnz copy_word turns m₂ ∧ turns ≤ n+1 ∧
        (n+1 ≤ 2^(8*wordSize).toNat → turns = n+1) := by
      have width : (0 : Int) < 2^(8*wordSize).toNat := by positivity
      have less := Int.emod_lt_of_pos (m₂.ctr-1) width
      have nonneg := Int.emod_nonneg (m₂.ctr-1) (Int.ne_of_gt width)
      refine ⟨_,rfl,?_,fun fits => ?_⟩
      · have parts := Int.mul_ediv_add_emod (m₂.ctr-1) (2^(8*wordSize).toNat)
        have quotient := Int.mul_nonneg (Int.le_of_lt width)
          (Int.ediv_nonneg (show 0 ≤ m₂.ctr-1 by omega) (Int.le_of_lt width))
        omega
      · have exact_ : (m₂.ctr-1) % 2^(8*wordSize).toNat = m₂.ctr-1 := Int.emod_eq_of_lt (by omega) (by
          have cast : ((2^(8*wordSize).toNat : Nat) : Int) = 2^(8*wordSize).toNat := by push_cast; rfl
          omega)
        omega
    rw [code,loop]
    obtain ⟨words,outside,kept⟩ := copy_words_spec turns m₂
    rw [dst,mem] at outside
    rw [dst,src] at words
    have reach := Int.mul_le_mul_of_nonneg_right (show (turns : Int) ≤ ((n+1 : Nat) : Int) by omega) (Int.le_of_lt pos)
    refine ⟨fun fits apart i less => ?_,outside.mono (by omega) (by omega),((kept₁.trans kept₂).trans kept).mono (by simp)⟩
    rw [enough fits] at words ⊢
    rw [words apart i less]
    rfl

theorem calculate_locals_spec (m : Machine) : let m' := exec calculate_locals m
    m'.gpr r11 = m.gpr r1 + (call_stub_frame.start_of_locals - wordSize) + m.gpr r12 + m.gpr r9 ∧ m'.mem = m.mem ∧
      Keeps [.gpr r11] m m' :=
  ⟨by simp [calculate_locals,step],rfl,(exec_keeps _ m).mono (by simp [written,calculate_locals,Instr.written])⟩

theorem make_call_spec (m : Machine) : let m' := exec make_call m
    m'.gpr Rmethod = m.gpr r6 ∧ m'.gpr Rlocals = m.gpr r11 ∧ m'.gpr Rthread = m.gpr r10 ∧ m'.ctr = m.gpr r7 ∧ m'.mem = m.mem ∧
      Keeps [.gpr Rmethod,.gpr Rlocals,.gpr Rthread,.ctr] m m' :=
  ⟨by simp [make_call,step],by simp [make_call,step],by simp [make_call,step],by simp [make_call,step],rfl,
    (exec_keeps _ m).mono (by simp [written,make_call,Instr.written])⟩

theorem gpr_slot (member : .gpr r ∈ slots) : 14 ≤ r ∧ r < 32 := by
  unfold slots cr_slots gpr_slots at member
  cases cpu : Target.cpu <;> simp [cpu] at member <;> omega

theorem real_slots : .gpr r0 ∉ slots := by
  unfold slots cr_slots gpr_slots
  cases Target.cpu <;> decide
end

variable [StubRoutines]

-- The frame of a call with `n` parameter words. CR is saved after the padding
-- was computed in condition field 0.
structure Framed (n : Nat) (m m' : Machine) : Prop where
  padding : ∃ padding, 0 ≤ padding ∧ m'.gpr r1 = m.gpr r1 - (n*wordSize + call_stub_base_size + padding) ∧
    (n*wordSize + call_stub_base_size + padding) % 16 = 0 ∧
    m'.gpr Rlocals = m'.gpr r1 + call_stub_frame.start_of_locals - wordSize + padding + n*wordSize
  back_chain : m'.read (m'.gpr r1) = m.gpr r1
  cr_word : Target.cpu = .ppc64 → ∀ c, c ≠ cr0 → unpackFields (m'.read (m'.gpr r1 + cr_save_offset*wordSize)) c = m.cr c
  lr_save : m'.read (m.gpr r1 + lr_save_offset*wordSize) = m.lr
  saved : ∀ k s, slots[k]? = some s → s ≠ .cr →
    m'.read (m'.gpr Rlocals + ((initial_offset+k : Nat) : Int)*wordSize) = s.value m
  saved_cr : ∀ k, slots[k]? = some .cr → ∀ c, c ≠ cr0 →
    unpackFields (m'.read (m'.gpr Rlocals + ((initial_offset+k : Nat) : Int)*wordSize)) c = m.cr c
  parameters : n ≤ 2^(8*wordSize).toNat →
    m.gpr r8 + n*wordSize ≤ m'.gpr r1 ∨ m.gpr r1 + (lr_save_offset+1)*wordSize ≤ m.gpr r8 →
    ∀ i : Nat, i < n → m'.read (m'.gpr Rlocals - i*wordSize) = m.read (m.gpr r8 + i*wordSize)
  mem : ∀ b, b < m'.gpr r1 ∨ m.gpr r1 ≤ b → b < m.gpr r1 + lr_save_offset*wordSize ∨
    m.gpr r1 + lr_save_offset*wordSize + wordSize ≤ b → m'.mem b = m.mem b
  method : m'.gpr Rmethod = m.gpr r6
  thread : m'.gpr Rthread = m.gpr r10
  entry_point : m'.ctr = m.gpr r7
  return_address : m'.lr = StubRoutines.call_stub_return_address
  keeps : Keeps [.gpr r0,.gpr r1,.gpr r8,.gpr r9,.gpr r11,.gpr r12,.gpr Rmethod,.gpr Rlocals,.gpr Rthread,.cr cr0,.lr,.ctr] m m'

theorem call_stub_call_spec (m : Machine) (n : Nat) (count : m.gpr r9 = n) : Framed n m (call_stub_call m) := by
  obtain ⟨bytes₁,padding₁,size₁,mem₁,kept₁⟩ := calculate_frame_size_spec m
  generalize first : exec calculate_frame_size m = m₁ at *
  have large : 2*wordSize ≤ m₁.gpr r11 := by
    have pos := wordSize_pos
    have up := Int.mul_nonneg (Int.natCast_nonneg n) (Int.le_of_lt pos)
    have base := base_size_eq
    have start := start_of_locals_eq
    have link : 2*wordSize ≤ link_area_words*wordSize := by
      have : 2 ≤ link_area_words := by unfold link_area_words; cases Target.cpu <;> decide
      exact Int.mul_le_mul_of_nonneg_right (by omega) (Int.le_of_lt pos)
    have params := Int.mul_nonneg (Int.natCast_nonneg min_params) (Int.le_of_lt pos)
    have slots_nonneg := Int.mul_nonneg (Int.natCast_nonneg slots.length) (Int.le_of_lt pos)
    rw [count] at size₁
    omega
  obtain ⟨stack₂,chain₂,cr₂,lr₂,others₂,kept₂⟩ := create_frame_spec m₁ large
  generalize second : exec create_frame m₁ = m₂ at *
  obtain ⟨locals₃,mem₃,kept₃⟩ := calculate_locals_spec m₂
  generalize third : exec calculate_locals m₂ = m₃ at *
  obtain ⟨saved₄,mem₄,kept₄⟩ := save_slots_spec slots initial_offset m₃ real_slots
  generalize fourth : exec (save_slots slots initial_offset) m₃ = m₄ at *
  have bytes₄ : m₄.gpr r9 = n*wordSize := by
    rw [kept₄.gpr r9 (by simp),kept₃.gpr r9 (by simp),kept₂.gpr r9 (by simp),bytes₁,count]
  obtain ⟨copied₅,mem₅,kept₅⟩ := pass_parameters_spec m₄ n bytes₄
  generalize fifth : pass_parameters m₄ = m₅ at *
  obtain ⟨method₆,locals₆,thread₆,entry₆,mem₆,kept₆⟩ := make_call_spec m₅
  have code : call_stub_call m = {exec make_call m₅ with lr := StubRoutines.call_stub_return_address} := by
    simp only [call_stub_call,save_caller,store_registers,exec_append,first,second,third,fourth,fifth]
  rw [code]
  generalize exec make_call m₅ = m₆ at *
  clear first second third fourth fifth code
  have pos := wordSize_pos
  have small := wordSize_le
  have up := Int.mul_nonneg (Int.natCast_nonneg n) (Int.le_of_lt pos)
  have base := base_size_eq
  have start := start_of_locals_eq
  have top₁ : m₁.gpr r1 = m.gpr r1 := kept₁.gpr r1 (by simp)
  have lr₁ : m₁.lr = m.lr := kept₁.lr (by simp)
  have slots_nonneg := Int.mul_nonneg (Int.natCast_nonneg slots.length) (Int.le_of_lt pos)
  have link : 2*wordSize ≤ link_area_words*wordSize := by
    have : 2 ≤ link_area_words := by unfold link_area_words; cases Target.cpu <;> decide
    exact Int.mul_le_mul_of_nonneg_right (by omega) (Int.le_of_lt pos)
  have params := Int.mul_nonneg (Int.natCast_nonneg min_params) (Int.le_of_lt pos)
  have lr_low := CppInterpreter.lr_save_above
  have cr₁ : ∀ c, c ≠ cr0 → m₁.cr c = m.cr c := fun c other => kept₁.cr c (by simpa using other)
  have params_end : (call_stub_frame.start_of_locals : Int) = link_area_words*wordSize + min_params*wordSize := start
  rw [count] at bytes₁ padding₁ size₁
  have nonneg : 0 ≤ -(n*wordSize + call_stub_base_size) % 16 := Int.emod_nonneg _ (by decide)
  have aligned : (n*wordSize + call_stub_base_size + -(n*wordSize + call_stub_base_size) % 16) % 16 = 0 := by omega
  generalize -(n*wordSize + call_stub_base_size) % 16 = padding at padding₁ size₁ nonneg aligned
  rw [top₁,size₁] at stack₂
  rw [top₁] at chain₂ lr₂ others₂
  rw [lr₁] at lr₂
  rw [mem₁] at others₂
  rw [kept₂.gpr r12 (by simp),kept₂.gpr r9 (by simp),bytes₁,padding₁] at locals₃
  have locals₄ : m₄.gpr r11 = m₃.gpr r11 := kept₄.gpr r11 (by simp)
  have locals₅ : m₅.gpr r11 = m₃.gpr r11 := (kept₅.gpr r11 (by simp)).trans locals₄
  have stack₆ : m₆.gpr r1 = m₂.gpr r1 := by
    rw [kept₆.gpr r1 (by simp),kept₅.gpr r1 (by simp),kept₄.gpr r1 (by simp),kept₃.gpr r1 (by simp)]
  have last : ((initial_offset+slots.length : Nat) : Int)*wordSize = wordSize + slots.length*wordSize := by
    simp only [initial_offset]; push_cast; ring
  have first : ((initial_offset : Nat) : Int)*wordSize = wordSize := by simp [initial_offset]
  rw [last,first,mem₃] at mem₄
  rw [locals₄] at mem₅ copied₅
  -- below the locals only the link area is written, above the frame nothing more
  have below : ∀ b, b < m₃.gpr r11 - n*wordSize + wordSize → m₆.mem b = m₂.mem b := fun b low => by
    rw [mem₆,mem₅ b (.inl low),mem₄ b (.inl (by omega))]
  have above : ∀ b, m.gpr r1 ≤ b → m₆.mem b = m₂.mem b := fun b high => by
    rw [mem₆,mem₅ b (.inr (by omega)),mem₄ b (.inr (by omega))]
  have saved₆ : ∀ k s, slots[k]? = some s →
      m₆.read (m₃.gpr r11 + ((initial_offset+k : Nat) : Int)*wordSize) = s.value m₃ := fun k s found => by
    rw [← saved₄ k s found,Machine.read,mem₆]
    refine mem₅.word (.inr ?_)
    have offset := Int.mul_le_mul_of_nonneg_right (show (1 : Int) ≤ ((initial_offset+k : Nat) : Int) by
      simp only [initial_offset]; omega) (Int.le_of_lt pos)
    omega
  have registers : ∀ r, r ≠ 0 → r ≠ 1 → r ≠ 9 → r ≠ 11 → r ≠ 12 → m₃.gpr r = m.gpr r := fun r a b c d e => by
    rw [kept₃.gpr r (by simpa using d),kept₂.gpr r (by simpa using ⟨a,b⟩),kept₁.gpr r (by simpa using ⟨c,d,e⟩)]
  have fields : ∀ c, m₃.cr c = m₁.cr c := fun c => (kept₃.cr c (by simp)).trans (kept₂.cr c (by simp))
  refine ⟨⟨padding,nonneg,?_,aligned,?_⟩,?_,fun cpu c other => ?_,?_,fun k s found plain => ?_,fun k found c other => ?_,
    fun fits apart i less => ?_,fun b outside apart => ?_,?_,?_,?_,rfl,?_⟩
  · exact stack₆.trans stack₂
  · change m₆.gpr Rlocals = m₆.gpr r1 + _ - _ + _ + _
    rw [locals₆,locals₅,locals₃,stack₆]
    omega
  · change m₆.read (m₆.gpr r1) = _
    rw [stack₆,← chain₂]
    refine Cells.word_congr fun b low high => below b ?_
    change b < _ + wordSize at high
    omega
  · change unpackFields (m₆.read (m₆.gpr r1 + _)) c = _
    have word : m₆.read (m₂.gpr r1 + cr_save_offset*wordSize) = m₂.read (m₂.gpr r1 + cr_save_offset*wordSize) := by
      refine Cells.word_congr fun b low high => below b ?_
      have one : (cr_save_offset : Int)*wordSize = wordSize := by simp [cr_save_offset]
      change b < _ + wordSize at high
      omega
    rw [stack₆,word,cr₂ cpu,unpack_pack,cr₁ c other]
  · change m₆.read _ = _
    rw [← lr₂]
    exact Cells.word_congr fun b low high => above b (by omega)
  · change m₆.read (m₆.gpr Rlocals + _) = _
    rw [locals₆,locals₅,saved₆ k s found]
    have member := List.mem_of_getElem? found
    cases s with
    | call_wrapper => exact registers 3 (by decide) (by decide) (by decide) (by decide) (by decide)
    | result => exact registers 4 (by decide) (by decide) (by decide) (by decide) (by decide)
    | result_type => exact registers 5 (by decide) (by decide) (by decide) (by decide) (by decide)
    | cr => exact absurd rfl plain
    | gpr r =>
      have low := (gpr_slot member).1
      have above : ∀ k < 14, r ≠ k := fun k less => Nat.ne_of_gt (Nat.lt_of_lt_of_le less low)
      exact registers r (above 0 (by decide)) (above 1 (by decide)) (above 9 (by decide)) (above 11 (by decide)) (above 12 (by decide))
  · change unpackFields (m₆.read (m₆.gpr Rlocals + _)) c = _
    rw [locals₆,locals₅,saved₆ k _ found]
    simp only [Slot.value,unpack_pack]
    rw [fields c,cr₁ c other]
  · change m₆.read (m₆.gpr Rlocals - _) = _
    have source : m₄.gpr r8 = m.gpr r8 := (kept₄.gpr r8 (by simp)).trans (registers 8 (by decide) (by decide) (by decide) (by decide) (by decide))
    change _ ≤ m₆.gpr r1 ∨ _ at apart
    rw [stack₆,Int.add_mul] at apart
    rw [source] at copied₅
    have near := Int.mul_le_mul_of_nonneg_right (show (i : Int)+1 ≤ n by omega) (Int.le_of_lt pos)
    have within := Int.mul_nonneg (Int.natCast_nonneg i) (Int.le_of_lt pos)
    rw [Int.add_mul] at near
    have passed : m₆.read (m₃.gpr r11 - i*wordSize) = m₅.read (m₃.gpr r11 - i*wordSize) := by simp only [Machine.read,mem₆]
    rw [locals₆,locals₅,passed,copied₅ fits (by omega) i less]
    -- the array is neither in the frame nor in the caller's LR save word
    refine Cells.word_congr fun b low high => ?_
    change b < _ + wordSize at high
    rw [mem₄ b (by omega),others₂ b (by omega) (by omega)]
  · change m₆.mem b = _
    change b < m₆.gpr r1 ∨ _ at outside
    rw [stack₆] at outside
    have plain : m₆.mem b = m₂.mem b := by
      rcases outside with low | high
      · exact below b (by omega)
      · exact above b high
    rw [plain,others₂ b (by omega) apart]
  · rw [← registers 6 (by decide) (by decide) (by decide) (by decide) (by decide),← kept₄.gpr 6 (by simp),← kept₅.gpr 6 (by simp)]
    exact method₆
  · rw [← registers 10 (by decide) (by decide) (by decide) (by decide) (by decide),← kept₄.gpr 10 (by simp),← kept₅.gpr 10 (by simp)]
    exact thread₆
  · rw [← registers 7 (by decide) (by decide) (by decide) (by decide) (by decide),← kept₄.gpr 7 (by simp),← kept₅.gpr 7 (by simp)]
    exact entry₆
  · have kept : Keeps [.gpr r0,.gpr r1,.gpr r8,.gpr r9,.gpr r11,.gpr r12,.gpr Rmethod,.gpr Rlocals,.gpr Rthread,.cr cr0,.ctr] m m₆ :=
      (((((kept₁.trans kept₂).trans kept₃).trans kept₄).trans kept₅).trans kept₆).mono (by simp)
    intro p absent
    have same := kept p fun member => absent (by simp only [List.mem_cons,List.not_mem_nil] at member ⊢; grind)
    cases p with
    | lr => simp at absent
    | _ => exact same

end IcedTea.StubGenerator

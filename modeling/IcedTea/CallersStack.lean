import IcedTea.InterpreterState

namespace IcedTea.CppInterpreter
open Vm

variable [Vm]

-- The loop that sets the locals that are not parameters to zero, downwards
-- from the address in r7.
theorem zero_locals_spec (n : Nat) (m : Machine) (zero : m.gpr r0 = 0) : let m' := bdnz zero_locals n m
    (∀ i : Nat, i < n → m'.read (m.gpr r7 - i*wordSize) = 0) ∧
      Cells.SameOutside (m.gpr r7 - n*wordSize + wordSize) (m.gpr r7 + wordSize) m.mem m'.mem ∧
      Keeps [.gpr r7,.ctr] m m' := by
  have pos := wordSize_pos
  induction n generalizing m with
  | zero => exact ⟨fun i less => absurd less (Nat.not_lt_zero i),fun _ _ => rfl,Keeps.refl _ m⟩
  | succ n ih =>
    obtain ⟨m₁,code,next,stored,zero',kept⟩ : ∃ m₁, bdnz zero_locals (n+1) m = bdnz zero_locals n m₁ ∧
        m₁.gpr r7 = m.gpr r7 - wordSize ∧ m₁.mem = m.mem.putWord wide (m.gpr r7) 0 ∧ m₁.gpr r0 = 0 ∧
        Keeps [.gpr r7,.ctr] m m₁ := by
      simp only [r0] at zero
      refine ⟨_,rfl,?_,?_,?_,fun p absent => ?_⟩
      · simp [zero_locals,step]
      · simp [zero_locals,step,zero]
      · simp [zero_locals,step,zero]
      · simp only [List.mem_cons,List.not_mem_nil,or_false,not_or] at absent
        have same := exec_keeps zero_locals m p (by simpa [written,zero_locals,Instr.written] using absent.1)
        cases p with
        | ctr => exact absurd rfl absent.2
        | _ => exact same
    obtain ⟨words,outside,kept'⟩ := ih m₁ zero'
    rw [code]
    generalize bdnz zero_locals n m₁ = m₂ at *
    rw [next] at words outside
    rw [stored] at outside
    have down := Int.mul_nonneg (Int.natCast_nonneg n) (Int.le_of_lt pos)
    refine ⟨fun i less => ?_,?_,(kept.trans kept').mono (by simp)⟩
    · cases i with
      | zero =>
        simp only [Nat.cast_zero,Int.zero_mul,Int.sub_zero]
        rw [Machine.read,outside.word (.inr (by omega))]
        exact Cells.word_putWord _ _ _
      | succ i =>
        have shift : m.gpr r7 - ((i+1 : Nat) : Int)*wordSize = m.gpr r7 - wordSize - i*wordSize := by push_cast; ring
        rw [shift]
        exact words i (by omega)
    · have wider : m.gpr r7 - ((n+1 : Nat) : Int)*wordSize + wordSize = m.gpr r7 - wordSize - n*wordSize + wordSize := by
        push_cast; ring
      rw [wider]
      refine Cells.SameOutside.trans ?_ (outside.mono (Int.le_refl _) (by omega))
      exact Cells.SameOutside.putWord _ _ (by omega) (Int.le_refl _)

def size_of_parameters (m : Machine) : Int := m.read16 (m.ea size_of_parameters_addr)
def size_of_locals (m : Machine) : Int := m.read16 (m.ea size_of_locals_addr)

omit [Vm] in
theorem halfword_range [Target] (m : Machine) (a : Int) : 0 ≤ m.read16 a ∧ m.read16 a < 2^16 := by
  unfold Machine.read16
  split <;> omega

-- The caller's frame with the callee's locals in it: they end above the spare
-- slots, and what is above the parameters' lower end is as it was.
structure Adjusted (m m' : Machine) : Prop where
  aligned : m'.gpr r1 % 16 = m.gpr r1 % 16
  lower : m'.gpr r1 ≤ m.gpr r1
  back_chain : m'.read (m'.gpr r1) = m.read (m.gpr r1)
  cr_word : Target.cpu = .ppc64 → m'.read (m'.gpr r1 + wordSize) = m.read (m.gpr r1 + wordSize)
  room : m'.gpr r1 = m.gpr r1 ∧ size_of_parameters m = size_of_locals m ∨
    m'.gpr r1 + frame_header + slop_factor + size_of_locals m * wordSize ≤ m.gpr Rlocals
  zeroed : ∀ k : Nat, size_of_parameters m ≤ k → k < size_of_locals m → m'.read (m.gpr Rlocals - k*wordSize) = 0
  mem : ∀ b, b < m'.gpr r1 ∨ m'.gpr r1 + 2*wordSize ≤ b → b < m.gpr Rlocals - size_of_locals m * wordSize + wordSize ∨
    m.gpr Rlocals - size_of_parameters m * wordSize + wordSize ≤ b → m'.mem b = m.mem b
  keeps : Keeps [.gpr r0,.gpr r1,.gpr r3,.gpr r4,.gpr r5,.gpr r6,.gpr r7,.cr cr0,.ctr] m m'

-- CTR counts the locals to clear in its own width, which they never fill.
theorem bdnz_loop_count (body : List Instr) (m : Machine) (n : Nat) (some : 0 < n) (few : n < 2^16) (count : m.ctr = n) :
    bdnz_loop body m = bdnz body n m := by
  have width : (2^16 : Int) ≤ 2^(8*wordSize).toNat := by
    cases cpu : Target.cpu with
    | ppc32 => rw [wordSize_ppc32 cpu]; decide
    | ppc64 => rw [wordSize_ppc64 cpu]; decide
  have turns : ((m.ctr-1) % 2^(8*wordSize).toNat + 1).toNat = n := by
    rw [count,Int.emod_eq_of_lt (by omega) (by omega)]
    omega
  rw [bdnz_loop,turns]

-- The part of the code up to the loop.
def room_for_locals (m : Machine) : Machine :=
  maybe_extend_frame r5 r6 (exec [.shift_left r5 r4 LogBytesPerWord,.sub r6 Rlocals r1,.subi r6 r6 (frame_header + slop_factor)] m)

theorem room_for_locals_spec (m : Machine) (words : Int) (locals : m.gpr r4 = words) : ∃ extra : Int,
    let m' := room_for_locals m
    extra % 16 = 0 ∧ 0 ≤ extra ∧ m'.gpr r1 = m.gpr r1 - extra ∧
      m'.gpr r1 + frame_header + slop_factor + words*wordSize ≤ m.gpr Rlocals ∧
      m'.read (m'.gpr r1) = m.read (m.gpr r1) ∧
      (Target.cpu = .ppc64 → m'.read (m'.gpr r1 + wordSize) = m.read (m.gpr r1 + wordSize)) ∧
      Cells.SameOutside (m'.gpr r1) (m'.gpr r1 + 2*wordSize) m.mem m'.mem ∧
      Keeps [.gpr r1,.gpr r5,.gpr r6,.cr cr0] m m' := by
  let m₁ := exec [.shift_left r5 r4 LogBytesPerWord,.sub r6 Rlocals r1,.subi r6 r6 (frame_header + slop_factor)] m
  obtain ⟨extra,extended⟩ := maybe_extend_frame_spec m₁ r5 r6 (by decide) (by decide) (by decide)
  have required : m₁.gpr r5 = words*wordSize := by
    simp only [r4] at locals
    simp [m₁,step,shift_words,locals]
  have available : m₁.gpr r6 = m.gpr Rlocals - m.gpr r1 - (frame_header + slop_factor) := by simp [m₁,step]
  have top : m₁.gpr r1 = m.gpr r1 := by simp [m₁,step]
  have mem : m₁.mem = m.mem := rfl
  have kept : Keeps [.gpr r5,.gpr r6] m m₁ := (exec_keeps _ m).mono (by simp [written,Instr.written])
  have stack := extended.stack
  have room := extended.room
  have outside := extended.mem
  have cr_word := extended.cr_word
  rw [top,Machine.read,Machine.read,mem] at cr_word
  rw [top] at stack
  rw [required,available] at room
  rw [mem] at outside
  refine ⟨extra,extended.aligned,extended.nonneg,stack,?_,?_,cr_word,outside.mono (Int.le_refl _) ?_,
    (kept.trans extended.keeps).mono (by simp)⟩
  · show (maybe_extend_frame r5 r6 m₁).gpr r1 + _ + _ + _ ≤ _
    omega
  · have chain := extended.back_chain
    rw [top,Machine.read,Machine.read,mem] at chain
    exact chain
  · show (maybe_extend_frame r5 r6 m₁).gpr r1 + _ ≤ (maybe_extend_frame r5 r6 m₁).gpr r1 + _
    omega

theorem adjust_callers_stack_spec (m : Machine) (covered : size_of_parameters m ≤ size_of_locals m) :
    Adjusted m (adjust_callers_stack m) := by
  have params := halfword_range m (m.ea size_of_parameters_addr)
  have locals := halfword_range m (m.ea size_of_locals_addr)
  change 0 ≤ size_of_parameters m ∧ size_of_parameters m < _ at params
  change 0 ≤ size_of_locals m ∧ size_of_locals m < _ at locals
  let m₁ := exec [.lhz r3 size_of_parameters_addr,.lhz r4 size_of_locals_addr,.compare cr0 r3 r4] m
  have three : m₁.gpr r3 = size_of_parameters m := by simp [m₁,step,size_of_parameters]
  have four : m₁.gpr r4 = size_of_locals m := by simp [m₁,step,size_of_locals,size_of_locals_addr]; rfl
  have test : (m₁.cr cr0).eq ↔ size_of_parameters m = size_of_locals m := by
    rw [← three,← four]; simp [m₁,step]
  have kept₁ : Keeps [.gpr r3,.gpr r4,.cr cr0] m m₁ := (exec_keeps _ m).mono (by simp [written,Instr.written])
  have mem₁ : m₁.mem = m.mem := rfl
  have top₁ : m₁.gpr r1 = m.gpr r1 := kept₁.gpr r1 (by simp)
  have locals₁ : m₁.gpr Rlocals = m.gpr Rlocals := kept₁.gpr Rlocals (by simp)
  by_cases same : size_of_parameters m = size_of_locals m
  · have code : adjust_callers_stack m = m₁ := by
      simp only [adjust_callers_stack]
      exact if_pos (test.mpr same)
    rw [code]
    refine ⟨by rw [top₁],by rw [top₁],by rw [top₁]; rfl,fun _ => by rw [top₁]; rfl,.inl ⟨top₁,same⟩,fun k low high => by omega,
      fun _ _ _ => rfl,kept₁.mono (by simp)⟩
  · obtain ⟨extra,aligned,nonneg,stack,room,chain,cr_word,outside,kept₂⟩ := room_for_locals_spec m₁ _ four
    generalize second : room_for_locals m₁ = m₂ at *
    let m₃ := exec [.shift_left r7 r3 LogBytesPerWord,.sub r7 Rlocals r7,.sub r0 r4 r3,.mtctr r0,.loadImm r0 0] m₂
    have code : adjust_callers_stack m = bdnz_loop zero_locals m₃ := by
      simp only [adjust_callers_stack,m₃,← second]
      exact if_neg (mt test.mp same)
    have three₂ : m₂.gpr r3 = size_of_parameters m := (kept₂.gpr r3 (by simp)).trans three
    have four₂ : m₂.gpr r4 = size_of_locals m := (kept₂.gpr r4 (by simp)).trans four
    have locals₂ : m₂.gpr Rlocals = m.gpr Rlocals := (kept₂.gpr Rlocals (by simp)).trans locals₁
    have kept₃ : Keeps [.gpr r7,.gpr r0,.ctr] m₂ m₃ := (exec_keeps _ m₂).mono (by simp [written,Instr.written])
    have dst : m₃.gpr r7 = m.gpr Rlocals - size_of_parameters m * wordSize := by
      simp only [r3,Rlocals] at three₂ locals₂ ⊢
      simp [m₃,step,shift_words,three₂,locals₂]
    obtain ⟨n,extent⟩ : ∃ n : Nat, size_of_locals m = size_of_parameters m + n :=
      ⟨(size_of_locals m - size_of_parameters m).toNat,by omega⟩
    have count : m₃.ctr = n := by
      have both : m₃.ctr = m₂.gpr r4 - m₂.gpr r3 := by simp [m₃,step]
      omega
    rw [code,bdnz_loop_count zero_locals m₃ n (by omega) (by omega) count]
    obtain ⟨words,cleared,kept₄⟩ := zero_locals_spec n m₃ (by simp [m₃,step])
    generalize bdnz zero_locals n m₃ = m₄ at *
    have top₄ : m₄.gpr r1 = m₂.gpr r1 := (kept₄.gpr r1 (by simp)).trans (kept₃.gpr r1 (by simp))
    have mem₃ : m₃.mem = m₂.mem := rfl
    have pos := wordSize_pos
    have spread : size_of_locals m * wordSize = size_of_parameters m * wordSize + n*wordSize := by rw [extent]; ring
    have header : 2*wordSize ≤ frame_header := by have := lr_save_inside; have := lr_save_above; omega
    have slop : slop_factor = 2*wordSize := rfl
    rw [dst,mem₃] at cleared
    rw [mem₁] at outside
    rw [locals₁] at room
    have low : ∀ b, b < m₂.gpr r1 + 2*wordSize → m₄.mem b = m₂.mem b := fun b below => cleared b (.inl (by omega))
    refine ⟨by rw [top₄,stack,top₁]; omega,by rw [top₄,stack,top₁]; omega,?_,fun cpu => ?_,.inr (by rw [top₄]; exact room),
      fun k above less => ?_,fun b far apart => ?_,(((kept₁.trans kept₂).trans kept₃).trans kept₄).mono (by simp)⟩
    · rw [top₄,← top₁]
      refine Eq.trans (Cells.word_congr fun b _ high => low b ?_) chain
      change b < _ + wordSize at high
      omega
    · rw [top₄,← top₁]
      refine Eq.trans (Cells.word_congr fun b _ high => low b ?_) (cr_word cpu)
      change b < _ + wordSize at high
      omega
    · obtain ⟨i,rfl⟩ : ∃ i : Nat, k = (size_of_parameters m).toNat + i := ⟨k - (size_of_parameters m).toNat,by omega⟩
      have word := words i (by omega)
      have place : m.gpr Rlocals - (((size_of_parameters m).toNat + i : Nat) : Int)*wordSize = m₃.gpr r7 - i*wordSize := by
        rw [dst]; push_cast; rw [Int.toNat_of_nonneg params.1]; ring
      rw [place]
      exact word
    · rw [top₄] at far
      rw [cleared b (by omega),outside b (by omega)]

end IcedTea.CppInterpreter

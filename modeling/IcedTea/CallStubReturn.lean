import IcedTea.CallStubFrame
import IcedTea.FrameExtension

namespace IcedTea.StubGenerator
open StackFrame (lr_save_offset cr_save_offset back_chain_offset StackAlignmentInBytes link_area_words min_params)
open CppInterpreter (LogBytesPerWord)

section
variable [Target]

theorem gpr_position (found : slots[k]? = some (.gpr r)) :
    ∃ j, k = 3 + cr_slots.length + j ∧ (List.range' 14 18)[j]? = some r := by
  have length : ([Slot.call_wrapper,.result,.result_type] ++ cr_slots).length = 3 + cr_slots.length := by simp; omega
  rw [slots,List.getElem?_append] at found
  split at found
  · have member := List.mem_of_getElem? found
    unfold cr_slots at member
    cases cpu : Target.cpu <;> simp [cpu] at member
  · rename_i beyond
    refine ⟨k - (3 + cr_slots.length),by omega,?_⟩
    rw [length,gpr_slots,List.getElem?_map,Option.map_eq_some_iff] at found
    obtain ⟨r',found,same⟩ := found
    rw [found]
    simpa using same

-- Each register is loaded from the word at its place in the list.
theorem restore_gprs (l : List Register) (offset : Nat) (m : Machine) (distinct : l.Nodup) (base : r11 ∉ l) :
    let m' := exec (restore_slots (l.map .gpr) offset) m
    (∀ k r, l[k]? = some r → m'.gpr r = m.read (m.gpr r11 + ((offset+k : Nat) : Int)*wordSize)) ∧ m'.mem = m.mem ∧
      Keeps (l.map .gpr) m m' := by
  induction l generalizing offset m with
  | nil => exact ⟨fun k r found => by simp at found,rfl,Keeps.refl _ m⟩
  | cons r rest ih =>
    obtain ⟨fresh,distinct'⟩ := List.nodup_cons.mp distinct
    let m₁ := m.set r (m.read (m.gpr r11 + offset*wordSize))
    have code : exec (restore_slots ((r :: rest).map .gpr) offset) m = exec (restore_slots (rest.map .gpr) (offset+1)) m₁ := by
      simp only [List.map_cons,restore_slots,exec_append]
      rfl
    obtain ⟨words,mem,kept⟩ := ih (offset+1) m₁ distinct' fun later => base (List.mem_cons_of_mem _ later)
    have other : r11 ≠ r := fun same => base (same ▸ List.mem_cons_self)
    have same : m₁.gpr r11 = m.gpr r11 := by simp only [m₁,Machine.set_gpr,if_neg other]
    rw [same] at words
    rw [code]
    refine ⟨fun k t found => ?_,mem,?_⟩
    · cases k with
      | zero =>
        simp only [List.getElem?_cons_zero,Option.some.injEq] at found
        rw [← found,kept.gpr r (by simpa using fresh)]
        simp only [m₁,Machine.set_gpr,if_true,Nat.add_zero]
      | succ k =>
        simp only [List.getElem?_cons_succ] at found
        have place : offset+(k+1) = offset+1+k := by omega
        rw [place,words k t found]
        rfl
    · have first : Keeps [.gpr r] m m₁ := step_keeps (.load r ⟨r11,offset*wordSize⟩) m
      exact (first.trans kept).mono (by simp)

-- What the way back finds in the frame, and where.
theorem restore_registers_spec (m : Machine) : let m' := exec restore_registers m
    (∀ k r, slots[k]? = some (.gpr r) → m'.gpr r = m.read (m.gpr r11 + ((initial_offset+k : Nat) : Int)*wordSize)) ∧
      (∀ k, slots[k]? = some .cr → m'.cr = unpackFields (m.read (m.gpr r11 + ((initial_offset+k : Nat) : Int)*wordSize))) ∧
      (Target.cpu = .ppc64 → m'.cr = unpackFields (m.read (m.gpr r1 + cr_save_offset*wordSize))) ∧ m'.mem = m.mem ∧
      (∀ f, m'.fpr f = m.fpr f) ∧ m'.gpr r1 = m.gpr r1 ∧ ∀ r : Nat, 0 < r → r < 14 → m'.gpr r = m.gpr r := by
  have distinct : (List.range' 14 18).Nodup := List.nodup_range'
  have base : r11 ∉ List.range' 14 18 := by decide
  cases cpu : Target.cpu with
  | ppc32 =>
    let m₁ := exec (Slot.cr.restore (initial_offset+3)) m
    obtain ⟨words,mem,kept⟩ := restore_gprs (List.range' 14 18) (initial_offset+4) m₁ distinct base
    have code : exec restore_registers m = exec (restore_slots ((List.range' 14 18).map .gpr) (initial_offset+4)) m₁ := by
      simp only [restore_registers,cr_slots,gpr_slots,cpu,List.append_nil,List.singleton_append,restore_slots,exec_append]
      rfl
    have base₁ : m₁.gpr r11 = m.gpr r11 := by simp [m₁,Slot.restore,step]
    have cr₁ : m₁.cr = unpackFields (m.read (m.gpr r11 + ((initial_offset+3 : Nat) : Int)*wordSize)) := by
      simp [m₁,Slot.restore,Slot.at_,step]
    have cr' : (exec (restore_slots ((List.range' 14 18).map .gpr) (initial_offset+4)) m₁).cr = m₁.cr :=
      funext fun c => kept.cr c (by simp)
    rw [code]
    refine ⟨fun k r found => ?_,fun k found => ?_,by simp,mem,fun f => kept.fpr f (by simp),?_,fun r low high => ?_⟩
    · obtain ⟨j,place,found'⟩ := gpr_position found
      have one : cr_slots.length = 1 := by simp [cr_slots,cpu]
      rw [words j r found',base₁,place,one]
      have shift : initial_offset+4+j = initial_offset+(3+1+j) := by omega
      rw [shift]
      rfl
    · have once : slots.Nodup := by simp only [slots,cr_slots,gpr_slots,cpu]; decide
      have there : slots[3]? = some .cr := by simp [slots,cr_slots,cpu]
      have third := (List.getElem?_inj (List.getElem?_eq_some_iff.mp found).1 once).mp (found.trans there.symm)
      rw [cr',cr₁,third]
    · rw [kept.gpr r1 (by decide)]
      simp [m₁,Slot.restore,step]
    · have absent : Place.gpr r ∉ (List.range' 14 18).map .gpr := by simp; omega
      rw [kept.gpr r absent]
      have nonzero : r ≠ 0 := Nat.ne_of_gt low
      simp [m₁,Slot.restore,step,nonzero]
  | ppc64 =>
    obtain ⟨words,mem,kept⟩ := restore_gprs (List.range' 14 18) (initial_offset+3) m distinct base
    have code : exec restore_registers m = exec [.load r0 ⟨r1,cr_save_offset*wordSize⟩,.mtcr r0]
        (exec (restore_slots ((List.range' 14 18).map .gpr) (initial_offset+3)) m) := by
      simp only [restore_registers,cr_slots,gpr_slots,cpu,List.nil_append,exec_append]
    have none : Slot.cr ∉ slots := by simp [slots,cr_slots,gpr_slots,cpu]
    rw [code]
    generalize exec (restore_slots ((List.range' 14 18).map .gpr) (initial_offset+3)) m = m₁ at *
    have top : m₁.gpr r1 = m.gpr r1 := kept.gpr r1 (by decide)
    have kept₂ := exec_keeps [.load r0 ⟨r1,cr_save_offset*wordSize⟩,.mtcr r0] m₁
    have others : ∀ r, r ≠ 0 → (exec [.load r0 ⟨r1,cr_save_offset*wordSize⟩,.mtcr r0] m₁).gpr r = m₁.gpr r :=
      fun r other => kept₂.gpr r (by simpa [written,Instr.written] using other)
    refine ⟨fun k r found => ?_,fun k found => absurd (List.mem_of_getElem? found) none,fun _ => ?_,mem,
      fun f => (kept₂.fpr f (by simp [written,Instr.written])).trans (kept.fpr f (by simp)),(others 1 (by decide)).trans top,
      fun r low high => ?_⟩
    · obtain ⟨j,place,found'⟩ := gpr_position found
      have zero : cr_slots.length = 0 := by simp [cr_slots,cpu]
      have large := (gpr_slot (List.mem_of_getElem? found)).1
      have shift : initial_offset+3+j = initial_offset+(3+0+j) := by omega
      rw [others r (Nat.ne_of_gt (Nat.lt_of_lt_of_le (by decide) large)),words j r found',place,zero,shift]
    · simp only [r1] at top
      simp [step,Machine.read,mem,top]
    · have absent : Place.gpr r ∉ (List.range' 14 18).map .gpr := by simp; omega
      rw [others r (Nat.ne_of_gt low),kept.gpr r absent]

-- The frame from r1 up to the caller's r1.
def frame_ranges (sp padding locals : Int) (n : Nat) : List Range :=
  [(sp,link_area_words*wordSize),(sp + link_area_words*wordSize,min_params*wordSize),
    (sp + (link_area_words*wordSize + min_params*wordSize),padding)] ++
  (List.range n).reverse.map (fun (i : Nat) => (locals - i*wordSize,wordSize)) ++
  (List.range slots.length).map fun (k : Nat) => (locals + ((initial_offset+k : Nat) : Int)*wordSize,wordSize)

theorem tiles_parameters (locals : Int) (n : Nat) :
    Range.Tiles (locals + wordSize - n*wordSize) (locals + wordSize)
      ((List.range n).reverse.map fun (i : Nat) => (locals - i*wordSize,wordSize)) := by
  have pos := wordSize_pos
  induction n with
  | zero => simp [Range.Tiles]
  | succ n ih =>
    rw [List.range_succ,List.reverse_append,List.reverse_singleton,List.singleton_append,List.map_cons]
    refine ⟨?_,Int.le_of_lt pos,?_⟩
    · change locals - n*wordSize = locals + wordSize - ((n+1 : Nat) : Int)*wordSize
      push_cast
      ring
    · change Range.Tiles (locals - n*wordSize + wordSize) _ _
      have next : locals - n*wordSize + wordSize = locals + wordSize - n*wordSize := by ring
      rw [next]
      exact ih

theorem tiles_frame (sp padding locals caller : Int) (n : Nat) (nonneg : 0 ≤ padding)
    (bottom : locals = sp + call_stub_frame.start_of_locals - wordSize + padding + n*wordSize)
    (top : caller = sp + (n*wordSize + call_stub_base_size + padding)) :
    Range.Tiles sp caller (frame_ranges sp padding locals n) := by
  have pos := wordSize_pos
  have start := start_of_locals_eq
  have base := base_size_eq
  have link := Int.mul_nonneg (Int.natCast_nonneg link_area_words) (Int.le_of_lt pos)
  have params := Int.mul_nonneg (Int.natCast_nonneg min_params) (Int.le_of_lt pos)
  have low : Range.Tiles sp (locals + wordSize - n*wordSize) [(sp,link_area_words*wordSize),
      (sp + link_area_words*wordSize,min_params*wordSize),(sp + (link_area_words*wordSize + min_params*wordSize),padding)] := by
    refine ⟨rfl,link,rfl,params,?_,nonneg,?_⟩
    · exact (Int.add_assoc _ _ _).symm
    · change sp + (link_area_words*wordSize + min_params*wordSize) + padding = _
      omega
  have high : Range.Tiles (locals + wordSize) caller
      ((List.range slots.length).map fun (k : Nat) => (locals + ((initial_offset+k : Nat) : Int)*wordSize,wordSize)) := by
    have steps := Range.tiles_steps (locals + wordSize) wordSize slots.length (Int.le_of_lt pos)
    have upper : locals + wordSize + slots.length*wordSize = caller := by omega
    have same : ∀ k : Nat, locals + ((initial_offset+k : Nat) : Int)*wordSize = locals + wordSize + k*wordSize := by
      intro k
      simp only [initial_offset]
      push_cast
      ring
    rw [upper] at steps
    simpa only [same] using steps
  exact (low.append (tiles_parameters locals n)).append high
end

variable [StubRoutines]

-- The machine when the call returns: the callee may have extended the frame
-- any number of times, and what else it did kept the back chain.
inductive Returned (m : Machine) : Machine → Prop where
  | called : Returned m m
  | extended (run : Returned m m') (required_bytes available_bytes : Register) (apart : required_bytes ≠ available_bytes)
      (stack : required_bytes ≠ r1) (stack' : available_bytes ≠ r1) :
      Returned m (maybe_extend_frame required_bytes available_bytes m')
  | ran (run : Returned m m') (stack : m''.gpr r1 = m'.gpr r1) (back_chain : m''.read (m'.gpr r1) = m'.read (m'.gpr r1)) :
      Returned m m''

theorem returned_chain (run : Returned m m') : m'.read (m'.gpr r1) = m.read (m.gpr r1) := by
  induction run with
  | called => rfl
  | extended _ required_bytes available_bytes apart stack stack' ih =>
    obtain ⟨_,extended⟩ := maybe_extend_frame_spec _ required_bytes available_bytes apart stack stack'
    exact extended.back_chain.trans ih
  | ran _ stack back_chain ih => rw [stack,back_chain,ih]

theorem find_locals_spec (m : Machine) : let m' := exec find_locals m
    m'.gpr r11 = m.read (m.gpr r1) - final_offset*wordSize ∧ m'.mem = m.mem ∧ Keeps [.gpr r11] m m' :=
  ⟨by simp [find_locals,step],rfl,(exec_keeps _ m).mono (by simp [written,find_locals,Instr.written])⟩

end IcedTea.StubGenerator

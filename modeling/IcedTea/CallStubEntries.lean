import IcedTea.CallStubReturn
import IcedTea.FrameManagerSafety

namespace IcedTea

class Runtime extends CppInterpreter.Code, StubRoutines

namespace StubGenerator
open StackFrame (lr_save_offset cr_save_offset back_chain_offset)
open CppInterpreter (Entry Steps entered CallerKept frame_header frame_header_eq size_of_parameters size_of_locals
  lr_save_above lr_save_inside stub_type returned_value at_result)
open Vm StubRoutines SharedRuntime SharedRuntime.BasicType

variable [Runtime] {m m' m₂ : Machine} {older : List Int} {low high : Int}

def slot_at (m : Machine) (k : Nat) : Int := m.gpr Rlocals + ((initial_offset+k : Nat) : Int)*wordSize

-- The words that the stub comes back for: its slots, and its caller's link area.
def stub_words (m : Machine) : List Int :=
  (List.range slots.length).map (slot_at (call_stub_call m)) ++ [m.gpr r1,m.gpr r1 + lr_save_offset*wordSize]

-- The entry into the frame manager that a run of the stub makes. Further up are
-- `older` words.
def stub_entry (m : Machine) (older : List Int) (low high : Int) : Entry := ⟨call_stub_call m,stub_words m ++ older,low,high⟩

-- Arguments of the stub. The parameters are those of the method, and the caller
-- has a frame of its own.
structure Called (m : Machine) (older : List Int) (low high : Int) : Prop where
  aligned : m.gpr r1 % 16 = 0
  parameters : m.gpr r9 = size_of_parameters (call_stub_call m)
  covered : size_of_parameters (call_stub_call m) ≤ size_of_locals (call_stub_call m)
  older : ∀ w ∈ older, m.gpr r1 + frame_header ≤ w ∧ w + wordSize ≤ high
  positive : 0 < low
  top : m.gpr r1 + frame_header ≤ high
  anchor : ∀ o, o = last_Java_sp_offset ∨ o = last_Java_pc_offset → m.gpr r10 + o + wordSize ≤ low ∨ high ≤ m.gpr r10 + o

theorem called_framed (called : Called m older low high) : ∃ n : Nat, Framed n m (call_stub_call m) := by
  have nonneg := (CppInterpreter.halfword_range (call_stub_call m) ((call_stub_call m).ea CppInterpreter.size_of_parameters_addr)).1
  have parameters := called.parameters
  unfold size_of_parameters at parameters
  rw [← parameters] at nonneg
  exact ⟨(m.gpr r9).toNat,call_stub_call_spec m _ (Int.toNat_of_nonneg nonneg).symm⟩

-- Where the stub's frame is.
structure Placed (m m' : Machine) : Prop where
  aligned : (m.gpr r1 - m'.gpr r1) % 16 = 0
  locals : m'.gpr Rlocals + wordSize + slots.length*wordSize = m.gpr r1
  above : m'.gpr r1 + frame_header ≤ m'.gpr Rlocals + wordSize
  back_chain : m'.read (m'.gpr r1) = m.gpr r1

theorem framed_placed {n : Nat} (framed : Framed n m m') : Placed m m' := by
  obtain ⟨padding,nonneg,stack,whole,bottom⟩ := framed.padding
  have base := base_size_eq
  have start := start_of_locals_eq
  have header := frame_header_eq
  push_cast at header
  rw [Int.add_mul] at header
  have pos := wordSize_pos
  have words := Int.mul_nonneg (Int.natCast_nonneg n) (Int.le_of_lt pos)
  exact ⟨by omega,by omega,by omega,framed.back_chain⟩

theorem slot_within (m : Machine) {k : Nat} (less : k < slots.length) :
    m.gpr Rlocals + wordSize ≤ slot_at m k ∧ slot_at m k + wordSize ≤ m.gpr Rlocals + wordSize + slots.length*wordSize := by
  have pos := Int.le_of_lt wordSize_pos
  have nonneg := Int.mul_nonneg (Int.natCast_nonneg k) pos
  have more := Int.mul_le_mul_of_nonneg_right (show (k : Int) + 1 ≤ slots.length by omega) pos
  rw [Int.add_mul] at more
  have place : ((initial_offset+k : Nat) : Int)*wordSize = wordSize + k*wordSize := by
    simp only [initial_offset]
    push_cast
    ring
  unfold slot_at
  omega

theorem stub_entry_ready (called : Called m older low high) : (stub_entry m older low high).Ready := by
  obtain ⟨n,framed⟩ := called_framed called
  have placed := framed_placed framed
  have pos := wordSize_pos
  have inside := lr_save_inside
  have second := lr_save_above
  have size := (CppInterpreter.halfword_range (call_stub_call m) ((call_stub_call m).ea CppInterpreter.size_of_parameters_addr)).1
  have parameters : 0 ≤ size_of_parameters (call_stub_call m) * wordSize := Int.mul_nonneg size (Int.le_of_lt pos)
  have locals := placed.locals
  have above := placed.above
  have aligned := placed.aligned
  have caller := called.aligned
  have top := called.top
  have slots_nonneg := Int.mul_nonneg (Int.natCast_nonneg slots.length) (Int.le_of_lt pos)
  refine ⟨?_,called.covered,fun w member => ?_,called.positive,?_,fun o field => ?_⟩
  · change (call_stub_call m).gpr r1 % 16 = 0
    omega
  · change (call_stub_call m).gpr r1 + frame_header ≤ w ∧
      (call_stub_call m).gpr Rlocals - size_of_parameters (call_stub_call m) * wordSize + wordSize ≤ w ∧ w + wordSize ≤ high
    rcases List.mem_append.mp member with own|further
    · rcases List.mem_append.mp own with slot|link
      · obtain ⟨k,less,rfl⟩ := List.mem_map.mp slot
        have within := slot_within (call_stub_call m) (List.mem_range.mp less)
        omega
      · simp only [List.mem_cons,List.not_mem_nil,or_false] at link
        rcases link with rfl|rfl
        · omega
        · omega
    · have outside := called.older w further
      omega
  · change (call_stub_call m).gpr r1 + frame_header ≤ high
    omega
  · change (call_stub_call m).gpr Rthread + o + wordSize ≤ low ∨ high ≤ (call_stub_call m).gpr Rthread + o
    rw [framed.thread]
    exact called.anchor o field

-- The stub's own code leaves the words of older frames.
theorem older_kept (called : Called m older low high) (w : Int) (member : w ∈ older) : (call_stub_call m).read w = m.read w := by
  obtain ⟨n,framed⟩ := called_framed called
  have inside := lr_save_inside
  have second := lr_save_above
  have pos := wordSize_pos
  have above := (called.older w member).1
  exact Cells.word_congr fun b low _ => framed.mem b (.inr (by omega)) (.inr (by omega))

-- What the stub finds after any run of the frame manager, its frame's r1 being
-- `sp` by then.
structure Found (m m₂ : Machine) (sp : Int) : Prop where
  back_chain : m₂.read sp = m.gpr r1
  caller_chain : m₂.read (m.gpr r1) = m.read (m.gpr r1)
  slots : ∀ k s, slots[k]? = some s → s ≠ .cr → m₂.read (slot_at (call_stub_call m) k) = s.value m
  cr : ∀ k, StubGenerator.slots[k]? = some .cr → ∀ c, c ≠ cr0 → unpackFields (m₂.read (slot_at (call_stub_call m) k)) c = m.cr c
  cr_save : Target.cpu = .ppc64 → ∀ c, c ≠ cr0 → unpackFields (m₂.read (sp + wordSize)) c = m.cr c
  lr_save : m₂.read (m.gpr r1 + lr_save_offset*wordSize) = m.lr

theorem kept_found {sp : Int} (called : Called m older low high) (kept : CallerKept (stub_entry m older low high) sp m₂) : Found m m₂ sp := by
  obtain ⟨n,framed⟩ := called_framed called
  have words : ∀ w ∈ stub_words m, m₂.read w = (call_stub_call m).read w := fun w member => kept.outer w (List.mem_append_left _ member)
  have slot : ∀ k, k < slots.length → m₂.read (slot_at (call_stub_call m) k) = (call_stub_call m).read (slot_at (call_stub_call m) k) :=
    fun k less => words _ (List.mem_append_left _ (List.mem_map_of_mem (List.mem_range.mpr less)))
  refine ⟨kept.back_chain.trans (framed_placed framed).back_chain,?_,fun k s found other => ?_,fun k found c other => ?_,fun cpu c other => ?_,?_⟩
  · have second := lr_save_above
    have pos := wordSize_pos
    rw [words _ (List.mem_append_right _ List.mem_cons_self)]
    exact Cells.word_congr fun b low high => framed.mem b (.inr (by omega)) (.inl (by
      change b < _ + wordSize at high
      omega))
  · rw [slot k (List.getElem?_eq_some_iff.mp found).1]
    exact framed.saved k s found other
  · rw [slot k (List.getElem?_eq_some_iff.mp found).1]
    exact framed.saved_cr k found c other
  · have word := framed.cr_word cpu c other
    rw [cr_save_offset,Nat.cast_one,Int.one_mul] at word
    rw [kept.cr_save cpu]
    exact word
  · rw [words _ (List.mem_append_right _ (List.mem_cons_of_mem _ List.mem_cons_self))]
    exact framed.lr_save

theorem found_locals (called : Called m older low high) (found : Found m m₂ (m₂.gpr r1)) :
    (exec find_locals m₂).gpr r11 = (call_stub_call m).gpr Rlocals := by
  obtain ⟨n,framed⟩ := called_framed called
  have locals := (framed_placed framed).locals
  have final : (final_offset : Int)*wordSize = wordSize + slots.length*wordSize := by
    simp only [final_offset,initial_offset]
    push_cast
    ring
  rw [(find_locals_spec m₂).1,found.back_chain,final]
  omega

def result_size : BasicType → Int
  | T_INT => 4
  | T_LONG => 8
  | T_OBJECT => wordSize
  | _ => 0

-- A result is stored at its address and nowhere else.
theorem store_result_keeps {s t : BasicType} (stored : store_result m = some m') (handled : stub_type t = some s)
    (type : m.read (m.gpr r11 + ((initial_offset+2 : Nat) : Int)*wordSize) = type_code s) :
    m'.gpr r1 = m.gpr r1 ∧ m'.gpr r11 = m.gpr r11 ∧ m'.gpr Rthread = m.gpr Rthread ∧
      Cells.SameOutside (m.read (m.gpr r11 + ((initial_offset+1 : Nat) : Int)*wordSize))
        (m.read (m.gpr r11 + ((initial_offset+1 : Nat) : Int)*wordSize) + result_size s) m.mem m'.mem := by
  obtain ⟨m₁,code,mem,address,loaded,kept⟩ : ∃ m₁, exec (restore_slots [.result,.result_type] (initial_offset+1)) m = m₁ ∧ m₁.mem = m.mem ∧
      m₁.gpr r6 = m.read (m.gpr r11 + ((initial_offset+1 : Nat) : Int)*wordSize) ∧ m₁.gpr r5 = type_code s ∧ Keeps [.gpr r6,.gpr r5] m m₁ := by
    refine ⟨_,rfl,rfl,by simp [restore_slots,Slot.restore,Slot.at_,step],?_,
      (exec_keeps _ m).mono (by simp [written,restore_slots,Slot.restore,Instr.written])⟩
    rw [← type]
    simp [restore_slots,Slot.restore,Slot.at_,step,Int.add_assoc]
  rw [← address,← mem]
  have by_code : ∀ (m₂ : Machine) (code : List Instr), Keeps [.cr cr0] m₁ m₂ → m₂.mem = m₁.mem →
      written code = [] → (∀ w ∈ stores code m₂, m₂.gpr r6 ≤ w.1 ∧ w.1 + w.2 ≤ m₂.gpr r6 + result_size s) → some (exec code m₂) = some m' →
      m'.gpr r1 = m.gpr r1 ∧ m'.gpr r11 = m.gpr r11 ∧ m'.gpr Rthread = m.gpr Rthread ∧
        Cells.SameOutside (m₁.gpr r6) (m₁.gpr r6 + result_size s) m₁.mem m'.mem := by
    intro m₂ code tested same nothing within result
    obtain rfl := Option.some.inj result
    have all : Keeps [.gpr r6,.gpr r5,.cr cr0] m (exec code m₂) :=
      ((kept.trans tested).trans (exec_keeps code m₂)).mono (by simp [nothing])
    refine ⟨all.gpr r1 (by simp),all.gpr r11 (by simp),all.gpr Rthread (by simp),?_⟩
    rw [← same,← tested.gpr r6 (by simp)]
    exact CppInterpreter.stores_within code m₂ _ _ within
  have tested : ∀ (m : Machine) (t : BasicType), Keeps [.cr cr0] m (step m (.compareImm cr0 r5 (type_code t))) := fun m t => step_keeps (.compareImm cr0 r5 (type_code t)) m
  let m₂ := step m₁ (.compareImm cr0 r5 (type_code T_INT))
  let m₃ := step m₂ (.compareImm cr0 r5 (type_code T_LONG))
  have int := CppInterpreter.result_type_test (u := T_INT) loaded
  have long := CppInterpreter.result_type_test (m := m₂) (u := T_LONG) loaded
  have object := CppInterpreter.result_type_test (m := m₃) (u := T_OBJECT) loaded
  unfold store_result at stored
  simp only [code] at stored
  rcases CppInterpreter.stub_type_cases handled with rfl|rfl|rfl
  · rw [if_pos (int.mpr rfl)] at stored
    refine by_code _ _ (tested m₁ T_INT) rfl rfl ?_ stored
    simp [stores,store_int,Instr.stores,result_size]
  · rw [if_neg (mt int.mp (by decide)),if_pos (long.mpr rfl)] at stored
    refine by_code _ _ (((tested m₁ T_INT).trans (tested m₂ T_LONG)).mono (by simp)) rfl ?_ ?_ stored
    · unfold store_long
      cases Target.cpu <;> rfl
    · unfold store_long
      cases cpu : Target.cpu with
      | ppc32 =>
        have size := wordSize_ppc32 cpu
        simp [stores,Instr.stores,step,size,result_size]
        omega
      | ppc64 =>
        have size := wordSize_ppc64 cpu
        simp [stores,Instr.stores,size,result_size]
  · rw [if_neg (mt int.mp (by decide)),if_neg (mt long.mp (by decide)),if_pos (object.mpr rfl)] at stored
    refine by_code _ _ ((((tested m₁ T_INT).trans (tested m₂ T_LONG)).trans (tested m₃ T_OBJECT)).mono (by simp)) rfl rfl ?_ stored
    simp [stores,store_object,Instr.stores,result_size]

theorem gpr_has_slot {r : Nat} (low : 14 ≤ r) (high : r < 32) : ∃ k : Nat, slots[k]? = some (Slot.gpr r) := by
  have member : Slot.gpr r ∈ slots := by
    refine List.mem_append_right _ (List.mem_map_of_mem (List.mem_range'.mpr ⟨r-14,?_,?_⟩))
    · omega
    · omega
  exact List.getElem?_of_mem member

-- What the caller of the stub has again.
structure Restored (m m' : Machine) : Prop where
  stack : m'.gpr r1 = m.gpr r1
  return_address : m'.lr = m.lr
  back_chain : m'.read (m.gpr r1) = m.read (m.gpr r1)
  registers : ∀ r : Nat, 14 ≤ r → r < 32 → m'.gpr r = m.gpr r
  cr : ∀ c, c ≠ cr0 → m'.cr c = m.cr c

theorem way_out (found : Found m m₂ (m₂.gpr r1)) {m₃ : Machine} (top : m₃.gpr r1 = m₂.gpr r1) (locals : m₃.gpr r11 = (call_stub_call m).gpr Rlocals)
    (same : ∀ w, w = m₂.gpr r1 ∨ w = m₂.gpr r1 + wordSize ∨ w = m.gpr r1 ∨ w = m.gpr r1 + lr_save_offset*wordSize ∨ (∃ k, k < slots.length ∧ w = slot_at (call_stub_call m) k) →
      m₃.read w = m₂.read w) :
    let m' := exec (restore_registers ++ unwind) m₃
    Restored m m' ∧ m'.mem = m₃.mem := by
  intro m'
  obtain ⟨registers,field,word,mem,_,stack,_⟩ := restore_registers_spec m₃
  have code : m' = exec unwind (exec restore_registers m₃) := exec_append _ _ _
  generalize exec restore_registers m₃ = m₄ at registers field word mem stack code
  have read : ∀ w, m₄.read w = m₃.read w := fun w => by
    rw [Machine.read,mem]
    rfl
  have chain : m₄.read (m₄.gpr r1) = m.gpr r1 := by
    rw [read,stack,top,same _ (.inl rfl),found.back_chain]
  have lr : m₄.read (m.gpr r1 + lr_save_offset*wordSize) = m.lr := by
    rw [read,same _ (.inr (.inr (.inr (.inl rfl)))),found.lr_save]
  have kept : Keeps [.gpr r1,.gpr r0,.lr] m₄ m' := by
    rw [code]
    exact (exec_keeps unwind m₄).mono (by simp [unwind,written,Instr.written])
  have place : ∀ k, m₃.gpr r11 + ((initial_offset+k : Nat) : Int)*wordSize = slot_at (call_stub_call m) k := fun k => by
    rw [locals]
    rfl
  have slot : ∀ {k s}, slots[k]? = some s → m₃.read (slot_at (call_stub_call m) k) = m₂.read (slot_at (call_stub_call m) k) :=
    fun found => same _ (.inr (.inr (.inr (.inr ⟨_,(List.getElem?_eq_some_iff.mp found).1,rfl⟩))))
  simp only [r1] at chain lr
  refine ⟨⟨?_,?_,?_,fun r low high => ?_,fun c other => ?_⟩,?_⟩
  · rw [code]
    simp [unwind,step,back_chain_offset,chain]
  · rw [code]
    simp [unwind,step,back_chain_offset,chain,lr]
  · have mem' : m'.mem = m₃.mem := by rw [code]; exact mem
    rw [← found.caller_chain,← same _ (.inr (.inr (.inl rfl))),Machine.read,mem']
    rfl
  · obtain ⟨k,at_⟩ := gpr_has_slot low high
    have nonzero : r ≠ 0 := by omega
    have other : r ≠ 1 := by omega
    rw [kept.gpr r (by simp [r0,r1,nonzero,other]),registers k r at_,place,slot at_,found.slots k _ at_ (by simp)]
    rfl
  · cases cpu : Target.cpu with
    | ppc32 =>
      have at_ : slots[3]? = some .cr := by simp [slots,cr_slots,cpu]
      rw [kept.cr c (by simp),field 3 at_,place,slot at_]
      exact found.cr 3 at_ c other
    | ppc64 =>
      rw [kept.cr c (by simp),word cpu,cr_save_offset,Nat.cast_one,Int.one_mul,top,same _ (.inr (.inl rfl))]
      exact found.cr_save cpu c other
  · rw [code]
    exact mem

-- From the frame manager's return to the caller's.
theorem stub_returned {s t : BasicType} (called : Called m older low high)
    (left : CppInterpreter.Left (stub_entry m older low high) m₂)
    (handled : stub_type t = some s) (type : m.gpr r5 = type_code s) (apart : m.gpr r1 + frame_header ≤ m.gpr r4) :
    m₂.lr = call_stub_return_address ∧ ∃ m', call_stub_return m₂ = some m' ∧ Restored m m' ∧
      (∀ w ∈ older, w + wordSize ≤ m.gpr r4 ∨ m.gpr r4 + result_size s ≤ w → m'.read w = m.read w) ∧
      (m₂.read (m.gpr r10 + pending_exception_offset) = 0 → at_result s m'.mem (m.gpr r4) = returned_value t m₂ ∧
        Cells.SameOutside (m.gpr r4) (m.gpr r4 + result_size s) m₂.mem m'.mem) ∧
      (m₂.read (m.gpr r10 + pending_exception_offset) ≠ 0 → m'.mem = m₂.mem) := by
  obtain ⟨n,framed⟩ := called_framed called
  have placed := framed_placed framed
  have found := kept_found called left.caller
  have thread : m₂.gpr Rthread = m.gpr r10 := left.thread.trans framed.thread
  refine ⟨left.return_address.trans framed.return_address,?_⟩
  let m₃ := exec (find_locals ++ [.load r0 ⟨Rthread,pending_exception_offset⟩,.compareImm cr0 r0 0]) m₂
  have mem₃ : m₃.mem = m₂.mem := rfl
  have kept₃ : Keeps [.gpr r11,.gpr r0,.cr cr0] m₂ m₃ := (exec_keeps _ m₂).mono (by simp [written,find_locals,Instr.written])
  have locals₃ : m₃.gpr r11 = (call_stub_call m).gpr Rlocals := by
    rw [← found_locals called found]
    simp [m₃,find_locals,step]
  have test : (m₃.cr cr0).eq ↔ m₂.read (m.gpr r10 + pending_exception_offset) = 0 := by
    rw [← thread]
    simp [m₃,find_locals,step]
  have result_slot : m₃.read (m₃.gpr r11 + ((initial_offset+1 : Nat) : Int)*wordSize) = m.gpr r4 := by
    rw [locals₃]
    exact found.slots 1 .result rfl (by simp)
  have type_slot : m₃.read (m₃.gpr r11 + ((initial_offset+2 : Nat) : Int)*wordSize) = type_code s := by
    rw [locals₃,← type]
    exact found.slots 2 .result_type rfl (by simp)
  have code : call_stub_return m₂ = (if (m₃.cr cr0).eq then store_result m₃ else some m₃).map fun m => exec (restore_registers ++ unwind) m := rfl
  rw [code]
  have older₂ : ∀ w ∈ older, m₂.read w = m.read w := fun w member =>
    (left.caller.outer w (List.mem_append_right _ member)).trans (older_kept called w member)
  by_cases none : m₂.read (m.gpr r10 + pending_exception_offset) = 0
  · obtain ⟨m₄,stored,value⟩ := CppInterpreter.store_result_spec t m₃ handled type_slot
    obtain ⟨top₄,locals₄,_,outside⟩ := store_result_keeps stored handled type_slot
    rw [result_slot] at value outside
    rw [if_pos (test.mpr none),stored]
    have lower := left.caller.lower
    have pos := wordSize_pos
    have inside := lr_save_inside
    have second := lr_save_above
    have locals := placed.locals
    obtain ⟨restored,mem₅⟩ := way_out found (top₄.trans (kept₃.gpr r1 (by simp))) (locals₄.trans locals₃) fun w place => by
      refine outside.word (.inl (show w + wordSize ≤ _ from ?_))
      change (m₂.gpr r1 : Int) ≤ (call_stub_call m).gpr r1 at lower
      have above := placed.above
      have slots_nonneg := Int.mul_nonneg (Int.natCast_nonneg slots.length) (Int.le_of_lt pos)
      rcases place with rfl|rfl|rfl|rfl|⟨k,less,rfl⟩
      · omega
      · omega
      · omega
      · omega
      · have within := slot_within (call_stub_call m) less
        omega
    have returned : returned_value t m₃ = returned_value t m₂ := by
      cases t <;> simp only [returned_value,kept₃.gpr r3 (by simp),kept₃.gpr r4 (by simp)]
    refine ⟨_,rfl,restored,fun w member apart => ?_,fun _ => ?_,fun pending => absurd none pending⟩
    · rw [← older₂ w member,Machine.read,mem₅]
      exact outside.word apart
    · rw [mem₅,value,returned]
      exact ⟨rfl,outside⟩
  · rw [if_neg (mt test.mp none)]
    obtain ⟨restored,mem₅⟩ := way_out found (kept₃.gpr r1 (by simp)) locals₃ fun w _ => rfl
    refine ⟨_,rfl,restored,fun w member _ => ?_,fun zero => absurd zero none,fun _ => mem₅⟩
    rw [← older₂ w member,Machine.read,mem₅]
    rfl

-- The stub's caller has its registers back after any run of the frame manager,
-- and the result at the address that it passed, unless an exception is pending.
theorem call_stub_returns {as : List CppInterpreter.Activation} {s t : BasicType} (called : Called m older low high)
    (run : Steps (stub_entry m older low high) (entered (stub_entry m older low high)) ⟨as,.blr m₂⟩)
    (handled : stub_type t = some s) (type : m.gpr r5 = type_code s) (apart : m.gpr r1 + frame_header ≤ m.gpr r4) :
    m₂.lr = call_stub_return_address ∧ ∃ m', call_stub_return m₂ = some m' ∧ Restored m m' ∧
      (∀ w ∈ older, w + wordSize ≤ m.gpr r4 ∨ m.gpr r4 + result_size s ≤ w → m'.read w = m.read w) ∧
      (m₂.read (m.gpr r10 + pending_exception_offset) = 0 → at_result s m'.mem (m.gpr r4) = returned_value t m₂ ∧
        Cells.SameOutside (m.gpr r4) (m.gpr r4 + result_size s) m₂.mem m'.mem) ∧
      (m₂.read (m.gpr r10 + pending_exception_offset) ≠ 0 → m'.mem = m₂.mem) := by
  cases CppInterpreter.reached_good (stub_entry_ready called) run with
  | blr left => exact stub_returned called left handled type apart

@[reducible] def Runtime.plain : Runtime := {CppInterpreter.Code.plain,StubRoutines.plain ppc64 with}

-- A caller of a method without parameters, with an int result at 0x2200.
def stub_caller : Machine where
  gpr r := if r = r1 then 0x2000 else if r = r4 then 0x2200 else if r = r5 then SharedRuntime.BasicType.T_INT.ctorIdx
    else if r = r6 then 0x9000 else if r = r10 then 0x8000 else if r = r9 then 0 else r
  fpr _ := 0
  cr _ := 0
  lr := 20
  ctr := 0
  mem a := if a = 0x8014 then 1 else 0

-- A caller of a method that returns 7 as an int: the parameter is at 0x2100, the
-- result goes to 0x2200 and the word at 0x2300 is the caller's own.
def int_caller : Machine := {stub_caller with
  gpr := fun r => if r = r8 then 0x2100 else if r = r9 then 1 else stub_caller.gpr r
  mem := CppInterpreter.int_method 0x9000}

def int_caller_entry : Entry := stub_entry int_caller [0x2300] 16 0x3000
def int_below : Machine :=
  CppInterpreter.requesting 0 .return_from_method (CppInterpreter.push_int 7 (CppInterpreter.call_interpreter (CppInterpreter.start int_caller_entry.machine)))

omit [Runtime] in
theorem int_caller_called : letI := Runtime.plain; Called int_caller [0x2300] 16 0x3000 :=
  letI := Runtime.plain
  ⟨by decide,by decide,by decide,by decide,by decide,by decide,by rintro o (rfl|rfl) <;> decide⟩

set_option maxRecDepth 4000 in
omit [Runtime] in
theorem returns_below : letI := Runtime.plain
    CppInterpreter.Step int_caller_entry (entered int_caller_entry) ⟨(entered int_caller_entry).activations,.interpreter_returned int_below⟩ := by
  let := Runtime.plain
  refine .interpreter (by decide) ⟨fun _ _ => rfl,by decide,by decide,⟨1,by decide,by decide⟩,
    .return_from_method,by decide,.return_from_method (t := T_INT) (by decide) fun a b rest same => ?_⟩
  cases (List.cons.inj same).2

set_option maxRecDepth 4000 in
omit [Runtime] in
theorem returns_out : letI := Runtime.plain
    CppInterpreter.Step int_caller_entry ⟨(entered int_caller_entry).activations,.interpreter_returned int_below⟩
      ⟨[],.blr (CppInterpreter.returned_int int_below)⟩ := by
  let := Runtime.plain
  have handled : CppInterpreter.handle_message .return_from_method (CppInterpreter.return_examined int_below) =
    some (.blr (CppInterpreter.returned_int int_below)) := CppInterpreter.int_is_returned (by decide) (by decide)
  exact .message (CppInterpreter.return_is_examined _ (by decide)) handled

set_option maxRecDepth 4000 in
omit [Runtime] in
theorem call_stub_returns_int : letI := Runtime.plain
    let m₂ := CppInterpreter.returned_int int_below
    ∃ m', call_stub_return m₂ = some m' ∧ Restored int_caller m' ∧ m'.read 0x2300 = int_caller.read 0x2300 ∧
      at_result T_INT m'.mem 0x2200 = .int 7 ∧ Cells.SameOutside 0x2200 0x2204 m₂.mem m'.mem := by
  let := Runtime.plain
  obtain ⟨_,m',returned,restored,older,value,_⟩ := call_stub_returns (t := T_INT) int_caller_called
    (.tail (.single returns_below) returns_out) rfl rfl (by decide)
  obtain ⟨stored,outside⟩ := value (by decide)
  have seven : returned_value T_INT (CppInterpreter.returned_int int_below) = .int 7 := by decide
  exact ⟨m',returned,restored,older 0x2300 (by simp) (.inr (by decide)),stored.trans seven,outside⟩
end StubGenerator
end IcedTea

import IcedTea.SignatureHandlerPlaces

namespace IcedTea.InterpreterRuntime
open StackFrame (link_area_words min_params)
open Vm Cells

variable [Vm]

-- Every argument is at a place of its own by the 32-bit ABI.
theorem arguments_placed (cpu : Target.cpu = .ppc32) (is_static : Bool) (signature : List NativeType)
    (within : InReach is_static signature) (result_handler : Int) (m : Machine)
    (entry : HandlerEntry (parameterWords (parameters is_static signature)) m) :
    ∃ places, Placed (iterate (Counters.start is_static) 0 (parameters is_static signature)).next.st_arg m
      (generate_narrow is_static signature result_handler m) (parameters is_static signature) places := by
  obtain ⟨loaded,same⟩ := generate_narrow_eq is_static signature within result_handler m
  rw [same]
  exact ⟨_,placed cpu is_static signature loaded m entry⟩

-- A machine with zeros in the argument registers and everywhere but in some
-- cells, which no narrow displacement from the locals reaches.
structure Blind (cells : Int → Prop) (top locals : Int) (m : Machine) : Prop where
  stack : m.gpr r1 = top
  locals : m.gpr Rlocals = locals
  mem : ∀ b, ¬ cells b → m.mem b = 0
  registers : ∀ r : Nat, gp_reg_start ≤ r → r ≤ gp_reg_max → m.gpr r = 0

section
omit [Vm]
variable {cells : Int → Prop} {top locals : Int} {m : Machine}

theorem Blind.set (blind : Blind cells top locals m) (r : Register) (v : Int) (stack : r ≠ r1) (other : r ≠ Rlocals)
    (argument : ∀ s : Nat, gp_reg_start ≤ s → s ≤ gp_reg_max → s = r → v = 0) : Blind cells top locals (m.set r v) := by
  refine ⟨?_,?_,blind.mem,fun s low high => ?_⟩
  · rw [Machine.set_gpr,if_neg (Ne.symm stack),blind.stack]
  · rw [Machine.set_gpr,if_neg (Ne.symm other),blind.locals]
  · rw [Machine.set_gpr]
    split
    · rename_i same
      exact argument s low high same
    · exact blind.registers s low high

variable [Target]

theorem Blind.loaded (blind : Blind cells top locals m) (out : ∀ offset, ¬ cells (locals + extsh offset)) (offset : Int) :
    (if wide then extsw (m.read32 (m.ea (address Rlocals offset))) else m.read32 (m.ea (address Rlocals offset))) = 0 := by
  have zero : m.mem (m.ea (address Rlocals offset)) = 0 := by
    refine blind.mem _ ?_
    rw [Machine.ea,address,blind.locals]
    exact out offset
  simp [Machine.read32,zero,extsw]

theorem Blind.lwa (blind : Blind cells top locals m) (out : ∀ offset, ¬ cells (locals + extsh offset)) (dst : Register)
    (stack : dst ≠ r1) (other : dst ≠ Rlocals) (k : Nat) : Blind cells top locals ((Emitted.lwa dst (localAddress k)).narrow.run m) := by
  change Blind cells top locals (m.set dst _)
  exact blind.set dst _ stack other fun _ _ _ _ => blind.loaded out _

theorem Blind.write_zero (blind : Blind cells top locals m) (a : Int) : Blind cells top locals (m.write a 0) := by
  refine ⟨blind.stack,blind.locals,fun b plain => ?_,blind.registers⟩
  have old := blind.mem b plain
  unfold Machine.write Cells.putWord Cells.put
  split <;> simp [old]

theorem Blind.pass (blind : Blind cells top locals m) (out : ∀ offset, ¬ cells (locals + extsh offset)) (a : StackArgument)
    (int : a.type = .int) : Blind cells top locals (a.narrow.pass_narrow m) := by
  obtain ⟨src,dst,type⟩ := a
  cases int
  have scratch := blind.set r0 0 (by decide) (by decide) fun _ _ _ _ => rfl
  have load : step m (.lwa r0 (address Rlocals (displacement (address Rlocals src)))) = m.set r0 0 := by
    change m.set r0 _ = _
    rw [blind.loaded out]
  have zero : (m.set r0 0).gpr r0 = 0 := by simp
  change Blind cells top locals (exec [.lwa r0 (address Rlocals (displacement (address Rlocals src))),.store r0 (address r1 dst)] m)
  rw [exec_cons,load,exec_cons,exec_nil,step,zero]
  exact scratch.write_zero _

-- A walk over ints alone makes nothing but loads and stores of ints.
theorem ints_iterate (c : Counters) (n k : Nat) :
    (∀ e ∈ (iterate c n (List.replicate k .int)).code, ∃ dst i, e = .lwa dst (localAddress i)) ∧
    (∀ a ∈ (iterate c n (List.replicate k .int)).st_args, a.type = .int) := by
  induction k generalizing c n with
  | zero => simp [iterate]
  | succ k ih =>
    rw [List.replicate_succ,iterate]
    obtain ⟨code,st_args⟩ := ih (pass c n .int).next (n + NativeType.words .int)
    refine ⟨fun e member => ?_,fun a member => ?_⟩
    · rcases List.mem_append.mp member with here|later
      · simp only [pass,pass_int] at here
        split at here
        · exact ⟨_,_,List.mem_singleton.mp here⟩
        · cases here
      · exact code e later
    · rcases List.mem_append.mp member with here|later
      · simp only [pass,pass_int] at here
        split at here
        · cases here
        · rw [List.mem_singleton.mp here]
      · exact st_args a later

end

-- The code for the registers, and then for the stack with room made for it.
theorem blind_registers {cells : Int → Prop} {m : Machine} (blind : Blind cells top locals m)
    (out : ∀ offset, ¬ cells (locals + extsh offset)) (listed : Listed c n words p) (start : gp_reg_start ≤ c.gp_reg)
    (ints : ∀ e ∈ p.code, ∃ dst i, e = .lwa dst (localAddress i)) :
    Blind cells top locals ((p.code.map Emitted.narrow).foldl Emitted.run m) := by
  rw [List.foldl_map]
  refine List.foldlRecOn (motive := Blind cells top locals) _ _ blind fun m blind e member => ?_
  have between := (listed.code e member).2
  obtain ⟨dst,i,rfl⟩ := ints e member
  have low : 4 ≤ dst := Nat.le_trans start between.1
  have high : dst < 11 := Nat.lt_of_lt_of_le between.2 listed.ready.gp.2
  refine blind.lwa out dst ?_ ?_ i
  · rintro rfl
    exact absurd low (by decide)
  · rintro rfl
    exact absurd high (by decide)

theorem blind_stack (cpu : Target.cpu = .ppc32) {cells : Int → Prop} {m : Machine} (blind : Blind cells (m.gpr r1) locals m)
    (out : ∀ offset, ¬ cells (locals + extsh offset)) (above : m.gpr r1 + 8 ≤ locals - 2^15)
    (ints : ∀ a ∈ p.st_args, a.type = .int) :
    ∃ top, Blind (fun b => cells b ∨ top ≤ b ∧ b < top + 8) top locals (passStack_narrow p m) := by
  have size := wordSize_ppc32 cpu
  have narrow : ∀ x, -2^15 ≤ extsh x := fun x => by unfold extsh; omega
  unfold passStack_narrow
  split
  · dsimp only
    rw [load_constant_eq]
    generalize (MacroAssembler.load (p.next.st_arg*wordSize)).foldl MacroAssembler.Immediate.apply (m.gpr r11) = v
    have apart : ∀ r : Register, 11 ≤ r → ∀ s : Nat, gp_reg_start ≤ s → s ≤ gp_reg_max → s = r → v = 0 := by
      intro r large s _ few same
      exact absurd (Nat.le_trans large (same ▸ few)) (by decide)
    have before : (available (m.set r11 v)).mem = m.mem ∧ ∀ r, r ≠ r11 → r ≠ r12 → (available (m.set r11 v)).gpr r = m.gpr r := by
      refine ⟨rfl,fun r one two => ?_⟩
      simp only [r11,r12] at one two
      simp [available,step,one,two]
    obtain ⟨extra,extended⟩ := maybe_extend_frame_spec (available (m.set r11 v)) r11 r12 (by decide) (by decide) (by decide)
    generalize available (m.set r11 v) = m₁ at before extended ⊢
    generalize maybe_extend_frame r11 r12 m₁ = m₂ at extended ⊢
    have lower : m₂.gpr r1 ≤ m.gpr r1 := by
      have stack := extended.stack
      have nonneg := extended.nonneg
      rw [before.2 r1 (by decide) (by decide)] at stack
      omega
    refine ⟨m₂.gpr r1,?_⟩
    rw [List.foldl_map]
    refine List.foldlRecOn (motive := Blind _ (m₂.gpr r1) locals) _ _ ?_ fun m' blind a member => ?_
    · refine ⟨rfl,?_,fun b plain => ?_,fun r low high => ?_⟩
      · rw [extended.gpr Rlocals (by decide) (by decide) (by decide),before.2 Rlocals (by decide) (by decide),blind.locals]
      · obtain ⟨free,outside⟩ := not_or.mp plain
        rw [extended.mem b (by omega),before.1]
        exact blind.mem b free
      · have scratch : r ≠ 1 ∧ r ≠ 11 ∧ r ≠ 12 := by
          simp only [gp_reg_start,gp_reg_max] at low high
          omega
        rw [extended.gpr r scratch.1 scratch.2.1 scratch.2.2,before.2 r scratch.2.1 scratch.2.2]
        exact blind.registers r low high
    · refine blind.pass (fun offset found => ?_) a (ints a member)
      rcases found with cell|link
      · exact out offset cell
      · have reach := narrow offset
        omega
  · exact ⟨m.gpr r1,blind.stack,blind.locals,fun b plain => blind.mem b fun cell => plain (.inl cell),blind.registers⟩

-- The handler of a static method of ints alone, over zeros.
theorem blind_generate (cpu : Target.cpu = .ppc32) (k : Nat) (result_handler : Int) {m : Machine}
    (blind : Blind (fun b => b = at_ ∨ b = at_ + 4) (m.gpr r1) locals m) (far : at_ + 4 < locals - 2^15)
    (above : m.gpr r1 + 8 ≤ locals - 2^15) :
    ∃ top, Blind (fun b => (b = at_ ∨ b = at_ + 4) ∨ top ≤ b ∧ b < top + 8) top locals
      (generate_narrow true (List.replicate k .int) result_handler m) := by
  have out : ∀ offset, ¬ (locals + extsh offset = at_ ∨ locals + extsh offset = at_ + 4) := fun offset => by
    unfold extsh
    omega
  have ints := ints_iterate (Counters.start true) 0 k
  have listed := iterate_listed (ready_start true) 0 (List.replicate k .int)
  have code := blind_registers blind out listed (ready_start true).gp.1 ints.1
  have stack := code.stack
  rw [← stack] at code
  obtain ⟨top,stored⟩ := blind_stack cpu code out (by rw [stack]; exact above) ints.2
  refine ⟨top,?_⟩
  change Blind _ top locals (load_constant r0 result_handler _)
  rw [load_constant_eq]
  exact stored.set r0 _ (by decide) (by decide) fun s low _ same => absurd (same ▸ low) (by decide)

omit [Vm] in
theorem last_int [Target] {found : List Place} (k : Nat) (all : AllPlaced st_arg m m' n (List.replicate (k+1) .int) found) :
    ∃ p ∈ found, p.Allowed st_arg .int ∧ p.Holds m' (argument m (n + k) .int) := by
  induction k generalizing n found with
  | zero =>
    cases found with
    | nil => cases all
    | cons p rest => exact ⟨p,List.mem_cons_self,all.1⟩
  | succ k ih =>
    cases found with
    | nil => cases all
    | cons p rest =>
      obtain ⟨q,member,held⟩ := ih all.2
      have next : n + NativeType.words .int + k = n + (k+1) := by
        simp only [NativeType.words]
        omega
      rw [next] at held
      exact ⟨q,List.mem_cons_of_mem p member,held⟩

-- The last of so many ints is read elsewhere: its value is at no place.
theorem far_int (cpu : Target.cpu = .ppc32) (k : Nat) (far : 2^13 + 2 ≤ k) (result_handler : Int) (st_arg : Nat) (found : List Place) :
    ¬ Placed st_arg (marked (k+1) k) (generate_narrow true (List.replicate (k+1) .int) result_handler (marked (k+1) k))
      (List.replicate (k+1) .int) found := by
  intro placed
  have size := wordSize_ppc32 cpu
  have object := sizeof_large
  have narrow : wide = false := by simp [wide,cpu]
  have entry := (marked_entry (show k < k+1 by omega)).state
  have state : (marked (k+1) k).gpr Rstate = wordSize := by simp [marked]
  obtain ⟨p,member,allowed,holds⟩ := last_int k placed.each
  have below := placed.below p member
  have one : argument (marked (k+1) k) (0 + k) .int = 1 := by
    rw [Nat.zero_add]
    simp only [argument,intValue,narrow,Bool.false_eq_true,if_false]
    rw [marked_local]
    simp [marked]
  rw [one] at holds
  have blind : Blind (fun b => b = (marked (k+1) k).ea (localAddress k) ∨ b = (marked (k+1) k).ea (localAddress k) + 4)
      ((marked (k+1) k).gpr r1) ((marked (k+1) k).gpr Rlocals) (marked (k+1) k) := by
    refine ⟨rfl,rfl,fun b plain => ?_,fun r low high => ?_⟩
    · rw [marked_local] at plain
      simp only [marked]
      exact if_neg plain
    · have low_one : r ≠ Rstate ∧ r ≠ Rlocals := by
        constructor <;>
        · rintro rfl
          exact absurd high (by decide)
      simp only [marked]
      rw [if_neg low_one.1,if_neg low_one.2]
  have base : (marked (k+1) k).gpr Rlocals = wordSize + sizeof_BytecodeInterpreter + ((k+1 : Nat) : Int)*wordSize := by
    simp [marked,Rstate,Rlocals]
  have bottom : (marked (k+1) k).gpr r1 = 0 := by simp [marked]
  have last := marked_local (k+1) k k
  rw [size] at base last
  push_cast at base last
  obtain ⟨top,left⟩ := blind_generate cpu (k+1) result_handler blind (by omega) (by omega)
  generalize generate_narrow true (List.replicate (k+1) .int) result_handler (marked (k+1) k) = m' at placed holds below left
  cases p with
  | register r =>
    have zero := left.registers r allowed.1 allowed.2
    rw [Place.Holds,zero] at holds
    cases holds
  | word i =>
    have room := below i (List.mem_singleton_self _)
    have above : 2 ≤ i := by
      have first := allowed.1
      simpa only [link_area_words,cpu] using first
    rw [Place.Holds,left.stack,Machine.read,narrow,size] at holds
    rw [left.stack,size] at room
    push_cast at room
    have zero := left.mem (top + i*4) (by omega)
    rw [word,if_neg Bool.false_ne_true,zero] at holds
    cases holds
  | pair r => exact allowed
  | float f => exact allowed
  | words i => exact allowed

section
omit [Vm]

-- With the receiver the last double and the last three ints go to the stack.
def mixed : List NativeType := .long :: List.replicate 9 .double ++ List.replicate 5 .int

theorem arguments_placed_mixed : letI := Vm.plain ppc32
    ∃ places, Placed (iterate (Counters.start false) 0 (parameters false mixed)).next.st_arg (marked 26 0)
      (generate_narrow false mixed 0 (marked 26 0)) (parameters false mixed) places := by
  let _ := Vm.plain ppc32
  have words : parameterWords (parameters false mixed) = 26 := by decide
  have reach : InReach false mixed := ⟨by rw [words]; decide,by decide⟩
  generalize mixed = signature at words reach ⊢
  refine arguments_placed rfl false signature reach 0 (marked 26 0) ?_
  rw [words]
  exact marked_entry (by decide)

theorem ints_words (k : Nat) : parameterWords (parameters true (List.replicate k .int)) = k := by
  simp [parameterWords,parameters,List.map_replicate,List.sum_replicate,NativeType.words]

theorem not_always_placed : ¬ ∀ (_ : Vm), Target.cpu = .ppc32 → ∀ (is_static : Bool) (signature : List NativeType)
    (result_handler : Int) (m : Machine), HandlerEntry (parameterWords (parameters is_static signature)) m →
    ∃ places, Placed (iterate (Counters.start is_static) 0 (parameters is_static signature)).next.st_arg m
      (generate_narrow is_static signature result_handler m) (parameters is_static signature) places := by
  intro always
  let _ := Vm.plain ppc32
  have entry : HandlerEntry (parameterWords (parameters true (List.replicate (8194+1) .int))) (marked (8194+1) 8194) := by
    rw [ints_words]
    exact marked_entry (by omega)
  obtain ⟨found,placed⟩ := always (Vm.plain ppc32) rfl true (List.replicate (8194+1) .int) 0 (marked (8194+1) 8194) entry
  exact far_int rfl 8194 (by omega) 0 _ found placed

end

end IcedTea.InterpreterRuntime

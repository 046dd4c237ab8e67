import IcedTea.DisassemblyImmediates

namespace IcedTea.Disassembler
open Target
open Assembler (emit_I emit_B operand branch_target InstructionParser register_bits)
open AssemblyText BitFields

variable [Target] {pc : Assembler.Address} {w : Nat} {mnemonic : Text}

section Conditions
omit [Target]
variable {bo bi : Nat} {cond : Text}

theorem condition_bits (bi : Nat) : bi &&& 3 = bi % 4 := Nat.and_two_pow_sub_one_eq_mod bi 2

theorem condition_listed (found : branch_condition bo bi = some cond) : (cond,bo,bi % 4) ∈ conditions ++ [([],20,0)] := by
  unfold branch_condition at found
  rw [condition_bits] at found
  split at found <;> simp_all [conditions]

theorem condition_some (has : Conditional bo bi ∨ bo = 20 ∧ bi % 4 = 0) : (branch_condition bo bi).isSome = true := by
  unfold Conditional at has
  have part := condition_bits bi
  obtain zero | one | two | three : bi % 4 = 0 ∨ bi % 4 = 1 ∨ bi % 4 = 2 ∨ bi % 4 = 3 := by omega
  · obtain rfl | rfl | rfl | rfl : bo = 12 ∨ bo = 4 ∨ bo = 16 ∨ bo = 20 := by omega
    all_goals simp [branch_condition,part,zero]
  · obtain rfl | rfl : bo = 12 ∨ bo = 4 := by omega
    all_goals simp [branch_condition,part,one]
  · obtain rfl | rfl : bo = 12 ∨ bo = 4 := by omega
    all_goals simp [branch_condition,part,two]
  · omega

theorem conditional_listed (listed : (cond,bo,bi % 4) ∈ conditions) : Conditional bo bi := by
  unfold Conditional
  simp only [conditions,List.mem_cons,Prod.mk.injEq,List.not_mem_nil,or_false] at listed
  omega

theorem listed_cases (listed : (cond,bo,bi % 4) ∈ conditions ++ [([],20,0)]) : Conditional bo bi ∨ bo = 20 ∧ bi % 4 = 0 := by
  rcases List.mem_append.mp listed with named | always
  · exact .inl (conditional_listed named)
  · have same := List.mem_singleton.mp always
    simp only [Prod.mk.injEq] at same
    exact .inr ⟨same.2.1,same.2.2⟩

theorem flag_l (lk : Bool) : flag 'l' lk.toNat = letter_l lk := by cases lk <;> rfl

end Conditions

-- The registers that a branch goes to, by extended opcode.
def spr_text (xo : Nat) : Text := if xo = 16 then ['l','r'] else ['c','t','r']

theorem to_register_known (lk : Bool) {xo : Nat} (which : xo = 16 ∨ xo = 528) (c : Text × Nat × Nat)
    (listed : c ∈ conditions ++ [([],20,0)]) : ' ' ∉ 'b' :: c.1 ++ spr_text xo ++ letter_l lk ∧
    mnemonics.lookup ('b' :: c.1 ++ spr_text xo ++ letter_l lk) = some (bare (.X 19 c.2.1 c.2.2 0 xo lk)) := by
  simp only [conditions,List.cons_append,List.nil_append,List.mem_cons,List.not_mem_nil,or_false] at listed
  rcases which with rfl | rfl
  · rcases listed with rfl | rfl | rfl | rfl | rfl | rfl | rfl | rfl <;> cases lk <;> exact ⟨by decide,rfl⟩
  · rcases listed with rfl | rfl | rfl | rfl | rfl | rfl | rfl | rfl <;> cases lk <;> exact ⟨by decide,rfl⟩

-- A condition in another field than the first is lost.
theorem printed_bcspr {bo bi : Int} {lk : Bool} (xo : Nat) (emits : emit_X 19 bo bi 0 xo lk = some w)
    (which : xo = 16 ∨ xo = 528) : Disassembled pc w ↔ Conditional bo bi ∧ bi < 4 ∨ bo = 20 ∧ bi = 0 := by
  obtain ⟨-,bo_natural,bi_natural,-,-⟩ : 0 ≤ (19 : Int) ∧ 0 ≤ bo ∧ 0 ≤ bi ∧ 0 ≤ (0 : Int) ∧ 0 ≤ (xo : Int) := by
    simpa [Operands.unsigned] using (emitted_X emits).natural
  obtain ⟨bo,rfl⟩ := Int.eq_ofNat_of_zero_le bo_natural
  obtain ⟨bi,rfl⟩ := Int.eq_ofNat_of_zero_le bi_natural
  have read := reads_X emits (.inl rfl)
  have op : opcode (.at_ w) = 19 := Int.ofNat.inj (extended_X emits (.inl rfl)).1
  obtain ⟨d,entry,printer⟩ : ∃ d, definition 19 xo = some d ∧ d.printer = print_X_bcspr := by
    rcases which with rfl | rfl <;> exact ⟨_,rfl,rfl⟩
  have here := definition_X emits (.inl rfl) entry
  have printed : d.printer pc (.at_ w) d.mnemonic = (branch_condition bo bi).bind fun cond =>
      some ⟨'b' :: cond ++ spr_text xo ++ letter_l lk,[]⟩ := by
    rw [printer]
    simp only [print_X_bcspr,op,read.a,read.b,read.c,read.xo,read.rc,Option.bind_eq_bind,Option.bind_some]
    rcases which with rfl | rfl
    · rw [← flag_l]
      rfl
    · rw [← flag_l]
      rfl
  cases found : branch_condition bo bi with
  | none =>
    rw [found] at printed
    refine iff_of_false (not_disassembled here printed) fun has => ?_
    have named : (branch_condition bo bi).isSome = true := condition_some (by unfold Conditional at *; omega)
    rw [found] at named
    cases named
  | some cond =>
    rw [found] at printed
    have listed := condition_listed found
    have has := listed_cases listed
    obtain ⟨one_word,known⟩ := to_register_known lk which _ listed
    have line : Disassembled pc w ↔ emit_X 19 bo (bi % 4 : Nat) 0 xo lk = some w :=
      disassembled_of_printed here printed one_word known
    rw [line]
    constructor
    · intro emits'
      have same := (reads_X emits (.inl rfl)).b.symm.trans (reads_X emits' (.inl rfl)).b
      have low : bi = bi % 4 := congrArg Prod.fst (Option.some.inj same)
      rcases has with named | ⟨always,zero⟩
      · exact .inl ⟨named,by omega⟩
      · exact .inr ⟨by omega,by omega⟩
    · intro first
      have low : bi % 4 = bi := by omega
      rw [low]
      exact emits

section Targets
variable {a : Assembler.Address} {bits : Nat} {disp : BitVec register_bits}

-- The displacement field holds the words from the branch to its target.
structure Reached (pc a : Assembler.Address) (bits : Nat) (disp : BitVec register_bits) : Prop where
  signed : (disp.toNat : Int).bmod (2^bits) = displacement pc a.toNat
  field : displacement pc a.toNat % 2^bits = disp.toNat
  pointer : branch_pointer pc (displacement pc a.toNat) = .pointer a.toNat
  first : displacement pc a.toNat = 1 ↔ a = pc + 4

theorem reached (which : bits = 14 ∨ bits = 24) (taken : branch_target pc a bits = some disp) : Reached pc a bits disp := by
  have wide : 32 ≤ register_bits := by
    unfold register_bits
    cases cpu <;> decide
  have aligned : Assembler.Aligned pc ∧ Assembler.Aligned a := by
    unfold branch_target at taken
    split at taken
    · cases taken
    · split at taken
      · cases taken
      · rename_i pc_low a_low
        exact ⟨(Assembler.aligned_iff pc).mp (not_not.mp pc_low),(Assembler.aligned_iff a).mp (not_not.mp a_low)⟩
  rw [Assembler.branch_target_some pc a bits (by omega) (by omega) aligned.1 aligned.2] at taken
  have whole := Assembler.difference_aligned aligned.1 aligned.2
  have words : displacement pc a.toNat = (a - pc).toInt / 4 := by
    unfold displacement
    rw [BitVec.ofNat_toNat,BitVec.setWidth_eq]
  split at taken
  · rename_i fits
    have value := Option.some.inj taken
    have bytes : (a - pc).toInt = displacement pc a.toNat * 4 := by omega
    rw [← words] at value fits
    have field : (disp.toNat : Int) = displacement pc a.toNat % 2^bits := by
      rw [← value,BitVec.toNat_ofNat]
      have high : (displacement pc a.toNat % 2^bits).toNat < 2^32 := by rcases which with rfl | rfl <;> omega
      rw [Nat.mod_eq_of_lt (Nat.lt_of_lt_of_le high (Nat.pow_le_pow_right (by decide) wide))]
      rcases which with rfl | rfl <;> omega
    refine ⟨?_,field.symm,?_,?_⟩
    · unfold Assembler.Fits at fits
      rw [field,Int.bmod_def]
      rcases which with rfl | rfl <;> split <;> omega
    · unfold branch_pointer
      rw [show displacement pc a.toNat * 2^2 = (a - pc).toInt from bytes.symm,BitVec.ofInt_toInt,BitVec.add_comm,BitVec.sub_add_cancel]
    · have four : (4 : Assembler.Address).toInt = 4 := by
        unfold Assembler.Address register_bits
        cases cpu <;> rfl
      constructor
      · intro one
        have next : a - pc = 4 := BitVec.eq_of_toInt_eq (by rw [four,bytes,one]; rfl)
        rw [← next,BitVec.add_comm,BitVec.sub_add_cancel]
      · intro next
        have difference : a - pc = 4 := by rw [next,BitVec.add_comm,BitVec.add_sub_cancel]
        rw [difference,four] at bytes
        omega
  · cases taken

theorem branch_known (lk : Bool) (c : Text × Nat × Nat) (listed : c ∈ conditions) : ' ' ∉ 'b' :: c.1 ++ letter_l lk ++ [] ∧
    mnemonics.lookup ('b' :: c.1 ++ letter_l lk ++ []) = some (b_cond c.2.1 c.2.2 lk) := by
  simp only [conditions,List.mem_cons,List.not_mem_nil,or_false] at listed
  rcases listed with rfl | rfl | rfl | rfl | rfl | rfl | rfl <;> cases lk <;> exact ⟨by decide,rfl⟩

-- The operands of a branch on a condition are its field, if not the first, and its target.
def branch_operands (bi : Nat) (target : Nat) : List Operand := (if bi >>> 2 ≠ 0 then [.crf (bi >>> 2)] else []) ++ [.pointer target]

theorem branch_operands_read (bo bi : Nat) (lk : Bool) (target : Nat) : b_cond bo (bi % 4) lk pc (branch_operands bi target) =
    some (.B 16 bo bi (displacement pc target % 2^14) false lk) := by
  have shifted : bi >>> 2 = bi / 2^2 := Nat.shiftRight_eq_div_pow bi 2
  unfold branch_operands
  rw [shifted]
  split
  · have together : bi / 2^2 * 4 + bi % 4 = bi := by omega
    change some (Operands.B 16 bo (bi / 2^2 * 4 + bi % 4 : Nat) _ false lk) = _
    rw [together]
  · have together : bi % 4 = bi := by omega
    change some (Operands.B 16 bo (bi % 4 : Nat) _ false lk) = _
    rw [together]

theorem printed_B_fields {bo bi : Nat} {lk : Bool} (target : Reached pc a 14 disp)
    (emits : emit_B 16 bo bi disp.toNat false lk = some w) : print_B_bc pc (.at_ w) mnemonic =
      if bo = 20 then if bi = 31 ∧ a = pc + 4 ∧ lk = true then some ⟨['m','p','c','l','r'],[]⟩ else none
      else (branch_condition bo bi).bind fun cond => some ⟨'b' :: cond ++ letter_l lk ++ [],branch_operands bi a.toNat⟩ := by
  have e := emitted_B emits
  have parts : [w / 2^26 % 2^6,w / 2^21 % 2^5,w / 2^16 % 2^5,w / 2^2 % 2^14,w / 2^1 % 2^1,w / 2^0 % 2^1] =
    [16,bo,bi,disp.toNat,0,lk.toNat] := e.parts
  simp only [List.cons.injEq,and_true] at parts
  obtain ⟨-,BO,BI,BD,AA,LK⟩ := parts
  have op : ∀ bits, opcode ⟨w,bits⟩ = 16 := fun bits => Int.ofNat.inj (emitted_opcode e)
  have signed := read_signed_bmod w 16 14 (by decide) (by decide) disp.toNat (by omega)
  rw [target.signed] at signed
  have linked : lk.toNat = 1 ↔ lk = true := by cases lk <;> decide
  have next : (bi = 31 ∧ displacement pc a.toNat = 1 ∧ 0 = 0 ∧ lk.toNat = 1) ↔ bi = 31 ∧ a = pc + 4 ∧ lk = true := by
    rw [target.first,linked]
    simp only [true_and]
  have printed : print_B_bc pc (.at_ w) mnemonic =
      if bo = 20 then if bi = 31 ∧ displacement pc a.toNat = 1 ∧ 0 = 0 ∧ lk.toNat = 1 then some ⟨['m','p','c','l','r'],[]⟩ else none
      else (branch_condition bo bi).bind fun cond => some ⟨'b' :: cond ++ letter_l lk ++ [],branch_operands bi a.toNat⟩ := by
    simp only [print_B_bc,InstructionParser.at_,op,Assembler.read_some w 26 5 (by decide),Assembler.read_some w 21 5 (by decide),
      signed,Assembler.read_some w 2 1 (by decide),Assembler.read_some w 1 1 (by decide),Option.bind_eq_bind,Option.bind_some,
      BO,BI,AA,LK,target.pointer,flag_l]
    rfl
  rw [printed,if_congr next rfl rfl]

-- A branch always taken is only printed when it is the one to the next instruction that sets LR.
theorem printed_B {bo bi : Int} {lk : Bool} (target : Reached pc a 14 disp)
    (emits : emit_B 16 bo bi disp.toNat false lk = some w) :
    Disassembled pc w ↔ Conditional bo bi ∨ lk = true ∧ bo = 20 ∧ bi = 31 ∧ a = pc + 4 := by
  obtain ⟨-,bo_natural,bi_natural,-⟩ : 0 ≤ (16 : Int) ∧ 0 ≤ bo ∧ 0 ≤ bi ∧ 0 ≤ (disp.toNat : Int) := by
    simpa [Operands.unsigned] using (emitted_B emits).natural
  obtain ⟨bo,rfl⟩ := Int.eq_ofNat_of_zero_le bo_natural
  obtain ⟨bi,rfl⟩ := Int.eq_ofNat_of_zero_le bi_natural
  have op : opcode (.at_ w) = 16 := Int.ofNat.inj (emitted_opcode (emitted_B emits))
  have here : definition (opcode (.at_ w)) (extended_opcode (.at_ w)) = some ⟨16,-1,['b','c'],print_B_bc⟩ := by
    rw [extended_plain (by rw [op]; decide),op]
    rfl
  have printed : print_B_bc pc (.at_ w) ['b','c'] = _ := printed_B_fields target emits
  by_cases always : bo = 20
  · have unnamed : ¬ Conditional (bo : Int) bi := by
      unfold Conditional
      omega
    rw [if_pos always] at printed
    by_cases next : bi = 31 ∧ a = pc + 4 ∧ lk = true
    · rw [if_pos next] at printed
      obtain ⟨rfl,to_next,rfl⟩ := next
      subst always
      have one_word : ' ' ∉ (['m','p','c','l','r'] : Text) := by decide
      rw [disassembled_of_printed here printed one_word (f := bare (.B 16 20 31 1 false true)) rfl]
      refine iff_of_true ?_ (.inr ⟨rfl,rfl,rfl,to_next⟩)
      have one : (disp.toNat : Int) = 1 := by
        have field := target.field
        rw [target.first.mpr to_next] at field
        omega
      rw [one] at emits
      exact emits
    · rw [if_neg next] at printed
      refine iff_of_false (not_disassembled here printed) ?_
      rintro (named | ⟨linked,-,last,to_next⟩)
      · exact unnamed named
      · exact next ⟨by omega,to_next,linked⟩
  · rw [if_neg always] at printed
    cases found : branch_condition bo bi with
    | none =>
      rw [found] at printed
      refine iff_of_false (not_disassembled here printed) ?_
      rintro (named | ⟨-,taken,-⟩)
      · have some_text := condition_some (.inl named)
        rw [found] at some_text
        cases some_text
      · exact always (by omega)
    | some cond =>
      rw [found] at printed
      have listed : (cond,bo,bi % 4) ∈ conditions := by
        rcases List.mem_append.mp (condition_listed found) with named | last
        · exact named
        · have same := List.mem_singleton.mp last
          simp only [Prod.mk.injEq] at same
          exact absurd same.2.1 always
      obtain ⟨one_word,known⟩ := branch_known lk _ listed
      rw [disassembled_of_printed here printed one_word known,branch_operands_read,target.field,Option.bind_some]
      exact iff_of_true emits (.inl (conditional_listed listed))

theorem printed_I {lk : Bool} (target : Reached pc a 24 disp) (emits : emit_I 18 disp.toNat false lk = some w) :
    Disassembled pc w := by
  have e := emitted_I emits
  have parts : [w / 2^26 % 2^6,w / 2^2 % 2^24,w / 2^1 % 2^1,w / 2^0 % 2^1] = [18,disp.toNat,0,lk.toNat] := e.parts
  simp only [List.cons.injEq,and_true] at parts
  obtain ⟨-,LI,AA,LK⟩ := parts
  have op : ∀ bits, opcode ⟨w,bits⟩ = 18 := fun bits => Int.ofNat.inj (emitted_opcode e)
  have signed := read_signed_bmod w 26 24 (by decide) (by decide) disp.toNat (by omega)
  rw [target.signed] at signed
  have here : definition (opcode (.at_ w)) (extended_opcode (.at_ w)) = some ⟨18,-1,['b'],print_I_b⟩ := by
    rw [extended_plain (by rw [InstructionParser.at_,op]; decide),InstructionParser.at_,op]
    rfl
  have printed : print_I_b pc (.at_ w) ['b'] = some ⟨'b' :: letter_l lk,[.pointer a.toNat]⟩ := by
    simp only [print_I_b,InstructionParser.at_,op,signed,Assembler.read_some w 2 1 (by decide),
      Assembler.read_some w 1 1 (by decide),Option.bind_eq_bind,Option.bind_some,AA,LK,target.pointer,flag_l]
    cases lk <;> rfl
  have one_word : ' ' ∉ 'b' :: letter_l lk := by cases lk <;> decide
  have known : mnemonics.lookup ('b' :: letter_l lk) = some (i_b lk) := by cases lk <;> rfl
  rw [disassembled_of_printed here printed one_word known]
  change emit_I 18 (displacement pc a.toNat % 2^24) false lk = some w
  rw [target.field]
  exact emits

end Targets

theorem printed_mfspr {dst : Nat} {spr : SpecialPurposeRegister} (emits : emit_X 31 dst spr.encoding 0 339 false = some w) :
    Disassembled pc w ↔ spr ≠ .xer := by
  cases spr with
  | xer => exact iff_of_false (not_printed_xer 339 emits rfl) fun other => other rfl
  | lr => exact iff_of_true (printed_mspr 339 ['l','r'] emits rfl (.inl ⟨rfl,rfl⟩) (by decide) rfl) SpecialPurposeRegister.noConfusion
  | ctr => exact iff_of_true (printed_mspr 339 ['c','t','r'] emits rfl (.inr ⟨rfl,rfl⟩) (by decide) rfl) SpecialPurposeRegister.noConfusion

theorem printed_mtspr {src : Nat} {spr : SpecialPurposeRegister} (emits : emit_X 31 src spr.encoding 0 467 false = some w) :
    Disassembled pc w ↔ spr ≠ .xer := by
  cases spr with
  | xer => exact iff_of_false (not_printed_xer 467 emits rfl) fun other => other rfl
  | lr => exact iff_of_true (printed_mspr 467 ['l','r'] emits rfl (.inl ⟨rfl,rfl⟩) (by decide) rfl) SpecialPurposeRegister.noConfusion
  | ctr => exact iff_of_true (printed_mspr 467 ['c','t','r'] emits rfl (.inr ⟨rfl,rfl⟩) (by decide) rfl) SpecialPurposeRegister.noConfusion

theorem not_printed_stdx {src a b : Nat} (emits : emit_X 31 src a b 149 false = some w) : ¬ Disassembled pc w := by
  rintro ⟨row,-⟩
  obtain ⟨op,extended⟩ := extended_X emits (.inr (.inl rfl))
  rw [extended,show opcode (.at_ w) = 31 from Int.ofNat.inj op] at row
  cases row

theorem printed_iff {call : Call} (emits : emit pc call = some w) : Disassembled pc w ↔ call.Printable pc := by
  cases call with
  | add => exact iff_of_true (printed_add emits) trivial
  | addi => exact iff_of_true (printed_addi emits) trivial
  | addis => exact iff_of_true (printed_addis emits) trivial
  | andi_ => exact iff_of_true (printed_uimm 28 emits (by decide) (by decide) rfl (by decide) rfl) trivial
  | b | bl =>
    obtain ⟨disp,taken,emits⟩ := Option.bind_eq_some_iff.mp emits
    exact iff_of_true (printed_I (reached (.inr rfl) taken) emits) trivial
  | bc =>
    obtain ⟨disp,taken,emits⟩ := Option.bind_eq_some_iff.mp emits
    rw [printed_B (reached (.inl rfl) taken) emits]
    simp [Call.Printable]
  | bcl =>
    obtain ⟨disp,taken,emits⟩ := Option.bind_eq_some_iff.mp emits
    rw [printed_B (reached (.inl rfl) taken) emits]
    simp [Call.Printable]
  | bclr | bclrl => exact printed_bcspr 16 emits (.inl rfl)
  | bcctrl => exact printed_bcspr 528 emits (.inr rfl)
  | cmp dst l => exact iff_of_true (printed_cmp dst l emits) trivial
  | cmpi dst l => exact iff_of_true (printed_cmpi dst l emits) trivial
  | dcbf => exact iff_of_true (printed_res_regorzero_reg 86 emits rfl (by decide) rfl) trivial
  | icbi => exact iff_of_true (printed_res_regorzero_reg 982 emits rfl (by decide) rfl) trivial
  | extsb => exact iff_of_true (printed_switched_regreg 954 emits rfl (by decide) rfl) trivial
  | extsh => exact iff_of_true (printed_switched_regreg 922 emits rfl (by decide) rfl) trivial
  | extsw => exact iff_of_true (printed_switched_regreg 986 emits rfl (by decide) rfl) trivial
  | fmr => exact iff_of_true (printed_fmr emits) trivial
  | isync => exact iff_of_true (printed_reserved 19 150 emits (.inl rfl) rfl (by decide) rfl) trivial
  | sync => exact iff_of_true (printed_reserved 31 598 emits (.inr (.inl rfl)) rfl (by decide) rfl) trivial
  | lbzx => exact iff_of_true (printed_reg_regorzero_reg 87 emits (by decide) rfl (by decide) rfl) trivial
  | lhzx => exact iff_of_true (printed_reg_regorzero_reg 279 emits (by decide) rfl (by decide) rfl) trivial
  | lwarx => exact iff_of_true (printed_reg_regorzero_reg 20 emits (by decide) rfl (by decide) rfl) trivial
  | lwzx => exact iff_of_true (printed_reg_regorzero_reg 23 emits (by decide) rfl (by decide) rfl) trivial
  | ldarx => exact iff_of_true (printed_reg_regorzero_reg 84 emits (by decide) rfl (by decide) rfl) trivial
  | ldx => exact iff_of_true (printed_reg_regorzero_reg 21 emits (by decide) rfl (by decide) rfl) trivial
  | stwcx_ => exact iff_of_true (printed_reg_regorzero_reg 150 emits (by decide) rfl (by decide) rfl) trivial
  | stwux => exact iff_of_true (printed_reg_regorzero_reg 183 emits (by decide) rfl (by decide) rfl) trivial
  | stwx => exact iff_of_true (printed_reg_regorzero_reg 151 emits (by decide) rfl (by decide) rfl) trivial
  | stdcx_ => exact iff_of_true (printed_reg_regorzero_reg 214 emits (by decide) rfl (by decide) rfl) trivial
  | stdux => exact iff_of_true (printed_reg_regorzero_reg 181 emits (by decide) rfl (by decide) rfl) trivial
  | stdx => exact iff_of_false (not_printed_stdx emits) not_false
  | lfd => exact iff_of_true (printed_freg_addr 50 emits (by decide) rfl (by decide) rfl) trivial
  | lfs => exact iff_of_true (printed_freg_addr 48 emits (by decide) rfl (by decide) rfl) trivial
  | stfd => exact iff_of_true (printed_freg_addr 54 emits (by decide) rfl (by decide) rfl) trivial
  | stfs => exact iff_of_true (printed_freg_addr 52 emits (by decide) rfl (by decide) rfl) trivial
  | lhz => exact iff_of_true (printed_reg_addr 40 emits (by decide) rfl (by decide) rfl) trivial
  | lwz => exact iff_of_true (printed_reg_addr 32 emits (by decide) rfl (by decide) rfl) trivial
  | stw => exact iff_of_true (printed_reg_addr 36 emits (by decide) rfl (by decide) rfl) trivial
  | stwu => exact iff_of_true (printed_reg_addr 37 emits (by decide) rfl (by decide) rfl) trivial
  | ld => exact iff_of_true (printed_DS 58 0 emits (.inl rfl) rfl (by decide) rfl) trivial
  | std => exact iff_of_true (printed_DS 62 0 emits (.inr rfl) rfl (by decide) rfl) trivial
  | stdu => exact iff_of_true (printed_DS 62 1 emits (.inr rfl) rfl (by decide) rfl) trivial
  | mfcr => exact iff_of_true (printed_mfcr emits) trivial
  | mfspr => exact printed_mfspr emits
  | mtspr => exact printed_mtspr emits
  | mtcrf => exact iff_of_true (printed_mtcrf emits) trivial
  | neg => exact iff_of_true (printed_neg emits) trivial
  | OR => exact iff_of_true (printed_OR emits) trivial
  | ori => exact iff_of_true (printed_ori emits) trivial
  | oris => exact iff_of_true (printed_uimm 25 emits (by decide) (by decide) rfl (by decide) rfl) trivial
  | rlwinm => exact printed_rlwinm emits
  | rldicl => exact printed_rldicl emits
  | rldicr => exact printed_rldicr emits
  | subf => exact iff_of_true (printed_subf emits) trivial
  | subfic => exact iff_of_true (printed_subfic emits) trivial

-- What is printed denotes the instruction exactly for the calls that have a text, and
-- the texts of those tell the words apart.
theorem disassembled_iff (pc : Assembler.Address) (call : Call) (w : Nat) (emits : emit pc call = some w) :
    (Disassembled pc w ↔ call.Printable pc) ∧
    ∀ call' w', emit pc call' = some w' → call.Printable pc → call'.Printable pc →
      print_instruction_at pc w = print_instruction_at pc w' → w = w' := by
  refine ⟨printed_iff emits,fun call' w' emits' here there same => ?_⟩
  have one := (printed_iff emits).mpr here
  have other := (printed_iff emits').mpr there
  exact disassembled_injective one other same

omit [Target] in
-- add r3, r4, r5
theorem disassembled_add : letI := ppc64
    (Disassembled 0 0x7C642A14 ↔ (Call.add 3 4 5).Printable 0) ∧
    ∀ call' w', emit 0 call' = some w' → (Call.add 3 4 5).Printable 0 → call'.Printable 0 →
      print_instruction_at 0 0x7C642A14 = print_instruction_at 0 w' → 0x7C642A14 = w' :=
  letI := ppc64
  disassembled_iff 0 (.add 3 4 5) 0x7C642A14 (by decide)

omit [Target] in
-- The table has no stdx, and a rotation with a mask is printed as the shift that has the mask.
theorem not_always_disassembled :
    (¬ ∀ (_ : Target) (pc : Assembler.Address) (call : Call) (w : Nat), emit pc call = some w → Disassembled pc w) ∧
    ¬ ∀ (_ : Target) (pc : Assembler.Address) (call call' : Call) (w w' : Nat), emit pc call = some w → emit pc call' = some w' →
      print_instruction_at pc w = print_instruction_at pc w' → w = w' := by
  constructor
  · intro all
    let := ppc64
    have line := all ppc64 0 (.stdx 3 4 5) 0x7C64292A (by decide)
    have emits : emit_X 31 (3 : Nat) (4 : Nat) (5 : Nat) 149 false = some 0x7C64292A := by decide
    exact not_printed_stdx emits line
  · intro all
    let := ppc64
    have same := all ppc64 0 (.rldicl 3 4 0 5) (.rldicl 3 4 59 5) 0x78830140 0x7883D942 (by decide) (by decide) (by decide)
    exact absurd same (by decide)

end IcedTea.Disassembler

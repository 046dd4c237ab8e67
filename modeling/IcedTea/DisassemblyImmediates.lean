import IcedTea.DisassemblyRegisters

namespace IcedTea.Disassembler
open Target
open Assembler (emit_I emit_B operand branch_target InstructionParser register_bits)
open AssemblyText BitFields

variable [Target] {pc : Assembler.Address} {w : Nat} {mnemonic : Text}

section Immediates
omit [Target]

-- Opcodes without an extended opcode.
def Plain (op : Nat) : Prop := op ∉ [19,30,31,58,62,63]

instance (op : Nat) : Decidable (Plain op) := inferInstanceAs (Decidable (¬ _))

theorem extended_plain {p : InstructionParser} (plain : Plain (opcode p)) : extended_opcode p = -1 := by
  unfold extended_opcode
  split
  case h_7 => rfl
  all_goals
    rename_i same
    rw [same] at plain
    exact absurd plain (by decide)

-- The printers of the D form see the operands, but for the immediate's width.
structure ReadsD (w op a b : Nat) (c : Int) : Prop where
  opcode : ∀ bits, opcode ⟨w,bits⟩ = op
  a : (InstructionParser.at_ w).read 5 = some (a,⟨w,21⟩)
  b : (InstructionParser.mk w 21).read 5 = some (b,⟨w,16⟩)
  si : (InstructionParser.mk w 16).read_signed 16 = some (c.bmod (2^16),⟨w,0⟩)
  ui : (InstructionParser.mk w 16).read 16 = some ((c % 2^16).toNat,⟨w,0⟩)

theorem reads_D {op a b : Nat} {c : Int} (emits : emit_D op a b c = some w) : ReadsD w op a b c := by
  have e := emitted_D emits
  have parts : [w / 2^26 % 2^6,w / 2^21 % 2^5,w / 2^16 % 2^5,w / 2^0 % 2^16] = [op,a,b,(c % 2^16).toNat] := e.parts
  simp only [List.cons.injEq,and_true] at parts
  obtain ⟨-,a_part,b_part,c_part⟩ := parts
  refine ⟨fun bits => Int.ofNat.inj (emitted_opcode e),?_,?_,read_signed_bmod w 16 16 (by decide) (by decide) c c_part,?_⟩
  · rw [InstructionParser.at_,Assembler.read_some w 26 5 (by decide),a_part]
  · rw [Assembler.read_some w 21 5 (by decide),b_part]
  · rw [Assembler.read_some w 16 16 (by decide),c_part]

-- Immediates that the field cannot tell apart give one word.
theorem same_D {op a b c c' : Int} (emits : emit_D op a b c = some w) (range : -2^16 ≤ c' ∧ c' < 2^16)
    (agree : c' % 2^16 = c % 2^16) : emit_D op a b c' = some w := by
  unfold emit_D at *
  obtain ⟨op,rfl,op_low,emits⟩ := operand_inv emits
  obtain ⟨a,rfl,a_low,emits⟩ := operand_inv emits
  obtain ⟨b,rfl,b_low,emits⟩ := operand_inv emits
  simp only [Assembler.operand_nat 6 _ op_low,Assembler.operand_nat 5 _ a_low,Assembler.operand_nat 5 _ b_low,
    Option.bind_eq_bind,Option.bind_some,if_pos range,agree]
  exact some_of_guard emits

theorem same_bmod {op a b c : Int} (emits : emit_D op a b c = some w) : emit_D op a b (c.bmod (2^16)) = some w := by
  have least : -2^16 ≤ c.bmod (2^16) ∧ c.bmod (2^16) < 2^16 := by
    rw [Int.bmod_def]
    split <;> omega
  exact same_D emits least Int.bmod_emod

theorem same_emod {op a b c : Int} (emits : emit_D op a b c = some w) : emit_D op a b (c % 2^16).toNat = some w :=
  same_D emits ⟨by omega,by omega⟩ (by omega)

end Immediates

section Immediate
variable {a b : Nat} {c : Int}

theorem definition_D {op : Nat} (emits : emit_D op a b c = some w) (plain : Plain op) {d : InstructionDefinition}
    (entry : definition op (-1) = some d) : definition (opcode (.at_ w)) (extended_opcode (.at_ w)) = some d := by
  have op_read : opcode (.at_ w) = op := (reads_D emits).opcode 26
  rw [extended_plain (by rw [op_read]; exact plain),op_read]
  exact entry

theorem printed_D {op : Nat} (emits : emit_D op a b c = some w) (plain : Plain op) {n : Nat} {x : Int} {printer : Printer}
    (entry : definition op (-1) = some ⟨n,x,mnemonic,printer⟩) (text : Text) (operands : List Operand) (f : Reader)
    (printed : printer pc (.at_ w) mnemonic = some ⟨text,operands⟩) (one_word : ' ' ∉ text)
    (known : mnemonics.lookup text = some f) {a' b' c' : Int} (reads : f pc operands = some (.D op a' b' c'))
    (same : emit_D op a' b' c' = some w) : Disassembled pc w := by
  rw [disassembled_of_printed (definition_D emits plain entry) printed one_word known,reads]
  exact same

-- The immediate is printed as the number of 16 bits that it is encoded as.
theorem ReadsD.simm {op : Nat} (read : ReadsD w op a b c) (pc : Assembler.Address) (mnemonic : Text) :
    print_D_reg_reg_simm pc (.at_ w) mnemonic =
    let SI := c.bmod (2^16)
    if b = 0 ∧ op = 14 then some ⟨['l','i'],[.gpr a,.number SI]⟩
    else if b = 0 ∧ op = 15 then some ⟨['l','i','s'],[.gpr a,.number SI]⟩
    else if op = 14 ∧ SI < 0 then some ⟨['s','u','b','i'],[.gpr a,reg_or_zero b,.number (-SI)]⟩
    else some ⟨mnemonic,[.gpr a,reg_or_zero b,.number SI]⟩ := by
  simp only [print_D_reg_reg_simm,read_reg,read.a,read.b,read.si,Option.bind_eq_bind,Option.bind_some,read.opcode]

theorem ReadsD.uimm {op : Nat} (read : ReadsD w op a b c) (pc : Assembler.Address) (mnemonic : Text) :
    print_D_reg_reg_uimm pc (.at_ w) mnemonic =
    let UI : Nat := (c % 2^16).toNat
    if op = 24 ∧ a = 0 ∧ b = 0 ∧ UI = 0 then some ⟨['n','o','p'],[]⟩ else some ⟨mnemonic,[.gpr b,.gpr a,.number UI]⟩ := by
  simp only [print_D_reg_reg_uimm,read_reg,read.a,read.b,read.ui,Option.bind_eq_bind,Option.bind_some,read.opcode]

theorem simm_operands (op : Nat) (si : Int) : d_simm op pc [.gpr a,reg_or_zero b,.number si] = some (.D op a b si) := by
  have reads : d_simm op pc [.gpr a,reg_or_zero b,.number si] =
      (base_register (reg_or_zero b)).map fun base : Nat => .D op a base si := rfl
  rw [reads,base_register_zero]
  rfl

theorem subi_operands (v : Int) : d_subi pc [.gpr a,reg_or_zero b,.number v] = some (.D 14 a b (-v)) := by
  have reads : d_subi pc [.gpr a,reg_or_zero b,.number v] =
      (base_register (reg_or_zero b)).map fun base : Nat => .D 14 a base (-v) := rfl
  rw [reads,base_register_zero]
  rfl

theorem printed_subfic (emits : emit_D 8 a b c = some w) : Disassembled pc w := by
  refine printed_D emits (by decide) rfl ['s','u','b','f','i','c'] [.gpr a,reg_or_zero b,.number (c.bmod (2^16))] (d_simm 8)
    ?_ (by decide) rfl (simm_operands 8 _) (same_bmod emits)
  rw [(reads_D emits).simm]
  simp

theorem printed_addis (emits : emit_D 15 a b c = some w) : Disassembled pc w := by
  by_cases zero : b = 0
  · subst zero
    refine printed_D emits (by decide) rfl ['l','i','s'] [.gpr a,.number (c.bmod (2^16))] (d_li 15) ?_ (by decide) rfl rfl
      (same_bmod emits)
    rw [(reads_D emits).simm]
    simp
  · refine printed_D emits (by decide) rfl ['a','d','d','i','s'] [.gpr a,reg_or_zero b,.number (c.bmod (2^16))] (d_simm 15)
      ?_ (by decide) rfl (simm_operands 15 _) (same_bmod emits)
    rw [(reads_D emits).simm]
    simp [zero]

-- Register 0 as the base makes a load of the immediate, and a negative immediate a subtraction.
theorem printed_addi (emits : emit_D 14 a b c = some w) : Disassembled pc w := by
  have same := same_bmod emits
  have printed := (reads_D emits).simm pc ['a','d','d','i']
  generalize c.bmod (2^16) = si at same printed
  by_cases zero : b = 0
  · subst zero
    refine printed_D emits (by decide) rfl ['l','i'] [.gpr a,.number si] (d_li 14) ?_ (by decide) rfl rfl same
    rw [printed]
    simp
  · by_cases negative : si < 0
    · refine printed_D emits (by decide) rfl ['s','u','b','i'] [.gpr a,reg_or_zero b,.number (-si)] d_subi ?_ (by decide) rfl
        (subi_operands _) ?_
      · rw [printed]
        simp [zero,negative]
      · rw [neg_neg]
        exact same
    · refine printed_D emits (by decide) rfl ['a','d','d','i'] [.gpr a,reg_or_zero b,.number si] (d_simm 14) ?_ (by decide) rfl
        (simm_operands 14 _) same
      rw [printed]
      simp [zero,negative]

theorem printed_uimm (op : Nat) (emits : emit_D op a b c = some w) (plain : Plain op) (other : op ≠ 24)
    (entry : definition op (-1) = some ⟨op,-1,mnemonic,print_D_reg_reg_uimm⟩) (one_word : ' ' ∉ mnemonic)
    (known : mnemonics.lookup mnemonic = some (d_uimm op)) : Disassembled pc w := by
  have same := same_emod emits
  have printed := (reads_D emits).uimm pc mnemonic
  generalize (c % 2^16).toNat = ui at same printed
  refine printed_D emits plain entry mnemonic [.gpr b,.gpr a,.number ui] (d_uimm op) ?_ one_word known rfl same
  rw [printed]
  simp [other]

theorem printed_ori (emits : emit_D 24 a b c = some w) : Disassembled pc w := by
  have same := same_emod emits
  have printed := (reads_D emits).uimm pc ['o','r','i']
  generalize (c % 2^16).toNat = ui at same printed
  by_cases zero : a = 0 ∧ b = 0 ∧ ui = 0
  · obtain ⟨rfl,rfl,rfl⟩ := zero
    refine printed_D emits (by decide) rfl ['n','o','p'] [] (bare (.D 24 0 0 0)) ?_ (by decide) rfl rfl same
    rw [printed]
    simp
  · refine printed_D emits (by decide) rfl ['o','r','i'] [.gpr b,.gpr a,.number ui] (d_uimm 24) ?_ (by decide) rfl rfl same
    rw [printed]
    simp [zero]

theorem printed_cmpi (dst : ConditionRegister) (l : Bool)
    (emits : emit_D 11 (dst.val <<< 2 ||| l.toNat : Nat) b c = some w) : Disassembled pc w := by
  rw [cmp_field] at emits
  have read := reads_D emits
  obtain ⟨BF,x1,L⟩ := cmp_parts read.a
  have printed : print_D_cmpi pc (.at_ w) ['c','m','p','i'] = some ⟨if l.toNat ≠ 0 then ['c','m','p','d','i'] else ['c','m','p','w','i'],
      field_operand dst.val ++ [.gpr b,.number (c.bmod (2^16))]⟩ := by
    simp only [print_D_cmpi,read_reg,InstructionParser.at_,Assembler.read_some w 26 3 (by decide),
      Assembler.read_some w 23 1 (by decide),Assembler.read_some w 22 1 (by decide),read.b,read.si,
      Option.bind_eq_bind,Option.bind_some,BF,x1,L,read.opcode]
    rfl
  have reads : ∀ l : Nat, d_cmpi l pc (field_operand dst.val ++ [.gpr b,.number (c.bmod (2^16))]) =
      some (.D 11 (dst.val*4 + l : Nat) b (c.bmod (2^16))) := by
    intro l
    unfold field_operand
    split
    · rfl
    · rename_i zero
      rw [not_not.mp zero,Nat.zero_mul,Nat.zero_add]
      rfl
  have same := same_bmod emits
  cases l with
  | false => exact printed_D emits (by decide) rfl ['c','m','p','w','i'] _ (d_cmpi 0) printed (by decide) rfl (reads 0) same
  | true => exact printed_D emits (by decide) rfl ['c','m','p','d','i'] _ (d_cmpi 1) printed (by decide) rfl (reads 1) same

omit [Target] in
-- Whichever constructor made it, a memory operand has its base and displacement.
theorem make_some {m : MakeAddress} {a : Address} (made : m.make = some a) : a = ⟨m.base,m.displacement⟩ := by
  unfold MakeAddress.make at made
  split at made
  · cases made
  · exact (Option.some.inj made).symm

omit [Target] in
theorem base_some {op : Int} {r : Nat} {m : MakeAddress} (emits : emit_D_address op r m = some w) :
    emit_D op r m.base (m.displacement % 2^16) = some w := by
  obtain ⟨a,made,emits⟩ := Option.bind_eq_some_iff.mp emits
  rw [make_some made] at emits
  exact emits

theorem printed_reg_addr (op : Nat) {r : Nat} {m : MakeAddress} (emits : emit_D_address op r m = some w) (plain : Plain op)
    (entry : definition op (-1) = some ⟨op,-1,mnemonic,print_D_reg_addr⟩) (one_word : ' ' ∉ mnemonic)
    (known : mnemonics.lookup mnemonic = some (d_addr op)) : Disassembled pc w := by
  have emits := base_some emits
  have read := reads_D emits
  have same := same_bmod emits
  generalize m.displacement % 2^16 = d at *
  refine printed_D emits plain entry mnemonic [.gpr r,.displaced (d.bmod (2^16)) m.base] (d_addr op) ?_ one_word known rfl same
  simp only [print_D_reg_addr,read_reg,read.a,read.b,read.si,Option.bind_eq_bind,Option.bind_some]

theorem printed_freg_addr (op : Nat) {r : Nat} {m : MakeAddress} (emits : emit_D_address op r m = some w) (plain : Plain op)
    (entry : definition op (-1) = some ⟨op,-1,mnemonic,print_D_freg_addr⟩) (one_word : ' ' ∉ mnemonic)
    (known : mnemonics.lookup mnemonic = some (d_freg_addr op)) : Disassembled pc w := by
  have emits := base_some emits
  have read := reads_D emits
  have same := same_bmod emits
  generalize m.displacement % 2^16 = d at *
  refine printed_D emits plain entry mnemonic [.fpr r,.displaced (d.bmod (2^16)) m.base] (d_freg_addr op) ?_ one_word known rfl same
  simp only [print_D_freg_addr,read_reg,read.a,read.b,read.si,Option.bind_eq_bind,Option.bind_some]

omit [Target] in
theorem same_DS {op a b c d : Int} (emits : emit_DS op a b c d = some w) : emit_DS op a b (c.bmod (2^14)) d = some w := by
  have range : -2^14 ≤ c.bmod (2^14) ∧ c.bmod (2^14) < 2^14 := by
    rw [Int.bmod_def]
    split <;> omega
  have agree : c.bmod (2^14) % 2^14 = c % 2^14 := Int.bmod_emod
  unfold emit_DS at *
  obtain ⟨op,rfl,op_low,emits⟩ := operand_inv emits
  obtain ⟨a,rfl,a_low,emits⟩ := operand_inv emits
  obtain ⟨b,rfl,b_low,emits⟩ := operand_inv emits
  obtain ⟨d,rfl,d_low,emits⟩ := operand_inv emits
  simp only [Assembler.operand_nat 6 _ op_low,Assembler.operand_nat 5 _ a_low,Assembler.operand_nat 5 _ b_low,
    Assembler.operand_nat 2 _ d_low,Option.bind_eq_bind,Option.bind_some,if_pos range,agree]
  exact some_of_guard emits

theorem printed_DS (op xo : Nat) {r : Nat} {m : MakeAddress} (emits : emit_DS_address op r m xo = some w)
    (has : (op : Int) = 58 ∨ (op : Int) = 62) (entry : definition op xo = some ⟨op,xo,mnemonic,print_DS_reg_addr⟩)
    (one_word : ' ' ∉ mnemonic) (known : mnemonics.lookup mnemonic = some (ds_addr op xo)) : Disassembled pc w := by
  have emits : emit_DS op r m.base (m.displacement % 2^16 / 2^2) xo = some w := by
    obtain ⟨a,made,emits⟩ := Option.bind_eq_some_iff.mp emits
    rw [make_some made] at emits
    exact emits
  have same := same_DS emits
  generalize m.displacement % 2^16 / 2^2 = d at *
  have e := emitted_DS emits
  have parts : [w / 2^26 % 2^6,w / 2^21 % 2^5,w / 2^16 % 2^5,w / 2^2 % 2^14,w / 2^0 % 2^2] =
    [op,r,m.base,(d % 2^14).toNat,xo] := e.parts
  simp only [List.cons.injEq,and_true] at parts
  obtain ⟨-,r_part,base_part,d_part,-⟩ := parts
  have op_read : opcode (.at_ w) = op := Int.ofNat.inj (emitted_opcode e)
  have extended : extended_opcode (.at_ w) = xo := emitted_extended e (if_pos has)
  have here : definition (opcode (.at_ w)) (extended_opcode (.at_ w)) = some ⟨op,xo,mnemonic,print_DS_reg_addr⟩ := by
    rw [op_read,extended]
    exact entry
  have printed : print_DS_reg_addr pc (.at_ w) mnemonic = some ⟨mnemonic,[.gpr r,.displaced (d.bmod (2^14)*2^2) m.base]⟩ := by
    simp only [print_DS_reg_addr,read_reg,InstructionParser.at_,Assembler.read_some w 26 5 (by decide),
      Assembler.read_some w 21 5 (by decide),read_signed_bmod w 16 14 (by decide) (by decide) d d_part,
      Option.bind_eq_bind,Option.bind_some,r_part,base_part]
  rw [disassembled_of_printed here printed one_word known]
  have words : d.bmod (2^14)*2^2 / 4 = d.bmod (2^14) := by omega
  change emit_DS op r m.base (d.bmod (2^14)*2^2 / 4) xo = some w
  rw [words]
  exact same

end Immediate

section Rotations
variable {a dst : Nat}

theorem printed_rlwinm {sh mb me : Int} (emits : emit_M 21 a dst sh mb me false = some w) :
    Disassembled pc w ↔ mb = 0 ∧ me = 31 - sh ∨ me = 31 ∧ sh = 32 - mb := by
  have e := emitted_M emits
  obtain ⟨-,-,sh_natural,mb_natural,me_natural⟩ : 0 ≤ (a : Int) ∧ 0 ≤ (dst : Int) ∧ 0 ≤ sh ∧ 0 ≤ mb ∧ 0 ≤ me := by
    simpa [Operands.unsigned] using e.natural
  obtain ⟨sh,rfl⟩ := Int.eq_ofNat_of_zero_le sh_natural
  obtain ⟨mb,rfl⟩ := Int.eq_ofNat_of_zero_le mb_natural
  obtain ⟨me,rfl⟩ := Int.eq_ofNat_of_zero_le me_natural
  have parts : [w / 2^26 % 2^6,w / 2^21 % 2^5,w / 2^16 % 2^5,w / 2^11 % 2^5,w / 2^6 % 2^5,w / 2^1 % 2^5,w / 2^0 % 2^1] =
    [21,a,dst,sh,mb,me,0] := e.parts
  simp only [List.cons.injEq,and_true] at parts
  obtain ⟨-,RS,RA,SH,MB,ME,Rc⟩ := parts
  have op_read : ∀ bits, opcode ⟨w,bits⟩ = 21 := fun bits => Int.ofNat.inj (emitted_opcode e)
  have here : definition (opcode (.at_ w)) (extended_opcode (.at_ w)) = some ⟨21,-1,['r','l','w','i','n','m'],print_M⟩ := by
    rw [extended_plain (by rw [InstructionParser.at_,op_read]; decide),InstructionParser.at_,op_read]
    rfl
  have printed : print_M pc (.at_ w) ['r','l','w','i','n','m'] =
      if mb = 0 ∧ 31 - (sh : Int) = me then some ⟨['s','l','w','i'],[.gpr dst,.gpr a,.number sh]⟩
      else if me = 31 ∧ 32 - (mb : Int) = sh then some ⟨['s','r','w','i'],[.gpr dst,.gpr a,.number mb]⟩ else none := by
    simp only [print_M,read_reg,InstructionParser.at_,op_read,Assembler.read_some w 26 5 (by decide),
      Assembler.read_some w 21 5 (by decide),Assembler.read_some w 16 5 (by decide),Assembler.read_some w 11 5 (by decide),
      Assembler.read_some w 6 5 (by decide),Assembler.read_some w 1 1 (by decide),Option.bind_eq_bind,Option.bind_some,
      RS,RA,SH,MB,ME,Rc]
    rfl
  have sh_low : sh < 32 := by omega
  have left_word : ' ' ∉ (['s','l','w','i'] : Text) := by decide
  have right_word : ' ' ∉ (['s','r','w','i'] : Text) := by decide
  by_cases left : mb = 0 ∧ 31 - (sh : Int) = me
  · rw [if_pos left] at printed
    rw [disassembled_of_printed here printed left_word (f := rotate fun rs ra n => .M rs ra n 0 (31-n) false) rfl]
    refine iff_of_true ?_ (.inl ⟨by omega,by omega⟩)
    obtain ⟨rfl,last⟩ := left
    change emit_M 21 a dst sh 0 (31-sh) false = some w
    rw [last]
    exact emits
  · rw [if_neg left] at printed
    by_cases right : me = 31 ∧ 32 - (mb : Int) = sh
    · rw [if_pos right] at printed
      rw [disassembled_of_printed here printed right_word (f := rotate fun rs ra n => .M rs ra ((32-n) % 32) n 31 false) rfl]
      refine iff_of_true ?_ (.inr ⟨by omega,by omega⟩)
      obtain ⟨rfl,turns⟩ := right
      change emit_M 21 a dst ((32-mb) % 32) mb 31 false = some w
      have remainder : (32 - (mb : Int)) % 32 = sh := by omega
      rw [remainder]
      exact emits
    · rw [if_neg right] at printed
      exact iff_of_false (not_disassembled here printed) (by omega)

-- The printers of the MD form see the operands put together.
structure ReadsMD (w a dst sh me xo : Nat) : Prop where
  here : ∀ d, definition 30 xo = some d → definition (opcode (.at_ w)) (extended_opcode (.at_ w)) = some d
  printed : ∀ pc mnemonic, print_MD pc (.at_ w) mnemonic =
    if xo = 0 then some ⟨['s','r','d','i'],[.gpr dst,.gpr a,.number me]⟩
    else if xo = 1 ∧ (me : Int) = 63 - sh then some ⟨['s','l','d','i'],[.gpr dst,.gpr a,.number sh]⟩ else none

theorem reads_MD (xo : Nat) {sh me : Nat} (emits : emit_M 30 a dst sh me xo false = some w) (low : me < 64) (xo_low : xo < 2) :
    ReadsMD w a dst sh me xo := by
  have e := emitted_MD emits
  have parts : [w / 2^26 % 2^6,w / 2^21 % 2^5,w / 2^16 % 2^5,w / 2^11 % 2^5,w / 2^6 % 2^5,w / 2^5 % 2^1,w / 2^2 % 2^3,
      w / 2^1 % 2^1,w / 2^0 % 2^1] = [30,a,dst,sh % 2^5,me % 2^5,me / 2^5,xo,sh / 2^5,0] := e.parts
  simp only [List.cons.injEq,and_true] at parts
  obtain ⟨-,RS,RA,shl,mel,meh,xo_part,shh,Rc⟩ := parts
  have op_read : ∀ bits, opcode ⟨w,bits⟩ = 30 := fun bits => Int.ofNat.inj (emitted_opcode e)
  have extended : extended_opcode (.at_ w) = xo := emitted_extended e rfl
  refine ⟨fun d entry => ?_,fun pc mnemonic => ?_⟩
  · rw [extended,InstructionParser.at_,op_read]
    exact entry
  · simp only [print_MD,read_reg,InstructionParser.at_,op_read,Assembler.read_some w 26 5 (by decide),
      Assembler.read_some w 21 5 (by decide),Assembler.read_some w 16 5 (by decide),Assembler.read_some w 11 5 (by decide),
      Assembler.read_some w 6 1 (by decide),Assembler.read_some w 5 3 (by decide),Assembler.read_some w 2 1 (by decide),
      Assembler.read_some w 1 1 (by decide),Option.bind_eq_bind,Option.bind_some,RS,RA,shl,mel,meh,xo_part,shh,Rc,reassembled]
    have turns : (64 : Int) - me ≠ 0 := by omega
    obtain rfl | rfl : xo = 0 ∨ xo = 1 := by omega
    · exact if_pos turns
    · simp [flag]

omit [Target] in
theorem natural_MD {sh me xo : Int} (emits : emit_M 30 a dst sh me xo false = some w) :
    ∃ sh' me' : Nat, sh = sh' ∧ me = me' ∧ sh' < 64 ∧ me' < 64 := by
  obtain ⟨_,_,-,emits⟩ := operand_inv emits
  obtain ⟨_,_,-,emits⟩ := operand_inv emits
  obtain ⟨sh,sh_same,sh_low,emits⟩ := operand_inv emits
  obtain ⟨me,me_same,me_low,-⟩ := operand_inv emits
  exact ⟨sh,me,sh_same,me_same,sh_low,me_low⟩

-- The rotation is not printed.
theorem printed_rldicl {sh mb : Int} (emits : emit_M 30 a dst sh mb 0 false = some w) :
    Disassembled pc w ↔ sh = (64 - mb) % 64 := by
  obtain ⟨sh,mb,rfl,rfl,-,low⟩ := natural_MD emits
  have read := reads_MD 0 emits low (by decide)
  have one_word : ' ' ∉ (['s','r','d','i'] : Text) := by decide
  rw [disassembled_of_printed (read.here _ rfl) (read.printed pc ['r','l','d','i','c','l']) one_word
    (f := rotate fun rs ra n => .MD rs ra ((64-n) % 64) n 0 false) rfl]
  change emit_M 30 a dst ((64-mb) % 64) mb 0 false = some w ↔ _
  constructor
  · intro emits'
    have same := (parsed_MD (emitted_MD emits)).symm.trans (parsed_MD (emitted_MD emits'))
    exact (Operands.MD.inj (Option.some.inj same)).2.2.1
  · intro turned
    rw [← turned]
    exact emits

theorem printed_rldicr {sh me : Int} (emits : emit_M 30 a dst sh me 1 false = some w) : Disassembled pc w ↔ me = 63 - sh := by
  obtain ⟨sh,me,rfl,rfl,-,low⟩ := natural_MD emits
  have read := reads_MD 1 emits low (by decide)
  have printed := read.printed pc ['r','l','d','i','c','r']
  by_cases shifted : (me : Int) = 63 - sh
  · rw [if_neg (by decide),if_pos ⟨rfl,shifted⟩] at printed
    have one_word : ' ' ∉ (['s','l','d','i'] : Text) := by decide
    rw [disassembled_of_printed (read.here _ rfl) printed one_word (f := rotate fun rs ra n => .MD rs ra n (63-n) 1 false) rfl]
    refine iff_of_true ?_ shifted
    change emit_M 30 a dst sh (63-sh) 1 false = some w
    rw [← shifted]
    exact emits
  · rw [if_neg (by decide),if_neg fun both => shifted both.2] at printed
    exact iff_of_false (not_disassembled (read.here _ rfl) printed) shifted

end Rotations

end IcedTea.Disassembler

import IcedTea.Disassembly

namespace IcedTea.Disassembler
open Target
open Assembler (emit_I emit_B operand branch_target InstructionParser register_bits)
open AssemblyText BitFields

variable [Target] {pc : Assembler.Address} {w : Nat} {mnemonic : Text}

section Tables
omit [Target]

theorem extended_X {op a b c xo : Int} {rc : Bool} (emits : emit_X op a b c xo rc = some w)
    (has : op = 19 ∨ op = 31 ∨ op = 63) : (opcode (.at_ w) : Int) = op ∧ extended_opcode (.at_ w) = xo := by
  have e := emitted_X emits
  exact ⟨emitted_opcode e,emitted_extended e (if_pos has)⟩

-- The printers of the X form see the operands.
structure ReadsX (w a b c xo : Nat) (rc : Bool) : Prop where
  a : (InstructionParser.at_ w).read 5 = some (a,⟨w,21⟩)
  b : (InstructionParser.mk w 21).read 5 = some (b,⟨w,16⟩)
  c : (InstructionParser.mk w 16).read 5 = some (c,⟨w,11⟩)
  xo : read_xo ⟨w,11⟩ = some (xo,⟨w,1⟩)
  rc : (InstructionParser.mk w 1).read 1 = some (rc.toNat,⟨w,0⟩)

theorem reads_X {op a b c xo : Int} {rc : Bool} (emits : emit_X op a b c xo rc = some w)
    (has : op = 19 ∨ op = 31 ∨ op = 63) : ReadsX w a.toNat b.toNat c.toNat xo.toNat rc := by
  have e := emitted_X emits
  have extended := (extended_X emits has).2
  have parts : [w / 2^26 % 2^6,w / 2^21 % 2^5,w / 2^16 % 2^5,w / 2^11 % 2^5,w / 2^1 % 2^10,w / 2^0 % 2^1] =
    [op.toNat,a.toNat,b.toNat,c.toNat,xo.toNat,rc.toNat] := e.parts
  simp only [List.cons.injEq,and_true] at parts
  obtain ⟨-,a_part,b_part,c_part,xo_part,rc_part⟩ := parts
  have natural : 0 ≤ xo := e.natural xo (by simp [Operands.unsigned])
  have same : extended_opcode ⟨w,1⟩ = xo.toNat := by
    rw [Int.toNat_of_nonneg natural,← extended]
    rfl
  refine ⟨?_,?_,?_,?_,?_⟩
  · rw [InstructionParser.at_,Assembler.read_some w 26 5 (by decide),a_part]
  · rw [Assembler.read_some w 21 5 (by decide),b_part]
  · rw [Assembler.read_some w 16 5 (by decide),c_part]
  · simp only [read_xo,Assembler.read_some w 11 10 (by decide),Option.bind_eq_bind,Option.bind_some,xo_part,same,if_true]
  · rw [Assembler.read_some w 1 1 (by decide),rc_part]

theorem ReadsX.read {a b c xo : Nat} {rc : Bool} (r : ReadsX w a b c xo rc) :
    read_X (.at_ w) = some (a,b,c,xo,rc.toNat) := by
  simp only [read_X,read_reg,r.a,r.b,r.c,r.xo,r.rc,Option.bind_eq_bind,Option.bind_some]

theorem cmp_field : ∀ (dst : ConditionRegister) (l : Bool), dst.val <<< 2 ||| l.toNat = dst.val*4 + l.toNat := by decide

-- The first field of a comparison: the condition field, an empty bit, and the operand's size.
theorem cmp_parts {dst : ConditionRegister} {l : Bool}
    (field : (InstructionParser.at_ w).read 5 = some (dst.val*4 + l.toNat,⟨w,21⟩)) :
    w / 2^23 % 2^3 = dst.val ∧ w / 2^22 % 2^1 = 0 ∧ w / 2^21 % 2^1 = l.toNat := by
  rw [InstructionParser.at_,Assembler.read_some w 26 5 (by decide)] at field
  have value : w / 2^21 % 2^5 = dst.val*4 + l.toNat := congrArg Prod.fst (Option.some.inj field)
  have l_low := bool_low l
  exact ⟨by omega,by omega,by omega⟩

theorem base_register_zero (n : Nat) : base_register (reg_or_zero n) = some n := by
  unfold reg_or_zero
  split
  · rfl
  · rename_i zero
    rw [not_not.mp zero]
    rfl

end Tables

theorem definition_X {op a b c xo : Int} {rc : Bool} (emits : emit_X op a b c xo rc = some w)
    (has : op = 19 ∨ op = 31 ∨ op = 63) {d : InstructionDefinition} (entry : definition op.toNat xo = some d) :
    definition (opcode (.at_ w)) (extended_opcode (.at_ w)) = some d := by
  obtain ⟨op_read,extended⟩ := extended_X emits has
  rw [extended,← entry,← op_read]
  rfl

-- A printer that writes a known mnemonic and operands.
theorem line_X {op a b c xo x : Int} {rc : Bool} (emits : emit_X op a b c xo rc = some w)
    (has : op = 19 ∨ op = 31 ∨ op = 63) {n : Nat} {printer : Printer}
    (entry : definition op.toNat xo = some ⟨n,x,mnemonic,printer⟩) (text : Text) (operands : List Operand) (f : Reader)
    (printed : ReadsX w a.toNat b.toNat c.toNat xo.toNat rc → printer pc (.at_ w) mnemonic = some ⟨text,operands⟩)
    (one_word : ' ' ∉ text) (known : mnemonics.lookup text = some f) :
    Disassembled pc w ↔ (f pc operands).bind Operands.emit_instruction = some w :=
  disassembled_of_printed (definition_X emits has entry) (printed (reads_X emits has)) one_word known

-- The operands are those that were given.
theorem printed_X {op a b c xo x : Int} {rc : Bool} (emits : emit_X op a b c xo rc = some w)
    (has : op = 19 ∨ op = 31 ∨ op = 63) {n : Nat} {printer : Printer}
    (entry : definition op.toNat xo = some ⟨n,x,mnemonic,printer⟩) (text : Text) (operands : List Operand) (f : Reader)
    (printed : ReadsX w a.toNat b.toNat c.toNat xo.toNat rc → printer pc (.at_ w) mnemonic = some ⟨text,operands⟩)
    (one_word : ' ' ∉ text) (known : mnemonics.lookup text = some f)
    (reads : f pc operands = some (.X op a b c xo rc)) : Disassembled pc w := by
  rw [line_X emits has entry text operands f printed one_word known,reads]
  exact emits

section Registers
variable {a b c : Nat}

theorem printed_add (emits : emit_X 31 a b c 266 false = some w) : Disassembled pc w := by
  refine printed_X emits (.inr (.inl rfl)) rfl ['a','d','d'] [.gpr a,.gpr b,.gpr c] (x_reg_reg_reg 266)
    (fun read => ?_) (by decide) rfl rfl
  unfold print_X_reg_reg_reg
  rw [read.read]
  rfl

-- The table's subf is printed as sub, with the operands the other way.
theorem printed_subf (emits : emit_X 31 a b c 40 false = some w) : Disassembled pc w := by
  refine printed_X emits (.inr (.inl rfl)) rfl ['s','u','b'] [.gpr a,.gpr c,.gpr b] x_sub
    (fun read => ?_) (by decide) rfl rfl
  unfold print_X_reg_reg_reg
  rw [read.read]
  rfl

theorem printed_reg_regorzero_reg (xo : Nat) {rc : Bool} (emits : emit_X 31 a b c xo rc = some w) (other : xo ≠ 40)
    (entry : definition 31 xo = some ⟨31,xo,mnemonic,print_X_reg_regorzero_reg⟩)
    (one_word : ' ' ∉ mnemonic ++ flag '.' rc.toNat)
    (known : mnemonics.lookup (mnemonic ++ flag '.' rc.toNat) = some (x_reg_base_reg xo rc)) : Disassembled pc w := by
  refine printed_X emits (.inr (.inl rfl)) entry (mnemonic ++ flag '.' rc.toNat) [.gpr a,reg_or_zero b,.gpr c] _
    (fun read => ?_) one_word known ?_
  · unfold print_X_reg_regorzero_reg
    rw [read.read]
    exact if_neg other
  · have reads : x_reg_base_reg xo rc pc [.gpr a,reg_or_zero b,.gpr c] =
        (base_register (reg_or_zero b)).map fun ra => .X 31 a ra c xo rc := rfl
    rw [reads,base_register_zero]
    rfl

theorem printed_res_regorzero_reg (xo : Nat) (emits : emit_X 31 0 b c xo false = some w)
    (entry : definition 31 xo = some ⟨31,xo,mnemonic,print_X_res_regorzero_reg⟩) (one_word : ' ' ∉ mnemonic ++ [])
    (known : mnemonics.lookup (mnemonic ++ []) = some (x_base_reg xo)) : Disassembled pc w := by
  refine printed_X emits (.inr (.inl rfl)) entry (mnemonic ++ []) [reg_or_zero b,.gpr c] _ (fun read => ?_) one_word known ?_
  · unfold print_X_res_regorzero_reg
    rw [read.read]
    rfl
  · have reads : x_base_reg xo pc [reg_or_zero b,.gpr c] =
        (base_register (reg_or_zero b)).map fun ra => .X 31 0 ra c xo false := rfl
    rw [reads,base_register_zero]
    rfl

theorem printed_neg (emits : emit_X 31 a b 0 104 false = some w) : Disassembled pc w := by
  refine printed_X emits (.inr (.inl rfl)) rfl ['n','e','g'] [.gpr a,.gpr b] (x_reg_reg 104)
    (fun read => ?_) (by decide) rfl rfl
  unfold print_X_reg_reg_res
  rw [read.read]
  rfl

theorem printed_mfcr (emits : emit_X 31 a 0 0 19 false = some w) : Disassembled pc w := by
  refine printed_X emits (.inr (.inl rfl)) rfl ['m','f','c','r'] [.gpr a] (x_reg 0 19)
    (fun read => ?_) (by decide) rfl rfl
  unfold print_X_reg_res_res
  rw [read.read]
  rfl

-- The same register twice is a move.
theorem printed_OR (emits : emit_X 31 a b c 444 false = some w) : Disassembled pc w := by
  by_cases same : a = c
  · subst same
    refine printed_X emits (.inr (.inl rfl)) rfl ['m','r'] [.gpr b,.gpr a] x_mr (fun read => ?_) (by decide) rfl rfl
    unfold print_X_switched_regreg_reg
    rw [read.read]
    exact if_pos ⟨rfl,rfl,rfl⟩
  · refine printed_X emits (.inr (.inl rfl)) rfl ['o','r'] [.gpr b,.gpr a,.gpr c] (x_switched 444)
      (fun read => ?_) (by decide) rfl rfl
    unfold print_X_switched_regreg_reg
    rw [read.read]
    exact if_neg fun move => same move.2.1

theorem printed_switched_regreg (xo : Nat) (emits : emit_X 31 a b 0 xo false = some w)
    (entry : definition 31 xo = some ⟨31,xo,mnemonic,print_X_switched_regreg⟩) (one_word : ' ' ∉ mnemonic ++ [])
    (known : mnemonics.lookup (mnemonic ++ []) = some (x_switched_reg xo)) : Disassembled pc w := by
  refine printed_X emits (.inr (.inl rfl)) entry (mnemonic ++ []) [.gpr b,.gpr a] _ (fun read => ?_) one_word known rfl
  unfold print_X_switched_regreg
  rw [read.read]
  rfl

theorem printed_reserved (op xo : Nat) (emits : emit_X op 0 0 0 xo false = some w) (has : (op : Int) = 19 ∨ (op : Int) = 31 ∨ (op : Int) = 63)
    (entry : definition op xo = some ⟨op,xo,mnemonic,print_X_reserved⟩) (one_word : ' ' ∉ mnemonic)
    (known : mnemonics.lookup mnemonic = some (bare (.X op 0 0 0 xo false))) : Disassembled pc w := by
  refine printed_X emits has entry mnemonic [] _ (fun read => ?_) one_word known rfl
  unfold print_X_reserved
  rw [read.read]
  rfl

theorem printed_fmr (emits : emit_X 63 a 0 c 72 false = some w) : Disassembled pc w := by
  refine printed_X emits (.inr (.inr rfl)) rfl ['f','m','r'] [.fpr a,.fpr c] x_freg_freg
    (fun read => ?_) (by decide) rfl rfl
  unfold print_X_freg_res_freg
  rw [read.read]
  rfl

theorem printed_mspr (xo : Nat) {spr : Nat} (register : Text) (emits : emit_X 31 a spr 0 xo false = some w)
    (entry : definition 31 xo = some ⟨31,xo,mnemonic,print_X_mspr⟩)
    (named : spr = 8 ∧ register = ['l','r'] ∨ spr = 9 ∧ register = ['c','t','r'])
    (one_word : ' ' ∉ 'm' :: mnemonic.getD 1 ' ' :: register)
    (known : mnemonics.lookup ('m' :: mnemonic.getD 1 ' ' :: register) = some (x_reg spr xo)) : Disassembled pc w := by
  refine printed_X emits (.inr (.inl rfl)) entry ('m' :: mnemonic.getD 1 ' ' :: register) [.gpr a] _ (fun read => ?_) one_word known rfl
  unfold print_X_mspr
  rw [read.read]
  rcases named with ⟨rfl,rfl⟩ | ⟨rfl,rfl⟩ <;> rfl

-- There is no text for the other special-purpose register.
theorem not_printed_xer (xo : Nat) (emits : emit_X 31 a 1 0 xo false = some w)
    (entry : definition 31 xo = some ⟨31,xo,mnemonic,print_X_mspr⟩) : ¬ Disassembled pc w := by
  refine not_disassembled (definition_X emits (.inr (.inl rfl)) entry) ?_
  change print_X_mspr pc (.at_ w) mnemonic = none
  unfold print_X_mspr
  rw [(reads_X emits (.inr (.inl rfl))).read]
  rfl

theorem printed_mtcrf {mask : Int} (emits : emit_X 31 a (mask / 2^4 % 2^4) (mask % 2^4 * 2) 144 false = some w) :
    Disassembled pc w := by
  have read := reads_X emits (.inr (.inl rfl))
  have b_part := read.b
  have c_part := read.c
  rw [Assembler.read_some w 21 5 (by decide)] at b_part
  rw [Assembler.read_some w 16 5 (by decide)] at c_part
  have high : w / 2^16 % 2^5 = (mask / 2^4 % 2^4).toNat := congrArg Prod.fst (Option.some.inj b_part)
  have low : w / 2^11 % 2^5 = (mask % 2^4 * 2).toNat := congrArg Prod.fst (Option.some.inj c_part)
  have x1 : w / 2^20 % 2^1 = 0 := by omega
  have x2 : w / 2^11 % 2^1 = 0 := by omega
  have FXM : w / 2^12 % 2^8 = (mask % 2^8).toNat := by omega
  have printed : print_X_mtcrf pc (.at_ w) ['m','t','c','r','f'] =
      if (mask % 2^8).toNat = 255 then some ⟨['m','t','c','r'],[.gpr a]⟩
      else some ⟨['m','t','c','r','f'],[.number (mask % 2^8).toNat,.gpr a]⟩ := by
    simp only [print_X_mtcrf,read_reg,read.a,read.xo,read.rc,Assembler.read_some w 21 1 (by decide),
      Assembler.read_some w 20 8 (by decide),Assembler.read_some w 12 1 (by decide),Option.bind_eq_bind,Option.bind_some,
      x1,x2,FXM]
    rfl
  by_cases all : (mask % 2^8).toNat = 255
  · rw [if_pos all] at printed
    refine printed_X emits (.inr (.inl rfl)) rfl ['m','t','c','r'] [.gpr a] x_mtcr (fun _ => printed) (by decide) rfl ?_
    have first : mask / 2^4 % 2^4 = 15 := by omega
    have last : mask % 2^4 * 2 = 30 := by omega
    rw [first,last]
    rfl
  · rw [if_neg all] at printed
    refine printed_X emits (.inr (.inl rfl)) rfl ['m','t','c','r','f'] [.number (mask % 2^8).toNat,.gpr a] x_mtcrf
      (fun _ => printed) (by decide) rfl ?_
    have first : ((mask % 2^8).toNat : Int) / 2^4 = mask / 2^4 % 2^4 := by omega
    have last : ((mask % 2^8).toNat : Int) % 2^4 * 2 = mask % 2^4 * 2 := by omega
    rw [← first,← last]
    rfl

theorem printed_cmp (dst : ConditionRegister) (l : Bool)
    (emits : emit_X 31 (dst.val <<< 2 ||| l.toNat : Nat) a b 0 false = some w) : Disassembled pc w := by
  rw [cmp_field] at emits
  have read := reads_X emits (.inr (.inl rfl))
  obtain ⟨BF,x1,L⟩ := cmp_parts read.a
  have op : opcode ⟨w,0⟩ = 31 := Int.ofNat.inj (extended_X emits (.inr (.inl rfl))).1
  have printed : print_X_cmp pc (.at_ w) ['c','m','p'] =
      some ⟨if l.toNat ≠ 0 then ['c','m','p','d'] else ['c','m','p','w'],field_operand dst.val ++ [.gpr a,.gpr b]⟩ := by
    simp only [print_X_cmp,read_reg,InstructionParser.at_,Assembler.read_some w 26 3 (by decide),
      Assembler.read_some w 23 1 (by decide),Assembler.read_some w 22 1 (by decide),read.b,read.c,read.xo,read.rc,
      Option.bind_eq_bind,Option.bind_some,BF,x1,L,op]
    rfl
  have reads : ∀ l : Nat, x_cmp l pc (field_operand dst.val ++ [.gpr a,.gpr b]) = some (.X 31 (dst.val*4 + l : Nat) a b 0 false) := by
    intro l
    unfold field_operand
    split
    · rfl
    · rename_i zero
      rw [not_not.mp zero,Nat.zero_mul,Nat.zero_add]
      rfl
  cases l with
  | false =>
    exact printed_X emits (.inr (.inl rfl)) rfl ['c','m','p','w'] _ (x_cmp 0) (fun _ => printed) (by decide) rfl (reads 0)
  | true =>
    exact printed_X emits (.inr (.inl rfl)) rfl ['c','m','p','d'] _ (x_cmp 1) (fun _ => printed) (by decide) rfl (reads 1)

end Registers

end IcedTea.Disassembler

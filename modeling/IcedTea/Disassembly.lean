import IcedTea.InstructionForms

namespace IcedTea.Disassembler
open Target
open Assembler (emit_I emit_B operand branch_target InstructionParser register_bits)
open AssemblyText BitFields

variable [Target]

-- What an assembler makes of the operands of a mnemonic.
abbrev Reader := Assembler.Address → List Operand → Option Operands

omit [Target] in
-- A zero stands in a base register's place for register 0.
def base_register : Operand → Option Nat
  | .gpr n => some n
  | .number x => if x = 0 then some 0 else none
  | _ => none

-- The words from the branch to what it is printed with.
def displacement (pc : Assembler.Address) (a : Nat) : Int := (BitVec.ofNat register_bits a - pc).toInt / 4

def d_simm (op : Nat) : Reader
  | _,[.gpr rt,ra,.number si] => (base_register ra).map fun base : Nat => .D op rt base si
  | _,_ => none

def d_subi : Reader
  | _,[.gpr rt,ra,.number v] => (base_register ra).map fun base : Nat => .D 14 rt base (-v)
  | _,_ => none

def d_li (op : Nat) : Reader
  | _,[.gpr rt,.number si] => some (.D op rt 0 si)
  | _,_ => none

def d_uimm (op : Nat) : Reader
  | _,[.gpr ra,.gpr rt,.number ui] => some (.D op rt ra ui)
  | _,_ => none

def d_addr (op : Nat) : Reader
  | _,[.gpr rt,.displaced d ra] => some (.D op rt ra d)
  | _,_ => none

def d_freg_addr (op : Nat) : Reader
  | _,[.fpr rt,.displaced d ra] => some (.D op rt ra d)
  | _,_ => none

def ds_addr (op xo : Nat) : Reader
  | _,[.gpr rt,.displaced d ra] => some (.DS op rt ra (d / 4) xo)
  | _,_ => none

-- A condition field that is not named is the first.
def d_cmpi (l : Nat) : Reader
  | _,[.crf bf,.gpr ra,.number si] => some (.D 11 (bf*4 + l : Nat) ra si)
  | _,[.gpr ra,.number si] => some (.D 11 l ra si)
  | _,_ => none

def x_cmp (l : Nat) : Reader
  | _,[.crf bf,.gpr ra,.gpr rb] => some (.X 31 (bf*4 + l : Nat) ra rb 0 false)
  | _,[.gpr ra,.gpr rb] => some (.X 31 l ra rb 0 false)
  | _,_ => none

def b_cond (bo bit : Nat) (lk : Bool) : Reader
  | pc,[.crf cr,.pointer a] => some (.B 16 bo (cr*4 + bit : Nat) (displacement pc a % 2^14) false lk)
  | pc,[.pointer a] => some (.B 16 bo bit (displacement pc a % 2^14) false lk)
  | _,_ => none

def i_b (lk : Bool) : Reader
  | pc,[.pointer a] => some (.I 18 (displacement pc a % 2^24) false lk)
  | _,_ => none

def bare (o : Operands) : Reader
  | _,[] => some o
  | _,_ => none

def rotate (o : Nat → Nat → Int → Operands) : Reader
  | _,[.gpr ra,.gpr rs,.number n] => some (o rs ra n)
  | _,_ => none

def x_reg_reg_reg (xo : Nat) : Reader
  | _,[.gpr rt,.gpr ra,.gpr rb] => some (.X 31 rt ra rb xo false)
  | _,_ => none

def x_sub : Reader
  | _,[.gpr rt,.gpr rb,.gpr ra] => some (.X 31 rt ra rb 40 false)
  | _,_ => none

def x_reg_base_reg (xo : Nat) (rc : Bool) : Reader
  | _,[.gpr rt,ra,.gpr rb] => (base_register ra).map fun base : Nat => .X 31 rt base rb xo rc
  | _,_ => none

def x_base_reg (xo : Nat) : Reader
  | _,[ra,.gpr rb] => (base_register ra).map fun base : Nat => .X 31 0 base rb xo false
  | _,_ => none

def x_reg_reg (xo : Nat) : Reader
  | _,[.gpr rt,.gpr ra] => some (.X 31 rt ra 0 xo false)
  | _,_ => none

def x_reg (b xo : Nat) : Reader
  | _,[.gpr rt] => some (.X 31 rt b 0 xo false)
  | _,_ => none

def x_switched (xo : Nat) : Reader
  | _,[.gpr ra,.gpr rs,.gpr rb] => some (.X 31 rs ra rb xo false)
  | _,_ => none

def x_mr : Reader
  | _,[.gpr ra,.gpr rs] => some (.X 31 rs ra rs 444 false)
  | _,_ => none

def x_switched_reg (xo : Nat) : Reader
  | _,[.gpr ra,.gpr rs] => some (.X 31 rs ra 0 xo false)
  | _,_ => none

def x_freg_freg : Reader
  | _,[.fpr rt,.fpr rb] => some (.X 63 rt 0 rb 72 false)
  | _,_ => none

def x_mtcr : Reader
  | _,[.gpr rs] => some (.X 31 rs 15 30 144 false)
  | _,_ => none

def x_mtcrf : Reader
  | _,[.number m,.gpr rs] => some (.X 31 rs (m / 2^4) (m % 2^4*2) 144 false)
  | _,_ => none

-- The conditions that branches are named for, with BO and the bit of the field.
def conditions : List (Text × Nat × Nat) :=
  [(['l','t'],12,0),(['l','e'],4,1),(['e','q'],12,2),(['g','e'],4,0),(['g','t'],12,1),(['n','e'],4,2),(['d','n','z'],16,0)]

def letter_l (lk : Bool) : Text := if lk then ['l'] else []

def to_register (register : Text) (lk : Bool) (xo : Nat) : List (Text × Reader) :=
  (conditions ++ [([],20,0)]).map fun c : Text × Nat × Nat =>
    ('b' :: c.1 ++ register ++ letter_l lk,bare (.X 19 c.2.1 c.2.2 0 xo lk))

def branch_mnemonics (lk : Bool) : List (Text × Reader) :=
  (conditions.map fun c : Text × Nat × Nat => ('b' :: c.1 ++ letter_l lk,b_cond c.2.1 c.2.2 lk)) ++
  to_register ['l','r'] lk 16 ++ to_register ['c','t','r'] lk 528 ++ [('b' :: letter_l lk,i_b lk)]

def mnemonics : List (Text × Reader) :=
  branch_mnemonics false ++ branch_mnemonics true ++
  [(['m','p','c','l','r'],bare (.B 16 20 31 1 false true)),
    (['s','u','b','f','i','c'],d_simm 8),(['a','d','d','i'],d_simm 14),(['s','u','b','i'],d_subi),(['l','i'],d_li 14),
    (['a','d','d','i','s'],d_simm 15),(['l','i','s'],d_li 15),(['c','m','p','w','i'],d_cmpi 0),(['c','m','p','d','i'],d_cmpi 1),
    (['o','r','i'],d_uimm 24),(['n','o','p'],bare (.D 24 0 0 0)),(['o','r','i','s'],d_uimm 25),
    (['a','n','d','i','.'],d_uimm 28),(['l','w','z'],d_addr 32),(['s','t','w'],d_addr 36),(['s','t','w','u'],d_addr 37),
    (['l','h','z'],d_addr 40),(['l','f','s'],d_freg_addr 48),(['l','f','d'],d_freg_addr 50),(['s','t','f','s'],d_freg_addr 52),
    (['s','t','f','d'],d_freg_addr 54),(['l','d'],ds_addr 58 0),(['s','t','d'],ds_addr 62 0),(['s','t','d','u'],ds_addr 62 1),
    (['s','l','w','i'],rotate fun rs ra n => .M rs ra n 0 (31-n) false),
    (['s','r','w','i'],rotate fun rs ra n => .M rs ra ((32-n) % 32) n 31 false),
    (['s','l','d','i'],rotate fun rs ra n => .MD rs ra n (63-n) 1 false),
    (['s','r','d','i'],rotate fun rs ra n => .MD rs ra ((64-n) % 64) n 0 false),
    (['i','s','y','n','c'],bare (.X 19 0 0 0 150 false)),(['s','y','n','c'],bare (.X 31 0 0 0 598 false)),
    (['c','m','p','w'],x_cmp 0),(['c','m','p','d'],x_cmp 1),(['m','f','c','r'],x_reg 0 19),
    (['l','w','a','r','x'],x_reg_base_reg 20 false),(['l','d','x'],x_reg_base_reg 21 false),(['l','w','z','x'],x_reg_base_reg 23 false),
    (['s','u','b'],x_sub),(['l','d','a','r','x'],x_reg_base_reg 84 false),(['d','c','b','f'],x_base_reg 86),
    (['l','b','z','x'],x_reg_base_reg 87 false),(['n','e','g'],x_reg_reg 104),(['m','t','c','r'],x_mtcr),(['m','t','c','r','f'],x_mtcrf),(['s','t','w','c','x','.'],x_reg_base_reg 150 true),(['s','t','w','x'],x_reg_base_reg 151 false),
    (['s','t','d','u','x'],x_reg_base_reg 181 false),(['s','t','w','u','x'],x_reg_base_reg 183 false),
    (['s','t','d','c','x','.'],x_reg_base_reg 214 true),(['a','d','d'],x_reg_reg_reg 266),(['l','h','z','x'],x_reg_base_reg 279 false),
    (['m','f','l','r'],x_reg 8 339),(['m','f','c','t','r'],x_reg 9 339),(['o','r'],x_switched 444),(['m','r'],x_mr),
    (['m','t','l','r'],x_reg 8 467),(['m','t','c','t','r'],x_reg 9 467),(['e','x','t','s','h'],x_switched_reg 922),
    (['e','x','t','s','b'],x_switched_reg 954),(['i','c','b','i'],x_base_reg 982),(['e','x','t','s','w'],x_switched_reg 986),
    (['f','m','r'],x_freg_freg)]

-- The word a line of assembly denotes.
def denoted (pc : Assembler.Address) (line : Text) : Option Nat :=
  let p := Printed.read line
  ((mnemonics.lookup p.mnemonic).bind fun read => read pc p.operands).bind Operands.emit_instruction

-- The word has an entry in the table, its printer fails no assertion, and what it
-- prints denotes the word.
def Disassembled (pc : Assembler.Address) (instruction : Nat) : Prop :=
  (definition (opcode (.at_ instruction)) (extended_opcode (.at_ instruction))).isSome = true ∧
    ∃ line, print_instruction_at pc instruction = some line ∧ denoted pc line = some instruction

-- The conditions that have a mnemonic.
def Conditional (bo bi : Int) : Prop := (bo = 12 ∨ bo = 4) ∧ bi % 4 ≠ 3 ∨ bo = 16 ∧ bi % 4 = 0

def Call.Printable (pc : Assembler.Address) : Call → Prop
  | bc bo bi _ => Conditional bo bi
  | bcl bo bi a => Conditional bo bi ∨ bo = 20 ∧ bi = 31 ∧ a = pc + 4
  | bclr bo bi | bclrl bo bi | bcctrl bo bi => Conditional bo bi ∧ bi < 4 ∨ bo = 20 ∧ bi = 0
  | mfspr _ spr | mtspr spr _ => spr ≠ .xer
  | rlwinm _ _ sh mb me => mb = 0 ∧ me = 31 - sh ∨ me = 31 ∧ sh = 32 - mb
  | rldicl _ _ sh mb => sh = (64 - mb) % 64
  | rldicr _ _ sh me => me = 63 - sh
  | stdx .. => False
  | _ => True

theorem disassembled_of_printed {pc : Assembler.Address} {w : Nat} {d : InstructionDefinition} {p : Printed} {f : Reader}
    (entry : definition (opcode (.at_ w)) (extended_opcode (.at_ w)) = some d)
    (printed : d.printer pc (.at_ w) d.mnemonic = some p) (one_word : ' ' ∉ p.mnemonic)
    (known : mnemonics.lookup p.mnemonic = some f) :
    Disassembled pc w ↔ (f pc p.operands).bind Operands.emit_instruction = some w := by
  have line : print_instruction_at pc w = some p.render := by
    unfold print_instruction_at
    simp only [entry,printed]
    rfl
  have meaning : denoted pc p.render = (f pc p.operands).bind Operands.emit_instruction := by
    unfold denoted
    simp only [p.read_render one_word,known]
    rfl
  unfold Disassembled
  rw [entry,line]
  simp only [Option.isSome_some,Option.some.injEq,exists_eq_left',meaning,true_and]

theorem not_disassembled {pc : Assembler.Address} {w : Nat} {d : InstructionDefinition}
    (entry : definition (opcode (.at_ w)) (extended_opcode (.at_ w)) = some d)
    (failed : d.printer pc (.at_ w) d.mnemonic = none) : ¬ Disassembled pc w := by
  rintro ⟨-,line,printed,-⟩
  unfold print_instruction_at at printed
  simp only [entry,failed] at printed
  cases printed

-- The same text denotes one word only.
theorem disassembled_injective {pc : Assembler.Address} {w w' : Nat} (one : Disassembled pc w) (other : Disassembled pc w')
    (same : print_instruction_at pc w = print_instruction_at pc w') : w = w' := by
  obtain ⟨-,line,printed,meaning⟩ := one
  obtain ⟨-,line',printed',meaning'⟩ := other
  rw [printed,printed'] at same
  cases same
  rw [meaning] at meaning'
  exact Option.some.inj meaning'

end IcedTea.Disassembler

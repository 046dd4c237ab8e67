import IcedTea.Branches
import IcedTea.AssemblyText

namespace IcedTea.Disassembler
open Target
open Assembler (emit_I emit_B operand branch_target InstructionParser register_bits)
open AssemblyText

variable [Target]

inductive SpecialPurposeRegister where
  | xer | lr | ctr
  deriving DecidableEq, Repr

def SpecialPurposeRegister.encoding : SpecialPurposeRegister → Nat
  | xer => 1
  | lr => 8
  | ctr => 9

-- The remaining instruction formats. A D-form operand may be negative: the bits
-- above its field are ones then.
def emit_D (opcode a b c : Int) : Option Nat := do
  let opcode ← operand 6 opcode
  let a ← operand 5 a
  let b ← operand 5 b
  if -2^16 ≤ c ∧ c < 2^16 then some (opcode <<< 26 ||| a <<< 21 ||| b <<< 16 ||| (c % 2^16).toNat) else none

def emit_DS (opcode a b c d : Int) : Option Nat := do
  let opcode ← operand 6 opcode
  let a ← operand 5 a
  let b ← operand 5 b
  let d ← operand 2 d
  if -2^14 ≤ c ∧ c < 2^14 then some (opcode <<< 26 ||| a <<< 21 ||| b <<< 16 ||| (c % 2^14).toNat <<< 2 ||| d) else none

def emit_X (opcode a b c xo : Int) (rc : Bool) : Option Nat := do
  let opcode ← operand 6 opcode
  let a ← operand 5 a
  let b ← operand 5 b
  let c ← operand 5 c
  let xo ← operand 10 xo
  some (opcode <<< 26 ||| a <<< 21 ||| b <<< 16 ||| c <<< 11 ||| xo <<< 1 ||| rc.toNat)

def emit_M (opcode a b c d e : Int) (rc : Bool) : Option Nat :=
  match opcode with
  | 21 => do
    let a ← operand 5 a
    let b ← operand 5 b
    let c ← operand 5 c
    let d ← operand 5 d
    let e ← operand 5 e
    some (21 <<< 26 ||| a <<< 21 ||| b <<< 16 ||| c <<< 11 ||| d <<< 6 ||| e <<< 1 ||| rc.toNat)
  | 30 => do
    let a ← operand 5 a
    let b ← operand 5 b
    let c ← operand 6 c
    let d ← operand 6 d
    let e ← operand 3 e
    let C := c &&& 0x1f
    let D := d &&& 0x1f
    let E := (d &&& 0x20) >>> 1 ||| e <<< 1 ||| (c &&& 0x20) >>> 5
    some (30 <<< 26 ||| a <<< 21 ||| b <<< 16 ||| C <<< 11 ||| D <<< 6 ||| E <<< 1 ||| rc.toNat)
  | _ => none

-- The two constructors of Address. Debug builds have the one from a ByteSize,
-- which does not assert that the base is not r0.
structure MakeAddress where
  byte_size : Bool
  base : Register
  displacement : Int
  deriving DecidableEq, Repr

def MakeAddress.make (a : MakeAddress) : Option Address :=
  if a.byte_size = false ∧ a.base = r0 then none else some ⟨a.base,a.displacement⟩

-- An Address keeps 16 bits of the displacement.
def emit_D_address (opcode a : Int) (b : MakeAddress) : Option Nat := do
  let b ← b.make
  emit_D opcode a b.base (b.displacement % 2^16)

def emit_DS_address (opcode a : Int) (b : MakeAddress) (c : Int) : Option Nat := do
  let b ← b.make
  emit_DS opcode a b.base (b.displacement % 2^16 / 2^2) c

-- The instruction methods. The standard mnemonics are calls of these.
inductive Call where
  | add (dst a b : Register) | addi (dst a : Register) (b : Int) | addis (dst a : Register) (b : Int)
  | andi_ (dst a : Register) (b : Int)
  | b (a : Assembler.Address) | bc (bo bi : Int) (a : Assembler.Address) | bcctrl (bo bi : Int)
  | bcl (bo bi : Int) (a : Assembler.Address) | bclr (bo bi : Int) | bclrl (bo bi : Int) | bl (a : Assembler.Address)
  | cmp (dst : ConditionRegister) (l : Bool) (a b : Register) | cmpi (dst : ConditionRegister) (l : Bool) (a : Register) (b : Int)
  | dcbf (a b : Register) | extsb (dst src : Register) | extsh (dst src : Register) | fmr (dst src : FloatRegister)
  | icbi (a b : Register) | isync | lbzx (dst a b : Register) | lfd (dst : FloatRegister) (src : MakeAddress)
  | lfs (dst : FloatRegister) (src : MakeAddress) | lhz (dst : Register) (src : MakeAddress) | lhzx (dst a b : Register)
  | lwarx (dst a b : Register) | lwz (dst : Register) (src : MakeAddress) | lwzx (dst a b : Register) | mfcr (dst : Register)
  | mfspr (dst : Register) (src : SpecialPurposeRegister) | mtcrf (mask : Int) (src : Register)
  | mtspr (dst : SpecialPurposeRegister) (src : Register) | neg (dst src : Register) | OR (dst a b : Register)
  | ori (dst a : Register) (b : Int) | oris (dst a : Register) (b : Int) | rlwinm (dst a : Register) (b mb me : Int)
  | stfd (src : FloatRegister) (dst : MakeAddress) | stfs (src : FloatRegister) (dst : MakeAddress)
  | stw (src : Register) (dst : MakeAddress) | stwcx_ (src a b : Register) | stwu (src : Register) (dst : MakeAddress)
  | stwux (src a b : Register) | stwx (src a b : Register) | subf (dst a b : Register) | subfic (dst a : Register) (b : Int)
  | sync
  -- 64-bit implementations only
  | extsw (dst src : Register) | ld (dst : Register) (src : MakeAddress) | ldarx (dst a b : Register) | ldx (dst a b : Register)
  | rldicl (dst a : Register) (sh mb : Int) | rldicr (dst a : Register) (sh me : Int) | std (src : Register) (dst : MakeAddress)
  | stdcx_ (src a b : Register) | stdu (src : Register) (dst : MakeAddress) | stdux (src a b : Register) | stdx (src a b : Register)

def emit (pc : Assembler.Address) : Call → Option Nat
  | .add dst a b => emit_X 31 dst a b 266 false
  | .addi dst a b => emit_D 14 dst a b
  | .addis dst a b => emit_D 15 dst a b
  | .andi_ dst a b => emit_D 28 a dst b
  | .b a => do emit_I 18 (← branch_target pc a 24).toNat false false
  | .bc bo bi a => do emit_B 16 bo bi (← branch_target pc a 14).toNat false false
  | .bcctrl bo bi => emit_X 19 bo bi 0 528 true
  | .bcl bo bi a => do emit_B 16 bo bi (← branch_target pc a 14).toNat false true
  | .bclr bo bi => emit_X 19 bo bi 0 16 false
  | .bclrl bo bi => emit_X 19 bo bi 0 16 true
  | .bl a => do emit_I 18 (← branch_target pc a 24).toNat false true
  | .cmp dst l a b => emit_X 31 (dst.val <<< 2 ||| l.toNat : Nat) a b 0 false
  | .cmpi dst l a b => emit_D 11 (dst.val <<< 2 ||| l.toNat : Nat) a b
  | .dcbf a b => emit_X 31 0 a b 86 false
  | .extsb dst src => emit_X 31 src dst 0 954 false
  | .extsh dst src => emit_X 31 src dst 0 922 false
  | .fmr dst src => emit_X 63 dst 0 src 72 false
  | .icbi a b => emit_X 31 0 a b 982 false
  | .isync => emit_X 19 0 0 0 150 false
  | .lbzx dst a b => emit_X 31 dst a b 87 false
  | .lfd dst src => emit_D_address 50 dst src
  | .lfs dst src => emit_D_address 48 dst src
  | .lhz dst src => emit_D_address 40 dst src
  | .lhzx dst a b => emit_X 31 dst a b 279 false
  | .lwarx dst a b => emit_X 31 dst a b 20 false
  | .lwz dst src => emit_D_address 32 dst src
  | .lwzx dst a b => emit_X 31 dst a b 23 false
  | .mfcr dst => emit_X 31 dst 0 0 19 false
  | .mfspr dst src => emit_X 31 dst src.encoding 0 339 false
  | .mtcrf mask src => emit_X 31 src (mask / 2^4 % 2^4) (mask % 2^4 * 2) 144 false
  | .mtspr dst src => emit_X 31 src dst.encoding 0 467 false
  | .neg dst src => emit_X 31 dst src 0 104 false
  | .OR dst a b => emit_X 31 a dst b 444 false
  | .ori dst a b => emit_D 24 a dst b
  | .oris dst a b => emit_D 25 a dst b
  | .rlwinm dst a b mb me => emit_M 21 a dst b mb me false
  | .stfd src dst => emit_D_address 54 src dst
  | .stfs src dst => emit_D_address 52 src dst
  | .stw src dst => emit_D_address 36 src dst
  | .stwcx_ src a b => emit_X 31 src a b 150 true
  | .stwu src dst => emit_D_address 37 src dst
  | .stwux src a b => emit_X 31 src a b 183 false
  | .stwx src a b => emit_X 31 src a b 151 false
  | .subf dst a b => emit_X 31 dst a b 40 false
  | .subfic dst a b => emit_D 8 dst a b
  | .sync => emit_X 31 0 0 0 598 false
  | .extsw dst src => emit_X 31 src dst 0 986 false
  | .ld dst src => emit_DS_address 58 dst src 0
  | .ldarx dst a b => emit_X 31 dst a b 84 false
  | .ldx dst a b => emit_X 31 dst a b 21 false
  | .rldicl dst a sh mb => emit_M 30 a dst sh mb 0 false
  | .rldicr dst a sh me => emit_M 30 a dst sh me 1 false
  | .std src dst => emit_DS_address 62 src dst 0
  | .stdcx_ src a b => emit_X 31 src a b 214 true
  | .stdu src dst => emit_DS_address 62 src dst 1
  | .stdux src a b => emit_X 31 src a b 181 false
  | .stdx src a b => emit_X 31 src a b 149 false

-- The parser of the debugger, beyond what branches need.
section Parser
omit [Target]

def opcode (p : InstructionParser) : Nat := p.instruction >>> 26 &&& 0x3f

def extended_opcode (p : InstructionParser) : Int :=
  match opcode p with
  | 19 | 31 | 63 => (p.instruction >>> 1 &&& 0x3ff : Nat)
  | 30 => (p.instruction >>> 2 &&& 7 : Nat)
  | 58 | 62 => (p.instruction &&& 3 : Nat)
  | _ => -1

def read_reg (p : InstructionParser) : Option (Nat × InstructionParser) := p.read 5

def read_xo (p : InstructionParser) : Option (Nat × InstructionParser) := do
  let (xo,p) ← p.read 10
  if (xo : Int) = extended_opcode p then some (xo,p) else none

-- CONDITION(BO, BI) packs the two into different numbers.
def branch_condition (BO BI : Nat) : Option Text :=
  match BO,BI &&& 3 with
  | 12,0 => some ['l','t']
  | 4,1 => some ['l','e']
  | 12,2 => some ['e','q']
  | 4,0 => some ['g','e']
  | 12,1 => some ['g','t']
  | 4,2 => some ['n','e']
  | 16,0 => some ['d','n','z']
  | 20,0 => some []
  | _,_ => none

-- `%s` with a flag's letter, and a register or zero.
def flag (letter : Char) (bit : Nat) : Text := if bit ≠ 0 then [letter] else []
def reg_or_zero (n : Nat) : Operand := if n ≠ 0 then .gpr n else .number 0

end Parser

-- A printer's failed assertion or ShouldNotReachHere is none.
abbrev Printer := Assembler.Address → InstructionParser → Text → Option Printed

def branch_pointer (pc : Assembler.Address) (disp : Int) : Operand := .pointer (pc + BitVec.ofInt register_bits (disp*2^2)).toNat

def print_B_bc : Printer := fun pc p _ =>
  if opcode p ≠ 16 then none else do
  let (BO,p) ← p.read 5
  let (BI,p) ← p.read 5
  let (BD,p) ← p.read_signed 14
  let (AA,p) ← p.read 1
  let (LK,_) ← p.read 1
  if BO = 20 then
    if BI = 31 ∧ BD = 1 ∧ AA = 0 ∧ LK = 1 then some ⟨['m','p','c','l','r'],[]⟩ else none
  else do
    let cond ← branch_condition BO BI
    let cr := BI >>> 2
    some ⟨'b' :: cond ++ flag 'l' LK ++ flag 'a' AA,(if cr ≠ 0 then [.crf cr] else []) ++ [branch_pointer pc BD]⟩

def print_I_b : Printer := fun pc p _ =>
  if opcode p ≠ 18 then none else do
  let (LI,p) ← p.read_signed 24
  let (AA,p) ← p.read 1
  let (LK,_) ← p.read 1
  some ⟨'b' :: flag 'l' LK ++ flag 'a' AA,[branch_pointer pc LI]⟩

def print_D_reg_reg_simm : Printer := fun _ p mnemonic => do
  let (RT,p) ← read_reg p
  let (RA,p) ← read_reg p
  let (SI,p) ← p.read_signed 16
  if RA = 0 ∧ opcode p = 14 then some ⟨['l','i'],[.gpr RT,.number SI]⟩
  else if RA = 0 ∧ opcode p = 15 then some ⟨['l','i','s'],[.gpr RT,.number SI]⟩
  else if opcode p = 14 ∧ SI < 0 then some ⟨['s','u','b','i'],[.gpr RT,reg_or_zero RA,.number (-SI)]⟩
  else some ⟨mnemonic,[.gpr RT,reg_or_zero RA,.number SI]⟩

def print_D_reg_reg_uimm : Printer := fun _ p mnemonic => do
  let (RT,p) ← read_reg p
  let (RA,p) ← read_reg p
  let (UI,p) ← p.read 16
  if opcode p = 24 ∧ RT = 0 ∧ RA = 0 ∧ UI = 0 then some ⟨['n','o','p'],[]⟩
  else some ⟨mnemonic,[.gpr RA,.gpr RT,.number UI]⟩

def print_D_reg_addr : Printer := fun _ p mnemonic => do
  let (RT,p) ← read_reg p
  let (RA,p) ← read_reg p
  let (D,_) ← p.read_signed 16
  some ⟨mnemonic,[.gpr RT,.displaced D RA]⟩

def print_D_freg_addr : Printer := fun _ p mnemonic => do
  let (FRT,p) ← read_reg p
  let (RA,p) ← read_reg p
  let (D,_) ← p.read_signed 16
  some ⟨mnemonic,[.fpr FRT,.displaced D RA]⟩

def print_DS_reg_addr : Printer := fun _ p mnemonic => do
  let (RT,p) ← read_reg p
  let (RA,p) ← read_reg p
  let (DS,_) ← p.read_signed 14
  some ⟨mnemonic,[.gpr RT,.displaced (DS*2^2) RA]⟩

def print_X_bcspr : Printer := fun _ p _ =>
  if opcode p ≠ 19 then none else do
  let (BO,p) ← p.read 5
  let (BI,p) ← p.read 5
  let (x1,p) ← p.read 5
  let (xo,p) ← read_xo p
  let (LK,_) ← p.read 1
  if x1 ≠ 0 then none else do
  let cond ← branch_condition BO BI
  match xo with
  | 16 => some ⟨'b' :: cond ++ ['l','r'] ++ flag 'l' LK,[]⟩
  | 528 => some ⟨'b' :: cond ++ ['c','t','r'] ++ flag 'l' LK,[]⟩
  | _ => none

def print_M : Printer := fun _ p _ =>
  if opcode p ≠ 21 then none else do
  let (RS,p) ← read_reg p
  let (RA,p) ← read_reg p
  let (SH,p) ← p.read 5
  let (MB,p) ← p.read 5
  let (ME,p) ← p.read 5
  let (Rc,_) ← p.read 1
  if MB = 0 ∧ 31 - (SH : Int) = ME then some ⟨['s','l','w','i'] ++ flag '.' Rc,[.gpr RA,.gpr RS,.number SH]⟩
  else if ME = 31 ∧ 32 - (MB : Int) = SH then some ⟨['s','r','w','i'] ++ flag '.' Rc,[.gpr RA,.gpr RS,.number MB]⟩
  else none

def print_MD : Printer := fun _ p _ =>
  if opcode p ≠ 30 then none else do
  let (RS,p) ← read_reg p
  let (RA,p) ← read_reg p
  let (shl,p) ← p.read 5
  let (mel,p) ← p.read 5
  let (meh,p) ← p.read 1
  let (xo,p) ← p.read 3
  let (shh,p) ← p.read 1
  let (Rc,_) ← p.read 1
  let SH := shh <<< 5 ||| shl
  let ME := meh <<< 5 ||| mel
  match xo with
  | 0 =>
    -- The condition is an assignment, of a number that is not zero.
    let SH : Int := 64 - ME
    if SH ≠ 0 then some ⟨['s','r','d','i'] ++ flag '.' Rc,[.gpr RA,.gpr RS,.number ME]⟩ else none
  | 1 =>
    if (ME : Int) = 63 - SH then some ⟨['s','l','d','i'] ++ flag '.' Rc,[.gpr RA,.gpr RS,.number SH]⟩ else none
  | _ => none

-- The X-form printers: three register fields, the extended opcode and Rc.
def read_X (p : InstructionParser) : Option (Nat × Nat × Nat × Nat × Nat) := do
  let (a,p) ← read_reg p
  let (b,p) ← read_reg p
  let (c,p) ← read_reg p
  let (xo,p) ← read_xo p
  let (Rc,_) ← p.read 1
  some (a,b,c,xo,Rc)

def print_X_reg_reg_reg : Printer := fun _ p mnemonic => do
  let (RT,RA,RB,xo,Rc) ← read_X p
  if xo = 40 then some ⟨['s','u','b'] ++ flag '.' Rc,[.gpr RT,.gpr RB,.gpr RA]⟩
  else some ⟨mnemonic ++ flag '.' Rc,[.gpr RT,.gpr RA,.gpr RB]⟩

def print_X_reg_regorzero_reg : Printer := fun _ p mnemonic => do
  let (RT,RA,RB,xo,Rc) ← read_X p
  if xo = 40 then some ⟨['s','u','b'] ++ flag '.' Rc,[.gpr RT,reg_or_zero RB,.gpr RA]⟩
  else some ⟨mnemonic ++ flag '.' Rc,[.gpr RT,reg_or_zero RA,.gpr RB]⟩

def print_X_res_regorzero_reg : Printer := fun _ p mnemonic => do
  let (x1,RA,RB,_,Rc) ← read_X p
  if x1 = 0 then some ⟨mnemonic ++ flag '.' Rc,[reg_or_zero RA,.gpr RB]⟩ else none

def print_X_reg_reg_res : Printer := fun _ p mnemonic => do
  let (RT,RA,x1,_,Rc) ← read_X p
  if x1 = 0 then some ⟨mnemonic ++ flag '.' Rc,[.gpr RT,.gpr RA]⟩ else none

def print_X_reg_res_res : Printer := fun _ p mnemonic => do
  let (RT,x1,x2,_,Rc) ← read_X p
  if x1 = 0 ∧ x2 = 0 then some ⟨mnemonic ++ flag '.' Rc,[.gpr RT]⟩ else none

def print_X_switched_regreg_reg : Printer := fun _ p mnemonic => do
  let (RS,RA,RB,xo,Rc) ← read_X p
  if xo = 444 ∧ RS = RB ∧ Rc = 0 then some ⟨['m','r'],[.gpr RA,.gpr RB]⟩
  else some ⟨mnemonic ++ flag '.' Rc,[.gpr RA,.gpr RS,.gpr RB]⟩

def print_X_switched_regreg : Printer := fun _ p mnemonic => do
  let (RS,RA,x1,_,Rc) ← read_X p
  if x1 = 0 then some ⟨mnemonic ++ flag '.' Rc,[.gpr RA,.gpr RS]⟩ else none

def print_X_reserved : Printer := fun _ p mnemonic => do
  let (x1,x2,x3,_,Rc) ← read_X p
  if x1 = 0 ∧ x2 = 0 ∧ x3 = 0 ∧ Rc = 0 then some ⟨mnemonic,[]⟩ else none

def print_X_freg_res_freg : Printer := fun _ p mnemonic => do
  let (FRT,x1,FRB,_,Rc) ← read_X p
  if x1 = 0 then some ⟨mnemonic ++ flag '.' Rc,[.fpr FRT,.fpr FRB]⟩ else none

def field_operand (BF : Nat) : List Operand := if BF ≠ 0 then [.crf BF] else []

def print_X_cmp : Printer := fun _ p _ => do
  let (BF,p) ← p.read 3
  let (x1,p) ← p.read 1
  let (L,p) ← p.read 1
  let (RA,p) ← read_reg p
  let (RB,p) ← read_reg p
  let (xo,p) ← read_xo p
  let (x2,p) ← p.read 1
  if opcode p = 31 ∧ xo = 0 ∧ x1 = 0 ∧ x2 = 0 then
    some ⟨if L ≠ 0 then ['c','m','p','d'] else ['c','m','p','w'],field_operand BF ++ [.gpr RA,.gpr RB]⟩
  else none

def print_D_cmpi : Printer := fun _ p _ => do
  let (BF,p) ← p.read 3
  let (x1,p) ← p.read 1
  let (L,p) ← p.read 1
  let (RA,p) ← read_reg p
  let (SI,p) ← p.read_signed 16
  if opcode p = 11 ∧ x1 = 0 then
    some ⟨if L ≠ 0 then ['c','m','p','d','i'] else ['c','m','p','w','i'],field_operand BF ++ [.gpr RA,.number SI]⟩
  else none

def print_X_mspr : Printer := fun _ p mnemonic => do
  let (RT,sb,sa,_,x1) ← read_X p
  if x1 ≠ 0 then none else
  let letter := mnemonic.getD 1 ' '
  match sa <<< 5 ||| sb with
  | 8 => some ⟨['m',letter,'l','r'],[.gpr RT]⟩
  | 9 => some ⟨['m',letter,'c','t','r'],[.gpr RT]⟩
  | _ => none

def print_X_mtcrf : Printer := fun _ p mnemonic => do
  let (RS,p) ← read_reg p
  let (x1,p) ← p.read 1
  let (FXM,p) ← p.read 8
  let (x2,p) ← p.read 1
  let (_,p) ← read_xo p
  let (x3,_) ← p.read 1
  if x1 = 0 ∧ x2 = 0 ∧ x3 = 0 then
    if FXM = 255 then some ⟨['m','t','c','r'],[.gpr RS]⟩ else some ⟨mnemonic,[.number FXM,.gpr RS]⟩
  else none

structure InstructionDefinition where
  opcode : Nat
  xo : Int
  mnemonic : Text
  printer : Printer

-- Most opcodes have no extended opcode.
def plain (opcode : Nat) (mnemonic : Text) (printer : Printer) : InstructionDefinition := ⟨opcode,-1,mnemonic,printer⟩

def definitions : List InstructionDefinition := [
  plain 8 ['s','u','b','f','i','c'] print_D_reg_reg_simm,
  plain 11 ['c','m','p','i'] print_D_cmpi,
  plain 14 ['a','d','d','i'] print_D_reg_reg_simm,
  plain 15 ['a','d','d','i','s'] print_D_reg_reg_simm,
  plain 16 ['b','c'] print_B_bc,
  plain 18 ['b'] print_I_b,
  ⟨19,16,['b','c','l','r'],print_X_bcspr⟩,
  ⟨19,150,['i','s','y','n','c'],print_X_reserved⟩,
  ⟨19,528,['b','c','c','t','r'],print_X_bcspr⟩,
  plain 21 ['r','l','w','i','n','m'] print_M,
  plain 24 ['o','r','i'] print_D_reg_reg_uimm,
  plain 25 ['o','r','i','s'] print_D_reg_reg_uimm,
  plain 28 ['a','n','d','i','.'] print_D_reg_reg_uimm,
  ⟨30,0,['r','l','d','i','c','l'],print_MD⟩,
  ⟨30,1,['r','l','d','i','c','r'],print_MD⟩,
  ⟨31,0,['c','m','p'],print_X_cmp⟩,
  ⟨31,19,['m','f','c','r'],print_X_reg_res_res⟩,
  ⟨31,20,['l','w','a','r','x'],print_X_reg_regorzero_reg⟩,
  ⟨31,21,['l','d','x'],print_X_reg_regorzero_reg⟩,
  ⟨31,23,['l','w','z','x'],print_X_reg_regorzero_reg⟩,
  ⟨31,40,['s','u','b','f'],print_X_reg_reg_reg⟩,
  ⟨31,84,['l','d','a','r','x'],print_X_reg_regorzero_reg⟩,
  ⟨31,86,['d','c','b','f'],print_X_res_regorzero_reg⟩,
  ⟨31,87,['l','b','z','x'],print_X_reg_regorzero_reg⟩,
  ⟨31,104,['n','e','g'],print_X_reg_reg_res⟩,
  ⟨31,144,['m','t','c','r','f'],print_X_mtcrf⟩,
  ⟨31,150,['s','t','w','c','x'],print_X_reg_regorzero_reg⟩,
  ⟨31,151,['s','t','w','x'],print_X_reg_regorzero_reg⟩,
  ⟨31,181,['s','t','d','u','x'],print_X_reg_regorzero_reg⟩,
  ⟨31,183,['s','t','w','u','x'],print_X_reg_regorzero_reg⟩,
  ⟨31,214,['s','t','d','c','x'],print_X_reg_regorzero_reg⟩,
  ⟨31,266,['a','d','d'],print_X_reg_reg_reg⟩,
  ⟨31,279,['l','h','z','x'],print_X_reg_regorzero_reg⟩,
  ⟨31,339,['m','f','s','p','r'],print_X_mspr⟩,
  ⟨31,444,['o','r'],print_X_switched_regreg_reg⟩,
  ⟨31,467,['m','t','s','p','r'],print_X_mspr⟩,
  ⟨31,598,['s','y','n','c'],print_X_reserved⟩,
  ⟨31,922,['e','x','t','s','h'],print_X_switched_regreg⟩,
  ⟨31,954,['e','x','t','s','b'],print_X_switched_regreg⟩,
  ⟨31,982,['i','c','b','i'],print_X_res_regorzero_reg⟩,
  ⟨31,986,['e','x','t','s','w'],print_X_switched_regreg⟩,
  plain 32 ['l','w','z'] print_D_reg_addr,
  plain 36 ['s','t','w'] print_D_reg_addr,
  plain 37 ['s','t','w','u'] print_D_reg_addr,
  plain 40 ['l','h','z'] print_D_reg_addr,
  plain 48 ['l','f','s'] print_D_freg_addr,
  plain 50 ['l','f','d'] print_D_freg_addr,
  plain 52 ['s','t','f','s'] print_D_freg_addr,
  plain 54 ['s','t','f','d'] print_D_freg_addr,
  ⟨58,0,['l','d'],print_DS_reg_addr⟩,
  ⟨62,0,['s','t','d'],print_DS_reg_addr⟩,
  ⟨62,1,['s','t','d','u'],print_DS_reg_addr⟩,
  ⟨63,72,['f','m','r'],print_X_freg_res_freg⟩]

def definition (op : Nat) (xo : Int) : Option InstructionDefinition :=
  definitions.find? fun d => op = d.opcode ∧ xo = d.xo

def print_instruction_at (pc : Assembler.Address) (instruction : Nat) : Option Text :=
  let p := InstructionParser.at_ instruction
  match definition (opcode p) (extended_opcode p) with
  | some d => (d.printer pc p d.mnemonic).map Printed.render
  | none => some (['.','l','o','n','g',' ','0','x'] ++ (Nat.toDigits 16 instruction).leftpad 8 '0')

end IcedTea.Disassembler

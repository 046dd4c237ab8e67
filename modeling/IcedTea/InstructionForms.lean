import IcedTea.Disassembler
import IcedTea.BitFields

namespace IcedTea.Disassembler
open Assembler (emit_I emit_B operand InstructionParser)
open BitFields

-- The operands of an instruction, by the form that emits it.
inductive Operands where
  | I (opcode li : Int) (aa lk : Bool)
  | B (opcode bo bi bd : Int) (aa lk : Bool)
  | D (opcode a b c : Int)
  | DS (opcode a b c d : Int)
  | X (opcode a b c xo : Int) (rc : Bool)
  | M (a b c d e : Int) (rc : Bool)
  | MD (a b c d e : Int) (rc : Bool)
  deriving DecidableEq, Repr

inductive Form where
  | I | B | D | DS | X | M | MD
  deriving DecidableEq, Repr

namespace Operands
def form : Operands → Form
  | I .. => .I
  | B .. => .B
  | D .. => .D
  | DS .. => .DS
  | X .. => .X
  | M .. => .M
  | MD .. => .MD

def emit_instruction : Operands → Option Nat
  | I opcode li aa lk => emit_I opcode li aa lk
  | B opcode bo bi bd aa lk => emit_B opcode bo bi bd aa lk
  | D opcode a b c => emit_D opcode a b c
  | DS opcode a b c d => emit_DS opcode a b c d
  | X opcode a b c xo rc => emit_X opcode a b c xo rc
  | M a b c d e rc => emit_M 21 a b c d e rc
  | MD a b c d e rc => emit_M 30 a b c d e rc

def opcode : Operands → Int
  | I opcode .. | B opcode .. | D opcode .. | DS opcode .. | X opcode .. => opcode
  | M .. => 21
  | MD .. => 30

-- The fields of the word. The MD form has its two long operands in two fields each.
def fields : Operands → List BitField
  | I opcode li aa lk => [(6,opcode.toNat),(24,li.toNat),(1,aa.toNat),(1,lk.toNat)]
  | B opcode bo bi bd aa lk => [(6,opcode.toNat),(5,bo.toNat),(5,bi.toNat),(14,bd.toNat),(1,aa.toNat),(1,lk.toNat)]
  | D opcode a b c => [(6,opcode.toNat),(5,a.toNat),(5,b.toNat),(16,(c % 2^16).toNat)]
  | DS opcode a b c d => [(6,opcode.toNat),(5,a.toNat),(5,b.toNat),(14,(c % 2^14).toNat),(2,d.toNat)]
  | X opcode a b c xo rc => [(6,opcode.toNat),(5,a.toNat),(5,b.toNat),(5,c.toNat),(10,xo.toNat),(1,rc.toNat)]
  | M a b c d e rc => [(6,21),(5,a.toNat),(5,b.toNat),(5,c.toNat),(5,d.toNat),(5,e.toNat),(1,rc.toNat)]
  | MD a b c d e rc => [(6,30),(5,a.toNat),(5,b.toNat),(5,c.toNat % 2^5),(5,d.toNat % 2^5),(1,d.toNat / 2^5),(3,e.toNat),
      (1,c.toNat / 2^5),(1,rc.toNat)]

-- The operands that must not be negative.
def unsigned : Operands → List Int
  | I opcode li _ _ => [opcode,li]
  | B opcode bo bi bd _ _ => [opcode,bo,bi,bd]
  | D opcode a b _ => [opcode,a,b]
  | DS opcode a b _ d => [opcode,a,b,d]
  | X opcode a b c xo _ => [opcode,a,b,c,xo]
  | M a b c d e _ | MD a b c d e _ => [a,b,c,d,e]

-- The operands up to what their fields can tell apart: an immediate is the number of
-- its field's width that it agrees with.
def canonical : Operands → Operands
  | I opcode li aa lk => I opcode (li.bmod (2^24)) aa lk
  | B opcode bo bi bd aa lk => B opcode bo bi (bd.bmod (2^14)) aa lk
  | D opcode a b c => D opcode a b (c.bmod (2^16))
  | DS opcode a b c d => DS opcode a b (c.bmod (2^14)) d
  | o => o

-- The extended opcode, for the opcodes that have one in the form.
def extended : Operands → Option Int
  | X opcode _ _ _ xo _ => if opcode = 19 ∨ opcode = 31 ∨ opcode = 63 then some xo else none
  | DS opcode _ _ _ d => if opcode = 58 ∨ opcode = 62 then some d else none
  | MD _ _ _ _ e _ => some e
  | _ => none
end Operands

-- What the printers read for each form.
section Parsing
variable (p : InstructionParser)

def parse_I : Option Operands := do
  let (LI,p) ← p.read_signed 24
  let (AA,p) ← p.read 1
  let (LK,p) ← p.read 1
  some (.I (opcode p) LI (AA ≠ 0) (LK ≠ 0))

def parse_B : Option Operands := do
  let (BO,p) ← p.read 5
  let (BI,p) ← p.read 5
  let (BD,p) ← p.read_signed 14
  let (AA,p) ← p.read 1
  let (LK,p) ← p.read 1
  some (.B (opcode p) BO BI BD (AA ≠ 0) (LK ≠ 0))

def parse_D : Option Operands := do
  let (RT,p) ← read_reg p
  let (RA,p) ← read_reg p
  let (SI,p) ← p.read_signed 16
  some (.D (opcode p) RT RA SI)

-- The last two bits are only looked at as the extended opcode.
def parse_DS : Option Operands := do
  let (RT,p) ← read_reg p
  let (RA,p) ← read_reg p
  let (DS,p) ← p.read_signed 14
  some (.DS (opcode p) RT RA DS (p.instruction &&& 3 : Nat))

def parse_X : Option Operands := do
  let (RT,p) ← read_reg p
  let (RA,p) ← read_reg p
  let (RB,p) ← read_reg p
  let (xo,p) ← p.read 10
  let (Rc,p) ← p.read 1
  some (.X (opcode p) RT RA RB xo (Rc ≠ 0))

def parse_M : Option Operands := do
  let (RS,p) ← read_reg p
  let (RA,p) ← read_reg p
  let (SH,p) ← p.read 5
  let (MB,p) ← p.read 5
  let (ME,p) ← p.read 5
  let (Rc,_) ← p.read 1
  some (.M RS RA SH MB ME (Rc ≠ 0))

def parse_MD : Option Operands := do
  let (RS,p) ← read_reg p
  let (RA,p) ← read_reg p
  let (shl,p) ← p.read 5
  let (mel,p) ← p.read 5
  let (meh,p) ← p.read 1
  let (xo,p) ← p.read 3
  let (shh,p) ← p.read 1
  let (Rc,_) ← p.read 1
  some (.MD RS RA (shh <<< 5 ||| shl : Nat) (meh <<< 5 ||| mel : Nat) xo (Rc ≠ 0))

def Form.parse : Form → Option Operands
  | .I => parse_I p
  | .B => parse_B p
  | .D => parse_D p
  | .DS => parse_DS p
  | .X => parse_X p
  | .M => parse_M p
  | .MD => parse_MD p

end Parsing

-- An operand that is accepted is a number of its field's width.
theorem operand_inv {bits : Nat} {x : Int} {f : Nat → Option Nat} {w : Nat} (accepted : (operand bits x).bind f = some w) :
    ∃ n : Nat, x = n ∧ n < 2^bits ∧ f n = some w := by
  obtain ⟨n,value,rest⟩ := Option.bind_eq_some_iff.mp accepted
  unfold operand at value
  split at value
  · rename_i bounds
    have same := Option.some.inj value
    have powers : ((2:Int)^bits) = ((2^bits : Nat) : Int) := by norm_cast
    rw [powers] at bounds
    exact ⟨n,by omega,by omega,rest⟩
  · cases value

theorem bool_low (b : Bool) : b.toNat < 2^1 := by cases b <;> decide

theorem remainder_low (bits : Nat) (c : Int) : (c % 2^bits).toNat < 2^bits := by
  have powers : ((2:Int)^bits) = ((2^bits : Nat) : Int) := by norm_cast
  have positive : 0 < 2^bits := Nat.two_pow_pos bits
  rw [powers]
  have low := Int.emod_lt_of_pos c (show (0:Int) < (2^bits : Nat) by omega)
  omega

theorem some_of_guard {α : Type} {c : Prop} [Decidable c] {x y : α} (passes : (if c then some x else none) = some y) : some x = some y := by
  split at passes
  · exact passes
  · cases passes

-- An emitted word is its fields in their places.
structure Emitted (o : Operands) (w : Nat) : Prop where
  natural : ∀ x ∈ o.unsigned, 0 ≤ x
  fit : Fit o.fields
  word : w = pack o.fields

theorem emitted_I {opcode li : Int} {aa lk : Bool} {w : Nat} (emits : emit_I opcode li aa lk = some w) :
    Emitted (.I opcode li aa lk) w := by
  unfold emit_I at emits
  obtain ⟨opcode,rfl,op_low,emits⟩ := operand_inv emits
  obtain ⟨li,rfl,li_low,emits⟩ := operand_inv emits
  have word := Option.some.inj emits
  have fit : Fit (Operands.I opcode li aa lk).fields := .cons op_low (.cons li_low (.cons (bool_low aa) (.cons (bool_low lk) .nil)))
  refine ⟨by simp [Operands.unsigned],fit,?_⟩
  rw [← word,← foldr_placed fit]
  simp [Operands.fields,placed,width,Nat.or_assoc]

theorem emitted_B {opcode bo bi bd : Int} {aa lk : Bool} {w : Nat} (emits : emit_B opcode bo bi bd aa lk = some w) :
    Emitted (.B opcode bo bi bd aa lk) w := by
  unfold emit_B at emits
  obtain ⟨opcode,rfl,op_low,emits⟩ := operand_inv emits
  obtain ⟨bo,rfl,bo_low,emits⟩ := operand_inv emits
  obtain ⟨bi,rfl,bi_low,emits⟩ := operand_inv emits
  obtain ⟨bd,rfl,bd_low,emits⟩ := operand_inv emits
  have word := Option.some.inj emits
  have fit : Fit (Operands.B opcode bo bi bd aa lk).fields :=
    .cons op_low (.cons bo_low (.cons bi_low (.cons bd_low (.cons (bool_low aa) (.cons (bool_low lk) .nil)))))
  refine ⟨by simp [Operands.unsigned],fit,?_⟩
  rw [← word,← foldr_placed fit]
  simp [Operands.fields,placed,width,Nat.or_assoc]

theorem emitted_D {opcode a b c : Int} {w : Nat} (emits : emit_D opcode a b c = some w) : Emitted (.D opcode a b c) w := by
  unfold emit_D at emits
  obtain ⟨opcode,rfl,op_low,emits⟩ := operand_inv emits
  obtain ⟨a,rfl,a_low,emits⟩ := operand_inv emits
  obtain ⟨b,rfl,b_low,emits⟩ := operand_inv emits
  have word := Option.some.inj (some_of_guard emits)
  have fit : Fit (Operands.D opcode a b c).fields := .cons op_low (.cons a_low (.cons b_low (.cons (remainder_low 16 c) .nil)))
  refine ⟨by simp [Operands.unsigned],fit,?_⟩
  rw [← word,← foldr_placed fit]
  simp [Operands.fields,placed,width,Nat.or_assoc]

theorem emitted_DS {opcode a b c d : Int} {w : Nat} (emits : emit_DS opcode a b c d = some w) : Emitted (.DS opcode a b c d) w := by
  unfold emit_DS at emits
  obtain ⟨opcode,rfl,op_low,emits⟩ := operand_inv emits
  obtain ⟨a,rfl,a_low,emits⟩ := operand_inv emits
  obtain ⟨b,rfl,b_low,emits⟩ := operand_inv emits
  obtain ⟨d,rfl,d_low,emits⟩ := operand_inv emits
  have word := Option.some.inj (some_of_guard emits)
  have fit : Fit (Operands.DS opcode a b c d).fields :=
    .cons op_low (.cons a_low (.cons b_low (.cons (remainder_low 14 c) (.cons d_low .nil))))
  refine ⟨by simp [Operands.unsigned],fit,?_⟩
  rw [← word,← foldr_placed fit]
  simp [Operands.fields,placed,width,Nat.or_assoc]

theorem emitted_X {opcode a b c xo : Int} {rc : Bool} {w : Nat} (emits : emit_X opcode a b c xo rc = some w) :
    Emitted (.X opcode a b c xo rc) w := by
  unfold emit_X at emits
  obtain ⟨opcode,rfl,op_low,emits⟩ := operand_inv emits
  obtain ⟨a,rfl,a_low,emits⟩ := operand_inv emits
  obtain ⟨b,rfl,b_low,emits⟩ := operand_inv emits
  obtain ⟨c,rfl,c_low,emits⟩ := operand_inv emits
  obtain ⟨xo,rfl,xo_low,emits⟩ := operand_inv emits
  have word := Option.some.inj emits
  have fit : Fit (Operands.X opcode a b c xo rc).fields :=
    .cons op_low (.cons a_low (.cons b_low (.cons c_low (.cons xo_low (.cons (bool_low rc) .nil)))))
  refine ⟨by simp [Operands.unsigned],fit,?_⟩
  rw [← word,← foldr_placed fit]
  simp [Operands.fields,placed,width,Nat.or_assoc]

theorem emitted_M {a b c d e : Int} {rc : Bool} {w : Nat} (emits : emit_M 21 a b c d e rc = some w) :
    Emitted (.M a b c d e rc) w := by
  obtain ⟨a,rfl,a_low,emits⟩ := operand_inv emits
  obtain ⟨b,rfl,b_low,emits⟩ := operand_inv emits
  obtain ⟨c,rfl,c_low,emits⟩ := operand_inv emits
  obtain ⟨d,rfl,d_low,emits⟩ := operand_inv emits
  obtain ⟨e,rfl,e_low,emits⟩ := operand_inv emits
  have word := Option.some.inj emits
  have fit : Fit (Operands.M a b c d e rc).fields :=
    .cons (by decide) (.cons a_low (.cons b_low (.cons c_low (.cons d_low (.cons e_low (.cons (bool_low rc) .nil))))))
  refine ⟨by simp [Operands.unsigned],fit,?_⟩
  rw [← word,← foldr_placed fit]
  simp [Operands.fields,placed,width,Nat.or_assoc]

-- The parts into which the long operands are taken.
theorem low_bits (c : Nat) : c &&& 0x1f = c % 2^5 := Nat.and_two_pow_sub_one_eq_mod c 5
theorem high_bit : ∀ c < 2^6, (c &&& 0x20) >>> 1 = (c / 2^5) <<< 4 ∧ (c &&& 0x20) >>> 5 = c / 2^5 := by decide
theorem high_bit_low {c : Nat} (low : c < 2^6) : c / 2^5 < 2^1 := by omega

theorem emitted_MD {a b c d e : Int} {rc : Bool} {w : Nat} (emits : emit_M 30 a b c d e rc = some w) :
    Emitted (.MD a b c d e rc) w := by
  obtain ⟨a,rfl,a_low,emits⟩ := operand_inv emits
  obtain ⟨b,rfl,b_low,emits⟩ := operand_inv emits
  obtain ⟨c,rfl,c_low,emits⟩ := operand_inv emits
  obtain ⟨d,rfl,d_low,emits⟩ := operand_inv emits
  obtain ⟨e,rfl,e_low,emits⟩ := operand_inv emits
  have word := Option.some.inj emits
  have fit : Fit (Operands.MD a b c d e rc).fields :=
    .cons (by decide) (.cons a_low (.cons b_low (.cons (Nat.mod_lt _ (by decide)) (.cons (Nat.mod_lt _ (by decide))
      (.cons (high_bit_low d_low) (.cons e_low (.cons (high_bit_low c_low) (.cons (bool_low rc) .nil))))))))
  refine ⟨by simp [Operands.unsigned],fit,?_⟩
  rw [← word,← foldr_placed fit]
  simp only [low_bits,(high_bit d d_low).1,(high_bit c c_low).2,Nat.shiftLeft_or_distrib]
  simp [Operands.fields,placed,width,Nat.or_assoc,← Nat.shiftLeft_add]

theorem emitted (o : Operands) (w : Nat) (emits : o.emit_instruction = some w) : Emitted o w := by
  cases o with
  | I => exact emitted_I emits
  | B => exact emitted_B emits
  | D => exact emitted_D emits
  | DS => exact emitted_DS emits
  | X => exact emitted_X emits
  | M => exact emitted_M emits
  | MD => exact emitted_MD emits

-- Each field holds its value.
theorem Emitted.parts {o : Operands} {w : Nat} (e : Emitted o w) : unpack (o.fields.map Prod.fst) w = o.fields.map Prod.snd := by
  rw [e.word]
  exact unpack_packed e.fit

-- A signed field is read as the number of its width that it agrees with.
theorem read_signed_bmod (w bits nbits : Nat) (left : nbits ≤ bits) (some_bits : 0 < nbits) (c : Int)
    (field : w / 2^(bits-nbits) % 2^nbits = (c % 2^nbits).toNat) :
    (InstructionParser.mk w bits).read_signed nbits = some (c.bmod (2^nbits),⟨w,bits-nbits⟩) := by
  have low : w / 2^(bits-nbits) % 2^nbits < 2^nbits := Nat.mod_lt _ (Nat.two_pow_pos _)
  have half : 2^nbits = 2*2^(nbits-1) := by
    rw [← Nat.pow_succ']
    congr 1
    omega
  have positive := Nat.two_pow_pos (nbits-1)
  have powers : ((2:Int)^nbits) = ((2^nbits : Nat) : Int) := by norm_cast
  rw [InstructionParser.read_signed,Assembler.read_some _ _ _ left]
  rw [powers] at field
  generalize w / 2^(bits-nbits) % 2^nbits = v at *
  have bit : v &&& 1 <<< (nbits-1) = v / 2^(nbits-1) % 2^1 * 2^(nbits-1) := Assembler.and_field v (nbits-1) 1
  have nonneg : 0 ≤ c % ((2^nbits : Nat) : Int) := Int.emod_nonneg _ (by omega)
  have value : c % ((2^nbits : Nat) : Int) = v := by omega
  change some ((if v &&& 1 <<< (nbits-1) ≠ 0 then (v : Int) - 2^nbits else v),_) = some (c.bmod (2^nbits),_)
  rw [bit,Int.bmod_def,value,powers]
  rw [half] at low ⊢
  generalize 2^(nbits-1) = h at *
  by_cases high : h ≤ v
  · have one : v / h % 2^1 = 1 := by
      rw [show v / h = 1 from Nat.div_eq_of_lt_le (by omega) (by omega)]
      rfl
    rw [one,if_pos (by omega),if_neg (by omega)]
  · have zero : v / h % 2^1 = 0 := by
      rw [Nat.div_eq_of_lt (by omega)]
      rfl
    rw [zero,if_neg (by omega),if_pos (by omega)]

theorem opcode_mk (w bits : Nat) : opcode ⟨w,bits⟩ = w / 2^26 % 2^6 := by
  unfold opcode
  rw [Nat.shiftRight_eq_div_pow]
  exact Nat.and_two_pow_sub_one_eq_mod _ 6

-- What the low bits of a natural operand are.
theorem natural_field {bits : Nat} {x : Int} (natural : 0 ≤ x) (low : x.toNat < 2^bits) : x.toNat = (x % 2^bits).toNat := by
  have powers : ((2:Int)^bits) = ((2^bits : Nat) : Int) := by norm_cast
  rw [powers,Int.emod_eq_of_lt natural (by omega)]

theorem flag_bit (b : Bool) : decide (b.toNat ≠ 0) = b := by cases b <;> rfl

theorem parsed_I {opcode li : Int} {aa lk : Bool} {w : Nat} (e : Emitted (.I opcode li aa lk) w) :
    parse_I (.at_ w) = some (.I opcode (li.bmod (2^24)) aa lk) := by
  have parts : [w / 2^26 % 2^6,w / 2^2 % 2^24,w / 2^1 % 2^1,w / 2^0 % 2^1] = [opcode.toNat,li.toNat,aa.toNat,lk.toNat] := e.parts
  obtain ⟨op,parts⟩ := List.cons.inj parts
  obtain ⟨LI,parts⟩ := List.cons.inj parts
  obtain ⟨AA,parts⟩ := List.cons.inj parts
  obtain ⟨LK,-⟩ := List.cons.inj parts
  have natural : 0 ≤ opcode ∧ 0 ≤ li := by simpa [Operands.unsigned] using e.natural
  have li_low : li.toNat < 2^24 := by
    rw [← LI]
    exact Nat.mod_lt _ (by decide)
  rw [natural_field natural.2 li_low] at LI
  simp only [parse_I,InstructionParser.at_,read_signed_bmod w 26 24 (by decide) (by decide) li LI,
    Assembler.read_some w 2 1 (by decide),Assembler.read_some w 1 1 (by decide),
    Option.bind_eq_bind,Option.bind_some,AA,LK,opcode_mk,op,flag_bit,Int.toNat_of_nonneg natural.1]

theorem parsed_B {opcode bo bi bd : Int} {aa lk : Bool} {w : Nat} (e : Emitted (.B opcode bo bi bd aa lk) w) :
    parse_B (.at_ w) = some (.B opcode bo bi (bd.bmod (2^14)) aa lk) := by
  have parts : [w / 2^26 % 2^6,w / 2^21 % 2^5,w / 2^16 % 2^5,w / 2^2 % 2^14,w / 2^1 % 2^1,w / 2^0 % 2^1] =
    [opcode.toNat,bo.toNat,bi.toNat,bd.toNat,aa.toNat,lk.toNat] := e.parts
  obtain ⟨op,parts⟩ := List.cons.inj parts
  obtain ⟨BO,parts⟩ := List.cons.inj parts
  obtain ⟨BI,parts⟩ := List.cons.inj parts
  obtain ⟨BD,parts⟩ := List.cons.inj parts
  obtain ⟨AA,parts⟩ := List.cons.inj parts
  obtain ⟨LK,-⟩ := List.cons.inj parts
  obtain ⟨op_natural,bo_natural,bi_natural,bd_natural⟩ : 0 ≤ opcode ∧ 0 ≤ bo ∧ 0 ≤ bi ∧ 0 ≤ bd := by
    simpa [Operands.unsigned] using e.natural
  have bd_low : bd.toNat < 2^14 := by
    rw [← BD]
    exact Nat.mod_lt _ (by decide)
  rw [natural_field bd_natural bd_low] at BD
  simp only [parse_B,InstructionParser.at_,Assembler.read_some w 26 5 (by decide),Assembler.read_some w 21 5 (by decide),
    read_signed_bmod w 16 14 (by decide) (by decide) bd BD,Assembler.read_some w 2 1 (by decide),
    Assembler.read_some w 1 1 (by decide),Option.bind_eq_bind,Option.bind_some,BO,BI,AA,LK,opcode_mk,op,flag_bit,
    Int.toNat_of_nonneg op_natural,Int.toNat_of_nonneg bo_natural,Int.toNat_of_nonneg bi_natural]

theorem parsed_D {opcode a b c : Int} {w : Nat} (e : Emitted (.D opcode a b c) w) :
    parse_D (.at_ w) = some (.D opcode a b (c.bmod (2^16))) := by
  have parts : [w / 2^26 % 2^6,w / 2^21 % 2^5,w / 2^16 % 2^5,w / 2^0 % 2^16] =
    [opcode.toNat,a.toNat,b.toNat,(c % 2^16).toNat] := e.parts
  obtain ⟨op,parts⟩ := List.cons.inj parts
  obtain ⟨RT,parts⟩ := List.cons.inj parts
  obtain ⟨RA,parts⟩ := List.cons.inj parts
  obtain ⟨SI,-⟩ := List.cons.inj parts
  obtain ⟨op_natural,a_natural,b_natural⟩ : 0 ≤ opcode ∧ 0 ≤ a ∧ 0 ≤ b := by simpa [Operands.unsigned] using e.natural
  simp only [parse_D,read_reg,InstructionParser.at_,Assembler.read_some w 26 5 (by decide),
    Assembler.read_some w 21 5 (by decide),read_signed_bmod w 16 16 (by decide) (by decide) c SI,Option.bind_eq_bind,
    Option.bind_some,RT,RA,opcode_mk,op,Int.toNat_of_nonneg op_natural,Int.toNat_of_nonneg a_natural,
    Int.toNat_of_nonneg b_natural]

theorem parsed_DS {opcode a b c d : Int} {w : Nat} (e : Emitted (.DS opcode a b c d) w) :
    parse_DS (.at_ w) = some (.DS opcode a b (c.bmod (2^14)) d) := by
  have parts : [w / 2^26 % 2^6,w / 2^21 % 2^5,w / 2^16 % 2^5,w / 2^2 % 2^14,w / 2^0 % 2^2] =
    [opcode.toNat,a.toNat,b.toNat,(c % 2^14).toNat,d.toNat] := e.parts
  obtain ⟨op,parts⟩ := List.cons.inj parts
  obtain ⟨RT,parts⟩ := List.cons.inj parts
  obtain ⟨RA,parts⟩ := List.cons.inj parts
  obtain ⟨DS,parts⟩ := List.cons.inj parts
  obtain ⟨xo,-⟩ := List.cons.inj parts
  obtain ⟨op_natural,a_natural,b_natural,d_natural⟩ : 0 ≤ opcode ∧ 0 ≤ a ∧ 0 ≤ b ∧ 0 ≤ d := by
    simpa [Operands.unsigned] using e.natural
  have last : w &&& 3 = d.toNat := by
    rw [← xo,Nat.pow_zero,Nat.div_one]
    exact Nat.and_two_pow_sub_one_eq_mod w 2
  simp only [parse_DS,read_reg,InstructionParser.at_,Assembler.read_some w 26 5 (by decide),
    Assembler.read_some w 21 5 (by decide),read_signed_bmod w 16 14 (by decide) (by decide) c DS,Option.bind_eq_bind,
    Option.bind_some,RT,RA,last,opcode_mk,op,Int.toNat_of_nonneg op_natural,Int.toNat_of_nonneg a_natural,
    Int.toNat_of_nonneg b_natural,Int.toNat_of_nonneg d_natural]

theorem parsed_X {opcode a b c xo : Int} {rc : Bool} {w : Nat} (e : Emitted (.X opcode a b c xo rc) w) :
    parse_X (.at_ w) = some (.X opcode a b c xo rc) := by
  have parts : [w / 2^26 % 2^6,w / 2^21 % 2^5,w / 2^16 % 2^5,w / 2^11 % 2^5,w / 2^1 % 2^10,w / 2^0 % 2^1] =
    [opcode.toNat,a.toNat,b.toNat,c.toNat,xo.toNat,rc.toNat] := e.parts
  obtain ⟨op,parts⟩ := List.cons.inj parts
  obtain ⟨RT,parts⟩ := List.cons.inj parts
  obtain ⟨RA,parts⟩ := List.cons.inj parts
  obtain ⟨RB,parts⟩ := List.cons.inj parts
  obtain ⟨XO,parts⟩ := List.cons.inj parts
  obtain ⟨Rc,-⟩ := List.cons.inj parts
  obtain ⟨op_natural,a_natural,b_natural,c_natural,xo_natural⟩ : 0 ≤ opcode ∧ 0 ≤ a ∧ 0 ≤ b ∧ 0 ≤ c ∧ 0 ≤ xo := by
    simpa [Operands.unsigned] using e.natural
  simp only [parse_X,read_reg,InstructionParser.at_,Assembler.read_some w 26 5 (by decide),
    Assembler.read_some w 21 5 (by decide),Assembler.read_some w 16 5 (by decide),Assembler.read_some w 11 10 (by decide),
    Assembler.read_some w 1 1 (by decide),Option.bind_eq_bind,Option.bind_some,RT,RA,RB,XO,Rc,opcode_mk,op,flag_bit,
    Int.toNat_of_nonneg op_natural,Int.toNat_of_nonneg a_natural,Int.toNat_of_nonneg b_natural,
    Int.toNat_of_nonneg c_natural,Int.toNat_of_nonneg xo_natural]

theorem parsed_M {a b c d e : Int} {rc : Bool} {w : Nat} (emits : Emitted (.M a b c d e rc) w) :
    parse_M (.at_ w) = some (.M a b c d e rc) := by
  have parts : [w / 2^26 % 2^6,w / 2^21 % 2^5,w / 2^16 % 2^5,w / 2^11 % 2^5,w / 2^6 % 2^5,w / 2^1 % 2^5,w / 2^0 % 2^1] =
    [21,a.toNat,b.toNat,c.toNat,d.toNat,e.toNat,rc.toNat] := emits.parts
  obtain ⟨op,parts⟩ := List.cons.inj parts
  obtain ⟨RS,parts⟩ := List.cons.inj parts
  obtain ⟨RA,parts⟩ := List.cons.inj parts
  obtain ⟨SH,parts⟩ := List.cons.inj parts
  obtain ⟨MB,parts⟩ := List.cons.inj parts
  obtain ⟨ME,parts⟩ := List.cons.inj parts
  obtain ⟨Rc,-⟩ := List.cons.inj parts
  obtain ⟨a_natural,b_natural,c_natural,d_natural,e_natural⟩ : 0 ≤ a ∧ 0 ≤ b ∧ 0 ≤ c ∧ 0 ≤ d ∧ 0 ≤ e := by
    simpa [Operands.unsigned] using emits.natural
  simp only [parse_M,read_reg,InstructionParser.at_,Assembler.read_some w 26 5 (by decide),
    Assembler.read_some w 21 5 (by decide),Assembler.read_some w 16 5 (by decide),Assembler.read_some w 11 5 (by decide),
    Assembler.read_some w 6 5 (by decide),Assembler.read_some w 1 1 (by decide),Option.bind_eq_bind,Option.bind_some,
    RS,RA,SH,MB,ME,Rc,flag_bit,Int.toNat_of_nonneg a_natural,Int.toNat_of_nonneg b_natural,
    Int.toNat_of_nonneg c_natural,Int.toNat_of_nonneg d_natural,Int.toNat_of_nonneg e_natural]

-- The two parts of a long operand are put together again.
theorem reassembled (n : Nat) : (n / 2^5) <<< 5 ||| n % 2^5 = n := by
  rw [← Nat.shiftLeft_add_eq_or_of_lt (Nat.mod_lt n (by decide)),Nat.shiftLeft_eq,Nat.div_add_mod']

theorem parsed_MD {a b c d e : Int} {rc : Bool} {w : Nat} (emits : Emitted (.MD a b c d e rc) w) :
    parse_MD (.at_ w) = some (.MD a b c d e rc) := by
  have parts : [w / 2^26 % 2^6,w / 2^21 % 2^5,w / 2^16 % 2^5,w / 2^11 % 2^5,w / 2^6 % 2^5,w / 2^5 % 2^1,w / 2^2 % 2^3,
      w / 2^1 % 2^1,w / 2^0 % 2^1] =
    [30,a.toNat,b.toNat,c.toNat % 2^5,d.toNat % 2^5,d.toNat / 2^5,e.toNat,c.toNat / 2^5,rc.toNat] := emits.parts
  obtain ⟨op,parts⟩ := List.cons.inj parts
  obtain ⟨RS,parts⟩ := List.cons.inj parts
  obtain ⟨RA,parts⟩ := List.cons.inj parts
  obtain ⟨shl,parts⟩ := List.cons.inj parts
  obtain ⟨mel,parts⟩ := List.cons.inj parts
  obtain ⟨meh,parts⟩ := List.cons.inj parts
  obtain ⟨xo,parts⟩ := List.cons.inj parts
  obtain ⟨shh,parts⟩ := List.cons.inj parts
  obtain ⟨Rc,-⟩ := List.cons.inj parts
  obtain ⟨a_natural,b_natural,c_natural,d_natural,e_natural⟩ : 0 ≤ a ∧ 0 ≤ b ∧ 0 ≤ c ∧ 0 ≤ d ∧ 0 ≤ e := by
    simpa [Operands.unsigned] using emits.natural
  simp only [parse_MD,read_reg,InstructionParser.at_,Assembler.read_some w 26 5 (by decide),
    Assembler.read_some w 21 5 (by decide),Assembler.read_some w 16 5 (by decide),Assembler.read_some w 11 5 (by decide),
    Assembler.read_some w 6 1 (by decide),Assembler.read_some w 5 3 (by decide),Assembler.read_some w 2 1 (by decide),
    Assembler.read_some w 1 1 (by decide),Option.bind_eq_bind,Option.bind_some,RS,RA,shl,mel,meh,xo,shh,Rc,flag_bit,
    reassembled,Int.toNat_of_nonneg a_natural,Int.toNat_of_nonneg b_natural,Int.toNat_of_nonneg c_natural,
    Int.toNat_of_nonneg d_natural,Int.toNat_of_nonneg e_natural]

theorem parsed (o : Operands) (w : Nat) (e : Emitted o w) : o.form.parse (.at_ w) = some o.canonical := by
  cases o with
  | I => exact parsed_I e
  | B => exact parsed_B e
  | D => exact parsed_D e
  | DS => exact parsed_DS e
  | X => exact parsed_X e
  | M => exact parsed_M e
  | MD => exact parsed_MD e

-- One field after the other, without a sign.
def reads (p : InstructionParser) : List Nat → Option (List Nat)
  | [] => some []
  | bits :: rest => do
    let (value,p) ← p.read bits
    return value :: (← reads p rest)

theorem reads_unpack (w : Nat) (widths : List Nat) : reads ⟨w,widths.sum⟩ widths = some (unpack widths w) := by
  induction widths with
  | nil => rfl
  | cons bits rest ih =>
    rw [reads,List.sum_cons,Assembler.read_some _ _ _ (Nat.le_add_right _ _),Nat.add_sub_cancel_left]
    simp only [Option.bind_eq_bind,Option.bind_some,ih,unpack]
    rfl

theorem form_width (o : Operands) : width o.fields = 32 ∧ (o.fields.map Prod.fst).tail.sum = 26 := by
  cases o <;> exact ⟨rfl,rfl⟩

theorem emitted_opcode {o : Operands} {w : Nat} (e : Emitted o w) : (opcode (.at_ w) : Int) = o.opcode := by
  have head := congrArg List.head? e.parts
  have op := opcode_mk w 26
  change opcode (.at_ w) = _ at op
  rw [op]
  have natural := e.natural
  cases o with
  | M | MD => exact congrArg Int.ofNat (Option.some.inj head)
  | I | B | D | DS | X =>
    exact (congrArg Int.ofNat (Option.some.inj head)).trans (Int.toNat_of_nonneg (natural _ List.mem_cons_self))

theorem extended_of_opcode {p : InstructionParser} {xo : Nat} :
    ((opcode p = 19 ∨ opcode p = 31 ∨ opcode p = 63) → p.instruction / 2 % 2^10 = xo → extended_opcode p = xo) ∧
    (opcode p = 30 → p.instruction / 2^2 % 2^3 = xo → extended_opcode p = xo) ∧
    ((opcode p = 58 ∨ opcode p = 62) → p.instruction % 2^2 = xo → extended_opcode p = xo) := by
  unfold extended_opcode
  refine ⟨?_,?_,?_⟩
  · rintro op rfl
    have field : p.instruction >>> 1 &&& 0x3ff = p.instruction / 2 % 2^10 := by
      rw [Nat.shiftRight_eq_div_pow]
      exact Nat.and_two_pow_sub_one_eq_mod _ 10
    rw [← field]
    rcases op with op | op | op <;> rw [op] <;> rfl
  · rintro op rfl
    have field : p.instruction >>> 2 &&& 7 = p.instruction / 2^2 % 2^3 := by
      rw [Nat.shiftRight_eq_div_pow]
      exact Nat.and_two_pow_sub_one_eq_mod _ 3
    rw [op,← field]
    rfl
  · rintro op rfl
    have field : p.instruction &&& 3 = p.instruction % 2^2 := Nat.and_two_pow_sub_one_eq_mod _ 2
    rw [← field]
    rcases op with op | op <;> rw [op] <;> rfl

theorem emitted_extended {o : Operands} {w : Nat} (e : Emitted o w) {xo : Int} (has : o.extended = some xo) :
    extended_opcode (.at_ w) = xo := by
  have op := emitted_opcode e
  have parts := e.parts
  have natural := e.natural
  cases o with
  | I | B | D | M => cases has
  | DS opcode a b c d =>
    have last : w / 2^0 % 2^2 = d.toNat := congrArg (fun l => l.getD 4 0) parts
    rw [Nat.pow_zero,Nat.div_one] at last
    have d_natural : 0 ≤ d := natural d (by simp [Operands.unsigned])
    change (if opcode = 58 ∨ opcode = 62 then some d else none) = some xo at has
    split at has
    · rename_i opcodes
      rw [← Option.some.inj has,← Int.toNat_of_nonneg d_natural]
      refine extended_of_opcode.2.2 ?_ last
      change (_ : Int) = opcode at op
      omega
    · cases has
  | X opcode a b c xo' rc =>
    have last : w / 2^1 % 2^10 = xo'.toNat := congrArg (fun l => l.getD 4 0) parts
    rw [Nat.pow_one] at last
    have xo_natural : 0 ≤ xo' := natural xo' (by simp [Operands.unsigned])
    change (if opcode = 19 ∨ opcode = 31 ∨ opcode = 63 then some xo' else none) = some xo at has
    split at has
    · rename_i opcodes
      rw [← Option.some.inj has,← Int.toNat_of_nonneg xo_natural]
      refine extended_of_opcode.1 ?_ last
      change (_ : Int) = opcode at op
      omega
    · cases has
  | MD a b c d e' rc =>
    have last : w / 2^2 % 2^3 = e'.toNat := congrArg (fun l => l.getD 6 0) parts
    have e_natural : 0 ≤ e' := natural e' (by simp [Operands.unsigned])
    rw [← Option.some.inj has,← Int.toNat_of_nonneg e_natural]
    exact extended_of_opcode.2.1 (Int.ofNat.inj op) last

-- Reading the word of an instruction gives back what it was made of.
structure ReadsBack (o : Operands) (w : Nat) : Prop where
  word : w < 2^32
  opcode : (opcode (.at_ w) : Int) = o.opcode
  extended : ∀ xo, o.extended = some xo → extended_opcode (.at_ w) = xo
  operands : o.form.parse (.at_ w) = some o.canonical
  fields : reads (.at_ w) (o.fields.map Prod.fst).tail = some (o.fields.map Prod.snd).tail
  apart : (placed o.fields).Pairwise fun x y => x &&& y = 0
  together : (placed o.fields).foldr (· ||| ·) 0 = w

theorem reads_back {o : Operands} {w : Nat} (e : Emitted o w) : ReadsBack o w where
  word := by
    have low := pack_lt e.fit
    rwa [(form_width o).1,← e.word] at low
  opcode := emitted_opcode e
  extended _ has := emitted_extended e has
  operands := parsed o w e
  fields := by
    have start : InstructionParser.at_ w = ⟨w,(o.fields.map Prod.fst).tail.sum⟩ := by rw [(form_width o).2]; rfl
    rw [start,reads_unpack]
    have tails := congrArg List.tail e.parts
    cases o <;> exact congrArg some tails
  apart := placed_disjoint e.fit
  together := (foldr_placed e.fit).trans e.word.symm

-- Two instructions of one form with one word have the same operands.
theorem encoding (o : Operands) (w : Nat) (emits : o.emit_instruction = some w) :
    ReadsBack o w ∧ ∀ o' : Operands, o'.form = o.form → o'.emit_instruction = some w → o'.canonical = o.canonical := by
  refine ⟨reads_back (emitted o w emits),fun o' form emits' => ?_⟩
  have here := parsed o w (emitted o w emits)
  have there := parsed o' w (emitted o' w emits')
  rw [form,here] at there
  exact (Option.some.inj there).symm

-- rldicr r3, r4, 40, 23
theorem encoding_rldicr : ReadsBack (.MD 4 3 40 23 1 false) 0x788345C6 ∧ ∀ o' : Operands, o'.form = .MD →
    o'.emit_instruction = some 0x788345C6 → o'.canonical = .MD 4 3 40 23 1 false :=
  encoding (.MD 4 3 40 23 1 false) 0x788345C6 (by decide)

end IcedTea.Disassembler

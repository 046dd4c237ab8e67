import IcedTea.InstructionForms

namespace IcedTea.Disassembler
open Target
open Assembler (operand operand_nat Fits)

variable [Target]

-- The instructions with a signed operand of 16 bits, or of 14 bits in words.
inductive SignedCall where
  | addi (dst a : Fin 32) (b : Int) | addis (dst a : Fin 32) (b : Int) | subi (dst a : Fin 32) (b : Int)
  | subfic (dst a : Fin 32) (b : Int) | cmpi (dst : ConditionRegister) (l : Bool) (a : Fin 32) (b : Int)
  | lhz (dst : Fin 32) (byte_size : Bool) (base : Fin 32) (displacement : Int)
  | lwz (dst : Fin 32) (byte_size : Bool) (base : Fin 32) (displacement : Int)
  | stw (src : Fin 32) (byte_size : Bool) (base : Fin 32) (displacement : Int)
  | stwu (src : Fin 32) (byte_size : Bool) (base : Fin 32) (displacement : Int)
  | lfd (dst : Fin 32) (byte_size : Bool) (base : Fin 32) (displacement : Int)
  | lfs (dst : Fin 32) (byte_size : Bool) (base : Fin 32) (displacement : Int)
  | stfd (src : Fin 32) (byte_size : Bool) (base : Fin 32) (displacement : Int)
  | stfs (src : Fin 32) (byte_size : Bool) (base : Fin 32) (displacement : Int)
  | ld (dst : Fin 32) (byte_size : Bool) (base : Fin 32) (displacement : Int)
  | std (src : Fin 32) (byte_size : Bool) (base : Fin 32) (displacement : Int)
  | stdu (src : Fin 32) (byte_size : Bool) (base : Fin 32) (displacement : Int)
  deriving DecidableEq, Repr

namespace SignedCall
def call : SignedCall → Call
  | addi dst a b => .addi dst.val a.val b
  | addis dst a b => .addis dst.val a.val b
  | subi dst a b => .addi dst.val a.val (-b)
  | subfic dst a b => .subfic dst.val a.val b
  | cmpi dst l a b => .cmpi dst l a.val b
  | lhz dst byte_size base displacement => .lhz dst.val ⟨byte_size,base.val,displacement⟩
  | lwz dst byte_size base displacement => .lwz dst.val ⟨byte_size,base.val,displacement⟩
  | stw src byte_size base displacement => .stw src.val ⟨byte_size,base.val,displacement⟩
  | stwu src byte_size base displacement => .stwu src.val ⟨byte_size,base.val,displacement⟩
  | lfd dst byte_size base displacement => .lfd dst.val ⟨byte_size,base.val,displacement⟩
  | lfs dst byte_size base displacement => .lfs dst.val ⟨byte_size,base.val,displacement⟩
  | stfd src byte_size base displacement => .stfd src.val ⟨byte_size,base.val,displacement⟩
  | stfs src byte_size base displacement => .stfs src.val ⟨byte_size,base.val,displacement⟩
  | ld dst byte_size base displacement => .ld dst.val ⟨byte_size,base.val,displacement⟩
  | std src byte_size base displacement => .std src.val ⟨byte_size,base.val,displacement⟩
  | stdu src byte_size base displacement => .stdu src.val ⟨byte_size,base.val,displacement⟩

-- The number that the instruction is to work with. Subtraction is addition of the opposite.
def operand : SignedCall → Int
  | subi _ _ b => -b
  | addi _ _ b | addis _ _ b | subfic _ _ b | cmpi _ _ _ b => b
  | lhz _ _ _ displacement | lwz _ _ _ displacement | stw _ _ _ displacement | stwu _ _ _ displacement
  | lfd _ _ _ displacement | lfs _ _ _ displacement | stfd _ _ _ displacement | stfs _ _ _ displacement
  | ld _ _ _ displacement | std _ _ _ displacement | stdu _ _ _ displacement => displacement

inductive Kind where
  | immediate | address (byte_size : Bool) (base : Fin 32) | words (byte_size : Bool) (base : Fin 32)

def kind : SignedCall → Kind
  | addi .. | addis .. | subi .. | subfic .. | cmpi .. => .immediate
  | lhz _ byte_size base _ | lwz _ byte_size base _ | stw _ byte_size base _ | stwu _ byte_size base _ | lfd _ byte_size base _
  | lfs _ byte_size base _ | stfd _ byte_size base _ | stfs _ byte_size base _ => .address byte_size base
  | ld _ byte_size base _ | std _ byte_size base _ | stdu _ byte_size base _ => .words byte_size base

-- What the architecture takes the field to be.
def meaning (s : SignedCall) (word : Nat) : Int :=
  match s.kind with
  | .immediate | .address _ _ => ((word % 2^16 : Nat) : Int).bmod (2^16)
  | .words _ _ => ((word / 2^2 % 2^14 : Nat) : Int).bmod (2^14) * 2^2

-- What is accepted means what was asked for.
def Kept (s : SignedCall) : Prop := ∀ pc word, emit pc s.call = some word → s.meaning word = s.operand

-- An operand that fits, or one that the checks do reject.
def Safe (s : SignedCall) : Prop :=
  match s.kind with
  | .immediate => Fits 16 s.operand ∨ ¬ Fits 17 s.operand
  | .address byte_size base => Fits 16 s.operand ∨ byte_size = false ∧ base.val = 0
  | .words byte_size base => (Fits 16 s.operand ∧ s.operand % 4 = 0) ∨ byte_size = false ∧ base.val = 0
end SignedCall

section Fields
omit [Target]

theorem bmod_16 (c : Int) : c.bmod (2^16) = c ↔ Fits 16 c := by
  unfold Fits
  rw [Int.bmod_def]
  split <;> omega

theorem field_D {opcode a b c : Int} {word : Nat} (emits : emit_D opcode a b c = some word) :
    ((word % 2^16 : Nat) : Int).bmod (2^16) = c.bmod (2^16) := by
  have last : word / 2^0 % 2^16 = (c % 2^16).toNat := congrArg (fun l => l.getD 3 0) (emitted_D emits).parts
  rw [Nat.pow_zero,Nat.div_one] at last
  have value : ((word % 2^16 : Nat) : Int) = c % ((2^16 : Nat) : Int) := by
    rw [last]
    omega
  rw [value,Int.emod_bmod]

theorem field_DS {opcode a b c d : Int} {word : Nat} (emits : emit_DS opcode a b c d = some word) :
    ((word / 2^2 % 2^14 : Nat) : Int).bmod (2^14) = c.bmod (2^14) := by
  have part : word / 2^2 % 2^14 = (c % 2^14).toNat := congrArg (fun l => l.getD 3 0) (emitted_DS emits).parts
  have value : ((word / 2^2 % 2^14 : Nat) : Int) = c % ((2^14 : Nat) : Int) := by
    rw [part]
    omega
  rw [value,Int.emod_bmod]

theorem accepted_D {opcode a b : Nat} {c : Int} (op_low : opcode < 64) (a_low : a < 32) (b_low : b < 32) :
    (∃ word, emit_D opcode a b c = some word) ↔ Fits 17 c := by
  unfold emit_D
  simp only [operand_nat 6 _ op_low,operand_nat 5 _ a_low,operand_nat 5 _ b_low,Option.bind_eq_bind,Option.bind_some]
  unfold Fits
  split
  · rename_i range
    exact iff_of_true ⟨_,rfl⟩ range
  · rename_i range
    refine iff_of_false ?_ range
    rintro ⟨word,none⟩
    cases none

theorem accepted_DS {opcode a b d : Nat} {c : Int} (op_low : opcode < 64) (a_low : a < 32) (b_low : b < 32) (d_low : d < 4)
    (range : -2^14 ≤ c ∧ c < 2^14) : ∃ word, emit_DS opcode a b c d = some word := by
  unfold emit_DS
  simp only [operand_nat 6 _ op_low,operand_nat 5 _ a_low,operand_nat 5 _ b_low,operand_nat 2 _ d_low,
    Option.bind_eq_bind,Option.bind_some,if_pos range]
  exact ⟨_,rfl⟩

-- The check of the D form is the one for fields with and without a sign.
theorem kept_D {opcode a b : Nat} {c : Int} (op_low : opcode < 64) (a_low : a < 32) (b_low : b < 32) :
    (∀ word, emit_D opcode a b c = some word → ((word % 2^16 : Nat) : Int).bmod (2^16) = c) ↔ Fits 16 c ∨ ¬ Fits 17 c := by
  have accepts := accepted_D (c := c) op_low a_low b_low
  constructor
  · intro kept
    by_cases range : Fits 17 c
    · obtain ⟨word,emits⟩ := accepts.mpr range
      have same := kept word emits
      rw [field_D emits] at same
      exact .inl ((bmod_16 c).mp same)
    · exact .inr range
  · rintro (fits | rejected) word emits
    · rw [field_D emits]
      exact (bmod_16 c).mpr fits
    · exact absurd (accepts.mp ⟨word,emits⟩) rejected

-- An Address has lost the rest of its displacement before any check.
theorem kept_D_address {opcode a : Nat} (op_low : opcode < 64) (a_low : a < 32) (byte_size : Bool) (base : Fin 32) (displacement : Int) :
    (∀ word, emit_D_address opcode a ⟨byte_size,base.val,displacement⟩ = some word →
      ((word % 2^16 : Nat) : Int).bmod (2^16) = displacement) ↔ Fits 16 displacement ∨ byte_size = false ∧ base.val = 0 := by
  unfold emit_D_address MakeAddress.make
  by_cases zero : byte_size = false ∧ base.val = 0
  · refine iff_of_true (fun word emits => ?_) (.inr zero)
    rw [if_pos zero] at emits
    cases emits
  · rw [if_neg zero,Option.bind_eq_bind,Option.bind_some]
    have range : Fits 17 (displacement % 2^16) := by
      unfold Fits
      omega
    obtain ⟨word,emits⟩ := (accepted_D op_low a_low base.isLt).mpr range
    have value : (displacement % ((2^16 : Nat) : Int)).bmod (2^16) = displacement.bmod (2^16) := Int.emod_bmod _ _
    have cast : ((2^16 : Nat) : Int) = 2^16 := by norm_num
    rw [cast] at value
    constructor
    · intro kept
      have same := kept word emits
      rw [field_D emits,value] at same
      exact .inl ((bmod_16 _).mp same)
    · intro fits word emits
      rw [field_D emits,value]
      exact (bmod_16 _).mpr (fits.resolve_right zero)

theorem words_16 (displacement : Int) : (displacement % 2^16 / 2^2).bmod (2^14) * 2^2 = displacement ↔
    Fits 16 displacement ∧ displacement % 4 = 0 := by
  unfold Fits
  rw [Int.bmod_def]
  split <;> omega

theorem kept_DS_address {opcode a d : Nat} (op_low : opcode < 64) (a_low : a < 32) (d_low : d < 4) (byte_size : Bool) (base : Fin 32)
    (displacement : Int) : (∀ word, emit_DS_address opcode a ⟨byte_size,base.val,displacement⟩ d = some word →
      ((word / 2^2 % 2^14 : Nat) : Int).bmod (2^14) * 2^2 = displacement) ↔
      (Fits 16 displacement ∧ displacement % 4 = 0) ∨ byte_size = false ∧ base.val = 0 := by
  unfold emit_DS_address MakeAddress.make
  by_cases zero : byte_size = false ∧ base.val = 0
  · refine iff_of_true (fun word emits => ?_) (.inr zero)
    rw [if_pos zero] at emits
    cases emits
  · rw [if_neg zero,Option.bind_eq_bind,Option.bind_some]
    obtain ⟨word,emits⟩ := accepted_DS op_low a_low base.isLt d_low
      (show -2^14 ≤ displacement % 2^16 / 2^2 ∧ displacement % 2^16 / 2^2 < 2^14 by omega)
    constructor
    · intro kept
      have same := kept word emits
      rw [field_DS emits] at same
      exact .inl ((words_16 _).mp same)
    · intro fits word emits
      rw [field_DS emits]
      exact (words_16 _).mpr (fits.resolve_right zero)

theorem cmpi_field_low : ∀ (dst : ConditionRegister) (l : Bool), dst.val <<< 2 ||| l.toNat < 32 := by decide

end Fields

-- Every accepted operand is kept as long as it fits, and an operand that does not
-- is rejected only when it is far from fitting.
theorem kept_iff (s : SignedCall) : s.Kept ↔ s.Safe := by
  have pcs {P : Prop} : (Assembler.Address → P) ↔ P := forall_const Assembler.Address
  cases s with
  | addi dst a b | addis dst a b | subi dst a b | subfic dst a b =>
    exact pcs.trans (kept_D (by decide) dst.isLt a.isLt)
  | cmpi dst l a b => exact pcs.trans (kept_D (by decide) (cmpi_field_low dst l) a.isLt)
  | lhz r byte_size base displacement | lwz r byte_size base displacement | stw r byte_size base displacement
  | stwu r byte_size base displacement | lfd r byte_size base displacement | lfs r byte_size base displacement
  | stfd r byte_size base displacement | stfs r byte_size base displacement =>
    exact pcs.trans (kept_D_address (by decide) r.isLt byte_size base displacement)
  | ld r byte_size base displacement | std r byte_size base displacement | stdu r byte_size base displacement =>
    exact pcs.trans (kept_DS_address (by decide) r.isLt (by decide) byte_size base displacement)

-- addi r3, r4, 40000 adds -25536.
omit [Target] in
theorem not_always_kept : ¬ ∀ (_ : Target) (s : SignedCall), s.Kept := by
  intro all
  have kept := all ppc64 (.addi 3 4 40000) 0
  have safe : Fits 16 40000 ∨ ¬ Fits 17 40000 :=
    (kept_D (show 14 < 64 by decide) (show 3 < 32 by decide) (show 4 < 32 by decide)).mp kept
  exact absurd safe (by decide)

end IcedTea.Disassembler

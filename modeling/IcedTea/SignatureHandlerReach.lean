import IcedTea.Constants
import IcedTea.SignatureHandlerEffect

namespace IcedTea.InterpreterRuntime
open StackFrame (link_area_words min_params)
open Vm Cells

section
variable [Target]

-- Address keeps an int16_t, and displacement() gives its bits without the sign.
def address (base : Register) (displacement : Int) : Address := ⟨base,extsh displacement⟩
def displacement (a : Address) : Int := a.displacement % 2^16

def Emitted.narrow : Emitted → Emitted
  | lwa dst src => lwa dst (address src.base src.displacement)
  | lwz dst src => lwz dst (address src.base src.displacement)
  | load dst src => load dst (address src.base src.displacement)
  | lfs dst src => lfs dst (address src.base src.displacement)
  | lfd dst src => lfd dst (address src.base src.displacement)
  | handle dst src => handle dst (address src.base src.displacement)

-- What pass_on_stack keeps of the source, and StackArgument::pass with it.
def StackArgument.narrow (a : StackArgument) : StackArgument :=
  {a with src_offset := displacement (address Rlocals a.src_offset)}

def StackArgument.pass_narrow (m : Machine) (a : StackArgument) : Machine :=
  let src := address Rlocals a.src_offset
  let dst := address r1 a.dst_offset
  match a.type with
  | .int => exec [.lwa r0 src,.store r0 dst] m
  | .long =>
    match Target.cpu with
    | .ppc32 =>
      exec [.lwz r0 src,.stw r0 dst,
        .lwz r0 (address Rlocals (a.src_offset + wordSize)),.stw r0 (address r1 (a.dst_offset + wordSize))] m
    | .ppc64 => exec [.load r0 src,.store r0 dst] m
  | .float =>
    match Target.cpu with
    | .ppc32 => exec [.lfs f0 src,.stfd f0 dst] m
    | .ppc64 => exec [.lwz r0 src,.stw r0 (address r1 (a.dst_offset + wordSize))] m
  | .double => exec [.lfd f0 src,.stfd f0 dst] m
  | .object => exec [.store r0 dst] (handle r0 src m)

-- MacroAssembler::load of a constant, with the instructions it is made of.
def load_constant (dst : Register) (value : Int) (m : Machine) : Machine :=
  {m with gpr := MacroAssembler.run dst (MacroAssembler.load value) m.gpr}

-- The words within 2^15 bytes.
def reach : Nat := match Target.cpu with | .ppc32 => 2^13 | .ppc64 => 2^12

theorem reach_bytes : (reach : Int)*wordSize = 2^15 := by
  unfold reach
  cases cpu : Target.cpu with
  | ppc32 => rw [wordSize_ppc32 cpu]; rfl
  | ppc64 => rw [wordSize_ppc64 cpu]; rfl

-- The last local and the last word of the arguments are in reach of sixteen bits.
-- A float on the large processor is stored past the end of its own word.
structure InReach (is_static : Bool) (signature : List NativeType) : Prop where
  locals : parameterWords (parameters is_static signature) ≤ reach + 1
  words : link_area_words + (iterate (Counters.start is_static) 0 (parameters is_static signature)).next.st_arg +
    (match Target.cpu with | .ppc32 => 0 | .ppc64 => 1) ≤ reach

-- A word of parameters takes three words of the stack at most, so the 255 words
-- of a Java method are in reach.
theorem pass_grows (c : Counters) (n : Nat) (t : NativeType) : (pass c n t).next.st_arg ≤ c.st_arg + 3*t.words := by
  have stack : ∀ c : Counters, ∀ src, (pass_on_stack c src t).next.st_arg ≤ c.st_arg + 3*t.words := by
    intro c src
    cases cpu : Target.cpu <;> cases t <;> simp [pass_on_stack,cpu,NativeType.words] <;> split <;> omega
  have shadow : c.shadow.st_arg ≤ c.st_arg + 3*t.words := by
    unfold Counters.shadow
    cases t <;> cases Target.cpu <;> simp [NativeType.words]
  cases t with
  | int =>
    simp only [pass,pass_int]
    split
    · exact shadow
    · exact stack _ _
  | long =>
    cases cpu : Target.cpu <;> simp only [pass,pass_long,cpu] <;> split
    · exact Nat.le_add_right _ _
    · exact stack _ _
    · exact shadow
    · exact stack _ _
  | float =>
    simp only [pass,pass_float]
    split
    · exact shadow
    · exact stack _ _
  | double =>
    simp only [pass,pass_double]
    split
    · exact shadow
    · exact stack _ _
  | object =>
    simp only [pass,pass_object]
    split
    · exact shadow
    · exact stack _ _

theorem iterate_grows (c : Counters) (n : Nat) (params : List NativeType) :
    (iterate c n params).next.st_arg ≤ c.st_arg + 3*parameterWords params := by
  induction params generalizing c n with
  | nil => exact Nat.le_add_right _ _
  | cons t rest ih =>
    have first := pass_grows c n t
    have later := ih (pass c n t).next (n + t.words)
    have words : parameterWords (t :: rest) = t.words + parameterWords rest := by simp [parameterWords]
    change (iterate (pass c n t).next (n + t.words) rest).next.st_arg ≤ _
    omega

theorem in_reach (is_static : Bool) (signature : List NativeType) (java : parameterWords (parameters is_static signature) ≤ 255) :
    InReach is_static signature := by
  have grown := iterate_grows (Counters.start is_static) 0 (parameters is_static signature)
  have link : link_area_words ≤ 6 := by unfold link_area_words; split <;> decide
  have start : (Counters.start is_static).st_arg ≤ 2 := by unfold Counters.start; cases is_static <;> cases Target.cpu <;> decide
  have far : 2^12 ≤ reach := by unfold reach; split <;> decide
  exact ⟨by omega,by split <;> omega⟩

omit [Target] in
theorem address_small {offset : Int} (low : -2^15 ≤ offset) (high : offset < 2^15) : address base offset = ⟨base,offset⟩ := by
  rw [address,MacroAssembler.extsh_small _ low high]

theorem local_small (few : k ≤ reach) : -2^15 ≤ local_offset_in_bytes k ∧ local_offset_in_bytes k ≤ 0 := by
  have pos := Int.le_of_lt wordSize_pos
  have low := Int.mul_nonneg (Int.natCast_nonneg k) pos
  have high := Int.mul_le_mul_of_nonneg_right (Int.ofNat_le.mpr few) pos
  rw [reach_bytes] at high
  unfold local_offset_in_bytes
  omega

theorem emitted_narrow (e : Emitted) (src : e.src = localAddress k) (few : k ≤ reach) : e.narrow = e := by
  have small := local_small few
  have same : address e.src.base e.src.displacement = e.src := by
    rw [src]
    exact address_small small.1 (Int.lt_of_le_of_lt small.2 (by decide))
  cases e <;> exact congrArg _ same

-- The source offset is made unsigned and taken back.
theorem pass_narrow_eq (a : StackArgument) (m : Machine) (low : -2^15 ≤ a.src_offset)
    (high : a.src_offset ≤ 0) (above : 0 ≤ a.dst_offset) (inside : a.dst_offset + a.bytes ≤ 2^15) :
    a.narrow.pass_narrow m = a.pass m := by
  obtain ⟨src,dst,type⟩ := a
  have here : address Rlocals (displacement (address Rlocals src)) = ⟨Rlocals,src⟩ := by
    simp only [address,displacement,extsh,Address.mk.injEq,true_and]
    dsimp only at low high
    omega
  have size := wordSize_pos
  have few := wordSize_le
  have next : address Rlocals (displacement (address Rlocals src) + wordSize) = ⟨Rlocals,src + wordSize⟩ := by
    simp only [address,displacement,extsh,Address.mk.injEq,true_and]
    dsimp only at low high
    omega
  have positive := bytes_pos ⟨src,dst,type⟩
  dsimp only at low high above inside
  have there : address r1 dst = ⟨r1,dst⟩ := address_small (by omega) (by omega)
  have after : dst + wordSize < 2^15 → address r1 (dst + wordSize) = ⟨r1,dst + wordSize⟩ := address_small (by omega)
  cases type with
  | long =>
    cases cpu : Target.cpu with
    | ppc32 =>
      simp only [StackArgument.bytes,cpu] at inside
      have size := wordSize_ppc32 cpu
      simp only [StackArgument.pass_narrow,StackArgument.narrow,StackArgument.pass,cpu,here,next,there,after (by omega)]
    | ppc64 => simp only [StackArgument.pass_narrow,StackArgument.narrow,StackArgument.pass,cpu,here,there]
  | int => simp only [StackArgument.pass_narrow,StackArgument.narrow,StackArgument.pass,here,there]
  | float =>
    cases cpu : Target.cpu with
    | ppc32 => simp only [StackArgument.pass_narrow,StackArgument.narrow,StackArgument.pass,cpu,here,there]
    | ppc64 =>
      simp only [StackArgument.bytes,cpu] at inside
      simp only [StackArgument.pass_narrow,StackArgument.narrow,StackArgument.pass,cpu,here,after (by omega)]
  | double => simp only [StackArgument.pass_narrow,StackArgument.narrow,StackArgument.pass,here,there]
  | object => simp only [StackArgument.pass_narrow,StackArgument.narrow,StackArgument.pass,here,there]

theorem load_constant_eq (dst : Register) (value : Int) (m : Machine) :
    load_constant dst value m = m.set dst ((MacroAssembler.load value).foldl MacroAssembler.Immediate.apply (m.gpr dst)) := by
  unfold load_constant Machine.set
  congr 1
  funext r
  by_cases same : r = dst
  · rw [same,MacroAssembler.run_dst,Function.update_self]
  · rw [MacroAssembler.run_others _ _ _ same,Function.update_of_ne same]

theorem load_constant_small (dst : Register) (low : 0 ≤ value) (high : value < 2^15) (m : Machine) :
    load_constant dst value m = m.set dst value := by
  rw [load_constant_eq]
  cases cpu : Target.cpu with
  | ppc32 =>
    have long : MacroAssembler.Long value := by
      simp only [MacroAssembler.Long,Assembler.register_bits,cpu]
      omega
    rw [(MacroAssembler.load_ppc32 cpu value (m.gpr dst) long).mpr]
    simp only [MacroAssembler.SignTaken,cpu]
    omega
  | ppc64 =>
    have long : MacroAssembler.Long value := by
      simp only [MacroAssembler.Long,Assembler.register_bits,cpu]
      omega
    rw [(MacroAssembler.load_ppc64 cpu value (m.gpr dst) long).mpr]
    simp only [MacroAssembler.SignTaken,cpu]
    omega

end

variable [Vm]

def passStack_narrow (p : Passed) (m : Machine) : Machine :=
  if min_params < p.next.st_arg then
    let m := load_constant r11 (p.next.st_arg*wordSize) m
    let m := maybe_extend_frame r11 r12 (available m)
    (p.st_args.map StackArgument.narrow).foldl StackArgument.pass_narrow m
  else m

-- SignatureHandlerGenerator::generate with its displacements and constants as
-- the assembler encodes them.
def generate_narrow (is_static : Bool) (signature : List NativeType) (result_handler : Int) (m : Machine) : Machine :=
  let p := iterate (Counters.start is_static) 0 (parameters is_static signature)
  load_constant r0 result_handler (passStack_narrow p ((p.code.map Emitted.narrow).foldl Emitted.run m))

theorem code_narrow (is_static : Bool) (signature : List NativeType) (within : InReach is_static signature) :
    let p := iterate (Counters.start is_static) 0 (parameters is_static signature)
    p.code.map Emitted.narrow = p.code := by
  have listed := iterate_listed (ready_start is_static) 0 (parameters is_static signature)
  refine (List.map_congr_left fun e member => ?_).trans (List.map_id _)
  obtain ⟨⟨k,_,inside,src⟩,_⟩ := listed.code e member
  have locals := within.locals
  exact emitted_narrow e src (by omega)

theorem passStack_narrow_eq (is_static : Bool) (signature : List NativeType) (within : InReach is_static signature) (m : Machine) :
    let p := iterate (Counters.start is_static) 0 (parameters is_static signature)
    passStack_narrow p m = passStack p m := by
  have listed := iterate_listed (ready_start is_static) 0 (parameters is_static signature)
  have locals := within.locals
  have words := within.words
  have pos := wordSize_pos
  dsimp only
  generalize iterate (Counters.start is_static) 0 (parameters is_static signature) = p at listed words
  have link : 0 < link_area_words := by unfold link_area_words; split <;> decide
  -- the words with the one that a float on the large processor may need
  have bytes : ∀ a : StackArgument, ((link_area_words + p.next.st_arg : Nat) : Int)*wordSize + a.spill ≤ 2^15 := fun a => by
    have most := Int.mul_le_mul_of_nonneg_right (Int.ofNat_le.mpr words) (Int.le_of_lt pos)
    rw [reach_bytes] at most
    unfold StackArgument.spill
    cases cpu : Target.cpu with
    | ppc32 =>
      simp only [cpu,Nat.add_zero] at most ⊢
      omega
    | ppc64 =>
      simp only [cpu,wordSize_ppc64 cpu] at most ⊢
      push_cast at most ⊢
      split <;> omega
  have first := Int.mul_nonneg (Int.natCast_nonneg p.next.st_arg) (Int.le_of_lt pos)
  have frame : (p.next.st_arg : Int)*wordSize < 2^15 := by
    have most := bytes ⟨0,0,.int⟩
    have own := Int.mul_le_mul_of_nonneg_right (show (1 : Int) ≤ link_area_words by omega) (Int.le_of_lt pos)
    have none : StackArgument.spill ⟨0,0,.int⟩ = 0 := by unfold StackArgument.spill; split <;> simp_all
    push_cast at most
    rw [none,Int.add_mul] at most
    omega
  unfold passStack_narrow passStack
  have constant : load_constant r11 (p.next.st_arg*wordSize) m = exec [.loadImm r11 (p.next.st_arg*wordSize)] m :=
    load_constant_small r11 first frame m
  rw [constant,List.foldl_map]
  congr 1
  refine List.foldl_ext _ _ _ fun m a member => ?_
  obtain ⟨low,high,k,_,inside,src⟩ := listed.stack a member
  have small := local_small (show k ≤ reach by omega)
  rw [← src] at small
  have start := Int.mul_nonneg (Int.natCast_nonneg (link_area_words + (Counters.start is_static).st_arg)) (Int.le_of_lt pos)
  exact pass_narrow_eq a m small.1 small.2 (Int.le_trans start low) (Int.le_trans high (bytes a))

-- Within reach the narrow displacements make no difference.
theorem generate_narrow_eq (is_static : Bool) (signature : List NativeType) (within : InReach is_static signature)
    (result_handler : Int) (m : Machine) :
    ∃ loaded, generate_narrow is_static signature result_handler m = generate is_static signature loaded m := by
  unfold generate_narrow
  dsimp only
  rw [code_narrow is_static signature within,passStack_narrow_eq is_static signature within,load_constant_eq]
  exact ⟨_,rfl⟩

end IcedTea.InterpreterRuntime

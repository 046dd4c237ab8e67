import IcedTea.MacroAssembler
import IcedTea.Writes

namespace IcedTea.InterpreterRuntime
open StackFrame (link_area_words min_params)
open Vm

-- The kinds of parameter a native signature iterator tells apart.
inductive NativeType where
  | int | long | float | double | object
  deriving DecidableEq, Repr

namespace NativeType
def words : NativeType → Nat
  | long | double => 2
  | _ => 1
def floating : NativeType → Bool
  | float | double => true
  | _ => false
end NativeType

-- The receiver is passed first; a static method has none.
def parameters (is_static : Bool) (signature : List NativeType) : List NativeType :=
  if is_static then signature else .object :: signature

def parameterWords (params : List NativeType) : Nat := (params.map NativeType.words).sum

section
variable [Target]

def local_offset_in_bytes (n : Nat) : Int := -(n*wordSize)
def localAddress (n : Nat) : Address := ⟨Rlocals,local_offset_in_bytes n⟩

-- An object is passed by the address of its local, or as null.
def handle (dst : Register) (src : Address) (m : Machine) : Machine :=
  let m := exec [.load dst src,.compareImm cr0 dst 0] m
  if (m.cr cr0).eq then m else exec [.la dst src] m

-- What the generator emits for a register argument.
inductive Emitted where
  | lwa (dst : Register) (src : Address)
  | lwz (dst : Register) (src : Address)
  | load (dst : Register) (src : Address)
  | lfs (dst : FloatRegister) (src : Address)
  | lfd (dst : FloatRegister) (src : Address)
  | handle (dst : Register) (src : Address)

def Emitted.run (m : Machine) : Emitted → Machine
  | lwa dst src => step m (.lwa dst src)
  | lwz dst src => step m (.lwz dst src)
  | load dst src => step m (.load dst src)
  | lfs dst src => step m (.lfs dst src)
  | lfd dst src => step m (.lfd dst src)
  | handle dst src => InterpreterRuntime.handle dst src m

structure StackArgument where
  src_offset : Int
  dst_offset : Int
  type : NativeType
  deriving DecidableEq, Repr

def StackArgument.pass (m : Machine) (a : StackArgument) : Machine :=
  let src : Address := ⟨Rlocals,a.src_offset⟩
  let dst : Address := ⟨r1,a.dst_offset⟩
  match a.type with
  | .int => exec [.lwa r0 src,.store r0 dst] m
  | .long =>
    match Target.cpu with
    | .ppc32 =>
      exec [.lwz r0 src,.stw r0 dst,
        .lwz r0 ⟨Rlocals,a.src_offset + wordSize⟩,.stw r0 ⟨r1,a.dst_offset + wordSize⟩] m
    | .ppc64 => exec [.load r0 src,.store r0 dst] m
  | .float =>
    match Target.cpu with
    | .ppc32 => exec [.lfs f0 src,.stfd f0 dst] m
    | .ppc64 => exec [.lwz r0 src,.stw r0 ⟨r1,a.dst_offset + wordSize⟩] m
  | .double => exec [.lfd f0 src,.stfd f0 dst] m
  | .object => exec [.store r0 dst] (handle r0 src m)

def gp_reg_start : Nat := 4
def gp_reg_max : Nat := 10
def fp_reg_start : Nat := 1
def fp_reg_max : Nat := match Target.cpu with | .ppc32 => 8 | .ppc64 => 13

structure Counters where
  gp_reg : Nat
  fp_reg : Nat
  st_arg : Nat
  deriving DecidableEq, Repr

def Counters.start (is_static : Bool) : Counters where
  gp_reg := if is_static then gp_reg_start + 1 else gp_reg_start
  fp_reg := fp_reg_start
  st_arg := match Target.cpu with | .ppc32 => 0 | .ppc64 => if is_static then 2 else 1

-- What passing one or more parameters adds to the code and to `_st_args`.
structure Passed where
  code : List Emitted
  st_args : List StackArgument
  next : Counters

-- On the large processor a register argument has its word in the parameter list.
def Counters.shadow (c : Counters) : Counters :=
  match Target.cpu with | .ppc32 => c | .ppc64 => {c with st_arg := c.st_arg+1}

def pass_on_stack (c : Counters) (src : Address) (type : NativeType) : Passed :=
  let wide_ : Bool := match Target.cpu with
    | .ppc32 => type = .long || type = .float || type = .double
    | .ppc64 => false
  let st_arg := if wide_ && c.st_arg % 2 = 1 then c.st_arg+1 else c.st_arg
  ⟨[],[⟨src.displacement,((link_area_words + st_arg : Nat) : Int)*wordSize,type⟩],
    {c with st_arg := if wide_ then st_arg+2 else st_arg+1}⟩

def pass_int (c : Counters) (offset : Nat) : Passed :=
  let src := localAddress offset
  if c.gp_reg ≤ gp_reg_max then ⟨[.lwa c.gp_reg src],[],{c.shadow with gp_reg := c.gp_reg+1}⟩
  else pass_on_stack c src .int

def pass_long (c : Counters) (offset : Nat) : Passed :=
  match Target.cpu with
  | .ppc32 =>
    let srch := localAddress offset
    let srcl := localAddress (offset+1)
    if c.gp_reg < gp_reg_max then
      let gp_reg := if c.gp_reg % 2 = 0 then c.gp_reg+1 else c.gp_reg
      ⟨[.lwz gp_reg srcl,.lwz (gp_reg+1) srch],[],{c with gp_reg := gp_reg+2}⟩
    else pass_on_stack c srcl .long
  | .ppc64 =>
    let src := localAddress (offset+1)
    if c.gp_reg ≤ gp_reg_max then ⟨[.load c.gp_reg src],[],{c.shadow with gp_reg := c.gp_reg+1}⟩
    else pass_on_stack c src .long

def pass_float (c : Counters) (offset : Nat) : Passed :=
  let src := localAddress offset
  if c.fp_reg ≤ fp_reg_max then ⟨[.lfs c.fp_reg src],[],{c.shadow with fp_reg := c.fp_reg+1}⟩
  else pass_on_stack c src .float

def pass_double (c : Counters) (offset : Nat) : Passed :=
  let src := localAddress (offset+1)
  if c.fp_reg ≤ fp_reg_max then ⟨[.lfd c.fp_reg src],[],{c.shadow with fp_reg := c.fp_reg+1}⟩
  else pass_on_stack c src .double

def pass_object (c : Counters) (offset : Nat) : Passed :=
  let src := localAddress offset
  if c.gp_reg ≤ gp_reg_max then ⟨[.handle c.gp_reg src],[],{c.shadow with gp_reg := c.gp_reg+1}⟩
  else pass_on_stack c src .object

def pass (c : Counters) (offset : Nat) : NativeType → Passed
  | .int => pass_int c offset
  | .long => pass_long c offset
  | .float => pass_float c offset
  | .double => pass_double c offset
  | .object => pass_object c offset

-- The iterator calls pass_* once for each parameter with the index of its first word.
def iterate (c : Counters) (offset : Nat) : List NativeType → Passed
  | [] => ⟨[],[],c⟩
  | t :: rest =>
    let first := pass c offset t
    let later := iterate first.next (offset + t.words) rest
    ⟨first.code ++ later.code,first.st_args ++ later.st_args,later.next⟩
end

variable [Vm]

def passRegisters (p : Passed) (m : Machine) : Machine := p.code.foldl Emitted.run m

-- Room for the parameter list: everything between the link area and the
-- expression stack of the native frame, which is empty.
def available (m : Machine) : Machine :=
  exec [.load r12 (STATE .stack_limit),
    .addi r12 r12 ((1 - (link_area_words : Int))*wordSize),
    .sub r12 r12 r1] m

def passStack (p : Passed) (m : Machine) : Machine :=
  if min_params < p.next.st_arg then
    let m := exec [.loadImm r11 (p.next.st_arg*wordSize)] m
    let m := maybe_extend_frame r11 r12 (available m)
    p.st_args.foldl StackArgument.pass m
  else m

-- The code SignatureHandlerGenerator::generate writes for a method.
def generate (is_static : Bool) (signature : List NativeType) (result_handler : Int) (m : Machine) : Machine :=
  let p := iterate (Counters.start is_static) 0 (parameters is_static signature)
  exec [.loadImm r0 result_handler] (passStack p (passRegisters p m))

end IcedTea.InterpreterRuntime

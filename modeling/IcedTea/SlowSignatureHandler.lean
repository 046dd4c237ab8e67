import Mathlib
import IcedTea.SignatureHandlerEffect
import IcedTea.InterpreterState

namespace IcedTea.InterpreterRuntime
open StackFrame (link_area_words)
open CppInterpreter (LogBytesPerWord shift_words)
open Vm

section
variable [Target]

-- The pointers of a SlowSignatureHandler, the memory it works on, and what it has
-- stored to the register images and to the stack arguments.
structure SlowSignatureHandler where
  from_ : Int
  gp_regs : Int
  st_args : Int
  gp_reg_max : Int
  mem : Cells
  images : List Range
  stacked : List Range

-- The first register image. The size formula is the generator's.
def register_images (size to_ : Int) : Int :=
  match Target.cpu with
  | .ppc32 => to_ + (size-3)*3*wordSize
  | .ppc64 => to_ + (size+2)*wordSize

namespace SlowSignatureHandler

def start (size : Int) (is_static : Bool) (from_ to_ : Int) (mem : Cells) : SlowSignatureHandler :=
  let gp_regs := register_images size to_
  { from_ := from_
    gp_regs := if is_static then gp_regs + wordSize else gp_regs
    st_args := match Target.cpu with | .ppc32 => to_ | .ppc64 => to_ + (if is_static then 2 else 1)*wordSize
    gp_reg_max := gp_regs + (InterpreterRuntime.gp_reg_max - InterpreterRuntime.gp_reg_start : Nat)*wordSize
    mem := mem
    images := []
    stacked := [] }

def local_ (h : SlowSignatureHandler) (n : Nat) : Int := h.from_ + local_offset_in_bytes n

-- *_gp_regs++ and *_st_args++, for what was stored there.
def put_gp (h : SlowSignatureHandler) (bytes : Int) (mem : Cells) : SlowSignatureHandler :=
  {h with mem := mem, images := h.images ++ [(h.gp_regs,bytes)], gp_regs := h.gp_regs + wordSize}
def put_st (h : SlowSignatureHandler) (bytes : Int) (mem : Cells) : SlowSignatureHandler :=
  {h with mem := mem, stacked := h.stacked ++ [(h.st_args,bytes)], st_args := h.st_args + wordSize}
def put_gp_word (h : SlowSignatureHandler) (v : Int) : SlowSignatureHandler :=
  h.put_gp wordSize (h.mem.putWord wide h.gp_regs v)
def put_st_word (h : SlowSignatureHandler) (v : Int) : SlowSignatureHandler :=
  h.put_st wordSize (h.mem.putWord wide h.st_args v)

def shadow (h : SlowSignatureHandler) : SlowSignatureHandler :=
  match Target.cpu with | .ppc32 => h | .ppc64 => {h with st_args := h.st_args + wordSize}

-- A jint is stored as one, in the half of the word that comes first.
def pass_int (h : SlowSignatureHandler) (offset : Nat) : SlowSignatureHandler :=
  let src := intValue h.mem (h.local_ offset)
  if h.gp_regs ≤ h.gp_reg_max then (h.put_gp 4 (h.mem.put h.gp_regs src)).shadow
  else h.put_st 4 (h.mem.put h.st_args src)

def pass_long (h : SlowSignatureHandler) (offset : Nat) : SlowSignatureHandler :=
  match Target.cpu with
  | .ppc32 =>
    let srch := h.mem.word wide (h.local_ offset)
    let srcl := h.mem.word wide (h.local_ (offset+1))
    if h.gp_regs < h.gp_reg_max then
      let h := if (h.gp_reg_max - h.gp_regs) / wordSize % 2 = 0 then {h with gp_regs := h.gp_regs + wordSize} else h
      (h.put_gp_word srcl).put_gp_word srch
    else (h.put_st_word srcl).put_st_word srch
  | .ppc64 =>
    let src := h.mem.word wide (h.local_ (offset+1))
    if h.gp_regs ≤ h.gp_reg_max then (h.put_gp_word src).shadow else h.put_st_word src

def pass_object (h : SlowSignatureHandler) (offset : Nat) : SlowSignatureHandler :=
  let src := objectValue h.mem (h.local_ offset)
  if h.gp_regs ≤ h.gp_reg_max then (h.put_gp_word src).shadow else h.put_st_word src

-- pass_float and pass_double are unimplemented.
def pass (h : SlowSignatureHandler) (offset : Nat) : NativeType → Option SlowSignatureHandler
  | .int => some (h.pass_int offset)
  | .long => some (h.pass_long offset)
  | .object => some (h.pass_object offset)
  | .float | .double => none

def iterate (h : SlowSignatureHandler) (offset : Nat) : List NativeType → Option SlowSignatureHandler
  | [] => some h
  | t :: rest => (h.pass offset t).bind fun h => h.iterate (offset + t.words) rest

end SlowSignatureHandler

-- InterpreterRuntime::slow_signature_handler, from the method its size, whether it
-- is static and its parameters.
def slow_signature_handler (size : Int) (is_static : Bool) (signature : List NativeType) (from_ to_ : Int) (mem : Cells) :
    Option SlowSignatureHandler :=
  (SlowSignatureHandler.start size is_static from_ to_ mem).iterate 0 (parameters is_static signature)

def gp_image_bytes : Int := ((gp_reg_max + 1 - gp_reg_start : Nat) : Int)*wordSize
def image_bytes : Int := gp_image_bytes + ((fp_reg_max + 1 - fp_reg_start : Nat) : Int)*8

-- generate_slow_signature_handler by its comments.
def words_of_parameters : List Instr :=
  match Target.cpu with
  | .ppc32 => [.subi r11 r11 3,.shift_left r0 r11 1,.add r11 r11 r0]
  | .ppc64 => [.addi r11 r11 2]
end

variable [Vm]

def parameter_list_space : List Instr :=
  [.lhz r11 ⟨Rmethod,size_of_parameters_offset⟩] ++ words_of_parameters ++
    [.shift_left r11 r11 LogBytesPerWord,.mr r14 r11,.addi r11 r11 image_bytes]

def extend_for_call (m : Machine) : Machine :=
  exec [.la r6 ⟨r1,(link_area_words : Int)*wordSize⟩] (maybe_extend_frame r11 r12 (available (exec parameter_list_space m)))

def find_register_images : List Instr := [.addi r11 r1 ((link_area_words : Int)*wordSize),.add r11 r11 r14]

def load_register_images : List Instr :=
  ((List.range' gp_reg_start (gp_reg_max + 1 - gp_reg_start)).mapIdx fun i r => .load r ⟨r11,i*wordSize⟩) ++
  ((List.range' fp_reg_start (fp_reg_max + 1 - fp_reg_start)).mapIdx fun i f => .lfd f ⟨r11,gp_image_bytes + i*8⟩)

end IcedTea.InterpreterRuntime

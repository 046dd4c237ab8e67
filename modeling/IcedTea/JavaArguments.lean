import IcedTea.CallStubFrame

namespace IcedTea

section
variable [Target]

-- The functions of JNITypes that write an argument at a position of the array
-- and return the next position. The halves of a long are high half first.
namespace JNITypes

def half (v : BitVec 64) (i : Nat) : Int := if i = 0 then v.toInt / 2^32 else v.toInt % 2^32

def put_int (v : BitVec 32) (to_ : Int) (pos : Nat) (m : Cells) : Cells × Nat := (m.put (to_ + pos*wordSize) v.toInt,pos+1)
def put_obj (v : Int) (to_ : Int) (pos : Nat) (m : Cells) : Cells × Nat := (m.putWord wide (to_ + pos*wordSize) v,pos+1)
def put_float (v : BitVec 32) (to_ : Int) (pos : Nat) (m : Cells) : Cells × Nat := (m.put (to_ + pos*wordSize) v.toInt,pos+1)

def put_int2r (v : BitVec 64) (to_ : Int) (pos : Nat) (m : Cells) : Cells × Nat :=
  let to_ := to_ + pos*wordSize
  ((m.put to_ (half v 1)).put (to_+4) (half v 0),pos+2)

def put_long (v : BitVec 64) (to_ : Int) (pos : Nat) (m : Cells) : Cells × Nat :=
  match Target.cpu with
  | .ppc32 => put_int2r v to_ pos m
  | .ppc64 => (m.putWord true (to_ + ((1+pos : Nat) : Int)*wordSize) v.toInt,pos+2)
def put_double (v : BitVec 64) (to_ : Int) (pos : Nat) (m : Cells) : Cells × Nat :=
  match Target.cpu with
  | .ppc32 => put_int2r v to_ pos m
  | .ppc64 => (m.putWord true (to_ + ((1+pos : Nat) : Int)*wordSize) v.toInt,pos+2)

end JNITypes

-- The interpreter's macros, on the locals at an address.
namespace BytecodeInterpreter
def LOCALS_INT (m : Cells) (locals offset : Int) : BitVec 32 := BitVec.ofInt 32 (m (locals - offset*wordSize))
def LOCALS_FLOAT (m : Cells) (locals offset : Int) : BitVec 32 := BitVec.ofInt 32 (m (locals - offset*wordSize))
def LOCALS_OBJECT (m : Cells) (locals offset : Int) : Int := m.word wide (locals - offset*wordSize)
def LOCALS_DOUBLE (m : Cells) (locals offset : Int) : BitVec 64 := BitVec.ofInt 64 (m.word true (locals - (offset+1)*wordSize))
def LOCALS_LONG (m : Cells) (locals offset : Int) : BitVec 64 := BitVec.ofInt 64 (m.word true (locals - (offset+1)*wordSize))
end BytecodeInterpreter
open JNITypes BytecodeInterpreter

-- A Java argument; floats and doubles are bit patterns.
inductive Argument where
  | int (v : BitVec 32) | long (v : BitVec 64) | obj (v : Int) | float (v : BitVec 32) | double (v : BitVec 64)
  deriving DecidableEq, Repr

namespace Argument

def put (to_ : Int) (pos : Nat) (m : Cells) : Argument → Cells × Nat
  | int v => put_int v to_ pos m
  | long v => put_long v to_ pos m
  | obj v => put_obj v to_ pos m
  | float v => put_float v to_ pos m
  | double v => put_double v to_ pos m

def putAll (to_ : Int) : List Argument → Nat → Cells → Cells
  | [],_,m => m
  | a :: rest,pos,m =>
    let (m,pos) := a.put to_ pos m
    putAll to_ rest pos m

omit [Target] in
def words : Argument → Nat
  | long _ | double _ => 2
  | _ => 1

def Local (m : Cells) (locals : Int) (n : Nat) : Argument → Prop
  | int v => LOCALS_INT m locals n = v
  | long v => LOCALS_LONG m locals n = v
  | obj v => LOCALS_OBJECT m locals n = v
  | float v => LOCALS_FLOAT m locals n = v
  | double v => LOCALS_DOUBLE m locals n = v

def count (l : List Argument) : Nat := (l.map words).sum

-- The argument in the array, cell by cell: a long has its words reversed.
def Stored (m : Cells) (to_ : Int) (n : Nat) : Argument → Prop
  | int v | float v => m (to_ + n*wordSize) = v.toInt
  | obj v => m.word wide (to_ + n*wordSize) = v
  | long v | double v => match Target.cpu with
    | .ppc32 => m (to_ + n*wordSize) = half v 1 ∧ m (to_ + ((n+1 : Nat) : Int)*wordSize) = half v 0
    | .ppc64 => m.word true (to_ + ((n+1 : Nat) : Int)*wordSize) = v.toInt

theorem wide_ppc64 (cpu : Target.cpu = .ppc64) : wide = true := by simp [wide,cpu]

theorem pair_stored (v : BitVec 64) (to_ : Int) (n : Nat) (m : Cells) : let after := put_long v to_ n m
    (match Target.cpu with
      | .ppc32 => after.1 (to_ + n*wordSize) = half v 1 ∧ after.1 (to_ + ((n+1 : Nat) : Int)*wordSize) = half v 0
      | .ppc64 => after.1.word true (to_ + ((n+1 : Nat) : Int)*wordSize) = v.toInt) ∧ after.2 = n+2 ∧
    Cells.SameOutside (to_ + n*wordSize) (to_ + n*wordSize + 2*wordSize) m after.1 := by
  have next : to_ + ((n+1 : Nat) : Int)*wordSize = to_ + n*wordSize + wordSize := by push_cast; ring
  unfold put_long
  cases cpu : Target.cpu with
  | ppc32 =>
    have size := wordSize_ppc32 cpu
    dsimp only [put_int2r]
    rw [next,size]
    have apart : to_ + (n : Int)*4 ≠ to_ + n*4 + 4 := by omega
    refine ⟨⟨?_,Cells.put_same _ _ _⟩,rfl,fun b outside => ?_⟩
    · rw [Cells.put_other _ _ apart,Cells.put_same]
    · rw [Cells.put_other _ _ (by omega),Cells.put_other _ _ (by omega)]
  | ppc64 =>
    have size := wordSize_ppc64 cpu
    have place : 1+n = n+1 := Nat.add_comm 1 n
    dsimp only
    rw [place,next]
    refine ⟨Cells.word_putWord _ _ _,rfl,fun b outside => Cells.putWord_outside _ _ ?_⟩
    rw [size] at outside ⊢
    change _ ∨ _ + 8 ≤ _
    omega

theorem put_stored (a : Argument) (to_ : Int) (n : Nat) (m : Cells) : let after := a.put to_ n m
    a.Stored after.1 to_ n ∧ after.2 = n + a.words ∧
      Cells.SameOutside (to_ + n*wordSize) (to_ + n*wordSize + a.words*wordSize) m after.1 := by
  have pos := wordSize_pos
  have small : 4 ≤ wordSize := by unfold wordSize Cells.width; split <;> decide
  have one : ((1 : Nat) : Int)*wordSize = wordSize := by simp
  have cell : ∀ v, Cells.SameOutside (to_ + n*wordSize) (to_ + n*wordSize + wordSize) m (m.put (to_ + n*wordSize) v) :=
    fun v b outside => Cells.put_other _ _ (by omega)
  cases a with
  | int v => exact ⟨Cells.put_same _ _ _,rfl,by simp only [words,one]; exact cell _⟩
  | float v => exact ⟨Cells.put_same _ _ _,rfl,by simp only [words,one]; exact cell _⟩
  | obj v =>
    refine ⟨Cells.word_putWord _ _ _,rfl,?_⟩
    simp only [words,one]
    exact Cells.SameOutside.putWord _ _ (Int.le_refl _) (Int.le_refl _)
  | long v => exact pair_stored v to_ n m
  | double v => exact pair_stored v to_ n m

theorem stored_same (stored : Stored m to_ n a) (same : Cells.SameOutside low high m m')
    (below : to_ + n*wordSize + (a.words : Int)*wordSize ≤ low) : Stored m' to_ n a := by
  have pos := wordSize_pos
  have next : to_ + ((n+1 : Nat) : Int)*wordSize = to_ + n*wordSize + wordSize := by push_cast; ring
  have pair : ∀ v : BitVec 64, to_ + n*wordSize + 2*wordSize ≤ low → (match Target.cpu with
      | .ppc32 => m (to_ + n*wordSize) = half v 1 ∧ m (to_ + ((n+1 : Nat) : Int)*wordSize) = half v 0
      | .ppc64 => m.word true (to_ + ((n+1 : Nat) : Int)*wordSize) = v.toInt) → (match Target.cpu with
      | .ppc32 => m' (to_ + n*wordSize) = half v 1 ∧ m' (to_ + ((n+1 : Nat) : Int)*wordSize) = half v 0
      | .ppc64 => m'.word true (to_ + ((n+1 : Nat) : Int)*wordSize) = v.toInt) := by
    intro v room held
    rw [next] at held ⊢
    cases cpu : Target.cpu with
    | ppc32 =>
      simp only [cpu] at held ⊢
      rw [same _ (.inl (by omega)),same _ (.inl (by omega))]
      exact held
    | ppc64 =>
      have size := wordSize_ppc64 cpu
      simp only [cpu] at held ⊢
      rw [same.word (.inl (show to_ + n*wordSize + wordSize + 8 ≤ _ by omega))]
      exact held
  cases a with
  | int v => exact (same _ (.inl (by simp [words] at below; omega))).trans stored
  | float v => exact (same _ (.inl (by simp [words] at below; omega))).trans stored
  | obj v => exact (same.word (.inl (show _ + wordSize ≤ _ by simp [words] at below; omega))).trans stored
  | long v => exact pair v below stored
  | double v => exact pair v below stored

-- Later arguments are written above, so each argument stays as written.
theorem putAll_stored (l : List Argument) (to_ : Int) (pos : Nat) (m : Cells) :
    (∀ before a after, l = before ++ a :: after → a.Stored (putAll to_ l pos m) to_ (pos + count before)) ∧
      Cells.SameOutside (to_ + pos*wordSize) (to_ + pos*wordSize + count l * wordSize) m (putAll to_ l pos m) := by
  have width := wordSize_pos
  induction l generalizing pos m with
  | nil => exact ⟨fun before a after split => by simp at split,Cells.SameOutside.refl _ _ _⟩
  | cons b rest ih =>
    obtain ⟨stored,next,same⟩ := put_stored b to_ pos m
    obtain ⟨later,outside⟩ := ih (b.put to_ pos m).2 (b.put to_ pos m).1
    have code : putAll to_ (b :: rest) pos m = putAll to_ rest (b.put to_ pos m).2 (b.put to_ pos m).1 := rfl
    rw [code]
    rw [next] at later outside ⊢
    generalize putAll to_ rest (pos + b.words) (b.put to_ pos m).1 = m' at *
    have total : (count (b :: rest) : Int)*wordSize = b.words*wordSize + count rest * wordSize := by
      simp only [count,List.map_cons,List.sum_cons]; push_cast; ring
    have above : ((pos + b.words : Nat) : Int)*wordSize = pos*wordSize + b.words*wordSize := by push_cast; ring
    have up := Int.mul_nonneg (Int.natCast_nonneg (count rest)) (Int.le_of_lt width)
    have up' := Int.mul_nonneg (Int.natCast_nonneg b.words) (Int.le_of_lt width)
    rw [above] at outside
    refine ⟨fun before a after split => ?_,?_⟩
    · cases before with
      | nil =>
        rw [List.nil_append,List.cons.injEq] at split
        rw [← split.1]
        exact stored_same (n := pos) stored outside (by omega)
      | cons c before =>
        rw [List.cons_append,List.cons.injEq] at split
        have place : pos + count (c :: before) = pos + b.words + count before := by
          rw [split.1]; simp only [count,List.map_cons,List.sum_cons]; omega
        rw [place]
        exact later before a after split.2
    · rw [total]
      exact (same.mono (Int.le_refl _) (by omega)).trans (outside.mono (by omega) (by omega))

-- A word that was copied was copied cell by cell.
theorem copied_cells {m m' : Cells} (word : m'.word wide a' = m.word wide a) :
    m' a' = m a ∧ (wide = true → m' (a'+4) % 2^32 = m (a+4) % 2^32) := by
  unfold Cells.word at word
  split at word <;> rename_i width
  · omega
  · exact ⟨word,fun other => absurd other width⟩

-- Words of the array taken downwards from the locals are the argument's locals.
theorem local_of_stored {m m' : Cells} (stored : Stored m to_ n a)
    (copied : ∀ i : Nat, n ≤ i → i < n + a.words → m'.word wide (locals - i*wordSize) = m.word wide (to_ + i*wordSize)) :
    a.Local m' locals n := by
  have pair : ∀ v : BitVec 64, (∀ i : Nat, n ≤ i → i < n + 2 → m'.word wide (locals - i*wordSize) = m.word wide (to_ + i*wordSize)) →
      (match Target.cpu with
        | .ppc32 => m (to_ + n*wordSize) = half v 1 ∧ m (to_ + ((n+1 : Nat) : Int)*wordSize) = half v 0
        | .ppc64 => m.word true (to_ + ((n+1 : Nat) : Int)*wordSize) = v.toInt) →
      m'.word true (locals - ((n : Int)+1)*wordSize) = v.toInt := by
    intro v copied held
    have first := copied n (Nat.le_refl n) (by omega)
    have second := copied (n+1) (by omega) (by omega)
    have place : locals - ((n+1 : Nat) : Int)*wordSize = locals - ((n : Int)+1)*wordSize := by push_cast; ring
    cases cpu : Target.cpu with
    | ppc32 =>
      simp only [cpu] at held
      have low := (copied_cells first).1
      have high := (copied_cells second).1
      have size := wordSize_ppc32 cpu
      have next : locals - ((n : Int)+1)*wordSize + 4 = locals - n*wordSize := by rw [size]; ring
      rw [held.1] at low
      rw [held.2,place] at high
      simp only [Cells.word,if_true,next,high,low,half]
      simp only [Nat.succ_ne_zero,if_false,Int.emod_emod_of_dvd _ (dvd_refl _)]
      exact Int.ediv_mul_add_emod v.toInt (2^32)
    | ppc64 =>
      simp only [cpu] at held
      rw [wide_ppc64 cpu,held,place] at second
      exact second
  cases a with
  | int v =>
    have cell := (copied_cells (copied n (Nat.le_refl n) (Nat.lt_succ_self n))).1
    rw [show m (to_ + n*wordSize) = v.toInt from stored] at cell
    simp only [Local,LOCALS_INT,cell,BitVec.ofInt_toInt]
  | float v =>
    have cell := (copied_cells (copied n (Nat.le_refl n) (Nat.lt_succ_self n))).1
    rw [show m (to_ + n*wordSize) = v.toInt from stored] at cell
    simp only [Local,LOCALS_FLOAT,cell,BitVec.ofInt_toInt]
  | obj v => exact (copied n (Nat.le_refl n) (Nat.lt_succ_self n)).trans stored
  | long v => simp only [Local,LOCALS_LONG,pair v copied stored,BitVec.ofInt_toInt]
  | double v => simp only [Local,LOCALS_DOUBLE,pair v copied stored,BitVec.ofInt_toInt]

end Argument

namespace StubGenerator

theorem save_caller_bytes (m : Machine) : (exec save_caller m).gpr r9 = m.gpr r9 * wordSize := by
  obtain ⟨bytes,_⟩ := calculate_frame_size_spec m
  simp only [save_caller,store_registers,exec_append]
  generalize exec calculate_frame_size m = m₁ at *
  have kept₂ : (exec create_frame m₁).gpr r9 = m₁.gpr r9 := (exec_keeps _ m₁).gpr r9 (by
    cases cpu : Target.cpu <;> simp [create_frame,cpu,written,Instr.written])
  have kept₃ := (calculate_locals_spec (exec create_frame m₁)).2.2.gpr r9 (by simp)
  have kept₄ := (save_slots_spec slots initial_offset (exec calculate_locals (exec create_frame m₁)) real_slots).2.2.gpr r9 (by simp)
  rw [kept₄,kept₃,kept₂,bytes]

end StubGenerator
end

namespace StubGenerator
open StackFrame (lr_save_offset)
variable [StubRoutines]

-- Arguments written to an array outside the stub's frame are the locals of
-- the method the stub calls.
theorem arguments_are_locals (m : Machine) (l : List Argument) (parameter_words : m.gpr r9 = Argument.count l)
    (fits : Argument.count l ≤ 2^(8*wordSize).toNat)
    (apart : let m' := call_stub_call {m with mem := Argument.putAll (m.gpr r8) l 0 m.mem}
      m.gpr r8 + Argument.count l * wordSize ≤ m'.gpr r1 ∨ m.gpr r1 + (lr_save_offset+1)*wordSize ≤ m.gpr r8) :
    let m₁ := {m with mem := Argument.putAll (m.gpr r8) l 0 m.mem}
    let m' := call_stub_call m₁
    (∀ before a after, l = before ++ a :: after → a.Local m'.mem (m'.gpr Rlocals) (Argument.count before)) ∧
      (exec save_caller m₁).gpr r11 = m'.gpr Rlocals ∧
      Cells.SameOutside (m'.gpr Rlocals - Argument.count l * wordSize + wordSize) (m'.gpr Rlocals + wordSize)
        (exec save_caller m₁).mem (pass_parameters (exec save_caller m₁)).mem := by
  intro m₁ m'
  have framed := call_stub_call_spec m₁ (Argument.count l) parameter_words
  obtain ⟨stored,_⟩ := Argument.putAll_stored l (m.gpr r8) 0 m.mem
  have bytes : (exec save_caller m₁).gpr r9 = Argument.count l * wordSize := by
    rw [save_caller_bytes,show m₁.gpr r9 = _ from parameter_words]
  obtain ⟨_,outside,kept⟩ := pass_parameters_spec (exec save_caller m₁) (Argument.count l) bytes
  have locals : (exec save_caller m₁).gpr r11 = m'.gpr Rlocals := by
    rw [← kept.gpr r11 (by simp)]
    exact (make_call_spec (pass_parameters (exec save_caller m₁))).2.1.symm
  refine ⟨fun before a after split => ?_,locals,by rw [← locals]; exact outside⟩
  have held := stored before a after split
  rw [Nat.zero_add] at held
  refine Argument.local_of_stored held fun i low high => ?_
  have inside : Argument.count before + a.words ≤ Argument.count l := by
    rw [split]
    simp only [Argument.count,List.map_append,List.map_cons,List.sum_append,List.sum_cons]
    omega
  exact framed.parameters fits apart i (by omega)

omit [StubRoutines] in
-- A long between an int and an object.
theorem arguments_are_locals_three : letI := StubRoutines.plain ppc32
    let m : Machine := ⟨fun r => if r = r1 then 4096 else if r = r8 then 8192 else if r = r9 then 4 else 0,fun _ => 0,fun _ => 0,0,0,
      fun _ => 0⟩
    let m' := call_stub_call {m with mem := Argument.putAll (m.gpr r8) [.int 5,.long 0x100000002#64,.obj 24] 0 m.mem}
    BytecodeInterpreter.LOCALS_LONG m'.mem (m'.gpr Rlocals) 1 = 0x100000002#64 := by
  let := StubRoutines.plain ppc32
  intro m m'
  obtain ⟨reads,_⟩ := arguments_are_locals m [.int 5,.long 0x100000002#64,.obj 24] rfl (by decide) (.inr (by decide))
  exact reads [.int 5] (.long 0x100000002#64) [.obj 24] rfl

end StubGenerator
end IcedTea

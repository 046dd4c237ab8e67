import IcedTea.SignatureHandler
import Mathlib.Tactic.Linarith

namespace IcedTea.InterpreterRuntime
open StackFrame (link_area_words min_params)
open Vm Cells

-- What the handler's code leaves in registers and in memory, as a function of
-- the Java locals.
inductive Destination where
  | gpr (r : Register) | fpr (f : FloatRegister)
  deriving DecidableEq, Repr

def content (m : Machine) : Destination → Int
  | .gpr r => m.gpr r
  | .fpr f => m.fpr f

section
variable [Target]

def intValue (m : Cells) (a : Int) : Int := if wide then extsw (m a % 2^32) else m a
def cellValue (m : Cells) (a : Int) : Int := if wide then m a % 2^32 else m a
def objectValue (m : Cells) (a : Int) : Int := if m.word wide a = 0 then 0 else a

-- What a piece of code keeps besides the places it is said to change.
structure Same (m m' : Machine) : Prop where
  cr : ∀ c, c ≠ cr0 → m'.cr c = m.cr c
  lr : m'.lr = m.lr
  ctr : m'.ctr = m.ctr

omit [Target] in
theorem Same.trans (one : Same m m₁) (two : Same m₁ m') : Same m m' :=
  ⟨fun c other => (two.cr c other).trans (one.cr c other),two.lr.trans one.lr,two.ctr.trans one.ctr⟩

theorem handle_spec (dst : Register) (src : Address) (m : Machine) (apart : src.base ≠ dst) :
    let m' := handle dst src m
    (∀ r, m'.gpr r = if r = dst then objectValue m.mem (m.ea src) else m.gpr r) ∧ m'.fpr = m.fpr ∧ m'.mem = m.mem ∧
      Same m m' := by
  have read : (step m (.load dst src)).gpr dst = m.mem.word wide (m.ea src) := by simp [step,Machine.read]
  have test : ((exec [.load dst src,.compareImm cr0 dst 0] m).cr cr0).eq ↔ m.mem.word wide (m.ea src) = 0 := by
    simp [step,Machine.read]
  have field : ∀ c, c ≠ cr0 → (exec [.load dst src,.compareImm cr0 dst 0] m).cr c = m.cr c := by
    intro c other
    simp only [exec_cons,exec_nil,step,Machine.setField_cr,if_neg other,Machine.set_cr]
  unfold handle objectValue
  by_cases null : m.mem.word wide (m.ea src) = 0
  · simp only [if_pos (test.mpr null),if_pos null]
    refine ⟨fun r => ?_,rfl,rfl,⟨field,rfl,rfl⟩⟩
    by_cases same : r = dst <;> simp [step,same,Machine.read,null]
  · simp only [if_neg (mt test.mp null),if_neg null]
    refine ⟨fun r => ?_,rfl,rfl,⟨field,rfl,rfl⟩⟩
    by_cases same : r = dst <;> simp [step,same,Machine.ea,apart]

theorem lwa_value (m : Machine) (a : Int) : (if wide then extsw (m.read32 a) else m.read32 a) = intValue m.mem a := by
  unfold intValue Machine.read32
  split <;> rfl

def Emitted.dst : Emitted → Destination
  | lwa dst _ | lwz dst _ | load dst _ | handle dst _ => .gpr dst
  | lfs dst _ | lfd dst _ => .fpr dst

def Emitted.src : Emitted → Address
  | lwa _ src | lwz _ src | load _ src | lfs _ src | lfd _ src | handle _ src => src

def Emitted.value (m : Cells) (a : Int) : Emitted → Int
  | lwa .. => intValue m a
  | lwz .. => cellValue m a
  | load .. => m.word wide a
  | lfs .. => Target.single_to_double (m a)
  | lfd .. => m.word true a
  | handle .. => objectValue m a

theorem emitted_run (e : Emitted) (m : Machine) (apart : .gpr e.src.base ≠ e.dst) : let m' := e.run m
    (∀ d, content m' d = if d = e.dst then e.value m.mem (m.ea e.src) else content m d) ∧ m'.mem = m.mem ∧ Same m m' := by
  have field : ∀ (dst : Register) (v : Int) (d : Destination),
      content (m.set dst v) d = if d = .gpr dst then v else content m d := by
    intro dst v d
    cases d <;> simp [content]
  have float : ∀ (dst : FloatRegister) (v : Int) (d : Destination),
      content {m with fpr := Function.update m.fpr dst v} d = if d = .fpr dst then v else content m d := by
    intro dst v d
    cases d <;> simp [content,Function.update_apply]
  cases e with
  | lwa dst src =>
    refine ⟨fun d => ?_,rfl,⟨fun _ _ => rfl,rfl,rfl⟩⟩
    show content (m.set dst (if wide then extsw (m.read32 (m.ea src)) else m.read32 (m.ea src))) d = _
    rw [lwa_value]
    exact field dst _ d
  | lwz dst src => exact ⟨field dst _,rfl,⟨fun _ _ => rfl,rfl,rfl⟩⟩
  | load dst src => exact ⟨field dst _,rfl,⟨fun _ _ => rfl,rfl,rfl⟩⟩
  | lfs dst src => exact ⟨float dst _,rfl,⟨fun _ _ => rfl,rfl,rfl⟩⟩
  | lfd dst src => exact ⟨float dst _,rfl,⟨fun _ _ => rfl,rfl,rfl⟩⟩
  | handle dst src =>
    obtain ⟨gpr,fpr,mem,same⟩ := handle_spec dst src m fun clash => apart (by rw [Emitted.src,Emitted.dst,clash])
    refine ⟨fun d => ?_,mem,same⟩
    cases d with
    | gpr r =>
      by_cases other : r = dst
      · subst other; exact (gpr r).trans (by simp [Emitted.dst,Emitted.value,Emitted.src])
      · exact (gpr r).trans (by simp [Emitted.dst,other,content])
    | fpr f => exact (congrFun fpr f).trans (by simp [Emitted.dst,content])

-- The cells a stack argument is stored to, for a frame at `base`.
def StackArgument.cells (base locals : Int) (m : Cells) (a : StackArgument) : List (Int × Int) :=
  let src := locals + a.src_offset
  let dst := base + a.dst_offset
  match a.type with
  | .int => wordCells wide dst (intValue m src)
  | .long =>
    match Target.cpu with
    | .ppc32 => [(dst + wordSize,m (locals + (a.src_offset + wordSize))),(dst,m src)]
    | .ppc64 => wordCells wide dst (m.word wide src)
  | .float =>
    match Target.cpu with
    | .ppc32 => wordCells true dst (Target.single_to_double (m src))
    | .ppc64 => [(dst + wordSize,m src % 2^32)]
  | .double => wordCells true dst (m.word true src)
  | .object => wordCells wide dst (objectValue m src)

-- Only the scratch registers change with memory.
structure Stored (m m' : Machine) : Prop where
  gpr : ∀ r, r ≠ r0 → m'.gpr r = m.gpr r
  fpr : ∀ f, f ≠ f0 → m'.fpr f = m.fpr f
  same : Same m m'

omit [Target] in
theorem Stored.trans (one : Stored m m₁) (two : Stored m₁ m') : Stored m m' :=
  ⟨fun r other => (two.gpr r other).trans (one.gpr r other),fun f other => (two.fpr f other).trans (one.fpr f other),
    one.same.trans two.same⟩

def memory (m : Machine) (a : Int) : Int := m.mem a

-- One load through a scratch register and one store.
omit [Target] in
theorem stored_word (m m' : Machine) (stored : Stored m m') (mem : m'.mem = m.mem.putWord w a v) :
    Stored m m' ∧ Writes memory (fun _ => False) (wordCells w a v) m m' := by
  refine ⟨stored,fun b plain => ?_⟩
  rw [memory,mem]
  exact putWord_writes m.mem a v b plain

theorem pass_stored (a : StackArgument) (m : Machine) (below : m.gpr r1 + a.dst_offset < m.gpr Rlocals + a.src_offset) :
    Stored m (a.pass m) ∧
    Writes memory (fun _ => False) (a.cells (m.gpr r1) (m.gpr Rlocals) m.mem) m (a.pass m) := by
  obtain ⟨src,dst,type⟩ := a
  have scratch : ∀ v : Int, ∀ r, r ≠ r0 → (m.set r0 v).gpr r = m.gpr r := fun v r other => by
    rw [Machine.set_gpr,if_neg other]
  have float : ∀ v : Int, ∀ f, f ≠ f0 → Function.update m.fpr f0 v f = m.fpr f := fun v f other =>
    Function.update_of_ne other _ _
  cases type with
  | int =>
    refine stored_word _ _ ⟨scratch _,fun _ _ => rfl,⟨fun _ _ => rfl,rfl,rfl⟩⟩ ?_
    simp [StackArgument.pass,step,lwa_value]
  | long =>
    cases cpu : Target.cpu with
    | ppc64 =>
      simp only [StackArgument.pass,StackArgument.cells,cpu]
      refine stored_word _ _ ⟨scratch _,fun _ _ => rfl,⟨fun _ _ => rfl,rfl,rfl⟩⟩ ?_
      simp [step,Machine.read]
    | ppc32 =>
      have narrow : wide = false := by simp [wide,cpu]
      simp only [StackArgument.pass,StackArgument.cells,cpu]
      refine ⟨⟨fun r other => ?_,fun _ _ => rfl,⟨fun _ _ => rfl,rfl,rfl⟩⟩,fun b plain => ?_⟩
      · simp only [r0] at other; simp [step,other,Machine.write32]
      · -- the second word is read after the first was stored, below it
        have pos := wordSize_pos
        have other : m.gpr Rlocals + (src + wordSize) ≠ m.gpr r1 + dst := by simp only at below; omega
        have mem : (exec [.lwz r0 ⟨Rlocals,src⟩,.stw r0 ⟨r1,dst⟩,.lwz r0 ⟨Rlocals,src + wordSize⟩,
            .stw r0 ⟨r1,dst + wordSize⟩] m).mem = (m.mem.put (m.gpr r1 + dst) (m.mem (m.gpr Rlocals + src))).put
              (m.gpr r1 + dst + wordSize) (m.mem (m.gpr Rlocals + (src + wordSize))) := by
          simp only [r1,Rlocals] at other
          simp [step,Machine.write32,Machine.read32,narrow,put_other _ _ other,Int.add_assoc]
        rw [memory,mem]
        exact ((put_writes m.mem _ _).trans (put_writes _ _ _)) b plain
  | float =>
    cases cpu : Target.cpu with
    | ppc32 =>
      simp only [StackArgument.pass,StackArgument.cells,cpu]
      refine stored_word _ _ ⟨fun _ _ => rfl,float _,⟨fun _ _ => rfl,rfl,rfl⟩⟩ ?_
      simp [step,Machine.write64,Machine.ea]
    | ppc64 =>
      have broad : wide = true := by simp [wide,cpu]
      simp only [StackArgument.pass,StackArgument.cells,cpu]
      refine ⟨⟨scratch _,fun _ _ => rfl,⟨fun _ _ => rfl,rfl,rfl⟩⟩,fun b plain => ?_⟩
      have mem : (exec [.lwz r0 ⟨Rlocals,src⟩,.stw r0 ⟨r1,dst + wordSize⟩] m).mem =
          m.mem.put (m.gpr r1 + dst + wordSize) (m.mem (m.gpr Rlocals + src) % 2^32) := by
        simp [step,Machine.write32,Machine.read32,broad,Int.add_assoc]
      rw [memory,mem]
      exact put_writes m.mem _ _ b plain
  | double =>
    refine stored_word _ _ ⟨fun _ _ => rfl,float _,⟨fun _ _ => rfl,rfl,rfl⟩⟩ ?_
    simp [StackArgument.pass,step,Machine.write64,Machine.read64,Machine.ea]
  | object =>
    obtain ⟨gpr,fpr,mem,same⟩ := handle_spec r0 ⟨Rlocals,src⟩ m (by simp)
    refine stored_word _ _ ⟨fun r other => (gpr r).trans (if_neg other),fun f _ => congrFun fpr f,
      ⟨same.cr,same.lr,same.ctr⟩⟩ ?_
    simp [StackArgument.pass,step,gpr,mem,Machine.ea]

def StackArgument.bytes (a : StackArgument) : Int :=
  match Target.cpu,a.type with
  | .ppc32,.int | .ppc32,.object => 4
  | .ppc64,.float => 12
  | _,_ => 8

-- On the large processor a float is stored past the end of its own word.
def StackArgument.spill (a : StackArgument) : Int :=
  match Target.cpu,a.type with
  | .ppc64,.float => 4
  | _,_ => 0

theorem bytes_pos (a : StackArgument) : 0 < a.bytes := by unfold StackArgument.bytes; split <;> decide

theorem cells_range {a : StackArgument} (member : c ∈ a.cells base locals m) :
    base + a.dst_offset ≤ c.1 ∧ c.1 + 4 ≤ base + a.dst_offset + a.bytes := by
  obtain ⟨src,dst,type⟩ := a
  cases cpu : Target.cpu with
  | ppc32 =>
    have size := wordSize_ppc32 cpu
    have narrow : wide = false := by simp [wide,cpu]
    cases type <;> simp only [StackArgument.cells,StackArgument.bytes,cpu,narrow] at member ⊢
    · have := wordCells_range member; simpa [width] using this
    · rw [size] at member
      rcases List.mem_cons.mp member with rfl | member
      · constructor <;> simp only <;> omega
      · rw [List.mem_singleton.mp member]; constructor <;> simp only <;> omega
    · have := wordCells_range member; simpa [width] using this
    · have := wordCells_range member; simpa [width] using this
    · have := wordCells_range member; simpa [width] using this
  | ppc64 =>
    have size := wordSize_ppc64 cpu
    have broad : wide = true := by simp [wide,cpu]
    cases type <;> simp only [StackArgument.cells,StackArgument.bytes,cpu,broad] at member ⊢
    · have := wordCells_range member; simpa [width] using this
    · have := wordCells_range member; simpa [width] using this
    · rw [size] at member
      rw [List.mem_singleton.mp member]; constructor <;> simp only <;> omega
    · have := wordCells_range member; simpa [width] using this
    · have := wordCells_range member; simpa [width] using this

-- The values come from the local the argument names, up to eight bytes above it.
theorem cells_congr {a : StackArgument} (same : ∀ b, locals + a.src_offset ≤ b → m' b = m b) :
    a.cells base locals m' = a.cells base locals m := by
  obtain ⟨src,dst,type⟩ := a
  have pos := wordSize_pos
  have here := same (locals + src) (Int.le_refl _)
  have next := same (locals + (src + wordSize)) (by simp only; omega)
  have word : ∀ w, m'.word w (locals + src) = m.word w (locals + src) := fun w =>
    word_congr fun b low _ => same b low
  cases type <;> simp only [StackArgument.cells,intValue,objectValue,here,next,word]

def Destination.Between (c next : Counters) : Destination → Prop
  | .gpr r => c.gp_reg ≤ r ∧ r < next.gp_reg
  | .fpr f => c.fp_reg ≤ f ∧ f < next.fp_reg

-- Register numbers stay in range, and on the large processor every register
-- handed out has moved the word counter as well.
structure Ready (c : Counters) : Prop where
  gp : gp_reg_start ≤ c.gp_reg ∧ c.gp_reg ≤ gp_reg_max + 1
  fp : fp_reg_start ≤ c.fp_reg ∧ c.fp_reg ≤ fp_reg_max + 1
  st : Target.cpu = .ppc64 → c.gp_reg + c.fp_reg ≤ c.st_arg + 4

theorem ready_start (is_static : Bool) : Ready (Counters.start is_static) := by
  refine ⟨?_,?_,fun cpu => ?_⟩
  · cases is_static <;> simp [Counters.start,gp_reg_start,gp_reg_max]
  · exact ⟨Nat.le_refl _,Nat.le_trans (by decide : fp_reg_start ≤ 9) (by unfold fp_reg_max; split <;> decide)⟩
  · cases is_static <;> simp [Counters.start,cpu,gp_reg_start,fp_reg_start]

-- What passing the parameters whose locals are `n` to `n + words - 1` adds.
structure Listed (c : Counters) (n words : Nat) (p : Passed) : Prop where
  ready : Ready p.next
  gp : c.gp_reg ≤ p.next.gp_reg
  fp : c.fp_reg ≤ p.next.fp_reg
  st : c.st_arg ≤ p.next.st_arg
  code : ∀ e ∈ p.code, (∃ k, n ≤ k ∧ k < n + words ∧ e.src = localAddress k) ∧ e.dst.Between c p.next
  distinct : (p.code.map Emitted.dst).Nodup
  stack : ∀ a ∈ p.st_args, ((link_area_words + c.st_arg : Nat) : Int)*wordSize ≤ a.dst_offset ∧
    a.dst_offset + a.bytes ≤ ((link_area_words + p.next.st_arg : Nat) : Int)*wordSize + a.spill ∧
    ∃ k, n ≤ k ∧ k < n + words ∧ a.src_offset = local_offset_in_bytes k
  ordered : p.st_args.Pairwise fun a b => a.dst_offset + a.bytes ≤ b.dst_offset + a.spill
  needed : p.st_args ≠ [] → min_params < p.next.st_arg

theorem Listed.append (one : Listed c n words p) (two : Listed p.next (n + words) words' q) :
    Listed c n (words + words') ⟨p.code ++ q.code,p.st_args ++ q.st_args,q.next⟩ := by
  have pos := wordSize_pos
  have later := Int.mul_le_mul_of_nonneg_right
    (show ((link_area_words + p.next.st_arg : Nat) : Int) ≤ ((link_area_words + q.next.st_arg : Nat) : Int) by
      have := two.st; omega) (Int.le_of_lt pos)
  have sooner := Int.mul_le_mul_of_nonneg_right
    (show ((link_area_words + c.st_arg : Nat) : Int) ≤ ((link_area_words + p.next.st_arg : Nat) : Int) by
      have := one.st; omega) (Int.le_of_lt pos)
  refine ⟨two.ready,Nat.le_trans one.gp two.gp,Nat.le_trans one.fp two.fp,Nat.le_trans one.st two.st,?_,?_,?_,?_,?_⟩
  · intro e member
    rcases List.mem_append.mp member with first | second
    · obtain ⟨⟨k,low,high,src⟩,between⟩ := one.code e first
      refine ⟨⟨k,low,by omega,src⟩,?_⟩
      have gp := two.gp
      have fp := two.fp
      cases dst : e.dst with
      | gpr r => rw [dst] at between; exact ⟨between.1,Nat.lt_of_lt_of_le between.2 gp⟩
      | fpr f => rw [dst] at between; exact ⟨between.1,Nat.lt_of_lt_of_le between.2 fp⟩
    · obtain ⟨⟨k,low,high,src⟩,between⟩ := two.code e second
      refine ⟨⟨k,by omega,by omega,src⟩,?_⟩
      have gp := one.gp
      have fp := one.fp
      cases dst : e.dst with
      | gpr r => rw [dst] at between; exact ⟨Nat.le_trans gp between.1,between.2⟩
      | fpr f => rw [dst] at between; exact ⟨Nat.le_trans fp between.1,between.2⟩
  · rw [List.map_append]
    refine List.Nodup.append one.distinct two.distinct ?_
    intro d first second
    obtain ⟨e,member,rfl⟩ := List.mem_map.mp first
    obtain ⟨e',member',same⟩ := List.mem_map.mp second
    have low := (one.code e member).2
    have high := (two.code e' member').2
    rw [same] at high
    cases dst : e.dst with
    | gpr r => rw [dst] at low high; exact absurd (Nat.lt_of_lt_of_le low.2 high.1) (Nat.lt_irrefl _)
    | fpr f => rw [dst] at low high; exact absurd (Nat.lt_of_lt_of_le low.2 high.1) (Nat.lt_irrefl _)
  · intro a member
    rcases List.mem_append.mp member with first | second
    · obtain ⟨low,high,k,above,below,src⟩ := one.stack a first
      exact ⟨low,by simp only; omega,k,above,by omega,src⟩
    · obtain ⟨low,high,k,above,below,src⟩ := two.stack a second
      exact ⟨by omega,high,k,by omega,by omega,src⟩
  · refine List.pairwise_append.mpr ⟨one.ordered,two.ordered,fun a first b second => ?_⟩
    have before := (one.stack a first).2.1
    have after := (two.stack b second).1
    omega
  · intro some
    have st := two.st
    by_cases first : p.st_args = []
    · exact two.needed fun second => some (by simp [first,second])
    · exact Nat.lt_of_lt_of_le (one.needed first) st

theorem pass_on_stack_listed (ready : Ready c) (k : Nat) (inside : n ≤ k ∧ k < n + words) (type : NativeType)
    (full : Target.cpu = .ppc64 → 8 ≤ c.st_arg) : Listed c n words (pass_on_stack c (localAddress k) type) := by
  obtain ⟨gp,fp,st⟩ := ready
  cases cpu : Target.cpu with
  | ppc64 =>
    have size := wordSize_ppc64 cpu
    have full := full cpu
    have st := st cpu
    simp only [pass_on_stack,cpu,Bool.false_and,Bool.false_eq_true,if_false]
    refine ⟨⟨gp,fp,fun _ => by simp only; omega⟩,Nat.le_refl _,Nat.le_refl _,Nat.le_succ _,by simp,by simp,?_,List.pairwise_singleton _ _,?_⟩
    · intro a member
      rw [List.mem_singleton.mp member]
      refine ⟨Int.le_refl _,?_,k,inside.1,inside.2,rfl⟩
      cases type <;> simp only [StackArgument.bytes,StackArgument.spill,cpu,size] <;> push_cast <;> omega
    · intro _
      simp only [min_params,cpu]; omega
  | ppc32 =>
    have size := wordSize_ppc32 cpu
    have large : Target.cpu = .ppc64 → False := by rw [cpu]; simp
    simp only [pass_on_stack,cpu]
    refine ⟨⟨gp,fp,fun absurd => (large absurd).elim⟩,Nat.le_refl _,Nat.le_refl _,?_,by simp,by simp,?_,
      List.pairwise_singleton _ _,?_⟩
    · simp only; split <;> split <;> omega
    · intro a member
      rw [List.mem_singleton.mp member]
      refine ⟨?_,?_,k,inside.1,inside.2,rfl⟩
      · simp only [size]; split <;> push_cast <;> omega
      · cases type <;> simp [StackArgument.bytes,StackArgument.spill,cpu,size] <;> grind
    · intro _
      simp only [min_params,cpu]; split <;> omega

theorem pass_register_listed (ready : Ready c) (e : Emitted) (k : Nat) (inside : n ≤ k ∧ k < n + words)
    (src : e.src = localAddress k) (next : Counters)
    (moved : (e.dst = .gpr c.gp_reg ∧ c.gp_reg ≤ gp_reg_max ∧ next = {c.shadow with gp_reg := c.gp_reg+1}) ∨
      (e.dst = .fpr c.fp_reg ∧ c.fp_reg ≤ fp_reg_max ∧ next = {c.shadow with fp_reg := c.fp_reg+1})) :
    Listed c n words ⟨[e],[],next⟩ := by
  obtain ⟨gp,fp,st⟩ := ready
  have shadow : c.shadow.gp_reg = c.gp_reg ∧ c.shadow.fp_reg = c.fp_reg ∧ c.st_arg ≤ c.shadow.st_arg ∧
      (Target.cpu = .ppc64 → c.shadow.st_arg = c.st_arg+1) := by
    unfold Counters.shadow
    cases cpu : Target.cpu <;> simp
  obtain ⟨sameGp,sameFp,stLe,stNext⟩ := shadow
  rcases moved with ⟨dst,low,rfl⟩ | ⟨dst,low,rfl⟩
  · refine ⟨⟨⟨by simp only; omega,by simp only; omega⟩,by simp only [sameFp]; exact fp,fun cpu => ?_⟩,by simp,
      by simp only [sameFp]; omega,stLe,?_,by simp,by simp,.nil,by simp⟩
    · have := st cpu; simp only [sameFp,stNext cpu]; omega
    · intro e' member
      rw [List.mem_singleton.mp member]
      exact ⟨⟨k,inside.1,inside.2,src⟩,by rw [dst]; exact ⟨Nat.le_refl _,Nat.lt_succ_self _⟩⟩
  · refine ⟨⟨by simp only [sameGp]; exact gp,⟨by simp only; omega,by simp only; omega⟩,fun cpu => ?_⟩,
      by simp only [sameGp]; omega,by simp,stLe,?_,by simp,by simp,.nil,by simp⟩
    · have := st cpu; simp only [sameGp,stNext cpu]; omega
    · intro e' member
      rw [List.mem_singleton.mp member]
      exact ⟨⟨k,inside.1,inside.2,src⟩,by rw [dst]; exact ⟨Nat.le_refl _,Nat.lt_succ_self _⟩⟩

theorem pass_listed (ready : Ready c) (n : Nat) (t : NativeType) : Listed c n t.words (pass c n t) := by
  have gp := ready.gp
  have fp := ready.fp
  have full_gp : ¬ c.gp_reg ≤ gp_reg_max → Target.cpu = .ppc64 → 8 ≤ c.st_arg := by
    intro more cpu
    have st := ready.st cpu
    simp only [gp_reg_max,fp_reg_start] at more fp; omega
  have full_fp : ¬ c.fp_reg ≤ fp_reg_max → Target.cpu = .ppc64 → 8 ≤ c.st_arg := by
    intro more cpu
    have st := ready.st cpu
    simp only [fp_reg_max,cpu,gp_reg_start] at more gp; omega
  cases t with
  | int =>
    simp only [pass,pass_int]
    split
    · rename_i low
      exact pass_register_listed ready _ n ⟨Nat.le_refl _,by simp [NativeType.words]⟩ rfl _ (.inl ⟨rfl,low,rfl⟩)
    · rename_i more
      exact pass_on_stack_listed ready n ⟨Nat.le_refl _,by simp [NativeType.words]⟩ _ (full_gp more)
  | object =>
    simp only [pass,pass_object]
    split
    · rename_i low
      exact pass_register_listed ready _ n ⟨Nat.le_refl _,by simp [NativeType.words]⟩ rfl _ (.inl ⟨rfl,low,rfl⟩)
    · rename_i more
      exact pass_on_stack_listed ready n ⟨Nat.le_refl _,by simp [NativeType.words]⟩ _ (full_gp more)
  | float =>
    simp only [pass,pass_float]
    split
    · rename_i low
      exact pass_register_listed ready _ n ⟨Nat.le_refl _,by simp [NativeType.words]⟩ rfl _ (.inr ⟨rfl,low,rfl⟩)
    · rename_i more
      exact pass_on_stack_listed ready n ⟨Nat.le_refl _,by simp [NativeType.words]⟩ _ (full_fp more)
  | double =>
    simp only [pass,pass_double]
    split
    · rename_i low
      exact pass_register_listed ready _ (n+1) ⟨Nat.le_succ _,by simp [NativeType.words]⟩ rfl _ (.inr ⟨rfl,low,rfl⟩)
    · rename_i more
      exact pass_on_stack_listed ready (n+1) ⟨Nat.le_succ _,by simp [NativeType.words]⟩ _ (full_fp more)
  | long =>
    cases cpu : Target.cpu with
    | ppc64 =>
      simp only [pass,pass_long,cpu]
      split
      · rename_i low
        exact pass_register_listed ready _ (n+1) ⟨Nat.le_succ _,by simp [NativeType.words]⟩ rfl _ (.inl ⟨rfl,low,rfl⟩)
      · rename_i more
        exact pass_on_stack_listed ready (n+1) ⟨Nat.le_succ _,by simp [NativeType.words]⟩ _ (full_gp more)
    | ppc32 =>
      simp only [pass,pass_long,cpu]
      split
      · rename_i low
        have large : Target.cpu = .ppc64 → False := by rw [cpu]; simp
        have even : (if c.gp_reg % 2 = 0 then c.gp_reg+1 else c.gp_reg) ≤ c.gp_reg + 1 ∧
            c.gp_reg ≤ (if c.gp_reg % 2 = 0 then c.gp_reg+1 else c.gp_reg) := by split <;> omega
        have odd : (if c.gp_reg % 2 = 0 then c.gp_reg+1 else c.gp_reg) % 2 = 1 := by split <;> omega
        generalize (if c.gp_reg % 2 = 0 then c.gp_reg+1 else c.gp_reg) = gp_reg at even odd
        simp only [gp_reg_start,gp_reg_max] at gp low
        refine ⟨⟨⟨by simp only [gp_reg_start]; omega,by simp only [gp_reg_max]; omega⟩,fp,fun absurd => (large absurd).elim⟩,
          by simp only; omega,Nat.le_refl _,Nat.le_refl _,?_,?_,by simp,.nil,by simp⟩
        · intro e member
          rcases List.mem_cons.mp member with rfl | member
          · exact ⟨⟨n+1,by omega,by simp [NativeType.words],rfl⟩,even.2,by simp⟩
          · rw [List.mem_singleton.mp member]
            exact ⟨⟨n,by omega,by simp [NativeType.words],rfl⟩,Nat.le_succ_of_le even.2,by simp⟩
        · simp [Emitted.dst]
      · exact pass_on_stack_listed ready (n+1) ⟨Nat.le_succ _,by simp [NativeType.words]⟩ _ (by rw [cpu]; simp)

theorem iterate_listed (ready : Ready c) (n : Nat) (params : List NativeType) :
    Listed c n (parameterWords params) (iterate c n params) := by
  induction params generalizing c n with
  | nil => exact ⟨ready,Nat.le_refl _,Nat.le_refl _,Nat.le_refl _,by simp [iterate],by simp [iterate],by simp [iterate],
      by simp [iterate],by simp [iterate]⟩
  | cons t rest ih =>
    have first := pass_listed ready n t
    have later := ih first.ready (n + t.words)
    have whole := first.append later
    simpa only [parameterWords,List.map_cons,List.sum_cons,iterate] using whole
end

variable [Vm]

-- The native frame when a signature handler is called: the state object above
-- the free space, and the locals of the caller above the state object.
structure HandlerEntry (words : Nat) (m : Machine) : Prop where
  state : m.read (m.ea (STATE .stack_limit)) + wordSize ≤ m.gpr Rstate
  locals : ∀ k, k < words → m.gpr Rstate + sizeof_BytecodeInterpreter ≤ m.ea (localAddress k)

-- The code for the registers.
theorem passRegisters_spec (listed : Listed c 0 words p) (low : ∀ e ∈ p.code, e.dst ≠ .gpr Rlocals) (m : Machine) :
    let m' := passRegisters p m
    Writes content (fun _ => False) (p.code.reverse.flatMap fun e => [(e.dst,e.value m.mem (m.ea e.src))]) m m' ∧
      m'.mem = m.mem ∧ Same m m' := by
  have src : ∀ e ∈ p.code, e.src.base = Rlocals := by
    intro e member
    obtain ⟨⟨k,_,_,src⟩,_⟩ := listed.code e member
    rw [src]; rfl
  let P (m' : Machine) := m'.gpr Rlocals = m.gpr Rlocals ∧ m'.mem = m.mem ∧ Same m m'
  have each : ∀ e ∈ p.code, ∀ m', P m' →
      Writes content (fun _ => False) [(e.dst,e.value m.mem (m.ea e.src))] m' (e.run m') ∧ P (e.run m') := by
    rintro e member m' ⟨locals,mem,same⟩
    obtain ⟨run,kept,also⟩ := emitted_run e m' (by rw [src e member]; exact Ne.symm (low e member))
    have value : e.value m'.mem (m'.ea e.src) = e.value m.mem (m.ea e.src) := by
      simp only [Machine.ea,src e member,locals,mem]
    refine ⟨fun d _ => ?_,?_,kept.trans mem,same.trans also⟩
    · rw [run d,value]
      by_cases here : d = e.dst
      · simp [here]
      · simp [here,List.lookup,beq_false_of_ne here]
    · have others := run (.gpr Rlocals)
      rw [if_neg (Ne.symm (low e member))] at others
      exact others.trans locals
  obtain ⟨writes,_,mem,same⟩ := Writes.fold _ _ _ m (show P m from ⟨rfl,rfl,⟨fun _ _ => rfl,rfl,rfl⟩⟩) each
  exact ⟨writes,mem,same⟩

-- The code for the stack, in a frame whose free space is below `limit`.
theorem passArguments_spec (st_args : List StackArgument) (m : Machine)
    (below : ∀ a ∈ st_args, ∀ b ∈ st_args, m.gpr r1 + a.dst_offset + a.bytes ≤ m.gpr Rlocals + b.src_offset) :
    let m' := st_args.foldl StackArgument.pass m
    Writes memory (fun _ => False) (st_args.reverse.flatMap fun a => a.cells (m.gpr r1) (m.gpr Rlocals) m.mem) m m' ∧
      Stored m m' := by
  let P (m' : Machine) := Stored m m' ∧ ∀ b ∈ st_args, ∀ c, m.gpr Rlocals + b.src_offset ≤ c → m'.mem c = m.mem c
  have each : ∀ a ∈ st_args, ∀ m', P m' →
      Writes memory (fun _ => False) (a.cells (m.gpr r1) (m.gpr Rlocals) m.mem) m' (a.pass m') ∧ P (a.pass m') := by
    rintro a member m' ⟨stored,locals⟩
    have base : m'.gpr r1 = m.gpr r1 := stored.gpr r1 (by decide)
    have same : m'.gpr Rlocals = m.gpr Rlocals := stored.gpr Rlocals (by decide)
    have room := below a member a member
    have positive := bytes_pos a
    obtain ⟨also,writes⟩ := pass_stored a m' (by rw [base,same]; omega)
    rw [base,same,cells_congr fun b low => locals a member b low] at writes
    refine ⟨writes,stored.trans also,fun b listed c above => ?_⟩
    rw [← locals b listed c above]
    refine writes.kept id fun found => ?_
    obtain ⟨cell,stored_to,rfl⟩ := List.mem_map.mp found
    have range := (cells_range stored_to).2
    have room := below a member b listed
    omega
  have start : P m := ⟨⟨fun _ _ => rfl,fun _ _ => rfl,⟨fun _ _ => rfl,rfl,rfl⟩⟩,fun _ _ _ _ => rfl⟩
  obtain ⟨writes,stored,_⟩ := Writes.fold _ _ _ m start each
  exact ⟨writes,stored⟩

-- The registers the handler works with, beside the argument registers.
def Scratch (d : Destination) : Prop :=
  d = .gpr r0 ∨ d = .gpr r1 ∨ d = .gpr r11 ∨ d = .gpr r12 ∨ d = .fpr f0

instance (d : Destination) : Decidable (Scratch d) := by unfold Scratch; infer_instance

-- The state a handler for `p` leaves: r1 moved down by `extra`, every argument
-- stored, and nothing else but the link area of the extension.
structure Handled (p : Passed) (result_handler extra : Int) (m m' : Machine) : Prop where
  aligned : extra % 16 = 0
  nonneg : 0 ≤ extra
  stack : m'.gpr r1 = m.gpr r1 - extra
  room : min_params < p.next.st_arg →
    m'.gpr r1 + ((link_area_words + p.next.st_arg : Nat) : Int)*wordSize ≤ m.read (m.ea (STATE .stack_limit)) + wordSize
  unmoved : ¬ min_params < p.next.st_arg → extra = 0
  handler : m'.gpr r0 = result_handler
  registers : Writes content Scratch (p.code.reverse.flatMap fun e => [(e.dst,e.value m.mem (m.ea e.src))]) m m'
  stacked : Writes memory (fun b => m'.gpr r1 ≤ b ∧ b < m'.gpr r1 + min extra (2*wordSize))
    (p.st_args.reverse.flatMap fun a => a.cells (m'.gpr r1) (m.gpr Rlocals) m.mem) m m'
  back_chain : m'.read (m'.gpr r1) = m.read (m.gpr r1)
  cr_word : Target.cpu = .ppc64 → m'.read (m'.gpr r1 + wordSize) = m.read (m.gpr r1 + wordSize)
  same : Same m m'

theorem link_area_large : 2*wordSize ≤ (link_area_words : Int)*wordSize := by
  have pos := wordSize_pos
  unfold link_area_words
  cases Target.cpu <;> simp only <;> push_cast <;> omega

-- Nothing but the argument area is stored to once the frame has its room.
theorem arguments_above (listed : Listed c 0 words p) (m : Machine) (member : a ∈ p.st_args) :
    ∀ cell ∈ a.cells base locals m.mem, base + (link_area_words : Int)*wordSize ≤ cell.1 := by
  intro cell found
  have range := (cells_range found).1
  have offset := (listed.stack a member).1
  have grown := Int.mul_le_mul_of_nonneg_right (show (link_area_words : Int) ≤ ((link_area_words + c.st_arg : Nat) : Int) by
    push_cast; omega) (Int.le_of_lt wordSize_pos)
  omega

theorem passStack_spec (listed : Listed c 0 words p) (m m' : Machine) (entry : HandlerEntry words m)
    (mem : m'.mem = m.mem) (stack : m'.gpr r1 = m.gpr r1) (state : m'.gpr Rstate = m.gpr Rstate)
    (locals : m'.gpr Rlocals = m.gpr Rlocals) (more : min_params < p.next.st_arg) :
    ∃ extra, let m'' := passStack p m'
      extra % 16 = 0 ∧ 0 ≤ extra ∧ m''.gpr r1 = m.gpr r1 - extra ∧
      m''.gpr r1 + ((link_area_words + p.next.st_arg : Nat) : Int)*wordSize ≤ m.read (m.ea (STATE .stack_limit)) + wordSize ∧
      (∀ d, ¬ Scratch d → content m'' d = content m' d) ∧
      Writes memory (fun b => m''.gpr r1 ≤ b ∧ b < m''.gpr r1 + min extra (2*wordSize))
        (p.st_args.reverse.flatMap fun a => a.cells (m''.gpr r1) (m.gpr Rlocals) m.mem) m m'' ∧
      m''.read (m''.gpr r1) = m.read (m.gpr r1) ∧
      (Target.cpu = .ppc64 → m''.read (m''.gpr r1 + wordSize) = m.read (m.gpr r1 + wordSize)) ∧ Same m' m'' := by
  let m₁ := available (exec [.loadImm r11 (p.next.st_arg*wordSize)] m')
  obtain ⟨extra,extended⟩ := maybe_extend_frame_spec m₁ r11 r12 (by decide) (by decide) (by decide)
  have code : passStack p m' = p.st_args.foldl StackArgument.pass (maybe_extend_frame r11 r12 m₁) := by
    simp only [passStack,if_pos more,m₁]
  have limit : m'.read (m'.ea (STATE .stack_limit)) = m.read (m.ea (STATE .stack_limit)) := by
    simp only [Machine.read,Machine.ea,mem,STATE,state]
  have required : m₁.gpr r11 = p.next.st_arg*wordSize := by simp [m₁,available,step]
  have free : m₁.gpr r12 = m.read (m.ea (STATE .stack_limit)) + (1 - (link_area_words : Int))*wordSize - m.gpr r1 := by
    rw [← limit,← stack]
    simp [m₁,available,step,STATE,Machine.read]
  have start : m₁.gpr r1 = m.gpr r1 ∧ m₁.gpr Rlocals = m.gpr Rlocals ∧ m₁.mem = m.mem := by
    rw [← stack,← locals,← mem]
    refine ⟨?_,?_,rfl⟩ <;> simp [m₁,available,step]
  generalize maybe_extend_frame r11 r12 m₁ = m₂ at extended code
  have room := extended.room
  have top := extended.stack
  rw [required,free] at room
  rw [start.1] at top
  have moved : m₂.gpr Rlocals = m.gpr Rlocals := (extended.gpr Rlocals (by decide) (by decide) (by decide)).trans start.2.1
  have area : m₂.gpr r1 + ((link_area_words + p.next.st_arg : Nat) : Int)*wordSize ≤
      m.read (m.ea (STATE .stack_limit)) + wordSize := by
    have split : ((link_area_words + p.next.st_arg : Nat) : Int)*wordSize =
      link_area_words*wordSize + p.next.st_arg*wordSize := by push_cast; ring
    rw [Int.sub_mul] at room; omega
  have pos := wordSize_pos
  have bytes : 4 ≤ wordSize := by unfold wordSize width; split <;> decide
  have object := sizeof_large
  have state_above := entry.state
  -- the stored words end below the locals, which are above the state object
  have below : ∀ a ∈ p.st_args, ∀ b ∈ p.st_args, m₂.gpr r1 + a.dst_offset + a.bytes ≤ m.gpr Rlocals + b.src_offset := by
    intro a first b second
    have high := (listed.stack a first).2.1
    obtain ⟨_,_,k,_,inside,src⟩ := listed.stack b second
    have local_ := entry.locals k (by omega)
    have spill : a.spill ≤ 4 := by unfold StackArgument.spill; split <;> decide
    simp only [localAddress,Machine.ea] at local_
    rw [src]; omega
  obtain ⟨writes,stored⟩ := passArguments_spec p.st_args m₂ (by rw [moved]; exact below)
  -- the extension's link area is below the locals as well
  have values : ∀ a ∈ p.st_args, a.cells (m₂.gpr r1) (m.gpr Rlocals) m₂.mem = a.cells (m₂.gpr r1) (m.gpr Rlocals) m.mem := by
    intro a member
    refine cells_congr fun b low => (extended.mem b (.inr ?_)).trans (congrFun start.2.2 b)
    obtain ⟨first,high,k,_,inside,src⟩ := listed.stack a member
    have local_ := entry.locals k (by omega)
    simp only [localAddress,Machine.ea] at local_
    have three : 3*wordSize ≤ ((link_area_words + p.next.st_arg : Nat) : Int)*wordSize :=
      Int.mul_le_mul_of_nonneg_right (by unfold link_area_words; cases Target.cpu <;> push_cast <;> omega) (by omega)
    omega
  rw [moved] at writes
  rw [code]
  generalize p.st_args.foldl StackArgument.pass m₂ = m₃ at writes stored
  have base : m₃.gpr r1 = m₂.gpr r1 := stored.gpr r1 (by decide)
  have above : ∀ b, b < m₂.gpr r1 + (link_area_words : Int)*wordSize → m₃.mem b = m₂.mem b := by
    intro b low
    refine writes.kept id fun found => ?_
    obtain ⟨cell,listing,rfl⟩ := List.mem_map.mp found
    obtain ⟨a,member,found⟩ := List.mem_flatMap.mp listing
    have := arguments_above listed m₂ (List.mem_reverse.mp member) cell found
    omega
  have link := link_area_large
  have link_word : ∀ n, 0 ≤ n → n ≤ wordSize → m₃.read (m₃.gpr r1 + n) = m₂.read (m₂.gpr r1 + n) := by
    intro n low high
    rw [base]
    refine word_congr fun b lower upper => above b ?_
    change b < _ + wordSize at upper
    omega
  refine ⟨extra,extended.aligned,extended.nonneg,base.trans top,by rw [base]; exact area,fun d plain => ?_,?_,?_,fun cpu => ?_,?_⟩
  · simp only [Scratch,not_or] at plain
    cases d with
    | gpr r =>
      simp only [Destination.gpr.injEq,reduceCtorEq,not_false_eq_true,and_true] at plain
      obtain ⟨n0,n1,n11,n12⟩ := plain
      refine (stored.gpr r n0).trans ((extended.gpr r n1 n11 n12).trans ?_)
      simp only [r11,r12] at n11 n12
      simp [m₁,available,step,n11,n12,content]
    | fpr f =>
      refine (stored.fpr f fun same => plain.2.2.2.2 (by rw [same])).trans (congrFun extended.fpr f)
  · intro b plain
    rw [base] at plain ⊢
    rw [writes b id,memory,extended.mem b (by omega),start.2.2]
    have same : (p.st_args.reverse.flatMap fun a => a.cells (m₂.gpr r1) (m.gpr Rlocals) m₂.mem) =
        p.st_args.reverse.flatMap fun a => a.cells (m₂.gpr r1) (m.gpr Rlocals) m.mem :=
      List.flatMap_congr fun a member => values a (List.mem_reverse.mp member)
    rw [same]
    rfl
  · have kept := link_word 0 (Int.le_refl _) (by omega)
    simp only [Int.add_zero] at kept
    rw [kept,extended.back_chain,start.1,Machine.read,start.2.2]
    rfl
  · rw [link_word wordSize (by omega) (Int.le_refl _),extended.cr_word cpu,start.1,Machine.read,start.2.2]
    rfl
  · refine ⟨fun c other => ?_,?_,?_⟩
    · exact (stored.same.cr c other).trans (extended.cr c other)
    · exact stored.same.lr.trans extended.lr
    · exact stored.same.ctr.trans extended.ctr

theorem generate_spec (is_static : Bool) (signature : List NativeType) (result_handler : Int) (m : Machine)
    (entry : HandlerEntry (parameterWords (parameters is_static signature)) m) :
    ∃ extra, Handled (iterate (Counters.start is_static) 0 (parameters is_static signature)) result_handler extra m
      (generate is_static signature result_handler m) := by
  have listed := iterate_listed (ready_start is_static) 0 (parameters is_static signature)
  simp only [generate]
  generalize iterate (Counters.start is_static) 0 (parameters is_static signature) = p at listed
  have high : ∀ e ∈ p.code, ∀ r : Nat, e.dst = .gpr r → r < 11 ∧ 4 ≤ r := by
    intro e member r dst
    have between := (listed.code e member).2
    rw [dst] at between
    have gp := listed.ready.gp.2
    have start : 4 ≤ (Counters.start is_static).gp_reg := (ready_start is_static).gp.1
    exact ⟨Nat.lt_of_lt_of_le between.2 gp,Nat.le_trans start between.1⟩
  have far : ∀ r : Nat, r < 4 ∨ 11 ≤ r → ∀ e ∈ p.code, e.dst ≠ .gpr r := by
    intro r outside e member same
    have := high e member r same
    omega
  obtain ⟨writes,mem,same⟩ := passRegisters_spec listed (far Rlocals (by decide)) m
  have kept : ∀ r : Nat, r < 4 ∨ 11 ≤ r → (passRegisters p m).gpr r = m.gpr r := by
    intro r outside
    refine writes.kept (q := .gpr r) id fun found => ?_
    obtain ⟨pair,listing,first⟩ := List.mem_map.mp found
    obtain ⟨e,member,found⟩ := List.mem_flatMap.mp listing
    rw [List.mem_singleton.mp found] at first
    exact far r outside e (List.mem_reverse.mp member) first
  generalize passRegisters p m = m₁ at writes mem same kept
  have result : ∀ m₂ : Machine, (exec [.loadImm r0 result_handler] m₂).gpr r0 = result_handler := by simp [step]
  have others : ∀ m₂ : Machine, ∀ d, ¬ Scratch d → content (exec [.loadImm r0 result_handler] m₂) d = content m₂ d := by
    intro m₂ d plain
    cases d with
    | fpr f => rfl
    | gpr r =>
      have other : r ≠ 0 := fun same => plain (.inl (by rw [same]))
      simp [content,step,other]
  have top : ∀ m₂ : Machine, (exec [.loadImm r0 result_handler] m₂).gpr r1 = m₂.gpr r1 := by simp [step]
  by_cases more : min_params < p.next.st_arg
  · obtain ⟨extra,aligned,nonneg,stack,room,plain,stacked,back_chain,cr_word,also⟩ :=
      passStack_spec listed m m₁ entry mem (kept r1 (.inl (by decide))) (kept Rstate (.inr (by decide)))
        (kept Rlocals (.inr (by decide))) more
    refine ⟨extra,aligned,nonneg,(top _).trans stack,fun _ => by rw [top]; exact room,fun less => absurd more less,
      result _,fun d apart => ?_,by rw [top]; exact stacked,by rw [top]; exact back_chain,by rw [top]; exact cr_word,?_⟩
    · rw [others _ d apart,plain d apart]
      exact writes d id
    · have both := same.trans also
      exact ⟨both.cr,both.lr,both.ctr⟩
  · have empty : p.st_args = [] := by
      by_contra some
      exact more (listed.needed some)
    have unmoved : passStack p m₁ = m₁ := by simp only [passStack,if_neg more]
    rw [unmoved]
    have stack : (exec [.loadImm r0 result_handler] m₁).gpr r1 = m.gpr r1 := (top _).trans (kept r1 (.inl (by decide)))
    refine ⟨0,rfl,Int.le_refl _,by rw [stack,Int.sub_zero],fun enough => absurd enough more,fun _ => rfl,result _,
      fun d apart => ?_,?_,?_,fun _ => ?_,⟨same.cr,same.lr,same.ctr⟩⟩
    · rw [others _ d apart]
      exact writes d id
    · rw [empty]
      intro b _
      exact congrFun mem b
    · rw [stack,Machine.read,Machine.read]
      exact congrArg (fun mem => Cells.word wide mem (m.gpr r1)) mem
    · rw [stack,Machine.read,Machine.read]
      exact congrArg (fun mem => Cells.word wide mem (m.gpr r1 + wordSize)) mem

-- Every argument for a register is in it, every one for the stack is in its
-- words, unless it was stored over.
theorem Handled.register (handled : Handled p result_handler extra m m') (listed : Listed c 0 words p)
    (member : e ∈ p.code) (plain : ¬ Scratch e.dst) : content m' e.dst = e.value m.mem (m.ea e.src) := by
  refine handled.registers.once plain ?_ (List.mem_flatMap.mpr ⟨e,List.mem_reverse.mpr member,List.mem_singleton_self _⟩)
  have singles : (p.code.reverse.flatMap fun e => [(e.dst,e.value m.mem (m.ea e.src))]).map Prod.fst =
      (p.code.map Emitted.dst).reverse := by
    simp only [← List.map_eq_flatMap,List.map_map,List.map_reverse,Function.comp_def]
  rw [singles,List.nodup_reverse]
  exact listed.distinct

theorem cells_distinct (a : StackArgument) : ((a.cells base locals m).map Prod.fst).Nodup := by
  obtain ⟨src,dst,type⟩ := a
  have word : ∀ w v, ((wordCells w (base + dst) v).map Prod.fst).Nodup := by
    intro w v
    cases w <;> simp [wordCells]
  cases type with
  | long =>
    have pos := wordSize_pos
    simp only [StackArgument.cells]
    cases Target.cpu with
    | ppc32 => simp; omega
    | ppc64 => exact word _ _
  | float =>
    simp only [StackArgument.cells]
    cases Target.cpu with
    | ppc32 => exact word _ _
    | ppc64 => simp
  | _ => exact word _ _

theorem Handled.stored (handled : Handled p result_handler extra m m') (listed : Listed c 0 words p)
    (inside : ∀ a ∈ p.st_args, a.spill = 0) (member : a ∈ p.st_args) :
    ∀ cell ∈ a.cells (m'.gpr r1) (m.gpr Rlocals) m.mem, m'.mem cell.1 = cell.2 := by
  intro cell found
  have link := link_area_large
  have above := arguments_above listed m member cell found
  refine handled.stacked.once (q := cell.1) (by omega) ?_
    (List.mem_flatMap.mpr ⟨a,List.mem_reverse.mpr member,found⟩)
  rw [List.map_flatMap,List.nodup_flatMap]
  refine ⟨fun b _ => cells_distinct b,?_⟩
  rw [List.pairwise_reverse]
  refine listed.ordered.imp_of_mem fun {b c} first second before => ?_
  intro q one two
  obtain ⟨x,x_in,rfl⟩ := List.mem_map.mp one
  obtain ⟨y,y_in,same⟩ := List.mem_map.mp two
  have low := cells_range x_in
  have high := cells_range y_in
  have plain := inside b first
  omega

end IcedTea.InterpreterRuntime

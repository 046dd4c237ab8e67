import IcedTea.CopyLoop

namespace IcedTea.ConjointCopy
open CopyLoop

abbrev Word := BitVec 32

inductive Register where
  | r0 | r3 | r4 | r5 | r6
  deriving DecidableEq, Repr
open Register

-- Memory is words at aligned addresses, and the stores are remembered.
structure State where
  pc : Nat
  gpr : Register → Word
  cr0 : Ordering
  mem : Word → Word
  stores : List Word

inductive Instr where
  | slwi (dst src : Register) (n : Nat) | cmpw (a b : Register) | cmpwi (a : Register) (n : Word)
  | ble (target : Nat) | blt (target : Nat) | bgt (target : Nat) | b (target : Nat)
  | li (dst : Register) (n : Word) | addi (dst a : Register) (n : Word) | subi (dst a : Register) (n : Word)
  | lwzx (dst a b : Register) | stwx (src a b : Register) | blr
  deriving DecidableEq, Repr

def State.set (s : State) (dst : Register) (v : Word) : State := {s with pc := s.pc+1, gpr := Function.update s.gpr dst v}
def State.branch (s : State) (taken : Bool) (target : Nat) : State := {s with pc := if taken then target else s.pc+1}

-- Comparisons are signed.
def State.compare (s : State) (a b : Word) : State := {s with pc := s.pc+1, cr0 := Ord.compare a.toInt b.toInt}

def State.exec (s : State) : Instr → State
  | .slwi dst src n => s.set dst (s.gpr src <<< n)
  | .cmpw a b => s.compare (s.gpr a) (s.gpr b)
  | .cmpwi a n => s.compare (s.gpr a) n
  | .ble target => s.branch (s.cr0 ≠ .gt) target
  | .blt target => s.branch (s.cr0 = .lt) target
  | .bgt target => s.branch (s.cr0 = .gt) target
  | .b target => s.branch true target
  | .li dst n => s.set dst n
  | .addi dst a n => s.set dst (s.gpr a + n)
  | .subi dst a n => s.set dst (s.gpr a - n)
  | .lwzx dst a b => s.set dst (s.mem (s.gpr a + s.gpr b))
  | .stwx src a b =>
    let address := s.gpr a + s.gpr b
    {s with pc := s.pc+1, mem := Function.update s.mem address (s.gpr src), stores := s.stores ++ [address]}
  | .blr => s

def _Copy_conjoint_jints_atomic : List Instr := [
  .slwi r5 r5 2,
  .cmpw r3 r4,
  .ble 14,
  -- cla_LeftToRight
  .li r6 0,
  .b 8,
  .lwzx r0 r3 r6,
  .stwx r0 r4 r6,
  .addi r6 r6 4,
  .cmpw r6 r5,
  .blt 5,
  .blr,
  -- cla_RightToLeft
  .subi r5 r5 4,
  .lwzx r0 r3 r5,
  .stwx r0 r4 r5,
  .cmpwi r5 0,
  .bgt 11,
  .blr]

-- A run from a state until it returns.
def run : Nat → State → Option State
  | 0,_ => none
  | fuel+1,s =>
    match _Copy_conjoint_jints_atomic[s.pc]? with
    | none => none
    | some .blr => some s
    | some i => run fuel (s.exec i)

def Returns (s s' : State) : Prop := ∃ fuel, run fuel s = some s'

theorem Returns.step {s s' : State} {i : Instr} (here : _Copy_conjoint_jints_atomic[s.pc]? = some i) (goes_on : i ≠ .blr)
    (rest : Returns (s.exec i) s') : Returns s s' := by
  obtain ⟨fuel,ran⟩ := rest
  refine ⟨fuel+1,?_⟩
  rw [run,here]
  cases i <;> first | exact ran | exact absurd rfl goes_on

theorem Returns.blr {s : State} (here : _Copy_conjoint_jints_atomic[s.pc]? = some .blr) : Returns s s :=
  ⟨1,by rw [run,here]⟩

-- The word `i` of a region.
def element (base : Word) (i : Nat) : Word := base + BitVec.ofNat 32 (4*i)

-- The regions that do not wrap round the address space.
structure Region (base : Word) (count : Nat) : Prop where
  aligned : base.toNat % 4 = 0
  within : base.toNat + 4*count ≤ 2^32

def entry (from_ to_ : Word) (count : Nat) (mem : Word → Word) (others : Word) : State where
  pc := 0
  gpr := fun
    | r3 => from_
    | r4 => to_
    | r5 => BitVec.ofNat 32 count
    | _ => others
  cr0 := .eq
  mem := mem
  stores := []

-- The copy ends with every word where it belongs, each stored once, whatever the
-- memory and the other registers.
def Copies (from_ to_ : Word) (count : Nat) : Prop :=
  ∀ mem others, ∃ s, Returns (entry from_ to_ count mem others) s ∧
    (∀ i < count, s.mem (element to_ i) = mem (element from_ i)) ∧
    (∀ a, (∀ i < count, a ≠ element to_ i) → s.mem a = mem a) ∧
    s.stores.Perm ((List.range count).map (element to_))

-- Overlapping regions on both sides of the middle of the address space.
def Straddles (from_ to_ : Word) (count : Nat) : Prop :=
  from_.toNat < to_.toNat + 4*count ∧ to_.toNat < from_.toNat + 4*count ∧ from_.msb ≠ to_.msb

theorem element_toNat {base : Word} {count : Nat} (region : Region base count) {i : Nat} (low : i < count) :
    (element base i).toNat = base.toNat + 4*i := by
  have within := region.within
  unfold element
  rw [BitVec.toNat_add,BitVec.toNat_ofNat]
  omega

theorem element_injective {base : Word} {count : Nat} (region : Region base count) : InjectiveBelow count (element base) := by
  intro i j i_low j_low same
  have numbers := congrArg BitVec.toNat same
  rw [element_toNat region i_low,element_toNat region j_low] at numbers
  omega

theorem small_toInt {n : Nat} (small : n < 2^31) : (BitVec.ofNat 32 n).toInt = n := by
  rw [BitVec.toInt_eq_toNat_cond,BitVec.toNat_ofNat]
  split <;> omega

-- The loop from the left, at its test.
theorem left_to_right (from_ to_ : Word) (count : Nat) (small : count < 2^29) (mem : Word → Word) (k : Nat) (low : k ≤ count)
    (gpr : Register → Word) (cr0 : Ordering) (source : gpr r3 = from_) (target : gpr r4 = to_)
    (bytes : gpr r5 = BitVec.ofNat 32 (4*count)) (index : gpr r6 = BitVec.ofNat 32 (4*k)) :
    ∃ s', Returns ⟨8,gpr,cr0,copy (element from_) (element to_) mem k,(List.range k).map (element to_)⟩ s' ∧
      s'.mem = copy (element from_) (element to_) mem count ∧ s'.stores = (List.range count).map (element to_) := by
  induction remaining : count - k generalizing k gpr cr0 with
  | zero =>
    obtain rfl : k = count := by omega
    have equal : compare (gpr r6).toInt (gpr r5).toInt = .eq := by
      rw [index,bytes]
      exact compare_eq_iff_eq.mpr rfl
    refine ⟨⟨10,gpr,.eq,_,_⟩,.step (i := .cmpw r6 r5) rfl (by simp) ?_,rfl,rfl⟩
    simp only [State.exec,State.compare,equal]
    exact .step (i := .blt 5) rfl (by simp) (.blr rfl)
  | succ n ih =>
    have less : compare (gpr r6).toInt (gpr r5).toInt = .lt := by
      rw [index,bytes,small_toInt (by omega),small_toInt (by omega),compare_lt_iff_lt]
      omega
    have four : BitVec.ofNat 32 (4*k) + 4 = BitVec.ofNat 32 (4*(k+1)) := by
      apply BitVec.eq_of_toNat_eq
      rw [BitVec.toNat_add,BitVec.toNat_ofNat,BitVec.toNat_ofNat]
      change (4*k % 2^32 + 4) % 2^32 = 4*(k+1) % 2^32
      omega
    let value := copy (element from_) (element to_) mem k (element from_ k)
    let gpr' := Function.update (Function.update gpr r0 value) r6 (BitVec.ofNat 32 (4*(k+1)))
    obtain ⟨s',returns,mem_eq,stores_eq⟩ := ih (k+1) (by omega) gpr' .lt source target bytes (Function.update_self ..) (by omega)
    refine ⟨s',.step (i := .cmpw r6 r5) rfl (by simp) ?_,mem_eq,stores_eq⟩
    simp only [State.exec,State.compare,less]
    refine .step (i := .blt 5) rfl (by simp) (.step (i := .lwzx r0 r3 r6) rfl (by simp) (.step (i := .stwx r0 r4 r6) rfl (by simp)
      (.step (i := .addi r6 r6 4) rfl (by simp) ?_)))
    simp only [State.exec,State.set,State.branch,source,target,index,Function.update_self,four,
      Function.update_of_ne (show r4 ≠ r0 by decide),Function.update_of_ne (show r6 ≠ r0 by decide)]
    rw [List.range_succ,List.map_append] at returns
    exact returns

-- The words of a region from its end.
def from_end (base : Word) (count i : Nat) : Word := element base (count-1-i)

-- The loop from the right, at its test.
theorem right_to_left (from_ to_ : Word) (count : Nat) (small : count < 2^29) (mem : Word → Word) (k : Nat) (low : k ≤ count)
    (gpr : Register → Word) (cr0 : Ordering) (source : gpr r3 = from_) (target : gpr r4 = to_)
    (index : gpr r5 = BitVec.ofNat 32 (4*(count-k))) :
    ∃ s', Returns ⟨14,gpr,cr0,copy (from_end from_ count) (from_end to_ count) mem k,
        (List.range k).map (from_end to_ count)⟩ s' ∧
      s'.mem = copy (from_end from_ count) (from_end to_ count) mem count ∧
      s'.stores = (List.range count).map (from_end to_ count) := by
  have zero : (0 : Word).toInt = 0 := rfl
  induction remaining : count - k generalizing k gpr cr0 with
  | zero =>
    obtain rfl : k = count := by omega
    have equal : compare (gpr r5).toInt (0 : Word).toInt = .eq := by
      rw [index,Nat.sub_self]
      rfl
    refine ⟨⟨16,gpr,.eq,_,_⟩,.step (i := .cmpwi r5 0) rfl (by simp) ?_,rfl,rfl⟩
    simp only [State.exec,State.compare,equal]
    exact .step (i := .bgt 11) rfl (by simp) (.blr rfl)
  | succ n ih =>
    have greater : compare (gpr r5).toInt (0 : Word).toInt = .gt := by
      rw [index,small_toInt (by omega),zero,compare_gt_iff_gt]
      omega
    have four : BitVec.ofNat 32 (4*(count-k)) - 4 = BitVec.ofNat 32 (4*(count-(k+1))) := by
      apply BitVec.eq_of_toNat_eq
      rw [BitVec.toNat_sub,BitVec.toNat_ofNat,BitVec.toNat_ofNat]
      change (2^32 - 4 + 4*(count-k) % 2^32) % 2^32 = 4*(count-(k+1)) % 2^32
      omega
    have here : ∀ base, base + BitVec.ofNat 32 (4*(count-(k+1))) = from_end base count k := by
      intro base
      rw [from_end,element,show count-1-k = count-(k+1) by omega]
    let value := copy (from_end from_ count) (from_end to_ count) mem k (from_end from_ count k)
    let gpr' := Function.update (Function.update gpr r5 (BitVec.ofNat 32 (4*(count-(k+1))))) r0 value
    obtain ⟨s',returns,mem_eq,stores_eq⟩ := ih (k+1) (by omega) gpr' .gt source target rfl (by omega)
    refine ⟨s',.step (i := .cmpwi r5 0) rfl (by simp) ?_,mem_eq,stores_eq⟩
    simp only [State.exec,State.compare,greater]
    refine .step (i := .bgt 11) rfl (by simp) (.step (i := .subi r5 r5 4) rfl (by simp) (.step (i := .lwzx r0 r3 r5) rfl (by simp)
      (.step (i := .stwx r0 r4 r5) rfl (by simp) ?_)))
    simp only [State.exec,State.set,State.branch,source,target,index,Function.update_self,four,here,
      Function.update_of_ne (show r3 ≠ r5 by decide),Function.update_of_ne (show r4 ≠ r0 by decide),
      Function.update_of_ne (show r4 ≠ r5 by decide),Function.update_of_ne (show r5 ≠ r0 by decide)]
    rw [List.range_succ,List.map_append] at returns
    exact returns

-- The routine goes from the right when the signed comparison says that the
-- source is not above the target.
theorem copy_runs (from_ to_ : Word) (count : Nat) (small : count < 2^29) (mem : Word → Word) (others : Word) :
    ∃ s, Returns (entry from_ to_ count mem others) s ∧
      if from_.toInt ≤ to_.toInt then
        s.mem = copy (from_end from_ count) (from_end to_ count) mem count ∧
          s.stores = (List.range count).map (from_end to_ count)
      else s.mem = copy (element from_) (element to_) mem count ∧ s.stores = (List.range count).map (element to_) := by
  have shifted : BitVec.ofNat 32 count <<< 2 = BitVec.ofNat 32 (4*count) := by
    apply BitVec.eq_of_toNat_eq
    rw [BitVec.toNat_shiftLeft,BitVec.toNat_ofNat,BitVec.toNat_ofNat,Nat.shiftLeft_eq]
    omega
  let gpr := Function.update (entry from_ to_ count mem others).gpr r5 (BitVec.ofNat 32 (4*count))
  have begun : ∀ s, Returns ⟨if from_.toInt ≤ to_.toInt then 14 else 3,gpr,compare from_.toInt to_.toInt,mem,[]⟩ s →
      Returns (entry from_ to_ count mem others) s := by
    intro s rest
    refine .step (i := .slwi r5 r5 2) rfl nofun (.step (i := .cmpw r3 r4) rfl nofun (.step (i := .ble 14) rfl nofun ?_))
    have taken : decide (compare from_.toInt to_.toInt ≠ .gt) = decide (from_.toInt ≤ to_.toInt) := by
      rw [decide_eq_decide]
      exact compare_le_iff_le
    simp only [State.exec,State.set,State.compare,State.branch,entry,shifted,
      Function.update_of_ne (show r3 ≠ r5 by decide),Function.update_of_ne (show r4 ≠ r5 by decide),taken,decide_eq_true_eq]
    exact rest
  by_cases above : from_.toInt ≤ to_.toInt
  · obtain ⟨s,returns,mem_eq,stores_eq⟩ := right_to_left from_ to_ count small mem 0 (Nat.zero_le _) gpr
      (compare from_.toInt to_.toInt) rfl rfl rfl
    refine ⟨s,begun s ?_,?_⟩
    · rw [if_pos above]
      exact returns
    · rw [if_pos above]
      exact ⟨mem_eq,stores_eq⟩
  · obtain ⟨s,returns,mem_eq,stores_eq⟩ := left_to_right from_ to_ count small mem 0 (Nat.zero_le _)
      (Function.update gpr r6 0) (compare from_.toInt to_.toInt) rfl rfl rfl rfl
    refine ⟨s,begun s ?_,?_⟩
    · rw [if_neg above]
      exact .step (i := .li r6 0) rfl nofun (.step (i := .b 8) rfl nofun returns)
    · rw [if_neg above]
      exact ⟨mem_eq,stores_eq⟩

theorem Returns.unique {s a b : State} (one : Returns s a) (other : Returns s b) : a = b := by
  obtain ⟨fuel,ran⟩ := one
  obtain ⟨fuel',ran'⟩ := other
  induction fuel generalizing fuel' s with
  | zero => cases ran
  | succ fuel ih =>
    cases fuel' with
    | zero => cases ran'
    | succ fuel' =>
      rw [run] at ran ran'
      split at ran
      · cases ran
      · rename_i here
        rw [here] at ran'
        exact (Option.some.inj ran).symm.trans (Option.some.inj ran')
      · rename_i goes_on here
        rw [here] at ran'
        split at ran'
        · contradiction
        · rename_i same
          exact absurd (Option.some.inj same) goes_on
        · rename_i same
          cases same
          exact ih ran fuel' ran'

theorem from_end_injective {base : Word} {count : Nat} (region : Region base count) : InjectiveBelow count (from_end base count) := by
  intro i j i_low j_low same
  have equal := element_injective region _ _ (by omega) (by omega) same
  omega

theorem from_end_stores (base : Word) (count : Nat) :
    ((List.range count).map (from_end base count)).Perm ((List.range count).map (element base)) := by
  have reversed : (List.range count).map (from_end base count) = ((List.range count).reverse).map (element base) := by
    rw [List.range_eq_range',List.reverse_range',List.map_map,← List.range_eq_range']
    apply List.map_congr_left
    intro i _
    change element base (count-1-i) = element base (0+count-1-i)
    rw [Nat.zero_add]
  rw [reversed]
  exact (List.reverse_perm _).map _

-- What is copied word by word, in either order, is a copy when no word is stored
-- before it is read.
theorem copied_all {from_ to_ : Word} {count : Nat} {src dst : Nat → Word} {mem : Word → Word}
    (distinct : InjectiveBelow count dst) (apart : ∀ i j, i < j → j < count → dst i ≠ src j)
    (order : ∀ i < count, ∃ j < count, dst j = element to_ i ∧ src j = element from_ i)
    (inside : ∀ j < count, ∃ i < count, dst j = element to_ i) :
    (∀ i < count, copy src dst mem count (element to_ i) = mem (element from_ i)) ∧
      ∀ a, (∀ i < count, a ≠ element to_ i) → copy src dst mem count a = mem a := by
  constructor
  · intro i low
    obtain ⟨j,j_low,target,source⟩ := order i low
    rw [← target,← source]
    exact copy_done distinct apart count (Nat.le_refl _) j_low
  · intro a outside
    apply copy_outside
    intro j low same
    obtain ⟨i,i_low,target⟩ := inside j low
    exact outside i i_low (same.trans target)

theorem toInt_of_high {x : Word} (high : x.msb = true) : x.toInt = x.toNat - 2^32 := by
  rw [BitVec.toInt_eq_msb_cond,if_pos high]
  rfl

theorem toInt_of_low {x : Word} (low : x.msb = false) : x.toInt = x.toNat := by
  rw [BitVec.toInt_eq_msb_cond,if_neg (by rw [low]; exact Bool.false_ne_true)]

-- The signed order is the order of addresses but across the middle.
theorem signed_order (x y : Word) : x.toInt ≤ y.toInt ↔ if x.msb = y.msb then x.toNat ≤ y.toNat else x.msb = true := by
  have x_low := x.isLt
  have y_low := y.isLt
  cases x_side : x.msb with
  | true =>
    rw [toInt_of_high x_side]
    cases y_side : y.msb with
    | true =>
      rw [toInt_of_high y_side,if_pos rfl]
      omega
    | false =>
      rw [toInt_of_low y_side,if_neg Bool.noConfusion]
      exact iff_of_true (by omega) rfl
  | false =>
    rw [toInt_of_low x_side]
    cases y_side : y.msb with
    | true =>
      rw [toInt_of_high y_side,if_neg Bool.noConfusion]
      exact iff_of_false (by omega) Bool.noConfusion
    | false =>
      rw [toInt_of_low y_side,if_pos rfl]
      omega

theorem elements_differ {from_ to_ : Word} {count : Nat} (source : Region from_ count) (target : Region to_ count) {i j : Nat}
    (i_low : i < count) (j_low : j < count) (numbers : to_.toNat + 4*i ≠ from_.toNat + 4*j) :
    element to_ i ≠ element from_ j := by
  intro same
  apply numbers
  rw [← element_toNat target i_low,← element_toNat source j_low,same]

theorem elements_meet {from_ to_ : Word} {count : Nat} (source : Region from_ count) (target : Region to_ count) {i j : Nat}
    (i_low : i < count) (j_low : j < count) (numbers : to_.toNat + 4*i = from_.toNat + 4*j) :
    element to_ i = element from_ j := by
  apply BitVec.eq_of_toNat_eq
  rw [element_toNat target i_low,element_toNat source j_low,numbers]

-- A target whose first word to be stored is read later is wrong after the copy.
theorem not_copies {from_ to_ : Word} {count k : Nat} {src dst : Nat → Word} (distinct : InjectiveBelow count dst)
    (sources : InjectiveBelow count src) (later : 0 < k) (low : k < count) (met : dst 0 = src k)
    (runs : ∀ mem, ∃ s, Returns (entry from_ to_ count mem 0) s ∧ s.mem = copy src dst mem count)
    (inside : ∃ i < count, element to_ i = dst k ∧ element from_ i = src k) : ¬ Copies from_ to_ count := by
  intro copies
  have stale := copy_stale distinct sources later low met (1 : Word) 0
  obtain ⟨s,returns,result⟩ := runs fun a => if a = src 0 then 1 else 0
  obtain ⟨s',returns',all,-,-⟩ := copies (fun a => if a = src 0 then 1 else 0) 0
  obtain rfl := returns.unique returns'
  obtain ⟨i,i_low,target,source⟩ := inside
  have last := all i i_low
  rw [result,target,source] at last
  exact absurd (stale.1.symm.trans (last.trans stale.2)) (by decide)

theorem straddles_not_copies (from_ to_ : Word) (count : Nat) (small : count < 2^29) (source : Region from_ count)
    (target : Region to_ count) (straddles : Straddles from_ to_ count) : ¬ Copies from_ to_ count := by
  obtain ⟨above,below,sides⟩ := straddles
  have from_aligned := source.aligned
  have to_aligned := target.aligned
  have signed := signed_order from_ to_
  rw [if_neg sides] at signed
  have from_half : from_.msb = true ↔ 2^31 ≤ from_.toNat := by rw [BitVec.msb_eq_decide,decide_eq_true_eq]
  have to_half : to_.msb = true ↔ 2^31 ≤ to_.toNat := by rw [BitVec.msb_eq_decide,decide_eq_true_eq]
  by_cases order : from_.toInt ≤ to_.toInt
  · -- the source is above the target and is copied from its end
    have from_high := signed.mp order
    have to_low : ¬ to_.msb = true := fun high => sides (from_high.trans high.symm)
    have from_far := from_half.mp from_high
    have to_near := to_half.not.mp to_low
    obtain ⟨k,distance⟩ : ∃ k, from_.toNat = to_.toNat + 4*k := ⟨(from_.toNat - to_.toNat)/4,by omega⟩
    refine not_copies (from_end_injective target) (from_end_injective source) (by omega : 0 < k) (by omega) ?_ ?_
      ⟨count-1-k,by omega,rfl,rfl⟩
    · exact elements_meet source target (by omega) (by omega) (by omega)
    · intro mem
      obtain ⟨s,returns,result⟩ := copy_runs from_ to_ count small mem 0
      rw [if_pos order] at result
      exact ⟨s,returns,result.1⟩
  · -- the target is above the source, which is copied from its beginning
    have from_low := signed.not.mp order
    have to_high : to_.msb = true := by
      by_contra to_low
      exact sides ((Bool.eq_false_of_not_eq_true from_low).trans (Bool.eq_false_of_not_eq_true to_low).symm)
    have from_near := from_half.not.mp from_low
    have to_far := to_half.mp to_high
    obtain ⟨k,distance⟩ : ∃ k, to_.toNat = from_.toNat + 4*k := ⟨(to_.toNat - from_.toNat)/4,by omega⟩
    refine not_copies (element_injective target) (element_injective source) (by omega : 0 < k) (by omega) ?_ ?_
      ⟨k,by omega,rfl,rfl⟩
    · exact elements_meet source target (by omega) (by omega) (by omega)
    · intro mem
      obtain ⟨s,returns,result⟩ := copy_runs from_ to_ count small mem 0
      rw [if_neg order] at result
      exact ⟨s,returns,result.1⟩

theorem apart_copies (from_ to_ : Word) (count : Nat) (small : count < 2^29) (source : Region from_ count)
    (target : Region to_ count) (apart : ¬ Straddles from_ to_ count) : Copies from_ to_ count := by
  intro mem others
  have signed := signed_order from_ to_
  have direction : from_.toNat ≤ to_.toNat ∧ from_.toInt ≤ to_.toInt ∨ to_.toNat < from_.toNat ∧ ¬ from_.toInt ≤ to_.toInt ∨
      to_.toNat + 4*count ≤ from_.toNat ∨ from_.toNat + 4*count ≤ to_.toNat := by
    by_cases same : from_.msb = to_.msb
    · rw [if_pos same] at signed
      by_cases lower : from_.toNat ≤ to_.toNat
      · exact Or.inl ⟨lower,signed.mpr lower⟩
      · exact Or.inr (Or.inl ⟨Nat.lt_of_not_le lower,signed.not.mpr lower⟩)
    · by_contra neither
      exact apart ⟨by omega,by omega,same⟩
  obtain ⟨s,returns,result⟩ := copy_runs from_ to_ count small mem others
  refine ⟨s,returns,?_⟩
  by_cases order : from_.toInt ≤ to_.toInt
  · rw [if_pos order] at result
    rw [result.1,result.2]
    have words := @copied_all from_ to_ count (from_end from_ count) (from_end to_ count) mem (from_end_injective target)
      (fun i j less low => elements_differ source target (by omega) (by omega) (by omega))
      (fun i low => ⟨count-1-i,by omega,by rw [from_end]; congr 1; omega,by rw [from_end]; congr 1; omega⟩)
      (fun j low => ⟨count-1-j,by omega,rfl⟩)
    exact ⟨words.1,words.2,from_end_stores to_ count⟩
  · rw [if_neg order] at result
    rw [result.1,result.2]
    have words := @copied_all from_ to_ count (element from_) (element to_) mem (element_injective target)
      (fun i j less low => elements_differ source target (by omega) (by omega) (by omega))
      (fun i low => ⟨i,low,rfl,rfl⟩) (fun j low => ⟨j,low,rfl⟩)
    exact ⟨words.1,words.2,List.Perm.refl _⟩

-- The routine copies all pairs of regions but those that overlap across the middle
-- of the address space, where the signed comparison takes the lower for the higher.
theorem copies_iff (from_ to_ : Word) (count : Nat) (small : count < 2^29) (source : Region from_ count)
    (target : Region to_ count) : Copies from_ to_ count ↔ ¬ Straddles from_ to_ count :=
  ⟨fun copies straddles => straddles_not_copies from_ to_ count small source target straddles copies,
    apart_copies from_ to_ count small source target⟩

theorem copies_overlapping : Copies 0 4 2 :=
  (copies_iff 0 4 2 (by decide) ⟨rfl,by decide⟩ ⟨rfl,by decide⟩).mpr fun straddles => straddles.2.2 rfl

theorem not_copies_across : ∃ (from_ to_ : Word) (count : Nat), count < 2^29 ∧ Region from_ count ∧ Region to_ count ∧
    ¬ Copies from_ to_ count := by
  have source : Region 0x7ffffffc#32 2 := ⟨rfl,by decide⟩
  have target : Region 0x80000000#32 2 := ⟨rfl,by decide⟩
  exact ⟨_,_,2,by decide,source,target,straddles_not_copies _ _ 2 (by decide) source target ⟨by decide,by decide,by decide⟩⟩

end IcedTea.ConjointCopy

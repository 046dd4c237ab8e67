import IcedTea.Assembler

namespace IcedTea.MacroAssembler
open Target
open Assembler (register_bits)

variable [Target]

-- The instructions that build constants. A register holds the signed value of
-- its bit pattern, of 32 bits or 64.
inductive Immediate where
  | li (value : Int) | lis (value : Int) | ori (value : Int) | oris (value : Int) | sldi (count : Nat)
  deriving DecidableEq, Repr

def signed (x : Int) : Int := (x + 2^(register_bits-1)) % 2^register_bits - 2^(register_bits-1)

def Immediate.apply (x : Int) : Immediate → Int
  | li value => extsh value
  | lis value => extsh value * 2^16
  | ori value => x - andImmediate x (value % 2^16) + value % 2^16
  | oris value => x - andImmediate (x / 2^16) (value % 2^16) * 2^16 + value % 2^16 * 2^16
  | sldi count => signed (x * 2^count)

-- The range a D-form operand may have.
def Immediate.Accepted : Immediate → Prop
  | li value | lis value | ori value | oris value => -2^16 ≤ value ∧ value < 2^16
  | sldi count => count < 64

-- MacroAssembler::load of a constant, with the pieces the source names.
def load (value : Int) : List Immediate :=
  match cpu with
  | .ppc32 =>
    let a := value / 2^16
    let b := value % 2^16
    if a ≠ 0 then [.lis a] ++ (if b ≠ 0 then [.ori b] else []) else [.li b]
  | .ppc64 =>
    let a := value / 2^48
    let b := value / 2^32 % 2^16
    let c := value / 2^16 % 2^16
    let d := value % 2^16
    (if a ≠ 0 then [.lis a] ++ (if b ≠ 0 then [.ori b] else []) else if b ≠ 0 then [.li b] else []) ++
    (if a ≠ 0 ∨ b ≠ 0 then [.sldi 32] else []) ++
    (if c ≠ 0 then
      (if a ≠ 0 ∨ b ≠ 0 then [.oris c] else [.lis c]) ++ (if d ≠ 0 then [.ori d] else [])
    else if d ≠ 0 ∨ ¬ (a ≠ 0 ∨ b ≠ 0) then
      if a ≠ 0 ∨ b ≠ 0 then [.ori d] else [.li d]
    else [])

def run (dst : Register) (code : List Immediate) (gpr : Register → Int) : Register → Int :=
  code.foldl (fun gpr i => Function.update gpr dst (i.apply (gpr dst))) gpr

-- A value of type long.
def Long (value : Int) : Prop := -2^(register_bits-1) ≤ value ∧ value < 2^(register_bits-1)

-- The constants whose first piece is loaded by an instruction that takes its
-- high bit for a sign.
def SignTaken (value : Int) : Prop :=
  match cpu with
  | .ppc32 => 2^15 ≤ value ∧ value < 2^16
  | .ppc64 => 2^15 ≤ value ∧ value < 2^16 ∨ 2^31 ≤ value ∧ value < 2^32 ∨ 2^47 ≤ value ∧ value < 2^48

theorem run_others (dst : Register) (code : List Immediate) (gpr : Register → Int) (other : r ≠ dst) :
    run dst code gpr r = gpr r := by
  unfold run
  induction code generalizing gpr with
  | nil => rfl
  | cons i code ih => rw [List.foldl_cons,ih,Function.update_of_ne other]

-- What the destination holds depends on nothing but its own contents.
theorem run_dst (dst : Register) (code : List Immediate) (gpr : Register → Int) :
    run dst code gpr dst = code.foldl Immediate.apply (gpr dst) := by
  unfold run
  induction code generalizing gpr with
  | nil => rfl
  | cons i code ih => rw [List.foldl_cons,ih,Function.update_self,List.foldl_cons]

omit [Target] in
theorem andImmediate_clear (x value : Int) (clear : x % 2^16 = 0) : andImmediate x value = 0 := by
  unfold andImmediate
  rw [clear,Int.toNat_zero,Nat.zero_and,Int.natCast_zero]

theorem ori_clear (x value : Int) (clear : x % 2^16 = 0) (low : 0 ≤ value) (high : value < 2^16) :
    (Immediate.ori value).apply x = x + value := by
  have same : value % 2^16 = value := by omega
  simp only [Immediate.apply,same,andImmediate_clear x value clear,Int.sub_zero]

theorem oris_clear (x value : Int) (clear : x % 2^32 = 0) (low : 0 ≤ value) (high : value < 2^16) :
    (Immediate.oris value).apply x = x + value*2^16 := by
  have same : value % 2^16 = value := by omega
  simp only [Immediate.apply,same,andImmediate_clear (x / 2^16) value (by omega),Int.zero_mul,Int.sub_zero]

omit [Target] in
theorem extsh_piece (x : Int) (low : 0 ≤ x) (high : x < 2^16) : extsh x = if x < 2^15 then x else x - 2^16 := by
  unfold extsh
  split <;> omega

omit [Target] in
theorem extsh_small (x : Int) (low : -2^15 ≤ x) (high : x < 2^15) : extsh x = x := by unfold extsh; omega

theorem load_ppc32 (word : cpu = .ppc32) (value old : Int) (long : Long value) :
    (load value).foldl Immediate.apply old = value ↔ ¬ SignTaken value := by
  simp only [Long,register_bits,word] at long
  simp only [load,SignTaken,word]
  by_cases high : value / 2^16 = 0
  · rw [if_neg (by simpa using high)]
    change extsh (value % 2^16) = value ↔ _
    rw [extsh_piece _ (by omega) (by omega)]
    split <;> omega
  · rw [if_pos high]
    have first : extsh (value / 2^16) = value / 2^16 := extsh_small _ (by omega) (by omega)
    by_cases low : value % 2^16 = 0
    · rw [if_neg (by simpa using low)]
      change extsh (value / 2^16) * 2^16 = value ↔ _
      omega
    · rw [if_pos low]
      change (Immediate.ori (value % 2^16)).apply (extsh (value / 2^16) * 2^16) = value ↔ _
      rw [ori_clear _ _ (by omega) (by omega) (by omega)]
      omega

-- The last two pieces, on top of a destination whose low word is clear.
theorem low_pieces (x c d : Int) (clear : x % 2^32 = 0) (c_low : 0 ≤ c) (c_high : c < 2^16) (d_low : 0 ≤ d)
    (d_high : d < 2^16) :
    ((if c ≠ 0 then [Immediate.oris c] ++ (if d ≠ 0 then [Immediate.ori d] else [])
      else if d ≠ 0 then [Immediate.ori d] else []).foldl Immediate.apply x) = x + c*2^16 + d := by
  have ori_last : ∀ y, y % 2^16 = 0 →
      ((if d ≠ 0 then [Immediate.ori d] else []).foldl Immediate.apply y) = y + d := by
    intro y y_clear
    by_cases some_d : d = 0
    · rw [if_neg (by simpa using some_d),List.foldl_nil,some_d,Int.add_zero]
    · rw [if_pos some_d]
      exact ori_clear y d y_clear d_low d_high
  by_cases some_c : c = 0
  · rw [if_neg (by simpa using some_c),ori_last x (by omega)]
    omega
  · rw [if_pos some_c,List.foldl_append,List.foldl_cons,List.foldl_nil,oris_clear x c clear c_low c_high]
    exact ori_last _ (by omega)

theorem signed_fits (word : cpu = .ppc64) (x : Int) (low : -2^63 ≤ x) (high : x < 2^63) : signed x = x := by
  simp only [signed,register_bits,word]
  omega

-- The first two pieces, when there is one, end in the high word.
theorem high_pieces (word : cpu = .ppc64) (a b old : Int) (some_high : a ≠ 0 ∨ b ≠ 0) (a_low : -2^15 ≤ a)
    (a_high : a < 2^15) (b_low : 0 ≤ b) (b_high : b < 2^16) :
    ((if a ≠ 0 then [Immediate.lis a] ++ (if b ≠ 0 then [Immediate.ori b] else [])
      else if b ≠ 0 then [Immediate.li b] else []) ++ [Immediate.sldi 32]).foldl Immediate.apply old =
      (if a = 0 then extsh b else a*2^16 + b) * 2^32 := by
  rw [List.foldl_append,List.foldl_cons,List.foldl_nil]
  by_cases some_a : a = 0
  · have some_b : b ≠ 0 := by omega
    rw [if_neg (by simpa using some_a),if_pos some_b,if_pos some_a]
    change signed (extsh b * 2^32) = _
    have piece := extsh_piece b b_low b_high
    apply signed_fits word
    all_goals split at piece <;> omega
  · have first : extsh a = a := extsh_small a a_low a_high
    rw [if_pos some_a,if_neg some_a]
    by_cases some_b : b = 0
    · rw [if_neg (by simpa using some_b)]
      change signed (extsh a * 2^16 * 2^32) = _
      rw [first,some_b,Int.add_zero]
      apply signed_fits word <;> omega
    · rw [if_pos some_b]
      change signed ((Immediate.ori b).apply (extsh a * 2^16) * 2^32) = _
      rw [ori_clear _ b (by omega) b_low b_high,first]
      apply signed_fits word <;> omega

theorem load_ppc64 (word : cpu = .ppc64) (value old : Int) (long : Long value) :
    (load value).foldl Immediate.apply old = value ↔ ¬ SignTaken value := by
  simp only [Long,register_bits,word] at long
  by_cases some_high : value / 2^48 ≠ 0 ∨ value / 2^32 % 2^16 ≠ 0
  · -- Everything below the high word is or'ed into it.
    have high := high_pieces word _ _ old some_high (by omega) (by omega) (by omega) (by omega)
    have low := low_pieces ((if value / 2^48 = 0 then extsh (value / 2^32 % 2^16)
      else value / 2^48 * 2^16 + value / 2^32 % 2^16) * 2^32) (value / 2^16 % 2^16) (value % 2^16)
      (by omega) (by omega) (by omega) (by omega) (by omega)
    have whole : (load value).foldl Immediate.apply old = (if value / 2^48 = 0 then extsh (value / 2^32 % 2^16)
        else value / 2^48 * 2^16 + value / 2^32 % 2^16) * 2^32 + value / 2^16 % 2^16 * 2^16 + value % 2^16 := by
      simp only [load,word,some_high,if_true,not_true,or_false]
      rw [List.foldl_append,high,low]
    rw [whole]
    have piece := extsh_piece (value / 2^32 % 2^16) (by omega) (by omega)
    simp only [SignTaken,word]
    by_cases some_a : value / 2^48 = 0
    · rw [if_pos some_a]
      split at piece <;> omega
    · rw [if_neg some_a]
      omega
  · have a_zero : value / 2^48 = 0 := by omega
    have b_zero : value / 2^32 % 2^16 = 0 := by omega
    have whole : (load value).foldl Immediate.apply old =
        (if value / 2^16 % 2^16 ≠ 0 then [Immediate.lis (value / 2^16 % 2^16)] ++
          (if value % 2^16 ≠ 0 then [Immediate.ori (value % 2^16)] else [])
        else [Immediate.li (value % 2^16)]).foldl Immediate.apply old := by
      simp only [load,word,a_zero,b_zero,ne_eq,not_true_eq_false,or_self,if_false,List.nil_append,
        not_false_eq_true,or_true,if_true]
    rw [whole]
    simp only [SignTaken,word]
    by_cases some_c : value / 2^16 % 2^16 = 0
    · rw [if_neg (by simpa using some_c)]
      change extsh (value % 2^16) = value ↔ _
      rw [extsh_piece _ (by omega) (by omega)]
      split <;> omega
    · have piece := extsh_piece (value / 2^16 % 2^16) (by omega) (by omega)
      rw [if_pos some_c]
      by_cases some_d : value % 2^16 = 0
      · rw [if_neg (by simpa using some_d)]
        change extsh (value / 2^16 % 2^16) * 2^16 = value ↔ _
        split at piece <;> omega
      · rw [if_pos some_d]
        change (Immediate.ori (value % 2^16)).apply (extsh (value / 2^16 % 2^16) * 2^16) = value ↔ _
        rw [ori_clear _ _ (by omega) (by omega) (by omega)]
        split at piece <;> omega

-- Every piece is an operand its instruction may have.
theorem load_accepted (value : Int) (long : Long value) : ∀ i ∈ load value, i.Accepted := by
  intro i member
  unfold Long register_bits at long
  unfold load at member
  cases word : cpu with
  | ppc32 =>
    simp only [word] at long member
    split at member
    · simp only [List.mem_append,List.mem_singleton] at member
      rcases member with rfl|last
      · simp only [Immediate.Accepted]
        omega
      · split at last
        · rw [List.mem_singleton] at last
          subst last
          simp only [Immediate.Accepted]
          omega
        · cases last
    · rw [List.mem_singleton] at member
      subst member
      simp only [Immediate.Accepted]
      omega
  | ppc64 =>
    simp only [word] at long member
    have pieces : i ∈ [Immediate.lis (value / 2^48),.ori (value / 2^32 % 2^16),.li (value / 2^32 % 2^16),.sldi 32,
        .oris (value / 2^16 % 2^16),.lis (value / 2^16 % 2^16),.ori (value % 2^16),.li (value % 2^16)] := by
      grind
    simp only [List.mem_cons,List.not_mem_nil,or_false] at pieces
    rcases pieces with rfl|rfl|rfl|rfl|rfl|rfl|rfl|rfl
    all_goals simp only [Immediate.Accepted]; omega

-- The constants that come out right are those no piece of which is taken for
-- a negative number.
theorem load_value (dst : Register) (value : Int) (gpr : Register → Int) (long : Long value) :
    (∀ i ∈ load value, i.Accepted) ∧
    ((run dst (load value) gpr dst = value ∧ ∀ r, r ≠ dst → run dst (load value) gpr r = gpr r) ↔
      ¬ SignTaken value) := by
  apply And.intro (load_accepted value long)
  rw [run_dst]
  have dst_value : (load value).foldl Immediate.apply (gpr dst) = value ↔ ¬ SignTaken value := by
    cases word : cpu with
    | ppc32 => exact load_ppc32 word value (gpr dst) long
    | ppc64 => exact load_ppc64 word value (gpr dst) long
  apply Iff.intro
  · intro h
    exact dst_value.mp h.1
  · intro right
    exact ⟨dst_value.mpr right,fun r other => run_others dst _ gpr other⟩

omit [Target] in
theorem load_value_address :
    letI := ppc32
    (∀ i ∈ load 0x12348765, i.Accepted) ∧
    ((run 3 (load 0x12348765) (fun _ => 7) 3 = 0x12348765 ∧
        ∀ r, r ≠ 3 → run 3 (load 0x12348765) (fun _ => 7) r = 7) ↔ ¬ SignTaken 0x12348765) :=
  letI := ppc32
  load_value 3 0x12348765 (fun _ => 7) ⟨by decide,by decide⟩

omit [Target] in
-- 0x8000 has one piece, and li takes its high bit for a sign.
theorem load_value_sign :
    letI := ppc32
    Long 0x8000 ∧ run 3 (load 0x8000) (fun _ => 7) 3 = -0x8000 ∧ ¬ run 3 (load 0x8000) (fun _ => 7) 3 = 0x8000 :=
  ⟨⟨by decide,by decide⟩,by decide,by decide⟩

end IcedTea.MacroAssembler

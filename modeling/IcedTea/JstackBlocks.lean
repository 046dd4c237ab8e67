import IcedTea.Jstack

namespace IcedTea.Jstack
open WhileLoop
variable (p : Process)

-- The bytes of the segment map over one block: 0 for its first segment, after that
-- 1 to 0xFE over and over.
def segment_tag (d : Nat) : Nat := if d = 0 then 0 else (d-1) % 0xFE + 1

theorem segment_tag_le (d : Nat) : segment_tag d ≤ d := by
  unfold segment_tag
  split
  · exact Nat.zero_le _
  · have part := Nat.mod_le (d-1) 0xFE
    omega

theorem segment_tag_pos (d : Nat) : 0 < segment_tag d ↔ 0 < d := by
  unfold segment_tag
  split <;> omega

theorem segment_tag_byte (d : Nat) : segment_tag d ≤ 0xFE := by
  unfold segment_tag
  split
  · exact Nat.zero_le _
  · have part := Nat.mod_lt (d-1) (show 0 < 0xFE by decide)
    omega

-- What is left of the distance after one step back.
def hop (d : Nat) : Nat := d - segment_tag d

theorem hop_le_iff (d j : Nat) : hop d ≤ 0xFE*j ↔ d ≤ 0xFE*(j+1) := by
  unfold hop segment_tag
  split
  · omega
  · have parts := Nat.div_add_mod (d-1) 0xFE
    have part := Nat.mod_lt (d-1) (show 0 < 0xFE by decide)
    omega

theorem hops_zero_iff (j d : Nat) : hop^[j] d = 0 ↔ d ≤ 0xFE*j := by
  induction j generalizing d with
  | zero => simp
  | succ j ih => rw [Function.iterate_succ_apply,ih,hop_le_iff]

theorem hops_le (j d : Nat) : hop^[j] d ≤ d := by
  induction j generalizing d with
  | zero => exact Nat.le_refl _
  | succ j ih =>
    rw [Function.iterate_succ_apply]
    exact Nat.le_trans (ih (hop d)) (Nat.sub_le _ _)

-- A block of the code heap, as the segment map has it. The heap lies in the lower
-- half of the addresses.
structure Block (first length : Nat) : Prop where
  fits : (first+length) * 2^p.CodeHeap_log2_segment_size.toNat ≤ 2^63
  tags : ∀ d < length, p.tag (BitVec.ofNat 64 (first+d)) = BitVec.ofNat 64 (segment_tag d)

def InSegment (segment : Nat) (pc : Long) : Prop := ∃ offset < 2^p.CodeHeap_log2_segment_size.toNat,
  pc = p.CodeCache_low + BitVec.ofNat 64 (segment * 2^p.CodeHeap_log2_segment_size.toNat + offset)

def block_start (first : Nat) : Long := p.CodeCache_low + BitVec.ofNat 64 (first * 2^p.CodeHeap_log2_segment_size.toNat)

-- The loop comes to its end at the first segment, and the block with it.
def FindsStart (first : Nat) (pc : Long) : Prop :=
  ∃ n u, Turns Segments.more (fun s t => t = s.back p) n (first_segment p pc) u ∧
    u.segment = BitVec.ofNat 64 first ∧
    p.CodeCache_low + u.segment <<< p.CodeHeap_log2_segment_size.toNat = block_start p first

-- The state of the loop at a distance from the first segment.
def at_distance (first d segments : Nat) : Segments := ⟨BitVec.ofNat 64 (first+d),BitVec.ofNat 64 (segment_tag d),segments⟩

theorem at_distance_more (first d segments : Nat) : (at_distance first d segments).more ↔ 0 < d ∧ segments < 16 := by
  have small := segment_tag_byte d
  have positive := segment_tag_pos d
  have value : (BitVec.ofNat 64 (segment_tag d)).toInt = segment_tag d := by
    have byte : (BitVec.ofNat 64 (segment_tag d)).toNat = segment_tag d := by
      rw [BitVec.toNat_ofNat,Nat.mod_eq_of_lt (by omega)]
    rw [BitVec.toInt_eq_toNat_of_lt (by omega),byte]
  refine and_congr_left fun _ => ?_
  change (0 : Long).slt (BitVec.ofNat 64 (segment_tag d)) = true ↔ _
  rw [BitVec.slt_iff_toInt_lt,value]
  change (0 : Int) < segment_tag d ↔ _
  omega

variable {p} {first length : Nat}

theorem at_distance_back (block : Block p first length) (inside : d < length) :
    (at_distance first d segments).back p = at_distance first (hop d) (segments+1) := by
  have less := segment_tag_le d
  have segment : BitVec.ofNat 64 (first+d) - BitVec.ofNat 64 (segment_tag d) = BitVec.ofNat 64 (first + hop d) := by
    rw [show first+d = first + hop d + segment_tag d by unfold hop; omega,BitVec.ofNat_add,BitVec.add_sub_cancel]
  have back : hop d < length := Nat.lt_of_le_of_lt (Nat.sub_le _ _) inside
  unfold Segments.back at_distance
  simp only [segment,block.tags (hop d) back]

-- Each turn is one hop, as long as the limit allows one.
theorem lookup_ends (block : Block p first length) {n : Nat} {s u : Segments}
    (turns : Turns Segments.more (fun s t => t = s.back p) n s u) (d segments : Nat) (inside : d < length)
    (start : s = at_distance first d segments) : u.segment = BitVec.ofNat 64 (first + hop^[16-segments] d) := by
  induction turns generalizing d segments with
  | stop done =>
    subst start
    rw [at_distance_more] at done
    by_cases limit : segments < 16
    · have zero : d = 0 := by omega
      subst zero
      have stays := hops_le (16-segments) 0
      rw [Nat.le_zero.mp stays]
      rfl
    · rw [Nat.sub_eq_zero_of_le (by omega)]
      rfl
  | turn goes_on one rest ih =>
    subst start
    have limit := ((at_distance_more first d segments).mp goes_on).2
    rw [at_distance_back block inside] at one
    have ends := ih (hop d) (segments+1) (Nat.lt_of_le_of_lt (Nat.sub_le _ _) inside) one
    rw [ends,show 16-segments = 16-(segments+1)+1 by omega,Function.iterate_succ_apply]

theorem first_segment_eq (block : Block p first length) (inside : d < length) (within : InSegment p (first+d) pc) :
    first_segment p pc = at_distance first d 0 := by
  obtain ⟨offset,small,rfl⟩ := within
  have fits := block.fits
  have tags := block.tags d inside
  unfold first_segment at_distance
  generalize p.CodeHeap_log2_segment_size.toNat = log2 at *
  have place : (first+d) * 2^log2 + offset < 2^63 := by
    have steps : (first+d+1) * 2^log2 ≤ (first+length) * 2^log2 := Nat.mul_le_mul_right _ (by omega)
    rw [Nat.add_one_mul] at steps
    omega
  have segment : (p.CodeCache_low + BitVec.ofNat 64 ((first+d) * 2^log2 + offset) - p.CodeCache_low).sshiftRight log2 =
      BitVec.ofNat 64 (first+d) := by
    rw [BitVec.add_comm,BitVec.add_sub_cancel]
    have low : (BitVec.ofNat 64 ((first+d) * 2^log2 + offset)).msb = false := by
      rw [BitVec.msb_eq_false_iff_two_mul_lt,BitVec.toNat_ofNat,Nat.mod_eq_of_lt (by omega)]
      omega
    rw [BitVec.sshiftRight_eq_of_msb_false low]
    apply BitVec.eq_of_toNat_eq
    rw [BitVec.toNat_ushiftRight,BitVec.toNat_ofNat,Nat.mod_eq_of_lt (by omega),Nat.shiftRight_eq_div_pow,
      Nat.mul_comm,Nat.mul_add_div (Nat.two_pow_pos _),Nat.div_eq_of_lt small,Nat.add_zero,BitVec.toNat_ofNat,
      Nat.mod_eq_of_lt]
    have larger := Nat.le_mul_of_pos_right (first+d) (Nat.two_pow_pos log2)
    omega
  simp only [segment,tags]

theorem shifted_segment (segment log2 : Nat) : (BitVec.ofNat 64 segment) <<< log2 = BitVec.ofNat 64 (segment * 2^log2) := by
  apply BitVec.eq_of_toNat_eq
  rw [BitVec.toNat_shiftLeft,BitVec.toNat_ofNat,BitVec.toNat_ofNat,Nat.shiftLeft_eq,Nat.mod_mul_mod]

-- The start is found when the hops that are allowed lead to it.
theorem finds_start_hops (block : Block p first length) (inside : d < length) (within : InSegment p (first+d) pc) :
    FindsStart p first pc ↔ hop^[16] d = 0 := by
  have begins := first_segment_eq block inside within
  constructor
  · rintro ⟨n,u,turns,found,-⟩
    have ends := lookup_ends block turns d 0 inside begins
    rw [found,Nat.sub_zero] at ends
    have fits := block.fits
    have larger := Nat.le_mul_of_pos_right (first+length) (Nat.two_pow_pos p.CodeHeap_log2_segment_size.toNat)
    have near := hops_le 16 d
    have numbers := congrArg BitVec.toNat ends
    rw [BitVec.toNat_ofNat,BitVec.toNat_ofNat,Nat.mod_eq_of_lt (by omega),Nat.mod_eq_of_lt (by omega)] at numbers
    omega
  · intro zero
    obtain ⟨n,-,u,turns⟩ := segments_stop p (first_segment p pc)
    have ends := lookup_ends block turns d 0 inside begins
    rw [Nat.sub_zero,zero,Nat.add_zero] at ends
    refine ⟨n,u,turns,ends,?_⟩
    rw [ends,shifted_segment]
    rfl

-- Sixteen hops lead back over that many times 0xFE segments.
theorem finds_start_iff (block : Block p first length) (inside : d < length) (within : InSegment p (first+d) pc) :
    FindsStart p first pc ↔ d ≤ 16*0xFE := by
  rw [finds_start_hops block inside within,hops_zero_iff,Nat.mul_comm]

-- A heap of 64-byte segments from address 0 whose map is that of one block.
def one_block : Process := {lost (.other (BitVec.allOnes 64) 8) with
  cast_ := fun member _ => if member = .memory_high then 0x80000 else if member = .log2_segment_size then 6 else 0
  user_char := fun a => BitVec.ofNat 64 (segment_tag a.toNat)}

theorem one_block_valid : Block one_block 0 0x2000 := by
  refine ⟨by decide,fun d inside => ?_⟩
  have small := segment_tag_byte d
  change BitVec.ofNat 64 (segment_tag (0#64 + BitVec.ofNat 64 (0+d)).toNat) &&& 0xff = _
  rw [BitVec.zero_add,Nat.zero_add,BitVec.toNat_ofNat,Nat.mod_eq_of_lt (by omega)]
  apply BitVec.eq_of_toNat_eq
  rw [BitVec.toNat_and,BitVec.toNat_ofNat]
  change segment_tag d % 2^64 &&& (2^8-1) = segment_tag d % 2^64
  rw [Nat.and_two_pow_sub_one_eq_mod]
  omega

theorem one_block_far : ¬ FindsStart one_block 0 (4065*64) := by
  have within : InSegment one_block (0+4065) (4065*64) := ⟨0,by decide,by decide⟩
  rw [finds_start_hops one_block_valid (show 4065 < 0x2000 by decide) within,hops_zero_iff]
  decide

-- In a block of this length the loop stops on its limit.
theorem not_always_found : ¬ ∀ (p : Process) (first length d : Nat) (pc : Long) (_ : Block p first length) (_ : d < length)
    (_ : InSegment p (first+d) pc), FindsStart p first pc :=
  fun all => one_block_far (all one_block 0 0x2000 4065 _ one_block_valid (by decide) ⟨0,by decide,by decide⟩)

theorem found_from_last_hop : FindsStart one_block 0 (4064*64) :=
  (finds_start_iff one_block_valid (show 4064 < 0x2000 by decide)
    (show InSegment one_block (0+4064) (4064*64) from ⟨0,by decide,by decide⟩)).mpr (by decide)

end IcedTea.Jstack

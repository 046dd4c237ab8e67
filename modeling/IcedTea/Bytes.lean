import IcedTea.ByteOrder
import IcedTea.Assembler

namespace IcedTea.Bytes
open ByteOrder
open Assembler (or_low)

-- The machine's accesses of aligned units, and of bytes.
def load (order : Order) (m : Memory) (p n : Nat) : Nat := value (order.arrange (region m p n))
def put (order : Order) (m : Memory) (p n x : Nat) : Memory := store m p (order.arrange (digits n x))
def put_byte (m : Memory) (p x : Nat) : Memory := Function.update m p (Fin.ofNat 256 x)

section Native
variable (order : Order) (m : Memory) (p : Nat)

def get_native_u2 : Nat :=
  if p &&& 1 = 0 then load order m p 2 else (m p).val <<< 8 ||| (m (p+1)).val

def get_native_u4 : Nat :=
  match p &&& 3 with
  | 0 => load order m p 4
  | 2 => load order m p 2 <<< 16 ||| load order m (p+2) 2
  | _ => (m p).val <<< 24 ||| (m (p+1)).val <<< 16 ||| (m (p+2)).val <<< 8 ||| (m (p+3)).val

def get_native_u8 : Nat :=
  match p &&& 7 with
  | 0 => load order m p 8
  | 4 => load order m p 4 <<< 32 ||| load order m (p+4) 4
  | 2 => load order m p 2 <<< 48 ||| load order m (p+2) 2 <<< 32 ||| load order m (p+4) 2 <<< 16 ||| load order m (p+6) 2
  | _ => (m p).val <<< 56 ||| (m (p+1)).val <<< 48 ||| (m (p+2)).val <<< 40 ||| (m (p+3)).val <<< 32 |||
      (m (p+4)).val <<< 24 ||| (m (p+5)).val <<< 16 ||| (m (p+6)).val <<< 8 ||| (m (p+7)).val

variable (x : Nat)

def put_native_u2 : Memory :=
  if p &&& 1 = 0 then put order m p 2 x else put_byte (put_byte m p (x >>> 8)) (p+1) x

def put_native_u4 : Memory :=
  match p &&& 3 with
  | 0 => put order m p 4 x
  | 2 => put order (put order m p 2 (x >>> 16)) (p+2) 2 x
  | _ => put_byte (put_byte (put_byte (put_byte m p (x >>> 24)) (p+1) (x >>> 16)) (p+2) (x >>> 8)) (p+3) x

def put_native_u8 : Memory :=
  match p &&& 7 with
  | 0 => put order m p 8 x
  | 4 => put order (put order m p 4 (x >>> 32)) (p+4) 4 x
  | 2 => put order (put order (put order (put order m p 2 (x >>> 48)) (p+2) 2 (x >>> 32)) (p+4) 2 (x >>> 16)) (p+6) 2 x
  | _ =>
    let m := put_byte (put_byte (put_byte (put_byte m p (x >>> 56)) (p+1) (x >>> 48)) (p+2) (x >>> 40)) (p+3) (x >>> 32)
    put_byte (put_byte (put_byte (put_byte m (p+4) (x >>> 24)) (p+5) (x >>> 16)) (p+6) (x >>> 8)) (p+7) x

end Native

inductive Width where
  | u2 | u4 | u8
  deriving DecidableEq, Repr

def Width.bytes : Width → Nat
  | u2 => 2
  | u4 => 4
  | u8 => 8

def get_native (width : Width) : Order → Memory → Nat → Nat :=
  match width with
  | .u2 => get_native_u2
  | .u4 => get_native_u4
  | .u8 => get_native_u8

def put_native (width : Width) : Order → Memory → Nat → Nat → Memory :=
  match width with
  | .u2 => put_native_u2
  | .u4 => put_native_u4
  | .u8 => put_native_u8

-- bswap_16, bswap_32 and bswap_64 where VM_LITTLE_ENDIAN is defined.
def swap (width : Width) (order : Order) (x : Nat) : Nat := value (order.arrange (digits width.bytes x))

def get_Java (width : Width) (order : Order) (m : Memory) (p : Nat) : Nat := swap width order (get_native width order m p)
def put_Java (width : Width) (order : Order) (m : Memory) (p x : Nat) : Memory :=
  put_native width order m p (swap width order x)

-- What the accesses at an address do, whatever the memory and the number.
structure Correct (width : Width) (order : Order) (p : Nat) : Prop where
  java_get : ∀ m, get_Java width order m p = value (region m p width.bytes)
  java_put : ∀ m x, x < 256^width.bytes → region (put_Java width order m p x) p width.bytes = digits width.bytes x ∧
    ∀ q, q < p ∨ p + width.bytes ≤ q → put_Java width order m p x q = m q
  native_get : ∀ m, get_native width order m p = value (order.arrange (region m p width.bytes))
  native_put : ∀ m x, x < 256^width.bytes →
    region (put_native width order m p x) p width.bytes = order.arrange (digits width.bytes x) ∧
      ∀ q, q < p ∨ p + width.bytes ≤ q → put_native width order m p x q = m q
  get_put : ∀ m x, x < 256^width.bytes → get_Java width order (put_Java width order m p x) p = x

theorem aligned_unit (width : Width) (order : Order) {p : Nat} (aligned : p % width.bytes = 0) (m : Memory) (x : Nat) :
    get_native width order m p = load order m p width.bytes ∧ put_native width order m p x = put order m p width.bytes x := by
  cases width with
  | u2 =>
    have low : p &&& 1 = 0 := (Nat.and_one_is_mod p).trans aligned
    exact ⟨if_pos low,if_pos low⟩
  | u4 =>
    have low : p &&& 3 = 0 := (Nat.and_two_pow_sub_one_eq_mod p 2).trans aligned
    constructor
    · change get_native_u4 order m p = _
      simp only [get_native_u4,low]
      rfl
    · change put_native_u4 order m p x = _
      simp only [put_native_u4,low]
      rfl
  | u8 =>
    have low : p &&& 7 = 0 := (Nat.and_two_pow_sub_one_eq_mod p 3).trans aligned
    constructor
    · change get_native_u8 order m p = _
      simp only [get_native_u8,low]
      rfl
    · change put_native_u8 order m p x = _
      simp only [put_native_u8,low]
      rfl

-- Two units in one, the high one first.
theorem region_two (m : Memory) (p n k : Nat) :
    value (region m p (n+k)) = value (region m p n)*256^k + value (region m (p+n) k) := by
  rw [region_append,value_append,region_length]

theorem store_two (m : Memory) (p n k x : Nat) :
    store (store m p (digits n (x / 256^k))) (p+n) (digits k x) = store m p (digits (n+k) x) := by
  rw [digits_append,store_append,digits_length]

theorem unit_lt (m : Memory) (p n : Nat) : value (region m p n) < 256^n := by
  have low := value_lt (region m p n)
  rwa [region_length] at low

theorem byte_unit (m : Memory) (p : Nat) : (m p).val = value (region m p 1) := by simp [region,value]

theorem put_byte_unit (m : Memory) (p x : Nat) : put_byte m p x = store m p (digits 1 x) := by
  simp [put_byte,digits,store]

theorem get_big (width : Width) (m : Memory) (p : Nat) : get_native width .big m p = value (region m p width.bytes) := by
  have low := fun q n => unit_lt m q n
  have bytes := fun q => (byte_unit m q).symm ▸ low q 1
  cases width with
  | u2 =>
    change get_native_u2 .big m p = value (region m p 2)
    unfold get_native_u2
    split
    · rfl
    · rw [region_two m p 1 1,← byte_unit,← byte_unit,Nat.shiftLeft_eq]
      exact or_low _ _ 8 (Nat.mul_mod_left _ _) (m (p+1)).isLt
  | u4 =>
    change get_native_u4 .big m p = value (region m p 4)
    unfold get_native_u4
    split
    · rfl
    · rw [region_two m p 2 2,Nat.shiftLeft_eq]
      exact or_low _ _ 16 (Nat.mul_mod_left _ _) (low (p+2) 2)
    · have one := (m p).isLt
      have two := (m (p+1)).isLt
      have three := (m (p+2)).isLt
      have four := (m (p+3)).isLt
      rw [region_two m p 3 1,region_two m p 2 1,region_two m p 1 1,← byte_unit,← byte_unit,← byte_unit,← byte_unit]
      simp only [Nat.shiftLeft_eq]
      rw [or_low _ ((m (p+1)).val*2^16) 24 (by omega) (by omega),or_low _ ((m (p+2)).val*2^8) 16 (by omega) (by omega),
        or_low _ (m (p+3)).val 8 (by omega) (by omega)]
      omega
  | u8 =>
    change get_native_u8 .big m p = value (region m p 8)
    unfold get_native_u8
    split
    · rfl
    · rw [region_two m p 4 4,Nat.shiftLeft_eq]
      exact or_low _ _ 32 (Nat.mul_mod_left _ _) (low (p+4) 4)
    · have two := low (p+2) 2
      have four := low (p+4) 2
      have six := low (p+6) 2
      rw [region_two m p 6 2,region_two m p 4 2,region_two m p 2 2]
      simp only [Nat.shiftLeft_eq,load,Order.arrange]
      rw [or_low _ (value (region m (p+2) 2)*2^32) 48 (by omega) (by omega),
        or_low _ (value (region m (p+4) 2)*2^16) 32 (by omega) (by omega),
        or_low _ (value (region m (p+6) 2)) 16 (by omega) (by omega)]
      omega
    · have one := (m (p+1)).isLt
      have two := (m (p+2)).isLt
      have three := (m (p+3)).isLt
      have four := (m (p+4)).isLt
      have five := (m (p+5)).isLt
      have six := (m (p+6)).isLt
      have seven := (m (p+7)).isLt
      rw [region_two m p 7 1,region_two m p 6 1,region_two m p 5 1,region_two m p 4 1,region_two m p 3 1,region_two m p 2 1,
        region_two m p 1 1,← byte_unit,← byte_unit,← byte_unit,← byte_unit,← byte_unit,← byte_unit,← byte_unit,← byte_unit]
      simp only [Nat.shiftLeft_eq]
      rw [or_low _ ((m (p+1)).val*2^48) 56 (by omega) (by omega),or_low _ ((m (p+2)).val*2^40) 48 (by omega) (by omega),
        or_low _ ((m (p+3)).val*2^32) 40 (by omega) (by omega),or_low _ ((m (p+4)).val*2^24) 32 (by omega) (by omega),
        or_low _ ((m (p+5)).val*2^16) 24 (by omega) (by omega),or_low _ ((m (p+6)).val*2^8) 16 (by omega) (by omega),
        or_low _ (m (p+7)).val 8 (by omega) (by omega)]
      omega

theorem put_big (width : Width) (m : Memory) (p x : Nat) :
    put_native width .big m p x = store m p (digits width.bytes x) := by
  have shifted : ∀ k, x >>> (8*k) = x / 256^k := by
    intro k
    rw [Nat.shiftRight_eq_div_pow,Nat.pow_mul]
  have shift_1 : x >>> 8 = x / 256^1 := shifted 1
  have shift_2 : x >>> 16 = x / 256^2 := shifted 2
  have shift_3 : x >>> 24 = x / 256^3 := shifted 3
  have shift_4 : x >>> 32 = x / 256^4 := shifted 4
  have shift_5 : x >>> 40 = x / 256^5 := shifted 5
  have shift_6 : x >>> 48 = x / 256^6 := shifted 6
  have shift_7 : x >>> 56 = x / 256^7 := shifted 7
  -- a unit above others, and the units below it
  have below : ∀ k j, x / 256^j / 256^k = x / 256^(k+j) := by
    intro k j
    rw [Nat.div_div_eq_div_mul,← Nat.pow_add,Nat.add_comm]
  have join : ∀ m n k j, store (store m p (digits n (x / 256^(k+j)))) (p+n) (digits k (x / 256^j)) =
      store m p (digits (n+k) (x / 256^j)) := by
    intro m n k j
    rw [← below k j]
    exact store_two m p n k (x / 256^j)
  have last : ∀ m n k, store (store m p (digits n (x / 256^k))) (p+n) (digits k x) = store m p (digits (n+k) x) :=
    fun m n k => store_two m p n k x
  cases width with
  | u2 =>
    change put_native_u2 .big m p x = store m p (digits 2 x)
    unfold put_native_u2
    split
    · rfl
    · rw [put_byte_unit,put_byte_unit,shift_1]
      exact last m 1 1
  | u4 =>
    change put_native_u4 .big m p x = store m p (digits 4 x)
    unfold put_native_u4
    split
    · rfl
    · simp only [put,Order.arrange]
      rw [shift_2]
      exact last m 2 2
    · simp only [put_byte_unit]
      rw [shift_1,shift_2,shift_3,join m 1 1 2,join m 2 1 1]
      exact last m 3 1
  | u8 =>
    change put_native_u8 .big m p x = store m p (digits 8 x)
    unfold put_native_u8
    split
    · rfl
    · simp only [put,Order.arrange]
      rw [shift_4]
      exact last m 4 4
    · simp only [put,Order.arrange]
      rw [shift_2,shift_4,shift_6,join m 2 2 4,join m 4 2 2]
      exact last m 6 2
    · simp only [put_byte_unit]
      rw [shift_1,shift_2,shift_3,shift_4,shift_5,shift_6,shift_7,join m 1 1 6,join m 2 1 5,join m 3 1 4,join m 4 1 3,
        join m 5 1 2,join m 6 1 1]
      exact last m 7 1

theorem swap_value (width : Width) (order : Order) (l : List Byte) (length : l.length = width.bytes) :
    swap width order (value (order.arrange l)) = value l := by
  have same := digits_value (order.arrange l)
  rw [arrange_length,length] at same
  rw [swap,same,arrange_arrange]

theorem digits_swap (width : Width) (order : Order) (x : Nat) :
    order.arrange (digits width.bytes (swap width order x)) = digits width.bytes x := by
  have same := digits_value (order.arrange (digits width.bytes x))
  rw [arrange_length,digits_length] at same
  rw [swap,same,arrange_arrange]

-- Where the native accesses are those of one unit, everything else follows.
theorem correct_of_unit (width : Width) (order : Order) (p : Nat)
    (get : ∀ m, get_native width order m p = load order m p width.bytes)
    (put_ : ∀ m x, put_native width order m p x = put order m p width.bytes x) : Correct width order p := by
  have kept : ∀ m x, region (put order m p width.bytes x) p width.bytes = order.arrange (digits width.bytes x) ∧
      ∀ q, q < p ∨ p + width.bytes ≤ q → put order m p width.bytes x q = m q := by
    intro m x
    have stored := region_store m p (order.arrange (digits width.bytes x))
    rw [arrange_length,digits_length] at stored
    refine ⟨stored,fun q outside => store_outside m p _ ?_⟩
    rwa [arrange_length,digits_length]
  have java : ∀ m, get_Java width order m p = value (region m p width.bytes) := by
    intro m
    rw [get_Java,get]
    exact swap_value width order _ (region_length m p _)
  have written : ∀ m x, region (put_Java width order m p x) p width.bytes = digits width.bytes x := by
    intro m x
    rw [put_Java,put_,(kept m _).1]
    exact digits_swap width order x
  refine ⟨java,fun m x _ => ⟨written m x,?_⟩,get,?_,?_⟩
  · intro q outside
    rw [put_Java,put_]
    exact (kept m _).2 q outside
  · intro m x _
    rw [put_]
    exact kept m x
  · intro m x low
    rw [java,written,value_digits,Nat.mod_eq_of_lt low]

-- A single one at the address: the pieces of a little-endian unit put it at the
-- high end, where the unit would have it at the low end.
theorem little_pieces (width : Width) (p : Nat) (unaligned : p % width.bytes ≠ 0) :
    get_native width .little (Function.update (fun _ => 0) p 1) p ≠
      value (Order.little.arrange (region (Function.update (fun _ => 0) p 1) p width.bytes)) := by
  cases width with
  | u2 =>
    have low : p &&& 1 ≠ 0 := fun zero => unaligned ((Nat.and_one_is_mod p).symm.trans zero)
    change get_native_u2 .little _ p ≠ value (Order.little.arrange (region _ p 2))
    rw [get_native_u2,if_neg low]
    simp [region,value,Order.arrange]
  | u4 =>
    have low : p &&& 3 ≠ 0 := fun zero => unaligned ((Nat.and_two_pow_sub_one_eq_mod p 2).symm.trans zero)
    change get_native_u4 .little _ p ≠ value (Order.little.arrange (region _ p 4))
    unfold get_native_u4
    split
    · contradiction
    all_goals simp [load,region,value,Order.arrange,Nat.add_assoc]
  | u8 =>
    have low : p &&& 7 ≠ 0 := fun zero => unaligned ((Nat.and_two_pow_sub_one_eq_mod p 3).symm.trans zero)
    change get_native_u8 .little _ p ≠ value (Order.little.arrange (region _ p 8))
    unfold get_native_u8
    split
    · contradiction
    all_goals simp [load,region,value,Order.arrange,Nat.add_assoc]

-- The accesses are right on a big-endian host, and elsewhere where they are aligned.
theorem accesses_correct (width : Width) (order : Order) (p : Nat) :
    Correct width order p ↔ order = .big ∨ p % width.bytes = 0 := by
  constructor
  · intro correct
    cases order with
    | big => exact Or.inl rfl
    | little =>
      by_contra wrong
      exact little_pieces width p (fun aligned => wrong (Or.inr aligned)) (correct.native_get _)
  · rintro (rfl|aligned)
    · exact correct_of_unit width .big p (get_big width · p) (put_big width · p)
    · exact correct_of_unit width order p (fun m => (aligned_unit width order aligned m 0).1)
        fun m x => (aligned_unit width order aligned m x).2

-- The two bytes at an odd address of a little-endian host.
theorem u2_incorrect : get_Java .u2 .little (Function.update (fun _ => 0) 1 1) 1 = 1 ∧
    value (region (Function.update (fun _ => 0) 1 1) 1 2) = 256 ∧ ¬ Correct .u2 .little 1 := by
  refine ⟨by decide,by decide,?_⟩
  intro correct
  exact little_pieces .u2 1 (by decide) (correct.native_get _)

end IcedTea.Bytes

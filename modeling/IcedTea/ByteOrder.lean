import Mathlib

namespace IcedTea.ByteOrder

-- Numbers as bytes, and the bytes of a memory.
abbrev Byte := Fin 256
abbrev Memory := Nat → Byte

instance Byte.ne_zero : NeZero 256 := ⟨by decide⟩

inductive Order where
  | big | little
  deriving DecidableEq, Repr

def Order.arrange : Order → List Byte → List Byte
  | big,l => l
  | little,l => l.reverse

-- The big-endian value of some bytes, and the big-endian form of a number.
def value : List Byte → Nat
  | [] => 0
  | b :: l => b.val*256^l.length + value l

def digits : Nat → Nat → List Byte
  | 0,_ => []
  | n+1,x => Fin.ofNat 256 (x / 256^n) :: digits n x

def region (m : Memory) : Nat → Nat → List Byte
  | _,0 => []
  | p,n+1 => m p :: region m (p+1) n

def store (m : Memory) : Nat → List Byte → Memory
  | _,[] => m
  | p,b :: l => store (Function.update m p b) (p+1) l

@[simp] theorem arrange_length (order : Order) (l : List Byte) : (order.arrange l).length = l.length := by
  cases order
  · rfl
  · exact List.length_reverse

theorem arrange_arrange (order : Order) (l : List Byte) : order.arrange (order.arrange l) = l := by
  cases order
  · rfl
  · exact List.reverse_reverse l

@[simp] theorem digits_length (n x : Nat) : (digits n x).length = n := by
  induction n with
  | zero => rfl
  | succ n ih => rw [digits,List.length_cons,ih]

@[simp] theorem region_length (m : Memory) (p n : Nat) : (region m p n).length = n := by
  induction n generalizing p with
  | zero => rfl
  | succ n ih => rw [region,List.length_cons,ih]

theorem value_lt (l : List Byte) : value l < 256^l.length := by
  induction l with
  | nil => decide
  | cons b l ih =>
    rw [value,List.length_cons,Nat.pow_succ']
    have most := Nat.mul_le_mul_right (256^l.length) (Nat.le_of_lt_succ b.isLt)
    omega

theorem value_append (l l' : List Byte) : value (l ++ l') = value l*256^l'.length + value l' := by
  induction l with
  | nil => simp [value]
  | cons b l ih =>
    rw [List.cons_append,value,value,ih,List.length_append,Nat.pow_add]
    ring

theorem value_digits (n x : Nat) : value (digits n x) = x % 256^n := by
  induction n with
  | zero => simp [digits,value,Nat.mod_one]
  | succ n ih =>
    rw [digits,value,ih,digits_length,Nat.pow_succ,Nat.mod_mul]
    simp only [Fin.ofNat_eq_cast,Fin.val_natCast]
    ring

theorem digits_append (n k x : Nat) : digits (n+k) x = digits n (x / 256^k) ++ digits k x := by
  induction n with
  | zero => simp [digits]
  | succ n ih => rw [Nat.succ_add,digits,digits,ih,List.cons_append,Nat.div_div_eq_div_mul,← Nat.pow_add,Nat.add_comm k n]

theorem digits_value (l : List Byte) : digits l.length (value l) = l := by
  induction l with
  | nil => rfl
  | cons b l ih =>
    have first : (b.val*256^l.length + value l) / 256^l.length = b.val := by
      rw [Nat.add_comm,Nat.add_mul_div_right _ _ (Nat.pow_pos (by decide)),Nat.div_eq_of_lt (value_lt l),Nat.zero_add]
    have rest : ∀ n, n ≤ l.length → digits n (b.val*256^l.length + value l) = digits n (value l) := by
      intro n
      induction n with
      | zero => exact fun _ => rfl
      | succ n inner =>
        intro low
        rw [digits,digits,inner (by omega)]
        congr 1
        apply Fin.ext
        simp only [Fin.ofNat_eq_cast,Fin.val_natCast]
        have several : 256^l.length = 256^(l.length-n-1)*256*256^n := by
          rw [← Nat.pow_succ,← Nat.pow_add]
          congr 1
          omega
        rw [several,← Nat.mul_assoc,Nat.add_comm,Nat.add_mul_div_right _ _ (Nat.pow_pos (by decide)),← Nat.mul_assoc,
          Nat.add_mul_mod_self_right]
    rw [List.length_cons,digits,value,first,rest _ (Nat.le_refl _),ih]
    congr 1
    exact Fin.ext (Nat.mod_eq_of_lt b.isLt)

theorem region_append (m : Memory) (p n k : Nat) : region m p (n+k) = region m p n ++ region m (p+n) k := by
  induction n generalizing p with
  | zero => simp [region]
  | succ n ih => rw [Nat.succ_add,region,region,ih,List.cons_append,Nat.add_assoc,Nat.add_comm 1 n]

theorem store_append (m : Memory) (p : Nat) (l l' : List Byte) :
    store m p (l ++ l') = store (store m p l) (p+l.length) l' := by
  induction l generalizing m p with
  | nil => rfl
  | cons b l ih => rw [List.cons_append,store,store,ih,List.length_cons,Nat.add_assoc,Nat.add_comm 1]

theorem store_outside (m : Memory) (p : Nat) (l : List Byte) {q : Nat} (outside : q < p ∨ p + l.length ≤ q) :
    store m p l q = m q := by
  induction l generalizing m p with
  | nil => rfl
  | cons b l ih =>
    rw [List.length_cons] at outside
    rw [store,ih _ _ (by omega),Function.update_of_ne (by omega)]

theorem region_store (m : Memory) (p : Nat) (l : List Byte) : region (store m p l) p l.length = l := by
  induction l generalizing m p with
  | nil => rfl
  | cons b l ih =>
    rw [List.length_cons,region,store,ih,store_outside _ _ _ (by omega),Function.update_self]

end IcedTea.ByteOrder

import Mathlib

namespace IcedTea.AssemblyText

abbrev Text := List Char

-- The operands that instructions are printed with.
inductive Operand where
  | gpr (n : Nat) | fpr (n : Nat) | crf (n : Nat) | number (x : Int)
  | displaced (d : Int) (base : Nat) | pointer (a : Nat)
  deriving DecidableEq, Repr

-- What printf writes for %d and %p.
def decimal (x : Int) : Text := if x < 0 then '-' :: Nat.toDigits 10 x.natAbs else Nat.toDigits 10 x.natAbs
def hexadecimal (a : Nat) : Text := '0' :: 'x' :: Nat.toDigits 16 a

-- The base register of a memory operand, or zero.
def base_text (n : Nat) : Text := if n = 0 then ['0'] else 'r' :: Nat.toDigits 10 n

def Operand.render : Operand → Text
  | gpr n => 'r' :: Nat.toDigits 10 n
  | fpr n => 'f' :: Nat.toDigits 10 n
  | crf n => 'c' :: 'r' :: Nat.toDigits 10 n
  | number x => decimal x
  | displaced d base => decimal d ++ '(' :: (base_text base ++ [')'])
  | pointer a => hexadecimal a

-- A line of assembly: the mnemonic, and the operands between commas.
structure Printed where
  mnemonic : Text
  operands : List Operand
  deriving DecidableEq, Repr

def Printed.render (p : Printed) : Text := p.mnemonic ++ [','].intercalate (p.operands.map fun o => ' ' :: o.render)

-- An assembler's reading of a line.
def read_decimal : Text → Int
  | '-' :: t => -(Nat.ofDigitChars 10 t 0 : Int)
  | t => Nat.ofDigitChars 10 t 0

def hex_digit (c : Char) : Nat := if c.isDigit then c.toNat - 48 else c.toNat - 87
def read_hexadecimal (t : Text) : Nat := t.foldl (fun a c => 16*a + hex_digit c) 0

def read_base : Text → Nat
  | 'r' :: t => Nat.ofDigitChars 10 t 0
  | _ => 0

def Operand.read : Text → Operand
  | 'r' :: t => gpr (Nat.ofDigitChars 10 t 0)
  | 'f' :: t => fpr (Nat.ofDigitChars 10 t 0)
  | 'c' :: 'r' :: t => crf (Nat.ofDigitChars 10 t 0)
  | '0' :: 'x' :: t => pointer (read_hexadecimal t)
  | t =>
    if '(' ∈ t then displaced (read_decimal (t.takeWhile (· ≠ '('))) (read_base (t.dropWhile (· ≠ '(')).tail.dropLast)
    else number (read_decimal t)

def Printed.read (t : Text) : Printed where
  mnemonic := t.takeWhile (· ≠ ' ')
  operands := match t.dropWhile (· ≠ ' ') with
    | [] => []
    | rest => (rest.splitOn ',').map fun o => .read o.tail

theorem digit_chars {b n : Nat} {c : Char} (positive : 1 < b) (member : c ∈ Nat.toDigits b n) :
    ∃ d < b, c = d.digitChar := by
  induction n using Nat.strongRecOn with
  | ind n ih =>
    rw [Nat.toDigits_eq_if positive] at member
    split at member
    · rename_i low
      rw [List.mem_singleton] at member
      exact ⟨n,low,member⟩
    · rename_i high
      rcases List.mem_append.mp member with front|last
      · exact ih (n/b) (Nat.div_lt_self (by omega) positive) front
      · rw [List.mem_singleton] at last
        exact ⟨n % b,Nat.mod_lt n (by omega),last⟩

-- A character that is no digit is in no number.
theorem not_in_digits {b n : Nat} {c : Char} (positive : 1 < b) (base : b ≤ 16)
    (no_digit : ∀ d : Fin 16, c ≠ d.val.digitChar) : c ∉ Nat.toDigits b n := by
  intro member
  obtain ⟨d,low,same⟩ := digit_chars positive member
  exact no_digit ⟨d,by omega⟩ same

theorem read_hexadecimal_digits (a : Nat) : read_hexadecimal (Nat.toDigits 16 a) = a := by
  have digit : ∀ d : Fin 16, hex_digit d.val.digitChar = d.val := by decide
  induction a using Nat.strongRecOn with
  | ind a ih =>
    rw [Nat.toDigits_eq_if (by decide)]
    split
    · rename_i low
      unfold read_hexadecimal
      rw [List.foldl_cons,List.foldl_nil,digit ⟨a,low⟩]
      simp
    · rename_i high
      have front := ih (a/16) (Nat.div_lt_self (by omega) (by decide))
      unfold read_hexadecimal at front ⊢
      rw [List.foldl_append,front,List.foldl_cons,List.foldl_nil,digit ⟨a % 16,Nat.mod_lt a (by decide)⟩]
      simp only
      omega

theorem not_in_decimal {x : Int} {c : Char} (no_sign : c ≠ '-') (no_digit : ∀ d : Fin 16, c ≠ d.val.digitChar) :
    c ∉ decimal x := by
  have digits := not_in_digits (n := x.natAbs) (by decide : 1 < 10) (by decide) no_digit
  unfold decimal
  split
  · rw [List.mem_cons,not_or]
    exact ⟨no_sign,digits⟩
  · exact digits

theorem read_decimal_decimal (x : Int) : read_decimal (decimal x) = x := by
  unfold decimal
  split
  · rw [read_decimal,Nat.ofDigitChars_ten_toDigits]
    omega
  · have no_sign : '-' ∉ Nat.toDigits 10 x.natAbs := not_in_digits (by decide) (by decide) (by decide)
    have value : (Nat.ofDigitChars 10 (Nat.toDigits 10 x.natAbs) 0 : Int) = x := by
      rw [Nat.ofDigitChars_ten_toDigits]
      omega
    unfold read_decimal
    split
    · rename_i front
      exact absurd (front ▸ List.mem_cons_self) no_sign
    · exact value

theorem read_base_text (n : Nat) : read_base (base_text n) = n := by
  unfold base_text
  split
  · rename_i zero
    rw [zero]
    rfl
  · rw [read_base,Nat.ofDigitChars_ten_toDigits]

-- A number, or a displacement from a base.
theorem read_number {t : Text} (no_x : 'x' ∉ t) (no_letter : ∀ c ∈ t.head?, c ≠ 'r' ∧ c ≠ 'f' ∧ c ≠ 'c') :
    Operand.read t = if '(' ∈ t then .displaced (read_decimal (t.takeWhile (· ≠ '(')))
      (read_base (t.dropWhile (· ≠ '(')).tail.dropLast) else .number (read_decimal t) := by
  unfold Operand.read
  split
  · exact absurd rfl (no_letter 'r' rfl).1
  · exact absurd rfl (no_letter 'f' rfl).2.1
  · exact absurd rfl (no_letter 'c' rfl).2.2
  · exact absurd (by simp) no_x
  · rfl

theorem decimal_head {x : Int} {t : Text} : ∀ c ∈ (decimal x ++ t).head?, c ≠ 'r' ∧ c ≠ 'f' ∧ c ≠ 'c' := by
  have some_digits : decimal x ≠ [] := by
    unfold decimal
    split
    · exact List.cons_ne_nil _ _
    · exact Nat.toDigits_ne_nil
  intro c first
  have member : c ∈ decimal x := by
    obtain ⟨b,front,whole⟩ := List.exists_cons_of_ne_nil some_digits
    rw [whole,List.cons_append] at first
    rw [whole,← Option.some.inj first]
    exact List.mem_cons_self
  unfold decimal at member
  have ten : ∀ d : Fin 10, d.val.digitChar ≠ 'r' ∧ d.val.digitChar ≠ 'f' ∧ d.val.digitChar ≠ 'c' := by decide
  have digit : c ∈ Nat.toDigits 10 x.natAbs → c ≠ 'r' ∧ c ≠ 'f' ∧ c ≠ 'c' := by
    intro in_digits
    obtain ⟨d,low,rfl⟩ := digit_chars (by decide) in_digits
    exact ten ⟨d,low⟩
  split at member
  · rcases List.mem_cons.mp member with rfl|in_digits
    · decide
    · exact digit in_digits
  · exact digit member

theorem Operand.read_render (o : Operand) : Operand.read o.render = o := by
  cases o with
  | gpr n => rw [render,read,Nat.ofDigitChars_ten_toDigits]
  | fpr n => rw [render,read,Nat.ofDigitChars_ten_toDigits]
  | crf n => rw [render,read,Nat.ofDigitChars_ten_toDigits]
  | pointer a => rw [render,hexadecimal,read,read_hexadecimal_digits]
  | number x =>
    have head := @decimal_head x []
    rw [List.append_nil] at head
    rw [render,read_number (not_in_decimal (by decide) (by decide)) head,
      if_neg (not_in_decimal (by decide) (by decide)),read_decimal_decimal]
  | displaced d base =>
    have no_paren : '(' ∉ decimal d := not_in_decimal (by decide) (by decide)
    have all : ∀ c ∈ decimal d, decide (c ≠ '(') = true := by
      intro c member
      rw [decide_eq_true_eq]
      rintro rfl
      exact no_paren member
    have no_x : 'x' ∉ decimal d ++ '(' :: (base_text base ++ [')']) := by
      have digits : 'x' ∉ Nat.toDigits 10 base := not_in_digits (by decide) (by decide) (by decide)
      have front : 'x' ∉ decimal d := not_in_decimal (by decide) (by decide)
      unfold base_text
      split <;> simp [front,digits]
    have paren : '(' ∈ decimal d ++ '(' :: (base_text base ++ [')']) := by simp
    rw [render,read_number no_x decimal_head,if_pos paren,List.takeWhile_append_of_pos all,
      List.dropWhile_append_of_pos all]
    simp [read_decimal_decimal,read_base_text]

theorem no_comma (o : Operand) : ',' ∉ ' ' :: o.render := by
  have digits : ∀ {b n}, 1 < b → b ≤ 16 → ',' ∉ Nat.toDigits b n := fun positive base =>
    not_in_digits positive base (by decide)
  have number : ∀ x, ',' ∉ decimal x := fun x => not_in_decimal (by decide) (by decide)
  cases o with
  | gpr n => simpa [Operand.render] using digits (by decide) (by decide)
  | fpr n => simpa [Operand.render] using digits (by decide) (by decide)
  | crf n => simpa [Operand.render] using digits (by decide) (by decide)
  | number x => simpa [Operand.render] using number x
  | displaced d base =>
    have base_digits : ',' ∉ base_text base := by
      unfold base_text
      split
      · decide
      · simpa using digits (by decide) (by decide)
    simp [Operand.render,number d,base_digits]
  | pointer a => simpa [Operand.render,hexadecimal] using digits (by decide) (by decide)

-- What is printed reads back.
theorem Printed.read_render (p : Printed) (one_word : ' ' ∉ p.mnemonic) : Printed.read p.render = p := by
  obtain ⟨mnemonic,operands⟩ := p
  have all : ∀ c ∈ mnemonic, decide (c ≠ ' ') = true := by
    intro c member
    rw [decide_eq_true_eq]
    rintro rfl
    exact one_word member
  unfold Printed.read Printed.render
  rw [List.takeWhile_append_of_pos all,List.dropWhile_append_of_pos all]
  cases operands with
  | nil => simp
  | cons o os =>
    have begins : ∃ rest, [','].intercalate ((o :: os).map fun o => ' ' :: o.render) = ' ' :: rest := by
      cases os with
      | nil => exact ⟨_,List.append_nil _⟩
      | cons next os => exact ⟨_,rfl⟩
    obtain ⟨rest,begins⟩ := begins
    have no_commas : ∀ l ∈ (o :: os).map fun o => ' ' :: o.render, ',' ∉ l := by
      intro l member
      obtain ⟨o,_,rfl⟩ := List.mem_map.mp member
      exact no_comma o
    have cut := List.splitOn_intercalate ',' no_commas (by simp)
    rw [begins] at cut ⊢
    have stays : (' ' :: rest).dropWhile (fun c => decide (c ≠ ' ')) = ' ' :: rest := by rw [List.dropWhile_cons]; rfl
    have stops : (' ' :: rest).takeWhile (fun c => decide (c ≠ ' ')) = [] := by rw [List.takeWhile_cons]; rfl
    rw [stays,stops]
    simp only [cut,List.append_nil,List.map_map]
    congr 1
    apply List.map_id''
    exact Operand.read_render

end IcedTea.AssemblyText

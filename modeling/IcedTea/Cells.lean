import IcedTea.Writes
import Mathlib.Data.Int.Basic
import Mathlib.Tactic.Ring

namespace IcedTea

-- Memory of aligned 32-bit cells, addressed by byte. A word is one cell, or
-- two cells with the high one at the lower address. The high cell of a wide
-- word keeps everything above the low 32 bits, so a word read back is the
-- word written for every integer, whatever its size.
abbrev Cells := Int → Int

namespace Cells

def width (wide : Bool) : Int := if wide then 8 else 4

def put (m : Cells) (a v : Int) : Cells := fun b => if b = a then v else m b

def word (wide : Bool) (m : Cells) (a : Int) : Int :=
  if wide then m a * 2^32 + m (a+4) % 2^32 else m a

def putWord (wide : Bool) (m : Cells) (a v : Int) : Cells :=
  if wide then (m.put a (v / 2^32)).put (a+4) (v % 2^32) else m.put a v

@[simp] theorem put_same (m : Cells) (a v : Int) : m.put a v a = v := by simp [put]
theorem put_other (m : Cells) (v : Int) (other : b ≠ a) : m.put a v b = m b := by simp [put,other]

theorem width_pos (wide : Bool) : 0 < width wide := by cases wide <;> decide

-- A cell is part of the word at `a` when it starts inside it.
def Inside (wide : Bool) (a b : Int) : Prop := a ≤ b ∧ b < a + width wide

theorem putWord_outside (m : Cells) (v : Int) (outside : b < a ∨ a + width wide ≤ b) :
    m.putWord wide a v b = m b := by
  cases wide with
  | false =>
    have other : b ≠ a := by simp only [width] at outside; grind
    simp [putWord,put_other _ _ other]
  | true =>
    have first : b ≠ a := by simp only [width] at outside; grind
    have second : b ≠ a+4 := by simp only [width] at outside; grind
    simp [putWord,put_other _ _ first,put_other _ _ second]

@[simp] theorem word_putWord (m : Cells) (a v : Int) : (m.putWord wide a v).word wide a = v := by
  cases wide with
  | false => simp [word,putWord]
  | true =>
    have low : a ≠ a+4 := by omega
    simp only [word,putWord,ite_true,put_same,put_other _ _ low,Int.emod_emod_of_dvd _ (dvd_refl _)]
    exact Int.ediv_mul_add_emod v (2^32)

theorem word_congr (same : ∀ b, a ≤ b → b < a + width wide → m b = m' b) :
    word wide m a = word wide m' a := by
  have first := same a (Int.le_refl a) (by have := width_pos wide; omega)
  cases wide with
  | false => simpa [word] using first
  | true =>
    have second := same (a+4) (by omega) (by simp [width])
    simp [word,first,second]

theorem word_putWord_apart (m : Cells) (v : Int)
    (apart : a + width wide ≤ b ∨ b + width wide' ≤ a) :
    (m.putWord wide a v).word wide' b = m.word wide' b := by
  refine word_congr fun c low high => putWord_outside m v ?_
  omega

-- The cells of one stored word.
def wordCells (wide : Bool) (a v : Int) : List (Int × Int) :=
  if wide then [(a+4,v % 2^32),(a,v / 2^32)] else [(a,v)]

theorem put_writes (m : Cells) (a v : Int) : Writes (fun (m : Cells) b => m b) (fun _ => False) [(a,v)] m (m.put a v) := by
  intro b _
  by_cases same : b = a
  · subst same; simp
  · have differ : (b == a) = false := beq_false_of_ne same
    simp [put,same,List.lookup,differ]

theorem putWord_writes (m : Cells) (a v : Int) :
    Writes (fun (m : Cells) b => m b) (fun _ => False) (wordCells wide a v) m (m.putWord wide a v) := by
  cases wide with
  | false => exact put_writes m a v
  | true => exact (put_writes m a (v / 2^32)).trans (put_writes _ (a+4) (v % 2^32))

theorem wordCells_range (member : c ∈ wordCells wide a v) : a ≤ c.1 ∧ c.1 + 4 ≤ a + width wide := by
  cases wide <;> simp [wordCells,width] at member ⊢
  · subst member; simp
  · rcases member with rfl | rfl <;> constructor <;> simp only <;> omega

theorem word_of_cells (held : ∀ c ∈ wordCells wide a v, m c.1 = c.2) : word wide m a = v := by
  cases wide with
  | false => simpa [word,wordCells] using held
  | true =>
    simp only [wordCells,if_true,List.mem_cons,List.not_mem_nil,or_false,forall_eq_or_imp,forall_eq] at held
    simp only [word,if_true,held.1,held.2,Int.emod_emod_of_dvd _ (dvd_refl _)]
    exact Int.ediv_mul_add_emod v (2^32)

-- Two memories agree outside a half-open range of addresses.
def SameOutside (low high : Int) (m m' : Cells) : Prop := ∀ b, b < low ∨ high ≤ b → m' b = m b

theorem SameOutside.refl (low high : Int) (m : Cells) : SameOutside low high m m := fun _ _ => rfl

theorem SameOutside.trans (one : SameOutside low high m m') (two : SameOutside low high m' m'') :
    SameOutside low high m m'' := fun b outside => (two b outside).trans (one b outside)

theorem SameOutside.mono (same : SameOutside low high m m') (below : low' ≤ low) (above : high ≤ high') :
    SameOutside low' high' m m' := fun b outside => same b (by omega)

theorem SameOutside.putWord (m : Cells) (v : Int) (below : low ≤ a) (above : a + width wide ≤ high) :
    SameOutside low high m (m.putWord wide a v) :=
  fun _ outside => putWord_outside m v (by omega)

theorem SameOutside.word (same : SameOutside low high m m')
    (outside : a + width wide ≤ low ∨ high ≤ a) : m'.word wide a = m.word wide a :=
  word_congr fun b lower upper => same b (by omega)

-- A table of addressed words, and the statement that memory holds it.
abbrev Table := List (Int × Int)

def Holds (wide : Bool) (m : Cells) (table : Table) : Prop := ∀ row ∈ table, m.word wide row.1 = row.2

@[simp] theorem holds_nil : Holds wide m [] := by simp [Holds]

@[simp] theorem holds_cons :
    Holds wide m ((a,v) :: rest) ↔ m.word wide a = v ∧ Holds wide m rest := by simp [Holds]

@[simp] theorem holds_append :
    Holds wide m (one ++ two) ↔ Holds wide m one ∧ Holds wide m two := by
  simp only [Holds,List.mem_append,or_imp,forall_and]

-- The table survives every change of memory that stays out of its words.
theorem Holds.same (held : Holds wide m table) (same : SameOutside low high m m')
    (outside : ∀ row ∈ table, row.1 + width wide ≤ low ∨ high ≤ row.1) : Holds wide m' table :=
  fun row member => (same.word (outside row member)).trans (held row member)

end Cells
end IcedTea

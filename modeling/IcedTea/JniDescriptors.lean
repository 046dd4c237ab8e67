import IcedTea.JniCreateStap

namespace IcedTea.JniCreateStap

-- The first word of a line that is neither blank nor a comment.
structure Word where
  text : String
  word : ' ' ∉ text.toList
  begins : ∃ c rest, text.toList = c :: rest ∧ c ≠ '#'

inductive Representation where
  | string | hex | number
  deriving DecidableEq, Repr

def Representation.letter : Representation → Char
  | string => 's'
  | hex => 'x'
  | number => 'd'

structure Argument where
  name : Word
  not_ret : name.text ≠ "ret"
  type : Representation
  desc : String

-- A return value, without a type when it is void.
structure Returned where
  type : Option Representation
  desc : String

def Returned.letter (r : Returned) : Char := match r.type with | none => 'v' | some type => type.letter

structure Descriptor where
  name : Word
  desc : String
  args : List Argument
  ret : Option Returned

-- A line after the first, as the file has it.
structure Item where
  name : Word
  type : Char
  desc : String

def Item.line (i : Item) : List Char := i.name.text.toList ++ ' ' :: i.type :: ' ' :: i.desc.toList

def ret_word : Word := ⟨"ret",by decide,'r',['e','t'],rfl,by decide⟩
def Argument.item (a : Argument) : Item := ⟨a.name,a.type.letter,a.desc⟩
def Returned.item (r : Returned) : Item := ⟨ret_word,r.letter,r.desc⟩

namespace Descriptor
def line (d : Descriptor) : List Char := d.name.text.toList ++ ' ' :: d.desc.toList
def items (d : Descriptor) : List Item := d.args.map Argument.item ++ d.ret.toList.map Returned.item

-- The probe that a descriptor stands for.
def probe (d : Descriptor) : Probe where
  name := d.name.text
  desc := d.desc
  args := d.items.map fun i => i.name.text
  types := d.items.map Item.type
  descs := d.items.map Item.desc
end Descriptor

def comment (line : List Char) : Prop := line.head? = some '#'
instance (line : List Char) : Decidable (comment line) := inferInstanceAs (Decidable (_ = _))

-- The lines of one block, with the comments in it.
def Block (d : Descriptor) (block : List (List Char)) : Prop :=
  ∃ rest, block = d.line :: rest ∧ (rest.filter fun line => ¬ comment line) = d.items.map Item.line

-- A file: blocks with blank lines after them, and blank lines and comments between them.
inductive File : List (List Char) → List Descriptor → Prop where
  | empty : File [] []
  | blank (rest : File file ds) : File ([] :: file) ds
  | comment (line) (is_comment : comment line) (rest : File file ds) : File (line :: file) ds
  | block (d) (block) (lines : Block d block) (ends : file = [] ∨ ∃ more, file = [] :: more) (rest : File file ds) :
      File (block ++ file) (d :: ds)

-- A text with these lines. The last need not be ended.
def Written (file : List (List Char)) (text : List Char) : Prop :=
  (∀ line ∈ file, '\n' ∉ line) ∧
    (text = file.flatMap (· ++ ['\n']) ∨
      ∃ first last, file = first ++ [last] ∧ last ≠ [] ∧ text = first.flatMap (· ++ ['\n']) ++ last)

theorem lines_line (line rest : List Char) (plain : '\n' ∉ line) : lines (line ++ '\n' :: rest) = line :: lines rest := by
  induction line with
  | nil => rw [List.nil_append,lines,if_pos rfl]
  | cons c line ih =>
    have apart := List.ne_of_not_mem_cons plain
    rw [List.cons_append,lines,if_neg (Ne.symm apart),ih (List.not_mem_of_not_mem_cons plain)]

theorem lines_last (line : List Char) (plain : '\n' ∉ line) (more : line ≠ []) : lines line = [line] := by
  induction line with
  | nil => exact absurd rfl more
  | cons c line ih =>
    have apart := List.ne_of_not_mem_cons plain
    rw [lines,if_neg (Ne.symm apart)]
    cases line with
    | nil => rfl
    | cons c' line => rw [ih (List.not_mem_of_not_mem_cons plain) (List.cons_ne_nil _ _)]

theorem lines_ended (file : List (List Char)) (plain : ∀ line ∈ file, '\n' ∉ line) (rest : List Char) :
    lines (file.flatMap (· ++ ['\n']) ++ rest) = file ++ lines rest := by
  induction file with
  | nil => rfl
  | cons line file ih =>
    rw [List.flatMap_cons,List.append_assoc,List.append_assoc,List.singleton_append,
      lines_line line _ (plain line List.mem_cons_self),ih fun line' inside => plain line' (List.mem_cons_of_mem _ inside)]
    rfl

theorem lines_written {file : List (List Char)} {text : List Char} (written : Written file text) : lines text = file := by
  obtain ⟨plain,rfl | ⟨first,last,rfl,more,rfl⟩⟩ := written
  · have all := lines_ended file plain []
    rwa [List.append_nil,lines,List.append_nil] at all
  · rw [lines_ended first fun line inside => plain line (List.mem_append_left _ inside),
      lines_last last (plain last (List.mem_append_right _ (List.mem_singleton.mpr rfl))) more]

-- What comes before the first blank is what find and substr take for the word.
theorem find_word (w : Word) (rest : List Char) : find (w.text.toList ++ ' ' :: rest) = some w.text.toList.length := by
  unfold find
  rw [List.findIdx?_append,List.findIdx?_eq_none_iff.mpr]
  · simp [List.findIdx?_cons]
  · intro c inside
    have apart : c ≠ ' ' := fun same => w.word (same ▸ inside)
    simpa using apart

theorem substr_word (w : Word) (rest : List Char) :
    substr (w.text.toList ++ ' ' :: rest) 0 (some w.text.toList.length) = some w.text := by
  unfold substr
  rw [if_neg (Nat.not_lt_zero _)]
  simp [String.ofList_toList]

theorem substr_after (before : List Char) (s : String) (k : Nat) (length : before.length = k) :
    substr (before ++ s.toList) k none = some s := by
  subst length
  unfold substr
  rw [if_neg (by rw [List.length_append]; omega),List.drop_left,String.ofList_toList]

theorem probe_line_eq (d : Descriptor) : probe_line d.line = some ⟨d.name.text,d.desc,[],[],[]⟩ := by
  have after : substr d.line (past (some d.name.text.toList.length) 1) none = some d.desc := by
    have split : d.line = (d.name.text.toList ++ [' ']) ++ d.desc.toList := by simp [Descriptor.line]
    rw [split]
    exact substr_after _ _ _ (by simp [past])
  have found : find d.line = some d.name.text.toList.length := find_word d.name _
  have word : substr d.line 0 (some d.name.text.toList.length) = some d.name.text := substr_word d.name _
  unfold probe_line
  simp only [found,word,after]
  rfl

theorem push_back_eq (p : Probe) (i : Item) : p.push_back i.line =
    some {p with args := p.args ++ [i.name.text], types := p.types ++ [i.type], descs := p.descs ++ [i.desc]} := by
  have after : substr i.line (past (some i.name.text.toList.length) 3) none = some i.desc := by
    have split : i.line = (i.name.text.toList ++ [' ',i.type,' ']) ++ i.desc.toList := by simp [Item.line]
    rw [split]
    exact substr_after _ _ _ (by simp [past])
  have found : find i.line = some i.name.text.toList.length := find_word i.name _
  have word : substr i.line 0 (some i.name.text.toList.length) = some i.name.text := substr_word i.name _
  have letter : i.line.getD (past (some i.name.text.toList.length) 1) (Char.ofNat 0) = i.type := by
    simp [Item.line,past,List.getD_eq_getElem?_getD]
  unfold Probe.push_back
  simp only [found,word,after,letter]
  rfl

-- No line of a block but its comments is skipped.
theorem word_line (w : Word) (rest : List Char) :
    (w.text.toList ++ ' ' :: rest).length ≠ 0 ∧ ¬ comment (w.text.toList ++ ' ' :: rest) := by
  obtain ⟨c,more,text,other⟩ := w.begins
  rw [text]
  refine ⟨by simp,fun is_comment => other ?_⟩
  exact Option.some.inj is_comment

def Probe.push_items (p : Probe) (items : List Item) : Probe := {p with
  args := p.args ++ items.map fun i => i.name.text
  types := p.types ++ items.map Item.type
  descs := p.descs ++ items.map Item.desc}

-- The inner loop, up to the end of the block. Each line is a comment or the next item.
theorem read_items (rest file : List (List Char)) (ends : file = [] ∨ ∃ more, file = [] :: more) (items : List Item)
    (lines : (rest.filter fun line => ¬ comment line) = items.map Item.line) (p : Probe) :
    read (some p) (rest ++ file) = (read none file).map (p.push_items items :: ·) := by
  induction rest generalizing items p with
  | nil =>
    have none_left : items = [] := List.map_eq_nil_iff.mp lines.symm
    subst none_left
    have same : p.push_items [] = p := by simp [Probe.push_items]
    rw [same,List.nil_append]
    rcases ends with rfl | ⟨more,rfl⟩
    · rfl
    · have blank : read none ([] :: more) = read none more := by rw [read,if_pos (.inl rfl)]
      rw [blank,read,if_pos List.length_nil]
      cases read none more <;> rfl
  | cons line rest ih =>
    rw [List.cons_append]
    by_cases is_comment : comment line
    · have nonempty : line.length ≠ 0 := by
        intro empty
        rw [List.length_eq_zero_iff.mp empty] at is_comment
        exact absurd is_comment (by decide)
      rw [List.filter_cons_of_neg (by simpa using is_comment)] at lines
      have starts : line.head? = some '#' := is_comment
      rw [read,if_neg nonempty,if_pos starts]
      exact ih items lines p
    · rw [List.filter_cons_of_pos (by simpa using is_comment)] at lines
      cases items with
      | nil => cases lines
      | cons i items =>
        rw [List.map_cons] at lines
        obtain ⟨same,remaining⟩ := List.cons.inj lines
        subst same
        have kept : i.line.length ≠ 0 ∧ ¬ i.line.head? = some '#' := word_line i.name (i.type :: ' ' :: i.desc.toList)
        rw [read,if_neg kept.1,if_neg kept.2,push_back_eq]
        have inner := ih items remaining
          {p with args := p.args ++ [i.name.text], types := p.types ++ [i.type], descs := p.descs ++ [i.desc]}
        refine inner.trans ?_
        simp [Probe.push_items]

-- What a file in the documented format lists is what is read.
theorem read_file {file : List (List Char)} {ds : List Descriptor} (described : File file ds) :
    read none file = some (ds.map Descriptor.probe) := by
  induction described with
  | empty => rfl
  | blank _ ih => rw [read,if_pos (.inl rfl),ih]
  | comment line is_comment _ ih => rw [read,if_pos (.inr is_comment),ih]
  | block d block lines ends _ ih =>
    obtain ⟨rest,rfl,items⟩ := lines
    have kept : d.line.length ≠ 0 ∧ ¬ d.line.head? = some '#' := word_line d.name d.desc.toList
    rw [List.cons_append,read,if_neg (not_or.mpr ⟨kept.1,kept.2⟩),probe_line_eq]
    refine (read_items rest _ ends d.items items _).trans ?_
    rw [ih]
    rfl

end IcedTea.JniCreateStap

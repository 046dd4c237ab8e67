import IcedTea.Preprocess
import Mathlib.Logic.Function.Basic

namespace IcedTea.Generate

-- What a C preprocessor finds in a source: text, comments and directives. The
-- white space of a directive is kept, `rest` being what follows its operands.
inductive Directive where
  | include_ (rest : Text)
  | define (space name rest : Text)
  | undef (space name rest : Text)
  | ifdef (space name rest : Text)
  | ifndef (space name rest : Text)
  | if_ (rest : Text)
  | else_ (rest : Text)
  | endif (rest : Text)
  deriving DecidableEq, Repr

inductive Item where
  | text (t : Text)
  | block_comment (body : Text)
  | line_comment (body : Text)
  | directive (gap : Text) (d : Directive)
  deriving DecidableEq, Repr

def Directive.keyword : Directive → Text
  | include_ _ => ['i','n','c','l','u','d','e']
  | define .. => ['d','e','f','i','n','e']
  | undef .. => ['u','n','d','e','f']
  | ifdef .. => ['i','f','d','e','f']
  | ifndef .. => ['i','f','n','d','e','f']
  | if_ _ => ['i','f']
  | else_ _ => ['e','l','s','e']
  | endif _ => ['e','n','d','i','f']

-- What follows the keyword.
def Directive.operands : Directive → Text
  | include_ rest | if_ rest | else_ rest | endif rest => rest
  | define space name rest | undef space name rest | ifdef space name rest | ifndef space name rest =>
    space ++ name ++ rest

def Item.render : Item → Text
  | text t => t
  | block_comment body => ['/','*'] ++ body ++ ['*','/']
  | line_comment body => ['/','/'] ++ body ++ ['\n']
  | directive gap d => '#' :: gap ++ d.keyword ++ d.operands ++ ['\n']

def render (items : List Item) : Text := items.flatMap Item.render

def identifier (c : Char) : Bool := c.isAlphanum ∨ c = '_'

-- A comment begins here.
def opens : Text → Bool
  | '/' :: '*' :: _ => true
  | '/' :: '/' :: _ => true
  | _ => false

def has_marker : Text → Bool
  | [] => false
  | c :: t => opens (c :: t) || has_marker t

def has_close : Text → Bool
  | '*' :: '/' :: _ => true
  | _ :: t => has_close t
  | [] => false

-- A directive line may have a line comment, but opens no block comment.
def opens_block : Text → Bool
  | '/' :: '/' :: _ => false
  | '/' :: '*' :: _ => true
  | _ :: t => opens_block t
  | [] => false

def Spaces (t : Text) : Prop := ∀ c ∈ t, blank c = true

def Name (t : Text) : Prop := t ≠ [] ∧ ∀ c ∈ t, identifier c = true

-- The end of one line, where an identifier before it has ended.
structure Tail (t : Text) : Prop where
  apart : ∀ c, t.head? = some c → identifier c = false
  one_line : '\n' ∉ t
  last : t.getLast? ≠ some '\\'
  no_block : opens_block t = false

def Directive.Complete : Directive → Prop
  | include_ rest | if_ rest | else_ rest | endif rest => Tail rest
  | define space name rest | undef space name rest => (space ≠ [] ∧ Spaces space) ∧ Name name ∧ Tail rest
  | ifdef space name rest | ifndef space name rest => (space ≠ [] ∧ Spaces space) ∧ Name name ∧ Spaces rest

-- A run of text within a line.
structure Plain (t : Text) : Prop where
  one_line : '\n' ∉ t
  no_marker : has_marker t = false
  no_directive : (t.dropWhile blank).head? ≠ some '#'

-- Text goes to the end of its line or to a comment; a directive begins in column
-- one, after a line that is not continued.
def Source : Bool → List Item → Prop
  | _,[] => True
  | _,.text t :: items =>
    (∃ u, t = u ++ ['\n'] ∧ Plain u ∧ Source (u.getLast? ≠ some '\\') items) ∨
    (t ≠ [] ∧ Plain t ∧ t.getLast? ≠ some '/' ∧
      (∃ body rest, items = .block_comment body :: rest ∨ items = .line_comment body :: rest) ∧ Source false items)
  | _,.block_comment body :: items => has_close (['/','*'] ++ body ++ ['*']) = false ∧ Source false items
  | _,.line_comment body :: items => '\n' ∉ body ∧ body.getLast? ≠ some '\\' ∧ Source true items
  | line_start,.directive gap d :: items => line_start = true ∧ Spaces gap ∧ d.Complete ∧ Source true items

-- A run of text as C reads it: where its line has begun it may begin with a hash.
structure Run (line_start : Bool) (t : Text) : Prop where
  one_line : '\n' ∉ t
  no_marker : has_marker t = false
  no_directive : line_start = true → (t.dropWhile blank).head? ≠ some '#'

-- The same of C: a block comment's end may not share the star of its opening.
def CSource : Bool → List Item → Prop
  | _,[] => True
  | line_start,.text t :: items =>
    (∃ u, t = u ++ ['\n'] ∧ Run line_start u ∧ CSource (u.getLast? ≠ some '\\') items) ∨
    (t ≠ [] ∧ Run line_start t ∧ t.getLast? ≠ some '/' ∧
      (∃ body rest, items = .block_comment body :: rest ∨ items = .line_comment body :: rest) ∧ CSource false items)
  | _,.block_comment body :: items => has_close (body ++ ['*']) = false ∧ CSource false items
  | _,.line_comment body :: items => '\n' ∉ body ∧ body.getLast? ≠ some '\\' ∧ CSource true items
  | line_start,.directive gap d :: items => line_start = true ∧ Spaces gap ∧ d.Complete ∧ CSource true items

-- What the loop takes for C: it looks for */ from the star of the opening on, and
-- after each comment it is at the start of a string, where a hash is a directive's.
def Item.Legible : Item → Prop
  | text t => (t.dropWhile blank).head? ≠ some '#'
  | block_comment body => body.head? ≠ some '/'
  | _ => True

def Legible (items : List Item) : Prop := ∀ i ∈ items, i.Legible

-- Well-nested conditionals: for each open one, whether its else has gone by.
def nest (open_ : List Bool) : Item → Option (List Bool)
  | .directive _ (.ifdef ..) | .directive _ (.ifndef ..) | .directive _ (.if_ _) => some (false :: open_)
  | .directive _ (.else_ _) =>
    match open_ with
    | false :: open_ => some (true :: open_)
    | _ => none
  | .directive _ (.endif _) =>
    match open_ with
    | _ :: open_ => some open_
    | [] => none
  | _ => some open_

def Nested (items : List Item) : Prop := items.foldlM nest [] = some []

-- Macros and their bodies. `value` is a controlling expression's, which tests no
-- CPU macro, and `included` what the macros are after a header.
abbrev Macros := Text → Option Text

structure Cpp where
  value : Macros → Text → Bool
  included : Macros → Text → Macros

structure Conditional where
  value : Bool
  else_seen : Bool

structure Selection where
  macros : Macros
  conditionals : List Conditional
  lines : List Text

def Selection.selecting (s : Selection) : Bool := s.conditionals.all (·.value)

-- One item of a C preprocessor's run; none is an ill-nested directive. `fixed` are
-- macros that are defined, or not, for the whole run.
def Cpp.step (cpp : Cpp) (fixed : Text → Option Bool) (s : Selection) : Item → Option Selection
  | .text t => some (if s.selecting then {s with lines := s.lines ++ [t]} else s)
  | .block_comment _ | .line_comment _ => some s
  | .directive _ d =>
    let defined_ name := (fixed name).getD (s.macros name).isSome
    match d with
    | .include_ rest => some (if s.selecting then {s with macros := cpp.included s.macros rest} else s)
    | .define _ name rest => some (if s.selecting then {s with macros := Function.update s.macros name (some rest)} else s)
    | .undef _ name _ => some (if s.selecting then {s with macros := Function.update s.macros name none} else s)
    | .ifdef _ name _ => some {s with conditionals := ⟨defined_ name,false⟩ :: s.conditionals}
    | .ifndef _ name _ => some {s with conditionals := ⟨!defined_ name,false⟩ :: s.conditionals}
    | .if_ rest => some {s with conditionals := ⟨cpp.value s.macros rest,false⟩ :: s.conditionals}
    | .else_ _ =>
      match s.conditionals with
      | ⟨value,false⟩ :: conditionals => some {s with conditionals := ⟨!value,true⟩ :: conditionals}
      | _ => none
    | .endif _ =>
      match s.conditionals with
      | _ :: conditionals => some {s with conditionals := conditionals}
      | [] => none

-- The text selected from a source.
def Cpp.select (cpp : Cpp) (fixed : Text → Option Bool) (macros : Macros) (items : List Item) : Option (List Text) := do
  let s ← items.foldlM (cpp.step fixed) ⟨macros,[],[]⟩
  if s.conditionals.isEmpty then some s.lines else none

-- The target CPU's macro is defined and the others' are not.
def Cpu.setting (cpu : Cpu) (name : Text) : Option Bool :=
  if name = cpu.upper then some true else if name ∈ cpu.other_cpus then some false else none

-- The expression of an #if ends where a line comment begins.
def expression : Text → Text
  | '/' :: '/' :: _ => []
  | c :: t => c :: expression t
  | [] => []

-- The name occurs in the expression as an identifier.
def Mentions (name e : Text) : Prop :=
  ∃ before after, e = before ++ name ++ after ∧ (∀ c, before.getLast? = some c → identifier c = false) ∧
    (∀ c, after.head? = some c → identifier c = false)

def NotTested (items : List Item) : Prop :=
  ∀ gap e, .directive gap (.if_ e) ∈ items → ∀ cpu ∈ Cpu.modes, ¬ Mentions cpu.upper (expression e)

def Directive.renamed (f : Text → Text) : Directive → Directive
  | include_ rest => include_ (f rest)
  | define space name rest => define space (f name) (f rest)
  | undef space name rest => undef space (f name) (f rest)
  | ifdef space name rest => ifdef space (f name) rest
  | ifndef space name rest => ifndef space (f name) rest
  | if_ rest => if_ (f rest)
  | else_ rest => else_ (f rest)
  | endif rest => endif (f rest)

def Item.renamed (f : Text → Text) : Item → Item
  | text t => text (f t)
  | block_comment body => block_comment (f body)
  | line_comment body => line_comment (f body)
  | directive gap d => directive gap (d.renamed f)

def Item.TestsCpu : Item → Prop
  | directive _ (.ifdef _ name _) | directive _ (.ifndef _ name _) => ∃ cpu ∈ Cpu.modes, name = cpu.upper
  | _ => False

-- The meaning is preserved: there is an output, it reads as a source that tests no
-- CPU macro, its conditionals are well nested, and it selects what the source
-- selects for the CPU.
def Preserved (cpu : Cpu) (items : List Item) : Prop :=
  ∃ kept, preprocess (render items) cpu = some (render kept) ∧ Source true kept ∧ Nested kept ∧
    (∀ i ∈ kept, ¬ i.TestsCpu) ∧
    ∀ (cpp : Cpp) (macros : Macros), ∃ lines, cpp.select (fun _ => none) macros kept = some lines ∧
      cpp.select cpu.setting macros (items.map (Item.renamed cpu.rename)) = some lines

-- Regions: for each open conditional, whether it is known to be selected.
def region (cpu : Cpu) (open_ : List (Option Bool)) : Item → List (Option Bool)
  | .directive _ (.ifdef _ name _) => cpu.setting name :: open_
  | .directive _ (.ifndef _ name _) => (cpu.setting name).map not :: open_
  | .directive _ (.if_ _) => none :: open_
  | .directive _ (.else_ _) =>
    match open_ with
    | top :: open_ => top.map not :: open_
    | [] => []
  | .directive _ (.endif _) => open_.tail
  | _ => open_

-- An #if stands in a region that is false for the CPU.
def hidden_if (cpu : Cpu) : List (Option Bool) → List Item → Bool
  | _,[] => false
  | open_,.directive gap (.if_ e) :: items =>
    some false ∈ open_ || hidden_if cpu (region cpu open_ (.directive gap (.if_ e))) items
  | open_,i :: items => hidden_if cpu (region cpu open_ i) items

-- No word of an #if's line is defined(...) of a CPU, in its comment neither.
def Item.Passed : Item → Prop
  | directive _ (.if_ rest) => ∀ cpu ∈ Cpu.modes, defined_ cpu.upper ∉ words rest
  | _ => True

-- White space follows the directive's name.
def Item.Named : Item → Prop
  | directive _ d => ∀ c, d.operands.head? = some c → space c = true
  | _ => True

theorem close_legible {body : Text} (closed : has_close (body ++ ['*']) = false) (legible : body.head? ≠ some '/') :
    has_close (['/','*'] ++ body ++ ['*']) = false := by
  cases body with
  | nil => rfl
  | cons c body =>
    have apart : c ≠ '/' := fun same => legible (congrArg some same)
    have skipped : has_close ('*' :: c :: (body ++ ['*'])) = has_close (c :: (body ++ ['*'])) := by simp [has_close,apart]
    exact skipped.trans closed

theorem Run.plain {line_start : Bool} {t v : Text} (run : Run line_start t) (legible : ((t ++ v).dropWhile blank).head? ≠ some '#') :
    Plain t := by
  refine ⟨run.one_line,run.no_marker,fun hash => legible ?_⟩
  cases left : t.dropWhile blank with
  | nil =>
    rw [left] at hash
    cases hash
  | cons c rest =>
    rw [left] at hash
    rw [List.dropWhile_append,left]
    exact hash

-- A legible source is read by the loop as C reads it.
theorem source_of_legible (items : List Item) (line_start : Bool) (source : CSource line_start items) (legible : Legible items) :
    Source line_start items := by
  induction items generalizing line_start with
  | nil => trivial
  | cons i items ih =>
    have here : i.Legible := legible i List.mem_cons_self
    have later : ∀ {ls : Bool}, CSource ls items → Source ls items := fun source =>
      ih _ source fun j member => legible j (List.mem_cons_of_mem i member)
    cases i with
    | text t =>
      rcases source with ⟨u,rfl,run,rest⟩|⟨some_text,run,last,comment,rest⟩
      · exact .inl ⟨u,rfl,run.plain here,later rest⟩
      · exact .inr ⟨some_text,run.plain (v := []) (by rw [List.append_nil]; exact here),last,comment,later rest⟩
    | block_comment body => exact ⟨close_legible source.1 here,later source.2⟩
    | line_comment body => exact ⟨source.1,source.2.1,later source.2.2⟩
    | directive gap d => exact ⟨source.1,source.2.1,source.2.2.1,later source.2.2.2⟩

-- Sources of which preprocess reads something else than C does.
example : preprocess "/*/#foo */\n".toList .ppc = none := by decide +kernel
example : preprocess "x /* c */#y\n".toList .ppc = none := by decide +kernel

end IcedTea.Generate

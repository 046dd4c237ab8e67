import Mathlib

namespace IcedTea.Generate

abbrev Text := List Char

instance Text.lawful : LawfulBEq Text := inferInstance

-- The keys of modes.
inductive Cpu where
  | ia64 | ppc | s390
  deriving DecidableEq, Repr

def Cpu.modes : List Cpu := [ia64,ppc,s390]

def Cpu.upper : Cpu → Text
  | ia64 => ['I','A','6','4']
  | ppc => ['P','P','C']
  | s390 => ['S','3','9','0']

def Cpu.other_cpus (cpu : Cpu) : List Text := (modes.filter (· ≠ cpu)).map upper

def blank (c : Char) : Bool := c = ' ' ∨ c = '\t'
def space (c : Char) : Bool := c = ' ' ∨ c = '\t' ∨ c = '\n' ∨ c = '\r' ∨ c = '\x0b' ∨ c = '\x0c'

-- The second group of `things`, at one position, and what follows it.
def marker (line_start : Bool) : Text → Option (Text × Text)
  | '/' :: '*' :: rest => some (['/','*'],rest)
  | '/' :: '/' :: rest => some (['/','/'],rest)
  | src =>
    match line_start,src.dropWhile blank with
    | true,'#' :: rest => some (src.takeWhile blank ++ ['#'],rest)
    | _,_ => none

-- things.match(src): the first position where there is one.
def match_things (line_start : Bool) : Text → Option (Text × Text × Text)
  | [] => none
  | c :: src =>
    match marker line_start (c :: src) with
    | some (thing,rest) => some ([],thing,rest)
    | none => (match_things (c = '\n') src).map fun (before,thing,rest) => (c :: before,thing,rest)

-- src cut after the first `end_`, as find and the two slices do.
def split_after (end_ : Text) : Text → Option (Text × Text)
  | [] => none
  | c :: src =>
    if end_ <+: c :: src then some (end_,(c :: src).drop end_.length)
    else (split_after end_ src).map fun (head,rest) => (c :: head,rest)

def ends (thing : Text) : Text := if thing = ['/','*'] then ['*','/'] else ['\n']

theorem marker_length {line_start : Bool} {src thing rest : Text} (found : marker line_start src = some (thing,rest)) :
    thing.length + rest.length = src.length ∧ thing ≠ [] := by
  unfold marker at found
  split at found
  · cases found
    simp
    omega
  · cases found
    simp
    omega
  · split at found
    · rename_i after
      cases found
      have parts := congrArg List.length (List.takeWhile_append_dropWhile (p := blank) (l := src))
      rw [after,List.length_append,List.length_cons] at parts
      simp
      omega
    · cases found

theorem match_length {line_start : Bool} {src before thing rest : Text}
    (found : match_things line_start src = some (before,thing,rest)) :
    before.length + thing.length + rest.length = src.length ∧ thing ≠ [] := by
  induction src generalizing line_start before with
  | nil => cases found
  | cons c src ih =>
    unfold match_things at found
    split at found
    · rename_i at_once
      cases found
      have parts := marker_length at_once
      simpa using parts
    · obtain ⟨⟨b,t,r⟩,later,eq⟩ := Option.map_eq_some_iff.mp found
      cases eq
      have parts := ih later
      simp only [List.length_cons]
      exact ⟨by omega,parts.2⟩

theorem split_length {end_ src head rest : Text} (some_end : end_ ≠ [])
    (found : split_after end_ src = some (head,rest)) : rest.length < src.length := by
  have positive : 0 < end_.length := List.length_pos_iff.mpr some_end
  induction src generalizing head with
  | nil => cases found
  | cons c src ih =>
    unfold split_after at found
    split at found
    · cases found
      rw [List.length_drop,List.length_cons]
      omega
    · obtain ⟨⟨h,r⟩,later,eq⟩ := Option.map_eq_some_iff.mp found
      cases eq
      have shorter := ih later
      rw [List.length_cons]
      omega

theorem ends_some (thing : Text) : ends thing ≠ [] := by
  unfold ends
  split <;> simp

-- The pieces the loop cuts src into: each `before` with its `thing`, and the text
-- at the end that has none. The assertion on index is the first none.
def pieces (src : Text) : Option (List (Text × Text) × Text) :=
  match _found : match_things true src with
  | none => some ([],src)
  | some (before,thing,rest) =>
    match _cut : split_after (ends thing) (thing ++ rest) with
    | none => none
    | some (whole,rest') => (pieces rest').map fun (ps,last) => ((before,whole) :: ps,last)
termination_by src.length
decreasing_by
  have parts := match_length _found
  have shorter := split_length (ends_some thing) _cut
  rw [List.length_append] at shorter
  omega

-- str.split of white space.
def words_from (word : Text) : Text → List Text
  | [] => if word = [] then [] else [word]
  | c :: t => if space c then (if word = [] then [] else [word]) ++ words_from [] t else words_from (word ++ [c]) t

def words (t : Text) : List Text := words_from [] t

-- cmd and args.
def command (thing : Text) : Option (Text × List Text) :=
  match words thing with
  | [] => none
  | cmd :: args =>
    if cmd = ['#'] then
      match args with
      | [] => none
      | name :: args => some (cmd ++ name,args)
    else some (cmd,args)

inductive Mode where
  | COPY | COND_TRUE | COND_FALSE
  deriving DecidableEq, Repr

-- mode[-1] is the head.
structure Output where
  mode : List Mode
  dst : Text
  deriving DecidableEq, Repr

def Output.emit (s : Output) (t : Text) : Output := if .COND_FALSE ∈ s.mode then s else {s with dst := s.dst ++ t}

def defined_ (name : Text) : Text := ['d','e','f','i','n','e','d','('] ++ name ++ [')']

-- The branches on cmd; none is a failed assertion or an exception.
def process_command (cpu : Cpu) (s : Output) (thing cmd : Text) (args : List Text) : Option Output :=
  if cmd = ['#','i','n','c','l','u','d','e'] ∨ cmd = ['#','d','e','f','i','n','e'] ∨ cmd = ['#','u','n','d','e','f'] then some (s.emit thing)
  else if cmd = ['#','i','f','d','e','f'] ∨ cmd = ['#','i','f','n','d','e','f'] then
    let (us,them) := if cmd = ['#','i','f','d','e','f'] then (Mode.COND_TRUE,Mode.COND_FALSE) else (.COND_FALSE,.COND_TRUE)
    match args with
    | [what] =>
      if what = cpu.upper then some {s with mode := us :: s.mode}
      else if what ∈ cpu.other_cpus then some {s with mode := them :: s.mode}
      else some ({s with mode := .COPY :: s.mode}.emit thing)
    | _ => none
  else if cmd = ['#','i','f'] then
    if ∃ check ∈ cpu.upper :: cpu.other_cpus, defined_ check ∈ args then none
    else some {mode := .COPY :: s.mode, dst := s.dst ++ thing}
  else if cmd = ['#','e','l','s','e'] then
    match s.mode with
    | [] => none
    | .COND_TRUE :: mode => some {s with mode := .COND_FALSE :: mode}
    | .COND_FALSE :: mode => some {s with mode := .COND_TRUE :: mode}
    | .COPY :: _ => some (s.emit thing)
  else if cmd = ['#','e','n','d','i','f'] then
    match s.mode with
    | [] => none
    | top :: mode => some {(if top = .COPY ∧ .COND_FALSE ∉ s.mode then s.emit thing else s) with mode := mode}
  else none

-- What the loop does with one thing.
def process (cpu : Cpu) (s : Output) (thing : Text) : Option Output :=
  if thing.head? ≠ some '#' then some (s.emit thing) else do
  let (cmd,args) ← command thing
  process_command cpu s thing cmd args

-- dst.replace("_LP64", "PPC64")
def replace_LP64 : Text → Text
  | '_' :: 'L' :: 'P' :: '6' :: '4' :: t => ['P','P','C','6','4'] ++ replace_LP64 t
  | c :: t => c :: replace_LP64 t
  | [] => []

def Cpu.rename (cpu : Cpu) (t : Text) : Text := if cpu = .ppc then replace_LP64 t else t

def preprocess (src : Text) (cpu : Cpu) : Option Text := do
  let (ps,last) ← pieces src
  let s ← ps.foldlM (fun s (before,thing) => process cpu (s.emit before) thing) ⟨[.COPY],[]⟩
  let s := s.emit last
  if s.mode = [.COPY] then some (cpu.rename s.dst) else none

end IcedTea.Generate

import Mathlib

namespace IcedTea.JniCreateStap

structure Probe where
  name : String
  desc : String
  args : List String
  types : List Char
  descs : List String
  deriving DecidableEq, Repr

-- What getline gives, one call after the other.
def lines : List Char → List (List Char)
  | [] => []
  | c :: rest => if c = '\n' then [] :: lines rest else
    match lines rest with
    | [] => [[c]]
    | line :: more => (c :: line) :: more

-- An index into a line, none for npos.
def find (line : List Char) : Option Nat := line.findIdx? (· = ' ')

-- The largest index wraps when something is added to it.
def past (index : Option Nat) (k : Nat) : Nat :=
  match index with
  | none => k-1
  | some i => i+k

-- There is nothing to take after the end of the line, and substr throws.
def substr (line : List Char) (pos : Nat) (count : Option Nat) : Option String :=
  if line.length < pos then none else
  match count with
  | none => some (String.ofList (line.drop pos))
  | some n => some (String.ofList ((line.drop pos).take n))

def probe_line (line : List Char) : Option Probe := do
  let index := find line
  let name ← substr line 0 index
  let desc ← substr line (past index 1) none
  return ⟨name,desc,[],[],[]⟩

def Probe.push_back (p : Probe) (line : List Char) : Option Probe := do
  let index := find line
  let arg ← substr line 0 index
  let desc ← substr line (past index 3) none
  return {p with
    args := p.args ++ [arg]
    types := p.types ++ [line.getD (past index 1) (Char.ofNat 0)]
    descs := p.descs ++ [desc]}

-- The two loops that read the file. In the inner one there is a probe to fill.
def read : Option Probe → List (List Char) → Option (List Probe)
  | none, [] => some []
  | some p, [] => some [p]
  | none, line :: rest =>
    if line.length = 0 ∨ line.head? = some '#' then read none rest
    else do read (some (← probe_line line)) rest
  | some p, line :: rest =>
    if line.length = 0 then do return p :: (← read none rest)
    else if line.head? = some '#' then read (some p) rest
    else do read (some (← p.push_back line)) rest

namespace Probe
variable (p : Probe)
def arg (index : Nat) : String := p.args.getD index ""
def type (index : Nat) : Char := p.types.getD index (Char.ofNat 0)
def arg_desc (index : Nat) : String := p.descs.getD index ""

-- A loop over the arguments.
def for_args (body : Nat → String) : String :=
  String.join ((List.range p.args.length).map fun index => if p.arg index = "ret" then "" else body index)
end Probe

def process_mark (library name suffix : String) : String :=
  "  process(\"" ++ library ++ "\").mark(\"" ++ name ++ suffix ++ "\")"

def marks (name suffix : String) : String :=
  process_mark "@ABS_CLIENT_LIBJVM_SO@" name suffix ++ ",\n" ++ process_mark "@ABS_SERVER_LIBJVM_SO@" name suffix ++ "\n"

def entry_probe (p : Probe) : String :=
  "/* hotspot.jni." ++ p.name ++ "\n" ++ " * " ++ p.desc ++ "\n" ++ " *\n" ++
  p.for_args (fun index => " * " ++ p.arg index ++ " - " ++ p.arg_desc index ++ "\n") ++
  " */\n" ++
  "probe hotspot.jni." ++ p.name ++ " =\n" ++ marks p.name "__entry" ++
  "\x7b\n" ++ "  name = \"" ++ p.name ++ "\"\n" ++
  p.for_args (fun index => "  " ++ p.arg index ++ " = " ++
    (if p.type index = 's' then "user_string($arg" ++ toString (index+1) ++ ")\n" else "$arg" ++ toString (index+1) ++ "\n")) ++
  "  probestr = sprintf(\"%s(" ++
  p.for_args (fun index => p.arg index ++ "=" ++
    (if p.type index = 's' then "'%s'" else if p.type index = 'x' then "0x%x" else "%" ++ String.singleton (p.type index)) ++
    (if index ≠ p.args.length-1 ∧ p.arg (index+1) ≠ "ret" then "," else "")) ++
  ")\", name" ++
  p.for_args (fun index => ", " ++ p.arg index) ++
  ")\n" ++ "\x7d\n"

def return_probe (p : Probe) : String :=
  let type := p.type (p.args.length-1)
  "\n" ++ "/* hotspot.jni." ++ p.name ++ ".return\n" ++ " * " ++ p.desc ++ " Return.\n" ++
  (if type ≠ 'v' then " *\n" ++ " * ret - " ++ p.arg_desc (p.args.length-1) ++ "\n" else "") ++
  " */\n" ++
  "probe hotspot.jni." ++ p.name ++ ".return =\n" ++ marks p.name "__return" ++
  "\x7b\n" ++ "  name = \"" ++ p.name ++ "\"\n" ++
  (if type = 's' then "  ret = user_string($arg1)\n" ++ "  retstr = ret\n"
  else if type = 'x' then "  ret = $arg1\n" ++ "  retstr = sprintf(\"0x%x\", ret)\n"
  else if type ≠ 'v' then "  ret = $arg1\n" ++ "  retstr = sprint(ret)\n"
  else "  retstr = \"\"\n") ++
  "\x7d\n"

def emit (p : Probe) : String :=
  entry_probe p ++ (if p.args.length > 0 ∧ p.arg (p.args.length-1) = "ret" then return_probe p else "") ++ "\n"

-- The program, from what it reads to what it writes.
def jni_create_stap (text : List Char) : Option String := do
  let probes ← read none (lines text)
  return String.join (probes.map emit)

end IcedTea.JniCreateStap

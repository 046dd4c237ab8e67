import IcedTea.JniDescriptors

namespace IcedTea.JniCreateStap

-- The tapset that a descriptor asks for, from its arguments alone.
namespace Argument
def documented (a : Argument) : String := " * " ++ a.name.text ++ " - " ++ a.desc ++ "\n"

-- The arguments of the probe count from one.
def binding (i : Nat) (a : Argument) : String :=
  let value := "$arg" ++ toString (i+1)
  "  " ++ a.name.text ++ " = " ++ (if a.type = .string then "user_string(" ++ value ++ ")" else value) ++ "\n"

def conversion (a : Argument) : String :=
  match a.type with
  | .string => "'%s'"
  | .hex => "0x%x"
  | .number => "%d"

def item_text (a : Argument) : String := a.name.text ++ "=" ++ a.conversion
def value (a : Argument) : String := ", " ++ a.name.text
end Argument

-- The return value is the first argument of its own probe.
namespace Returned
def documented (r : Returned) : String := if r.type.isSome then " *\n * ret - " ++ r.desc ++ "\n" else ""

def bindings (r : Returned) : String :=
  match r.type with
  | some .string => "  ret = user_string($arg1)\n  retstr = ret\n"
  | some .hex => "  ret = $arg1\n  retstr = sprintf(\"0x%x\", ret)\n"
  | some .number => "  ret = $arg1\n  retstr = sprint(ret)\n"
  | none => "  retstr = \"\"\n"
end Returned

-- A probe is on its mark in both libraries.
def both_libraries (mark : String) : String :=
  "  process(\"" ++ "@ABS_CLIENT_LIBJVM_SO@" ++ "\").mark(\"" ++ mark ++ "\")" ++ ",\n" ++
  "  process(\"" ++ "@ABS_SERVER_LIBJVM_SO@" ++ "\").mark(\"" ++ mark ++ "\")" ++ "\n"

namespace Descriptor
variable (d : Descriptor)

def comment_text : String :=
  "/* hotspot.jni." ++ d.name.text ++ "\n" ++ " * " ++ d.desc ++ "\n" ++ " *\n" ++
  String.join (d.args.map Argument.documented) ++ " */\n"

def bindings : String := String.join (d.args.mapIdx Argument.binding)
def format : String := ",".intercalate (d.args.map Argument.item_text)
def values : String := String.join (d.args.map Argument.value)

def entry : String :=
  "probe hotspot.jni." ++ d.name.text ++ " =\n" ++ both_libraries (d.name.text ++ "__entry") ++
  "\x7b\n  name = \"" ++ d.name.text ++ "\"\n" ++ d.bindings ++
  "  probestr = sprintf(\"%s(" ++ d.format ++ ")\", name" ++ d.values ++ ")\n\x7d\n"

def exit (r : Returned) : String :=
  "\n/* hotspot.jni." ++ d.name.text ++ ".return\n * " ++ d.desc ++ " Return.\n" ++ r.documented ++ " */\n" ++
  "probe hotspot.jni." ++ d.name.text ++ ".return =\n" ++ both_libraries (d.name.text ++ "__return") ++
  "\x7b\n  name = \"" ++ d.name.text ++ "\"\n" ++ r.bindings ++ "\x7d\n"

def tapset : String :=
  d.comment_text ++ d.entry ++ (match d.ret with | some r => d.exit r | none => "") ++ "\n"
end Descriptor

-- A list joined with commas is each of its members with a comma if another follows.
theorem intercalate_eq_join (l : List String) :
    ",".intercalate l = String.join (l.mapIdx fun i s => s ++ if i+1 < l.length then "," else "") := by
  induction l with
  | nil => rw [String.intercalate_nil,List.mapIdx_nil,String.join_nil]
  | cons s l ih =>
    rw [List.mapIdx_cons,String.join_cons]
    cases l with
    | nil => simp
    | cons t l =>
      rw [String.intercalate_cons_cons,ih]
      simp [String.append_assoc]

theorem map_range_eq_mapIdx {α β : Type} (l : List α) (f : Nat → β) (g : Nat → α → β)
    (agree : ∀ i (inside : i < l.length), f i = g i l[i]) : (List.range l.length).map f = l.mapIdx g := by
  apply List.ext_getElem
  · simp
  · intro i here there
    rw [List.getElem_map,List.getElem_range,List.getElem_mapIdx]
    exact agree i (by simpa using there)

theorem mapIdx_const {α β : Type} (l : List α) (g : α → β) : (l.mapIdx fun _ => g) = l.map g :=
  List.ext_getElem (by simp) fun i here there => by simp

theorem mapIdx_map {α β γ : Type} (l : List α) (f : α → β) (g : Nat → β → γ) :
    (l.map f).mapIdx g = l.mapIdx fun i a => g i (f a) :=
  List.ext_getElem (by simp) fun i here there => by simp

section Arguments
variable (d : Descriptor)

theorem probe_size : d.probe.args.length = d.args.length + d.ret.toList.length := by
  simp [Descriptor.probe,Descriptor.items]

variable {d} {i : Nat}

theorem probe_arg (inside : i < d.args.length) : d.probe.arg i = d.args[i].name.text := by
  simp [Probe.arg,Descriptor.probe,Descriptor.items,List.getD_eq_getElem?_getD,List.getElem?_append_left,inside,Argument.item]

theorem probe_type (inside : i < d.args.length) : d.probe.type i = d.args[i].type.letter := by
  simp [Probe.type,Descriptor.probe,Descriptor.items,List.getD_eq_getElem?_getD,List.getElem?_append_left,inside,Argument.item]

theorem probe_arg_desc (inside : i < d.args.length) : d.probe.arg_desc i = d.args[i].desc := by
  simp [Probe.arg_desc,Descriptor.probe,Descriptor.items,List.getD_eq_getElem?_getD,List.getElem?_append_left,inside,Argument.item]

theorem probe_arg_ret (ret : d.ret.isSome) : d.probe.arg d.args.length = "ret" := by
  obtain ⟨r,some⟩ := Option.isSome_iff_exists.mp ret
  simp [Probe.arg,Descriptor.probe,Descriptor.items,List.getD_eq_getElem?_getD,some,Returned.item,ret_word]

-- Only the argument after all the others is the return value.
theorem probe_arg_ne_ret (inside : i < d.args.length) : d.probe.arg i ≠ "ret" := by
  rw [probe_arg inside]
  exact d.args[i].not_ret

variable (d)

theorem ret_length : d.ret.toList.length = if d.ret.isSome then 1 else 0 := by
  cases d.ret <;> rfl

-- The loops go over the arguments that are not the return value.
theorem for_args_eq (body : Nat → String) (g : Nat → Argument → String)
    (agree : ∀ i (inside : i < d.args.length), body i = g i d.args[i]) :
    d.probe.for_args body = String.join (d.args.mapIdx g) := by
  have front : ((List.range d.args.length).map fun i => if d.probe.arg i = "ret" then "" else body i) = d.args.mapIdx g :=
    map_range_eq_mapIdx d.args _ g fun i inside => by rw [if_neg (probe_arg_ne_ret inside),agree i inside]
  unfold Probe.for_args
  rw [probe_size,ret_length]
  split
  · rename_i ret
    rw [List.range_succ,List.map_append,String.join_append,front,List.map_singleton,if_pos (probe_arg_ret ret),
      String.join_cons,String.join_nil,String.append_empty,String.append_empty]
  · rw [Nat.add_zero,front]

-- Looking ahead finds another argument exactly when there is one.
theorem comma_follows (inside : i < d.args.length) :
    (i ≠ d.probe.args.length-1 ∧ d.probe.arg (i+1) ≠ "ret") ↔ i+1 < d.args.length := by
  rw [probe_size,ret_length]
  by_cases next : i+1 < d.args.length
  · refine iff_of_true ⟨?_,probe_arg_ne_ret next⟩ next
    omega
  · have last : i+1 = d.args.length := by omega
    refine iff_of_false ?_ next
    rintro ⟨not_end,not_ret⟩
    by_cases ret : d.ret.isSome
    · rw [last] at not_ret
      exact not_ret (probe_arg_ret ret)
    · rw [if_neg ret] at not_end
      omega

theorem letter_string (type : Representation) : type.letter = 's' ↔ type = .string := by
  cases type <;> decide

theorem conversion_eq (a : Argument) : (if a.type.letter = 's' then "'%s'" else if a.type.letter = 'x' then "0x%x"
    else "%" ++ String.singleton a.type.letter) = a.conversion := by
  unfold Argument.conversion
  cases a.type <;> rfl

theorem documented_eq : d.probe.for_args (fun i => " * " ++ d.probe.arg i ++ " - " ++ d.probe.arg_desc i ++ "\n") =
    String.join (d.args.map Argument.documented) := by
  rw [for_args_eq d _ (fun _ => Argument.documented)]
  · rw [mapIdx_const]
  · intro i inside
    rw [probe_arg inside,probe_arg_desc inside]
    rfl

theorem bindings_eq : d.probe.for_args (fun i => "  " ++ d.probe.arg i ++ " = " ++
    (if d.probe.type i = 's' then "user_string($arg" ++ toString (i+1) ++ ")\n" else "$arg" ++ toString (i+1) ++ "\n")) =
    d.bindings := by
  apply for_args_eq
  intro i inside
  rw [probe_arg inside,probe_type inside]
  unfold Argument.binding
  have begins : "user_string($arg" = "user_string(" ++ "$arg" := by decide
  have ends : ")\n" = ")" ++ "\n" := by decide
  simp only [letter_string]
  split
  · simp only [begins,ends,String.append_assoc]
  · simp only [String.append_assoc]

theorem format_eq : d.probe.for_args (fun i => d.probe.arg i ++ "=" ++
    (if d.probe.type i = 's' then "'%s'" else if d.probe.type i = 'x' then "0x%x" else "%" ++ String.singleton (d.probe.type i)) ++
    (if i ≠ d.probe.args.length-1 ∧ d.probe.arg (i+1) ≠ "ret" then "," else "")) = d.format := by
  rw [for_args_eq d _ fun i a => a.item_text ++ if i+1 < d.args.length then "," else ""]
  · unfold Descriptor.format
    rw [intercalate_eq_join,mapIdx_map,List.length_map]
  · intro i inside
    simp only [comma_follows d inside,probe_arg inside,probe_type inside,conversion_eq]
    rfl

theorem values_eq : d.probe.for_args (fun i => ", " ++ d.probe.arg i) = d.values := by
  rw [for_args_eq d _ (fun _ => Argument.value)]
  · rw [mapIdx_const]
    rfl
  · intro i inside
    rw [probe_arg inside]
    rfl

theorem returns_iff : (d.probe.args.length > 0 ∧ d.probe.arg (d.probe.args.length-1) = "ret") ↔ d.ret.isSome := by
  rw [probe_size,ret_length]
  by_cases ret : d.ret.isSome
  · rw [if_pos ret,Nat.add_sub_cancel]
    exact iff_of_true ⟨Nat.succ_pos _,probe_arg_ret ret⟩ ret
  · rw [if_neg ret,Nat.add_zero]
    refine iff_of_false ?_ ret
    rintro ⟨some,last⟩
    exact probe_arg_ne_ret (by omega) last

omit d in
theorem marks_eq (name suffix : String) : marks name suffix = both_libraries (name ++ suffix) := by
  unfold marks process_mark both_libraries
  repeat rw [String.append_assoc]

theorem entry_probe_eq : entry_probe d.probe = d.comment_text ++ d.entry := by
  unfold entry_probe Descriptor.comment_text Descriptor.entry
  rw [documented_eq,bindings_eq,format_eq,values_eq,marks_eq]
  have name : d.probe.name = d.name.text := rfl
  have desc : d.probe.desc = d.desc := rfl
  have opens : "\x7b\n  name = \"" = "\x7b\n" ++ "  name = \"" := by decide
  have closes : ")\n\x7d\n" = ")\n" ++ "\x7d\n" := by decide
  simp only [name,desc,opens,closes,String.append_assoc]

variable {d} in
theorem probe_type_ret (ret : d.ret = some r) : d.probe.type d.args.length = r.letter := by
  simp [Probe.type,Descriptor.probe,Descriptor.items,List.getD_eq_getElem?_getD,ret,Returned.item]

variable {d} in
theorem probe_desc_ret (ret : d.ret = some r) : d.probe.arg_desc d.args.length = r.desc := by
  simp [Probe.arg_desc,Descriptor.probe,Descriptor.items,List.getD_eq_getElem?_getD,ret,Returned.item]

omit d in
theorem ret_documented_eq (r : Returned) :
    (if r.letter ≠ 'v' then " *\n" ++ (" * ret - " ++ (r.desc ++ "\n")) else "") = r.documented := by
  have begins : " *\n * ret - " = " *\n" ++ " * ret - " := by decide
  unfold Returned.documented Returned.letter
  rw [begins,String.append_assoc,String.append_assoc]
  cases r.type with
  | none => rfl
  | some type => cases type <;> rfl

omit d in
theorem ret_bindings_eq (r : Returned) : (if r.letter = 's' then "  ret = user_string($arg1)\n" ++ "  retstr = ret\n"
    else if r.letter = 'x' then "  ret = $arg1\n" ++ "  retstr = sprintf(\"0x%x\", ret)\n"
    else if r.letter ≠ 'v' then "  ret = $arg1\n" ++ "  retstr = sprint(ret)\n"
    else "  retstr = \"\"\n") = r.bindings := by
  unfold Returned.bindings Returned.letter
  cases r.type with
  | none => rfl
  | some type => cases type <;> decide

theorem return_probe_eq (ret : d.ret = some r) : return_probe d.probe = d.exit r := by
  have last : d.probe.args.length - 1 = d.args.length := by
    rw [probe_size,ret]
    rfl
  have name : d.probe.name = d.name.text := rfl
  have desc : d.probe.desc = d.desc := rfl
  have title : "\n/* hotspot.jni." = "\n" ++ "/* hotspot.jni." := by decide
  have next : ".return\n * " = ".return\n" ++ " * " := by decide
  have opens : "\x7b\n  name = \"" = "\x7b\n" ++ "  name = \"" := by decide
  unfold return_probe Descriptor.exit
  simp only [last,probe_type_ret ret,probe_desc_ret ret,ret_documented_eq,ret_bindings_eq,marks_eq,name,desc,title,next,opens,
    String.append_assoc]

theorem emit_eq : emit d.probe = d.tapset := by
  unfold emit Descriptor.tapset
  rw [entry_probe_eq]
  simp only [returns_iff]
  cases ret : d.ret with
  | none => rfl
  | some r =>
    simp only [Option.isSome_some,if_true,return_probe_eq d ret]

end Arguments

-- From a file in the documented format to the tapset it asks for.
theorem tapset_of_file (file : List (List Char)) (ds : List Descriptor) (text : List Char) (described : File file ds)
    (written : Written file text) :
    read none (lines text) = some (ds.map Descriptor.probe) ∧
      jni_create_stap text = some (String.join (ds.map Descriptor.tapset)) := by
  have probes : read none (lines text) = some (ds.map Descriptor.probe) := by
    rw [lines_written written,read_file described]
  have tapsets : (ds.map Descriptor.probe).map emit = ds.map Descriptor.tapset := by
    rw [List.map_map]
    exact List.map_congr_left fun d _ => emit_eq d
  refine ⟨probes,?_⟩
  unfold jni_create_stap
  rw [probes,Option.bind_eq_bind,Option.bind_some,tapsets,Option.pure_def]

def get_env : Descriptor where
  name := ⟨"GetEnv",by decide,'G',['e','t','E','n','v'],rfl,by decide⟩
  desc := "Get env."
  args := [⟨⟨"vm",by decide,'v',['m'],rfl,by decide⟩,by decide,.hex,"vm"⟩,⟨⟨"s",by decide,'s',[],rfl,by decide⟩,by decide,.string,""⟩]
  ret := some ⟨some .number,"Zero."⟩

def fatal : Descriptor where
  name := ⟨"Fatal",by decide,'F',['a','t','a','l'],rfl,by decide⟩
  desc := ""
  args := []
  ret := none

def two_blocks : List (List Char) :=
  ["# jni".toList,get_env.line,"vm x vm".toList,"# more".toList,"s s ".toList,"ret d Zero.".toList,[],fatal.line]

theorem two_blocks_described : File two_blocks [get_env,fatal] :=
  .comment _ rfl (.block _ (get_env.line :: ["vm x vm".toList,"# more".toList,"s s ".toList,"ret d Zero.".toList])
    ⟨_,rfl,by decide⟩ (.inr ⟨_,rfl⟩) (.blank (.block _ [fatal.line] ⟨[],rfl,rfl⟩ (.inl rfl) .empty)))

theorem two_blocks_tapset : read none (lines (two_blocks.flatMap (· ++ ['\n']))) = some [get_env.probe,fatal.probe] ∧
    jni_create_stap (two_blocks.flatMap (· ++ ['\n'])) = some (String.join [get_env.tapset,fatal.tapset]) :=
  tapset_of_file two_blocks [get_env,fatal] _ two_blocks_described ⟨by decide,.inl rfl⟩

end IcedTea.JniCreateStap

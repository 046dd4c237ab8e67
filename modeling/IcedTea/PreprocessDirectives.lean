import IcedTea.PreprocessLexing

namespace IcedTea.Generate

theorem words_from_word (word w t : Text) (no_space : ∀ c ∈ w, space c = false) :
    words_from word (w ++ t) = words_from (word ++ w) t := by
  induction w generalizing word with
  | nil => rw [List.nil_append,List.append_nil]
  | cons c w ih =>
    have here : ¬ space c = true := by rw [no_space c List.mem_cons_self]; decide
    rw [List.cons_append,words_from,if_neg here,ih _ (fun d member => no_space d (List.mem_cons_of_mem c member)),
      List.append_assoc,List.singleton_append]

theorem words_from_spaces (t rest : Text) (spaces : ∀ c ∈ t, space c = true) :
    words_from [] (t ++ rest) = words_from [] rest := by
  induction t with
  | nil => rfl
  | cons c t ih =>
    rw [List.cons_append,words_from,if_pos (spaces c List.mem_cons_self),if_pos rfl,List.nil_append]
    exact ih fun d member => spaces d (List.mem_cons_of_mem c member)

theorem words_from_newline (word t : Text) : words_from word (t ++ ['\n']) = words_from word t := by
  have newline_space : space '\n' = true := by decide
  induction t generalizing word with
  | nil =>
    simp [words_from,newline_space]
  | cons c t ih =>
    rw [List.cons_append,words_from,words_from,ih,ih]

-- A word ends where white space begins.
theorem words_from_apart (word t : Text) (some_word : word ≠ []) (apart : ∀ c, t.head? = some c → space c = true) :
    words_from word t = word :: words t := by
  cases t with
  | nil => rw [words_from,if_neg some_word,words,words_from,if_pos rfl]
  | cons c t =>
    have here := apart c rfl
    rw [words,words_from,words_from,if_pos here,if_pos here,if_neg some_word,if_pos rfl]
    rfl

theorem words_from_first (word t : Text) (some_word : word ≠ []) :
    ∃ w more, words_from word t = (word ++ w) :: more := by
  induction t generalizing word with
  | nil => exact ⟨[],[],by rw [words_from,if_neg some_word,List.append_nil]⟩
  | cons c t ih =>
    rw [words_from]
    split
    · exact ⟨[],words_from [] t,by rw [List.append_nil]; rfl⟩
    · obtain ⟨w,more,first⟩ := ih (word ++ [c]) (by simp)
      exact ⟨c :: w,more,by rw [first,List.append_assoc]; rfl⟩

theorem blank_space {c : Char} (is_blank : blank c = true) : space c = true := by
  unfold blank at is_blank
  unfold space
  simp only [decide_eq_true_eq] at is_blank ⊢
  rcases is_blank with rfl|rfl <;> simp

theorem keyword_some (d : Directive) : d.keyword ≠ [] := by cases d <;> simp only [Directive.keyword] <;> decide

-- How the loop reads a directive's name and arguments.
theorem command_words {gap : Text} {d : Directive} (gap_blank : Spaces gap) (t : Text) :
    command ('#' :: gap ++ d.keyword ++ t ++ ['\n']) =
      match words_from d.keyword t with
      | [] => none
      | name :: args => some ('#' :: name,args) := by
  have letters : ∀ c ∈ d.keyword, space c = false := fun c member => (keyword_letters d c member).2
  obtain ⟨w,more,first⟩ := words_from_first d.keyword t (keyword_some d)
  have hash : space '#' = false := by decide
  have line_words : words ('#' :: gap ++ d.keyword ++ t ++ ['\n']) =
      match gap with
      | [] => ('#' :: (d.keyword ++ w)) :: more
      | _ :: _ => ['#'] :: (d.keyword ++ w) :: more := by
    rw [words,words_from_newline,List.append_assoc,List.cons_append,words_from,if_neg (by simp [hash]),List.nil_append]
    cases gap with
    | nil =>
      rw [List.nil_append,words_from_word _ _ _ letters]
      have shifted : ∀ word : Text, word ≠ [] → ∀ t, words_from ('#' :: word) t =
          match words_from word t with
          | [] => []
          | name :: args => ('#' :: name) :: args := by
        intro word some_word t
        induction t generalizing word with
        | nil => rw [words_from,words_from,if_neg some_word,if_neg (by simp)]
        | cons c t ih =>
          rw [words_from,words_from]
          split
          · rw [if_neg (by simp)]
            rfl
          · exact ih (word ++ [c]) (by simp)
      rw [List.singleton_append,shifted d.keyword (keyword_some d),first]
    | cons g gs =>
      have g_space := blank_space (gap_blank g List.mem_cons_self)
      rw [List.cons_append,words_from,if_pos g_space,if_neg (by simp),
        words_from_spaces gs _ (fun c member => blank_space (gap_blank c (List.mem_cons_of_mem g member))),
        words_from_word _ _ _ letters,List.nil_append,first]
      rfl
  have not_hash : '#' :: (d.keyword ++ w) ≠ ['#'] := by
    have some_keyword := keyword_some d
    simp [some_keyword]
  unfold command
  rw [line_words,first]
  cases gap with
  | nil =>
    simp only
    rw [if_neg not_hash]
  | cons g gs => rfl

theorem command_named {gap : Text} {d : Directive} (gap_blank : Spaces gap) (t : Text)
    (named : ∀ c, t.head? = some c → space c = true) :
    command ('#' :: gap ++ d.keyword ++ t ++ ['\n']) = some ('#' :: d.keyword,words t) := by
  rw [command_words gap_blank,words_from_apart _ _ (keyword_some d) named]

-- Where no white space follows the name, it runs on into the operands.
theorem command_unnamed {gap : Text} {d : Directive} (gap_blank : Spaces gap) {c : Char} {t : Text}
    (no_space : space c = false) :
    ∃ w args, command ('#' :: gap ++ d.keyword ++ (c :: t) ++ ['\n']) = some ('#' :: d.keyword ++ c :: w,args) := by
  obtain ⟨w,more,first⟩ := words_from_first (d.keyword ++ [c]) t (by simp)
  have whole : words_from d.keyword (c :: t) = (d.keyword ++ c :: w) :: more := by
    rw [words_from,if_neg (by rw [no_space]; decide),first,List.append_assoc]
    rfl
  refine ⟨w,more,?_⟩
  rw [command_words gap_blank,whole]
  rfl

-- The items the loop has kept, in place of their text.
structure Copied where
  mode : List Mode
  kept : List Item

def Copied.emit (s : Copied) (i : Item) : Copied := if .COND_FALSE ∈ s.mode then s else {s with kept := s.kept ++ [i]}

def Copied.push (s : Copied) (m : Mode) : Copied := {s with mode := m :: s.mode}

def Copied.output (s : Copied) : Output := ⟨s.mode,render s.kept⟩

-- The region a test of a macro opens.
def region_mode : Option Bool → Mode
  | some true => .COND_TRUE
  | some false => .COND_FALSE
  | none => .COPY

def copy_item (cpu : Cpu) (s : Copied) (i : Item) : Option Copied :=
  match i with
  | .text _ | .block_comment _ | .line_comment _ | .directive _ (.include_ _) | .directive _ (.define ..)
  | .directive _ (.undef ..) => some (s.emit i)
  | .directive _ (.ifdef _ name _) =>
    let s := s.push (region_mode (cpu.setting name))
    some (if cpu.setting name = none then s.emit i else s)
  | .directive _ (.ifndef _ name _) =>
    let s := s.push (region_mode ((cpu.setting name).map not))
    some (if cpu.setting name = none then s.emit i else s)
  | .directive _ (.if_ _) => some ⟨.COPY :: s.mode,s.kept ++ [i]⟩
  | .directive _ (.else_ _) =>
    match s.mode with
    | [] => none
    | .COND_TRUE :: mode => some {s with mode := .COND_FALSE :: mode}
    | .COND_FALSE :: mode => some {s with mode := .COND_TRUE :: mode}
    | .COPY :: _ => some (s.emit i)
  | .directive _ (.endif _) =>
    match s.mode with
    | [] => none
    | top :: mode => some {(if top = .COPY then s.emit i else s) with mode := mode}

theorem render_snoc (items : List Item) (i : Item) : render (items ++ [i]) = render items ++ i.render := by
  simp [render]

theorem output_emit (s : Copied) (i : Item) : s.output.emit i.render = (s.emit i).output := by
  unfold Output.emit Copied.emit Copied.output
  split
  · rfl
  · rw [render_snoc]

theorem process_comment (cpu : Cpu) (s : Copied) (i : Item) (comment : i.render.head? ≠ some '#') :
    process cpu s.output i.render = some (s.emit i).output := by
  rw [process,if_pos comment,output_emit]

theorem process_read (cpu : Cpu) (s : Output) {thing cmd : Text} {args : List Text}
    (hash : thing.head? = some '#') (read : command thing = some (cmd,args)) :
    process cpu s thing = process_command cpu s thing cmd args := by
  rw [process,if_neg (by simp [hash]),read,Option.bind_eq_bind,Option.bind_some]

theorem words_name {before name after : Text} (spaces : Spaces before) (is_name : Name name)
    (spaces_after : Spaces after) : words (before ++ name ++ after) = [name] := by
  have letters : ∀ c ∈ name, space c = false := by
    intro c member
    have letter := is_name.2 c member
    cases is_space : space c with
    | false => rfl
    | true =>
      unfold space at is_space
      simp only [decide_eq_true_eq] at is_space
      rcases is_space with rfl|rfl|rfl|rfl|rfl|rfl <;> exact absurd letter (by decide)
  have ending : words after = [] := by
    have skipped := words_from_spaces after [] (fun c member => blank_space (spaces_after c member))
    rw [List.append_nil] at skipped
    rw [words,skipped,words_from,if_pos rfl]
  rw [words,List.append_assoc,words_from_spaces before _ (fun c member => blank_space (spaces c member)),
    words_from_word _ _ _ letters,List.nil_append,words_from_apart _ _ is_name.1,ending]
  intro c first
  exact blank_space (spaces_after c (List.mem_of_mem_head? first))

theorem check_upper {cpu : Cpu} {check : Text} (member : check ∈ cpu.upper :: cpu.other_cpus) :
    ∃ other ∈ Cpu.modes, check = other.upper := by
  rcases List.mem_cons.mp member with rfl|other
  · exact ⟨cpu,by cases cpu <;> decide,rfl⟩
  · obtain ⟨key,listed,rfl⟩ := List.mem_map.mp other
    exact ⟨key,(List.mem_filter.mp listed).1,rfl⟩

-- The assertion on the arguments of an #if holds or fails for the words of its line.
theorem if_passes (cpu : Cpu) {e : Text} :
    (∃ check ∈ cpu.upper :: cpu.other_cpus, defined_ check ∈ words e) ↔ ∃ key ∈ Cpu.modes, defined_ key.upper ∈ words e := by
  constructor
  · rintro ⟨check,member,tested⟩
    obtain ⟨key,listed,rfl⟩ := check_upper member
    exact ⟨key,listed,tested⟩
  · rintro ⟨key,listed,tested⟩
    refine ⟨key.upper,?_,tested⟩
    cases cpu <;> cases key <;> decide

theorem setting_cases (cpu : Cpu) (name : Text) :
    cpu.setting name = some true ∧ name = cpu.upper ∨
    cpu.setting name = some false ∧ name ≠ cpu.upper ∧ name ∈ cpu.other_cpus ∨
    cpu.setting name = none ∧ name ≠ cpu.upper ∧ name ∉ cpu.other_cpus := by
  unfold Cpu.setting
  by_cases own : name = cpu.upper
  · exact Or.inl ⟨if_pos own,own⟩
  · rw [if_neg own]
    by_cases other : name ∈ cpu.other_cpus
    · exact Or.inr (.inl ⟨if_pos other,own,other⟩)
    · exact Or.inr (.inr ⟨if_neg other,own,other⟩)

theorem push_emit (s : Copied) (i : Item) :
    Output.emit {s.output with mode := .COPY :: s.mode} i.render = ((s.push .COPY).emit i).output :=
  output_emit (s.push .COPY) i

-- The loop on one directive.
theorem process_directive (cpu : Cpu) (s : Copied) {gap : Text} {d : Directive} (gap_blank : Spaces gap)
    (complete : d.Complete) (named : (Item.directive gap d).Named)
    (passed : (Item.directive gap d).Passed) :
    process cpu s.output (Item.directive gap d).render = (copy_item cpu s (.directive gap d)).map Copied.output := by
  have read := command_named (d := d) gap_blank d.operands named
  have emitted := output_emit s (.directive gap d)
  have pushed := push_emit s (.directive gap d)
  have read_line : command (Item.directive gap d).render = some ('#' :: d.keyword,words d.operands) := read
  rw [process_read cpu s.output rfl read_line,process_command]
  generalize rendered : (Item.directive gap d).render = line at emitted pushed ⊢
  cases d with
  | include_ rest =>
    simp only [Directive.keyword]
    rw [if_pos (by decide),emitted]
    rfl
  | define space_ name rest =>
    simp only [Directive.keyword]
    rw [if_pos (by decide),emitted]
    rfl
  | undef space_ name rest =>
    simp only [Directive.keyword]
    rw [if_pos (by decide),emitted]
    rfl
  | ifdef space_ name rest =>
    simp only [Directive.keyword]
    obtain ⟨⟨_,spaces⟩,is_name,spaces_after⟩ := complete
    rw [if_neg (by decide),if_pos (by decide),if_pos (by decide),Directive.operands,
      words_name spaces is_name spaces_after]
    simp only
    rcases setting_cases cpu name with ⟨set,own⟩|⟨set,not_own,other⟩|⟨set,not_own,not_other⟩
    · rw [if_pos own,copy_item]
      simp [set,region_mode,Copied.push,Copied.output]
    · rw [if_neg not_own,if_pos other,copy_item]
      simp [set,region_mode,Copied.push,Copied.output]
    · rw [if_neg not_own,if_neg not_other,copy_item]
      simp only [set,region_mode,if_true,Option.map_some]
      rw [← pushed]
      rfl
  | ifndef space_ name rest =>
    simp only [Directive.keyword]
    obtain ⟨⟨_,spaces⟩,is_name,spaces_after⟩ := complete
    rw [if_neg (by decide),if_pos (by decide),Directive.operands,words_name spaces is_name spaces_after]
    simp only
    rcases setting_cases cpu name with ⟨set,own⟩|⟨set,not_own,other⟩|⟨set,not_own,not_other⟩
    · rw [if_pos own,copy_item]
      simp [set,region_mode,Copied.push,Copied.output]
    · rw [if_neg not_own,if_pos other,copy_item]
      simp [set,region_mode,Copied.push,Copied.output]
    · rw [if_neg not_own,if_neg not_other,copy_item]
      simp only [set,Option.map_none,region_mode,if_true,Option.map_some]
      rw [← pushed]
      rfl
  | if_ rest =>
    have untested := mt (if_passes cpu (e := rest)).mp (by
      rintro ⟨key,listed,tested⟩
      exact passed key listed tested)
    simp only [Directive.keyword]
    rw [if_neg (by decide),if_neg (by decide),if_pos (by decide),Directive.operands,if_neg untested,copy_item,Option.map_some,
      Copied.output,Copied.output,render_snoc,rendered]
  | else_ rest =>
    simp only [Directive.keyword]
    rw [if_neg (by decide),if_neg (by decide),if_neg (by decide),if_pos (by decide),copy_item]
    change (match s.mode with
      | [] => none
      | .COND_TRUE :: mode => some {s.output with mode := .COND_FALSE :: mode}
      | .COND_FALSE :: mode => some {s.output with mode := .COND_TRUE :: mode}
      | .COPY :: _ => some (s.output.emit line)) = _
    rw [emitted]
    cases s.mode with
    | nil => rfl
    | cons top mode => cases top <;> rfl
  | endif rest =>
    simp only [Directive.keyword]
    rw [if_neg (by decide),if_neg (by decide),if_neg (by decide),if_neg (by decide),if_pos (by decide),copy_item]
    change (match s.mode with
      | [] => none
      | top :: mode =>
        some {(if top = Mode.COPY ∧ Mode.COND_FALSE ∉ s.mode then s.output.emit line else s.output) with mode := mode}) = _
    rw [emitted]
    cases mode_eq : s.mode with
    | nil => rfl
    | cons top mode =>
      simp only [Option.map_some]
      by_cases copied : top = .COPY
      · by_cases hidden : Mode.COND_FALSE ∈ s.mode
        · rw [mode_eq] at hidden
          simp [copied,Copied.emit,mode_eq,Copied.output]
          simp [copied] at hidden
          simp [hidden]
        · rw [mode_eq] at hidden
          simp [copied,Copied.emit,mode_eq,Copied.output]
          simp [copied] at hidden
          simp [hidden]
      · simp [copied,Copied.output]

-- The assertion fails for an #if with a CPU's defined(...) among its words.
theorem process_unpassed (cpu : Cpu) (s : Output) {gap : Text} {d : Directive} (gap_blank : Spaces gap)
    (named : (Item.directive gap d).Named) (unpassed : ¬ (Item.directive gap d).Passed) :
    process cpu s (Item.directive gap d).render = none := by
  have read_line : command (Item.directive gap d).render = some ('#' :: d.keyword,words d.operands) :=
    command_named (d := d) gap_blank d.operands named
  rw [process_read cpu s rfl read_line,process_command]
  cases d with
  | if_ rest =>
    simp only [Item.Passed,not_forall,not_not] at unpassed
    obtain ⟨key,listed,tested⟩ := unpassed
    simp only [Directive.keyword]
    rw [if_neg (by decide),if_neg (by decide),if_pos (by decide),Directive.operands,if_pos ((if_passes cpu).mpr ⟨key,listed,tested⟩)]
  | _ => exact absurd trivial unpassed

-- A name that runs on into its operands is no directive at all to the loop.
theorem process_unnamed (cpu : Cpu) (s : Output) {gap : Text} {d : Directive} (gap_blank : Spaces gap)
    (complete : d.Complete) (unnamed : ¬ (Item.directive gap d).Named) :
    process cpu s (Item.directive gap d).render = none := by
  simp only [Item.Named,not_forall] at unnamed
  obtain ⟨c,first,no_space⟩ := unnamed
  have not_letter : identifier c = false := by
    have blank_not : blank c = false := by
      cases is_blank : blank c with
      | false => rfl
      | true => exact absurd (blank_space is_blank) no_space
    have head_space : ∀ {space_ name rest : Text}, space_ ≠ [] ∧ Spaces space_ →
        (space_ ++ name ++ rest).head? = some c → False := by
      intro space_ name rest spaces head
      obtain ⟨some_space,all_blank⟩ := spaces
      cases space_ with
      | nil => exact some_space rfl
      | cons b bs =>
        cases head
        rw [all_blank c List.mem_cons_self] at blank_not
        cases blank_not
    cases d with
    | include_ rest | if_ rest | else_ rest | endif rest => exact complete.apart c first
    | define space_ name rest | undef space_ name rest | ifdef space_ name rest | ifndef space_ name rest =>
      exact (head_space complete.1 first).elim
  obtain ⟨t,operands⟩ : ∃ t, d.operands = c :: t := by
    cases operands : d.operands with
    | nil =>
      rw [operands] at first
      cases first
    | cons b t =>
      rw [operands] at first
      cases first
      exact ⟨t,rfl⟩
  obtain ⟨w,args,read⟩ := command_unnamed (d := d) (t := t) gap_blank (Bool.eq_false_iff.mpr no_space)
  have never : ∀ known : Text, known.tail.all identifier = true → ¬ '#' :: d.keyword ++ c :: w = known := by
    rintro known letters rfl
    have letter := letters_of_all letters c (by simp)
    rw [not_letter] at letter
    cases letter
  have read_line : command (Item.directive gap d).render = some ('#' :: d.keyword ++ c :: w,args) := by
    rw [← read,← operands]
    rfl
  rw [process_read cpu s rfl read_line,process_command]
  have not_include := never ['#','i','n','c','l','u','d','e'] rfl
  have not_define := never ['#','d','e','f','i','n','e'] rfl
  have not_undef := never ['#','u','n','d','e','f'] rfl
  have not_ifdef := never ['#','i','f','d','e','f'] rfl
  have not_ifndef := never ['#','i','f','n','d','e','f'] rfl
  have not_if := never ['#','i','f'] rfl
  have not_else := never ['#','e','l','s','e'] rfl
  have not_endif := never ['#','e','n','d','i','f'] rfl
  rw [if_neg (not_or.mpr ⟨not_include,not_or.mpr ⟨not_define,not_undef⟩⟩),
    if_neg (not_or.mpr ⟨not_ifdef,not_ifndef⟩),if_neg not_if,if_neg not_else,if_neg not_endif]

end IcedTea.Generate

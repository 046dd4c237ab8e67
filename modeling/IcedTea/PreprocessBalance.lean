import IcedTea.PreprocessMeaning

namespace IcedTea.Generate

def if_words : List Text := [['i','f'],['i','f','d','e','f'],['i','f','n','d','e','f']]

-- How many conditionals a piece of a source opens, less those it closes.
def word_depth (word : Text) : Int :=
  if word ∈ if_words then 1 else if word = ['e','n','d','i','f'] then -1 else 0

def thing_depth : Text → Int
  | '#' :: t => word_depth ((t.dropWhile blank).takeWhile identifier)
  | _ => 0

def Item.depth : Item → Int
  | directive _ (.ifdef ..) | directive _ (.ifndef ..) | directive _ (.if_ _) => 1
  | directive _ (.endif _) => -1
  | _ => 0

def depth (items : List Item) : Int := (items.map Item.depth).sum

theorem depth_snoc (items : List Item) (i : Item) : depth (items ++ [i]) = depth items + i.depth := by
  simp [depth]

theorem thing_comment {t : Text} (comment : t.head? ≠ some '#') : thing_depth t = 0 := by
  unfold thing_depth
  split
  · exact absurd rfl comment
  · rfl

theorem thing_directive {gap : Text} {d : Directive} (gap_blank : Spaces gap) (complete : d.Complete) :
    thing_depth (Item.directive gap d).render = (Item.directive gap d).depth := by
  have word : ((gap ++ d.keyword ++ d.operands ++ ['\n']).dropWhile blank).takeWhile identifier = d.keyword := by
    have letters : ∀ c ∈ d.keyword, identifier c = true := fun c member => (keyword_letters d c member).1
    have ends : (d.operands ++ ['\n']).takeWhile identifier = [] := by
      have apart := operands_apart complete
      cases front : d.operands with
      | nil => rfl
      | cons c t =>
        rw [List.cons_append,List.takeWhile_cons,apart c (by rw [front]; rfl)]
        rfl
    rw [List.append_assoc,List.append_assoc,List.dropWhile_append_of_pos gap_blank]
    have stays : (d.keyword ++ (d.operands ++ ['\n'])).dropWhile blank = d.keyword ++ (d.operands ++ ['\n']) := by
      cases d <;> rfl
    rw [stays,List.takeWhile_append_of_pos letters,ends,List.append_nil]
  change word_depth (((gap ++ d.keyword ++ d.operands ++ ['\n']).dropWhile blank).takeWhile identifier) = _
  rw [word]
  cases d <;> rfl

-- The depth of a source can be read off its text.
theorem visit_depth (items : List Item) (line_start : Bool) (source : Source line_start items) (n : Int) :
    visit_items (fun n _ => n) (fun n t => some (n + thing_depth t)) n items = some (n + depth items) := by
  induction items generalizing line_start n with
  | nil => simp [visit_items,depth]
  | cons i items ih =>
    have split_off : depth (i :: items) = i.depth + depth items := by simp [depth]
    cases i with
    | text t =>
      rcases source with ⟨u,_,_,later⟩|⟨_,_,_,_,later⟩
      · rw [visit_items,ih _ later,split_off,show (Item.text t).depth = 0 from rfl,Int.zero_add]
      · rw [visit_items,ih _ later,split_off,show (Item.text t).depth = 0 from rfl,Int.zero_add]
    | block_comment body =>
      have no_depth : thing_depth (Item.block_comment body).render = 0 := thing_comment (by simp [Item.render])
      rw [visit_items,no_depth,Option.bind_some,ih _ source.2,split_off,
        show (Item.block_comment body).depth = 0 from rfl,Int.add_zero,Int.zero_add]
      intro t same
      cases same
    | line_comment body =>
      have no_depth : thing_depth (Item.line_comment body).render = 0 := thing_comment (by simp [Item.render])
      rw [visit_items,no_depth,Option.bind_some,ih _ source.2.2,split_off,
        show (Item.line_comment body).depth = 0 from rfl,Int.add_zero,Int.zero_add]
      intro t same
      cases same
    | directive gap d =>
      rw [visit_items,thing_directive source.2.1 source.2.2.1,Option.bind_some,ih _ source.2.2.2,split_off,Int.add_assoc]
      intro t same
      cases same

theorem depth_of_text {items items' : List Item} (source : Source true items) (source' : Source true items')
    (same : render items = render items') : depth items = depth items' := by
  have count : ∀ {items : List Item}, Source true items → ∃ ps, pieces (render items) = some ps ∧
      visit_pieces (fun n _ => n) (fun n t => some (n + thing_depth t)) (0 : Int) ps = some (depth items) := by
    intro items source
    obtain ⟨ps,cut,visited⟩ := @visit_source Int (fun n _ => n) (fun n t => some (n + thing_depth t))
      (fun _ _ _ => rfl) (fun _ => rfl) items true source
    refine ⟨ps,cut,?_⟩
    rw [visited,visit_depth items true source,Int.zero_add]
  obtain ⟨ps,cut,counted⟩ := count source
  obtain ⟨ps',cut',counted'⟩ := count source'
  rw [same,cut'] at cut
  cases cut
  rw [counted] at counted'
  exact Option.some.inj counted'

theorem nest_depth {open_ open_' : List Bool} {i : Item} (step : nest open_ i = some open_') :
    (open_'.length : Int) = open_.length + i.depth := by
  cases i with
  | directive gap d =>
    cases d with
    | ifdef space_ name rest => cases step; simp [Item.depth]
    | ifndef space_ name rest => cases step; simp [Item.depth]
    | if_ rest => cases step; simp [Item.depth]
    | else_ rest =>
      unfold nest at step
      simp only at step
      split at step
      · cases step; simp [Item.depth]
      · cases step
    | endif rest =>
      unfold nest at step
      simp only at step
      split at step
      · cases step
        rw [List.length_cons,show (Item.directive gap (.endif rest)).depth = -1 from rfl]
        omega
      · cases step
    | _ => cases step; simp [Item.depth]
  | _ => cases step; simp [Item.depth]

theorem nested_depth (items : List Item) {open_ open_' : List Bool} (run : items.foldlM nest open_ = some open_') :
    (open_'.length : Int) = open_.length + depth items := by
  induction items generalizing open_ with
  | nil =>
    cases run
    simp [depth]
  | cons i items ih =>
    rw [List.foldlM_cons] at run
    obtain ⟨next,step,rest⟩ := Option.bind_eq_some_iff.mp run
    rw [ih rest,nest_depth step,show depth (i :: items) = i.depth + depth items by simp [depth],Int.add_assoc]

-- The copied conditionals that are open and stand in no false region.
def live : List Mode → Int
  | [] => 0
  | .COPY :: mode => if .COND_FALSE ∈ mode then live mode else live mode + 1
  | _ :: mode => live mode

def Copied.balance (s : Copied) : Int := depth s.kept - live s.mode

theorem emit_depth (s : Copied) (i : Item) :
    depth (s.emit i).kept = depth s.kept + (if .COND_FALSE ∈ s.mode then 0 else i.depth) := by
  unfold Copied.emit
  split
  · rw [Int.add_zero]
  · exact depth_snoc _ _

theorem emit_mode (s : Copied) (i : Item) : (s.emit i).mode = s.mode := by
  unfold Copied.emit
  split <;> rfl

theorem emit_balance (s : Copied) {i : Item} (flat : i.depth = 0) : (s.emit i).balance = s.balance := by
  unfold Copied.balance
  rw [emit_depth,emit_mode,flat,ite_self,Int.add_zero]

theorem push_balance (s : Copied) (i : Item) (opens : i.depth = 1) : ((s.push .COPY).emit i).balance = s.balance := by
  unfold Copied.balance
  rw [emit_depth,emit_mode,opens]
  by_cases hidden : Mode.COND_FALSE ∈ s.mode
  · simp [Copied.push,live,hidden]
  · simp only [Copied.push,live,List.mem_cons,hidden,reduceCtorEq,or_false,if_false]
    omega

theorem region_balance (s : Copied) (value : Bool) : (s.push (region_mode (some value))).balance = s.balance := by
  cases value <;> rfl

def Item.is_if : Item → Bool
  | directive _ (.if_ _) => true
  | _ => false

theorem hidden_cons (cpu : Cpu) (open_ : List (Option Bool)) (i : Item) (items : List Item) :
    hidden_if cpu open_ (i :: items) = true ↔
      (some false ∈ open_ ∧ i.is_if = true) ∨ hidden_if cpu (region cpu open_ i) items = true := by
  cases i with
  | directive gap d => cases d <;> simp [hidden_if,Item.is_if]
  | _ => simp [hidden_if,Item.is_if]

-- Only the copy of an #if in a false region goes out of balance.
theorem copy_balance {cpu : Cpu} {s s' : Copied} {i : Item} (copied : copy_item cpu s i = some s') :
    s'.balance = s.balance + (if .COND_FALSE ∈ s.mode ∧ i.is_if = true then 1 else 0) := by
  have balanced : i.is_if = false → s'.balance = s.balance →
      s'.balance = s.balance + (if .COND_FALSE ∈ s.mode ∧ i.is_if = true then 1 else 0) := by
    intro no_if same
    rw [no_if,if_neg (by simp),same,Int.add_zero]
  cases i with
  | text t => cases copied; exact balanced rfl (emit_balance s rfl)
  | block_comment body => cases copied; exact balanced rfl (emit_balance s rfl)
  | line_comment body => cases copied; exact balanced rfl (emit_balance s rfl)
  | directive gap d =>
    cases d with
    | include_ rest => cases copied; exact balanced rfl (emit_balance s rfl)
    | define space_ name rest => cases copied; exact balanced rfl (emit_balance s rfl)
    | undef space_ name rest => cases copied; exact balanced rfl (emit_balance s rfl)
    | ifdef space_ name rest =>
      apply balanced rfl
      cases copied
      cases cpu.setting name with
      | none => exact push_balance s _ rfl
      | some value => exact region_balance s value
    | ifndef space_ name rest =>
      apply balanced rfl
      cases copied
      cases cpu.setting name with
      | none => exact push_balance s _ rfl
      | some value => exact region_balance s (!value)
    | if_ rest =>
      cases copied
      unfold Copied.balance
      rw [depth_snoc,show (Item.directive gap (.if_ rest)).depth = 1 from rfl,live]
      by_cases hidden : Mode.COND_FALSE ∈ s.mode
      · rw [if_pos hidden,if_pos ⟨hidden,rfl⟩]
        omega
      · rw [if_neg hidden,if_neg fun both => hidden both.1]
        omega
    | else_ rest =>
      apply balanced rfl
      unfold copy_item at copied
      simp only at copied
      split at copied
      · cases copied
      · rename_i mode
        cases copied
        simp only [Copied.balance,mode,live]
      · rename_i mode
        cases copied
        simp only [Copied.balance,mode,live]
      · cases copied
        exact emit_balance s rfl
    | endif rest =>
      apply balanced rfl
      unfold copy_item at copied
      simp only at copied
      split at copied
      · cases copied
      · rename_i top mode mode_eq
        cases copied
        cases top with
        | COPY =>
          rw [if_pos rfl]
          simp only [Copied.balance,emit_depth,mode_eq,live,Item.depth]
          by_cases hidden : Mode.COND_FALSE ∈ mode
          · simp [hidden]
          · simp [hidden]
            omega
        | COND_TRUE => simp [Copied.balance,mode_eq,live]
        | COND_FALSE => simp [Copied.balance,mode_eq,live]

-- The modes of the loop are the open regions.
theorem copy_modes {cpu : Cpu} {s s' : Copied} {i : Item} {open_ : List (Option Bool)} {else_seen else_seen' : List Bool}
    (copied : copy_item cpu s i = some s') (modes : s.mode = open_.map region_mode ++ [.COPY])
    (length : open_.length = else_seen.length) (nests : nest else_seen i = some else_seen') :
    s'.mode = (region cpu open_ i).map region_mode ++ [.COPY] ∧ (region cpu open_ i).length = else_seen'.length := by
  cases i with
  | text t => cases copied; cases nests; exact ⟨by rw [emit_mode]; exact modes,length⟩
  | block_comment body => cases copied; cases nests; exact ⟨by rw [emit_mode]; exact modes,length⟩
  | line_comment body => cases copied; cases nests; exact ⟨by rw [emit_mode]; exact modes,length⟩
  | directive gap d =>
    cases d with
    | include_ rest => cases copied; cases nests; exact ⟨by rw [emit_mode]; exact modes,length⟩
    | define space_ name rest => cases copied; cases nests; exact ⟨by rw [emit_mode]; exact modes,length⟩
    | undef space_ name rest => cases copied; cases nests; exact ⟨by rw [emit_mode]; exact modes,length⟩
    | ifdef space_ name rest =>
      cases copied
      cases nests
      refine ⟨?_,congrArg (· + 1) length⟩
      split <;> simp [emit_mode,Copied.push,region,modes]
    | ifndef space_ name rest =>
      cases copied
      cases nests
      refine ⟨?_,?_⟩
      · split <;> simp [emit_mode,Copied.push,region,modes]
      · simp [region,length]
    | if_ rest =>
      cases copied
      cases nests
      exact ⟨by simp [region,region_mode,modes],congrArg (· + 1) length⟩
    | else_ rest =>
      unfold nest at nests
      simp only at nests
      split at nests
      · cases nests
        cases open_ with
        | nil => cases length
        | cons top open_ =>
          refine ⟨?_,length⟩
          unfold copy_item at copied
          rcases top with _|_|_
          all_goals
            simp only [List.map_cons,List.cons_append,region_mode] at modes
            simp only [modes] at copied
            cases copied
            simp [region,region_mode,emit_mode,modes]
      · cases nests
    | endif rest =>
      unfold nest at nests
      simp only at nests
      split at nests
      · cases nests
        cases open_ with
        | nil => cases length
        | cons top open_ =>
          refine ⟨?_,Nat.succ.inj length⟩
          unfold copy_item at copied
          simp only [List.map_cons,List.cons_append] at modes
          simp only [modes] at copied
          cases copied
          rfl
      · cases nests

theorem hidden_mode (open_ : List (Option Bool)) :
    .COND_FALSE ∈ open_.map region_mode ++ [.COPY] ↔ some false ∈ open_ := by
  induction open_ with
  | nil => simp
  | cons top open_ ih =>
    rcases top with _|_|_ <;> simp [region_mode] at ih ⊢ <;> exact ih

theorem copies_balance (cpu : Cpu) (items : List Item) {s s' : Copied} {open_ : List (Option Bool)} {else_seen : List Bool}
    (run : items.foldlM (copy_item cpu) s = some s') (modes : s.mode = open_.map region_mode ++ [.COPY])
    (length : open_.length = else_seen.length) (nests : items.foldlM nest else_seen = some []) :
    s.balance + (if hidden_if cpu open_ items then 1 else 0) ≤ s'.balance := by
  induction items generalizing s open_ else_seen with
  | nil =>
    cases run
    simp [hidden_if]
  | cons i items ih =>
    rw [List.foldlM_cons] at run nests
    obtain ⟨next,copied,rest⟩ := Option.bind_eq_some_iff.mp run
    obtain ⟨else_next,nests_here,nests_rest⟩ := Option.bind_eq_some_iff.mp nests
    obtain ⟨next_modes,next_length⟩ := copy_modes copied modes length nests_here
    have later := ih rest next_modes next_length nests_rest
    have here := copy_balance copied
    simp only [modes,hidden_mode] at here
    have hidden_here := hidden_cons cpu open_ i items
    by_cases here_hidden : some false ∈ open_ ∧ i.is_if = true
    · rw [if_pos here_hidden] at here
      rw [if_pos (hidden_here.mpr (Or.inl here_hidden))]
      split at later <;> omega
    · rw [if_neg here_hidden] at here
      have same : hidden_if cpu open_ (i :: items) = true ↔ hidden_if cpu (region cpu open_ i) items = true :=
        hidden_here.trans (or_iff_right here_hidden)
      simp only [same]
      omega

-- The items kept of a source whose meaning is preserved are as deep as the output.
theorem hidden_not_preserved (cpu : Cpu) {items : List Item} (source : Source true items) (nested : Nested items)
    (passed : AllPassed items) (named : AllNamed items) (preserved : Preserved cpu items) :
    hidden_if cpu [] items = false := by
  have r := cpu_renaming cpu
  obtain ⟨kept,output,kept_source,kept_nested,-,-⟩ := preserved
  have visited := visit_copies cpu items true source named passed ⟨[.COPY],[]⟩
  rw [preprocess_items cpu source] at output
  change (visit_items _ _ (Copied.output ⟨[.COPY],[]⟩) items).bind _ = _ at output
  rw [visited] at output
  obtain ⟨s,copied,closed⟩ := Option.bind_eq_some_iff.mp output
  obtain ⟨s,run,rfl⟩ := Option.map_eq_some_iff.mp copied
  split at closed
  · rename_i mode
    have mode : s.mode = [.COPY] := mode
    have s_source : Source true s.kept := by
      apply copies_readable items (s := ⟨[.COPY],[]⟩) (p := .start) _ source run
      · rw [mode]
        decide
      · exact readable_of_ready fun _ here => here
    have same : render (s.kept.map (Item.renamed cpu.rename)) = render kept := by
      rw [← r.render s.kept true s_source]
      exact Option.some.inj closed
    have depths := depth_of_text (r.source s.kept true s_source) kept_source same
    have renamed_depth : depth (s.kept.map (Item.renamed cpu.rename)) = depth s.kept := by
      unfold depth
      rw [List.map_map]
      congr 2
      funext i
      cases i with
      | directive gap d => cases d <;> rfl
      | _ => rfl
    have flat := nested_depth kept kept_nested
    have balance := @copies_balance cpu items _ _ [] [] run rfl rfl nested
    rw [renamed_depth] at depths
    simp only [Copied.balance,mode,live,List.length_nil] at balance flat
    by_contra shown
    rw [Bool.not_eq_false] at shown
    rw [if_pos shown] at balance
    simp [depth] at balance depths flat
    omega
  · cases closed

-- A conditional on A inside one on a CPU.
def guarded (cpu : Cpu) : List Item :=
  let one_blank : Text := [' ']
  [.directive [] (.ifdef one_blank cpu.upper []),.directive [] (.if_ [' ','A']),.text ['x','\n'],
    .directive [] (.endif []),.directive [] (.endif [])]

theorem guarded_source (cpu : Cpu) : CSource true (guarded cpu) := by
  have no_rest : Tail [] := ⟨nofun,by decide,by decide,rfl⟩
  have expression : Tail [' ','A'] := by
    constructor
    · intro c first
      cases first
      decide
    · decide
    · decide
    · rfl
  have name : Name cpu.upper := by
    cases cpu
    all_goals
      constructor
      · decide
      · exact letters_of_all rfl
  have no_space : Spaces [] := nofun
  have one_space : Spaces [' '] := by
    intro c member
    rw [List.mem_singleton.mp member]
    decide
  refine ⟨rfl,no_space,⟨⟨by decide,one_space⟩,name,no_space⟩,rfl,no_space,expression,
    Or.inl ⟨['x'],rfl,⟨by decide,rfl,fun _ => by decide⟩,?_⟩⟩
  exact ⟨by decide,no_space,no_rest,rfl,no_space,no_rest,trivial⟩

theorem guarded_not_tested (cpu : Cpu) : NotTested (guarded cpu) := by
  intro gap e member key _ mentions
  have short : gap = [] ∧ e = [' ','A'] := by simpa [guarded] using member
  obtain ⟨before,after,whole,-⟩ := mentions
  have lengths := congrArg List.length whole
  rw [short.2] at lengths
  cases key <;> simp [Cpu.upper,expression] at lengths <;> omega

theorem guarded_legible (cpu : Cpu) : Legible (guarded cpu) := by
  intro i member
  simp only [guarded,List.mem_cons,List.not_mem_nil,or_false] at member
  rcases member with rfl|rfl|rfl|rfl|rfl
  · trivial
  · trivial
  · change _ ≠ _
    decide
  · trivial
  · trivial

theorem guarded_passed (cpu : Cpu) : AllPassed (guarded cpu) := by
  intro i member
  simp only [guarded,List.mem_cons,List.not_mem_nil,or_false] at member
  rcases member with rfl|rfl|rfl|rfl|rfl
  · trivial
  · intro key _
    cases key <;> decide
  · trivial
  · trivial
  · trivial

theorem guarded_named (cpu : Cpu) : AllNamed (guarded cpu) := by
  intro i member
  simp only [guarded,List.mem_cons,List.not_mem_nil,or_false] at member
  rcases member with rfl|rfl|rfl|rfl|rfl
  · intro c first
    cases first
    decide
  · intro c first
    cases first
    decide
  · trivial
  · exact nofun
  · exact nofun

end IcedTea.Generate

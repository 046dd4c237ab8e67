import IcedTea.PreprocessRenaming

namespace IcedTea.Generate

def AllNamed (items : List Item) : Prop := ∀ i ∈ items, i.Named
def AllPassed (items : List Item) : Prop := ∀ i ∈ items, i.Passed

-- The loop keeps items.
theorem visit_copies (cpu : Cpu) (items : List Item) (line_start : Bool) (source : Source line_start items)
    (named : AllNamed items) (passed : AllPassed items) (s : Copied) :
    visit_items Output.emit (process cpu) s.output items = (items.foldlM (copy_item cpu) s).map Copied.output := by
  induction items generalizing line_start s with
  | nil => rfl
  | cons i items ih =>
    have rest_named : AllNamed items := fun j member => named j (List.mem_cons_of_mem i member)
    have rest_passed : AllPassed items := fun j member => passed j (List.mem_cons_of_mem i member)
    have continue_ : ∀ {ls : Bool}, Source ls items → process cpu s.output i.render = (copy_item cpu s i).map Copied.output →
        ((process cpu s.output i.render).bind fun s => visit_items Output.emit (process cpu) s items) =
          ((i :: items).foldlM (copy_item cpu) s).map Copied.output := by
      intro ls later one
      rw [one,List.foldlM_cons]
      cases copy_item cpu s i with
      | none => rfl
      | some next => exact ih ls later rest_named rest_passed next
    cases i with
    | text t =>
      have later : ∃ ls, Source ls items := by
        rcases source with ⟨u,_,_,later⟩|⟨_,_,_,_,later⟩
        · exact ⟨_,later⟩
        · exact ⟨_,later⟩
      obtain ⟨ls,later⟩ := later
      have emitted := output_emit s (.text t)
      rw [visit_items,show t = (Item.text t).render from rfl,emitted]
      exact ih ls later rest_named rest_passed _
    | block_comment body => exact continue_ source.2 (process_comment cpu s _ (by simp [Item.render]))
    | line_comment body => exact continue_ source.2.2 (process_comment cpu s _ (by simp [Item.render]))
    | directive gap d =>
      apply continue_ source.2.2.2
      exact process_directive cpu s source.2.1 source.2.2.1 (named _ List.mem_cons_self) (passed _ List.mem_cons_self)

theorem visit_rejected (cpu : Cpu) (items : List Item) (line_start : Bool) (source : Source line_start items)
    (rejected : ¬ ∀ i ∈ items, i.Named ∧ i.Passed) (s : Output) : visit_items Output.emit (process cpu) s items = none := by
  induction items generalizing line_start s with
  | nil => exact absurd (fun i member => absurd member List.not_mem_nil) rejected
  | cons i items ih =>
    have rest_rejected : i.Named ∧ i.Passed → ¬ ∀ j ∈ items, j.Named ∧ j.Passed := by
      intro here rest
      apply rejected
      intro j member
      rcases List.mem_cons.mp member with rfl|later
      · exact here
      · exact rest j later
    have continue_ : ∀ {ls : Bool}, Source ls items → i.Named ∧ i.Passed →
        ((process cpu s i.render).bind fun s => visit_items Output.emit (process cpu) s items) = none := by
      intro ls later here
      cases process cpu s i.render with
      | none => rfl
      | some next => exact ih ls later (rest_rejected here) next
    cases i with
    | text t =>
      rcases source with ⟨u,_,_,later⟩|⟨_,_,_,_,later⟩
      · exact ih _ later (rest_rejected ⟨trivial,trivial⟩) _
      · exact ih _ later (rest_rejected ⟨trivial,trivial⟩) _
    | block_comment body => exact continue_ source.2 ⟨trivial,trivial⟩
    | line_comment body => exact continue_ source.2.2 ⟨trivial,trivial⟩
    | directive gap d =>
      by_cases named : (Item.directive gap d).Named
      · by_cases passed : (Item.directive gap d).Passed
        · exact continue_ source.2.2.2 ⟨named,passed⟩
        · change ((process cpu s _).bind _) = none
          rw [process_unpassed cpu s source.2.1 named passed]
          rfl
      · change ((process cpu s _).bind _) = none
        rw [process_unnamed cpu s source.2.1 source.2.2.1 named]
        rfl

-- What the modes of the loop say of the source's conditionals and of the
-- output's, innermost first: a copied one is in both, unless it stands in a false
-- region; a CPU's is in the source only, and its value is known.
inductive Matching : List Mode → List Conditional → List Conditional → List (Option Bool) → Prop where
  | outside : Matching [.COPY] [] [] []
  | copied (c : Conditional) : Matching mode source output open_ → .COND_FALSE ∉ mode →
      Matching (.COPY :: mode) (c :: source) (c :: output) (none :: open_)
  | dropped (c : Conditional) : Matching mode source output open_ → .COND_FALSE ∈ mode →
      Matching (.COPY :: mode) (c :: source) output (none :: open_)
  | true_ (e : Bool) : Matching mode source output open_ →
      Matching (.COND_TRUE :: mode) (⟨true,e⟩ :: source) output (some true :: open_)
  | false_ (e : Bool) : Matching mode source output open_ →
      Matching (.COND_FALSE :: mode) (⟨false,e⟩ :: source) output (some false :: open_)

theorem Matching.hidden {mode : List Mode} {source output : List Conditional} {open_ : List (Option Bool)}
    (m : Matching mode source output open_) : .COND_FALSE ∈ mode ↔ some false ∈ open_ := by
  induction m with
  | outside => simp
  | copied c _ live ih => simp [ih]
  | dropped c _ hidden ih => simp [ih]
  | true_ e _ ih => simp [ih]
  | false_ e _ ih => simp

-- In a false region nothing is selected; elsewhere both select alike.
theorem Matching.selecting {mode : List Mode} {source output : List Conditional} {open_ : List (Option Bool)}
    (m : Matching mode source output open_) :
    source.all (·.value) = if .COND_FALSE ∈ mode then false else output.all (·.value) := by
  induction m with
  | outside => simp
  | copied c _ live ih => simp [live,ih]
  | dropped c _ hidden ih => simp [hidden,ih]
  | true_ e _ ih => simp [ih]
  | false_ e _ ih => simp

def unset : Text → Option Bool := fun _ => none

-- The output that has been kept so far, run beside the source.
structure Beside (cpp : Cpp) (macros : Macros) (f : Text → Text) (s : Copied) (σ : Selection)
    (open_ : List (Option Bool)) : Prop where
  run : ∃ output : Selection, (s.kept.map (Item.renamed f)).foldlM (cpp.step unset) ⟨macros,[],[]⟩ = some output ∧
    output.macros = σ.macros ∧ output.lines = σ.lines ∧ Matching s.mode σ.conditionals output.conditionals open_

theorem run_snoc {cpp : Cpp} {fixed : Text → Option Bool} {items : List Item} {start s s' : Selection} {i : Item}
    (run : items.foldlM (cpp.step fixed) start = some s) (step : cpp.step fixed s i = some s') :
    (items ++ [i]).foldlM (cpp.step fixed) start = some s' := by
  rw [List.foldlM_append,run]
  change (List.foldlM (cpp.step fixed) s [i]) = some s'
  rw [List.foldlM_cons,step]
  rfl

-- An item that is no conditional: both runs take it, or neither selects.
theorem emit_beside {cpp : Cpp} {macros : Macros} {f : Text → Text} {s : Copied} {σ σ' : Selection}
    {open_ : List (Option Bool)} (beside : Beside cpp macros f s σ open_) {i : Item}
    (skipped : σ.selecting = false → σ' = σ)
    (taken : ∀ output : Selection, output.macros = σ.macros → output.lines = σ.lines →
      output.selecting = σ.selecting → ∃ output', cpp.step unset output (i.renamed f) = some output' ∧
        output'.macros = σ'.macros ∧ output'.lines = σ'.lines ∧ output'.conditionals = output.conditionals)
    (same : σ'.conditionals = σ.conditionals) : Beside cpp macros f (s.emit i) σ' open_ := by
  obtain ⟨output,run,macros_eq,lines_eq,matching⟩ := beside.run
  have selecting := matching.selecting
  unfold Copied.emit
  by_cases hidden : Mode.COND_FALSE ∈ s.mode
  · rw [if_pos hidden] at selecting ⊢
    rw [skipped selecting]
    exact beside
  · rw [if_neg hidden] at selecting ⊢
    obtain ⟨output',step,macros',lines',conditionals'⟩ := taken output macros_eq lines_eq selecting.symm
    constructor
    refine ⟨output',?_,macros',lines',?_⟩
    · rw [List.map_append]
      exact run_snoc run step
    · rw [same,conditionals']
      exact matching

theorem setting_renamed {f : Text → Text} (r : Renaming f) (cpu : Cpu) (name : Text) :
    cpu.setting (f name) = cpu.setting name := by
  have others : f name ∈ cpu.other_cpus ↔ name ∈ cpu.other_cpus := by
    unfold Cpu.other_cpus
    rw [List.mem_map,List.mem_map]
    constructor
    · rintro ⟨key,listed,same⟩
      exact ⟨key,listed,((r.uppers key name).mp same.symm).symm⟩
    · rintro ⟨key,listed,same⟩
      exact ⟨key,listed,((r.uppers key name).mpr same.symm).symm⟩
  unfold Cpu.setting
  simp only [r.uppers,others]

section Steps
variable {cpp : Cpp} {macros : Macros} {f : Text → Text} {s : Copied} {σ σ' : Selection} {open_ : List (Option Bool)}

-- A conditional that is no CPU's opens.
theorem open_beside (beside : Beside cpp macros f s σ open_) (i : Item) (c : Conditional)
    (pushes : ∀ output : Selection, output.macros = σ.macros →
      cpp.step unset output (i.renamed f) = some {output with conditionals := c :: output.conditionals}) :
    Beside cpp macros f ((s.push .COPY).emit i) {σ with conditionals := c :: σ.conditionals} (none :: open_) := by
  obtain ⟨output,run,macros_eq,lines_eq,matching⟩ := beside.run
  unfold Copied.emit Copied.push
  by_cases hidden : Mode.COND_FALSE ∈ s.mode
  · rw [if_pos (List.mem_cons_of_mem _ hidden)]
    exact ⟨output,run,macros_eq,lines_eq,matching.dropped c hidden⟩
  · rw [if_neg (by simpa using hidden)]
    refine ⟨{output with conditionals := c :: output.conditionals},?_,macros_eq,lines_eq,matching.copied c hidden⟩
    rw [List.map_append]
    exact run_snoc run (pushes output macros_eq)

-- A CPU's conditional opens.
theorem push_beside (beside : Beside cpp macros f s σ open_) (value : Bool) :
    Beside cpp macros f (s.push (region_mode (some value))) {σ with conditionals := ⟨value,false⟩ :: σ.conditionals}
      (some value :: open_) := by
  obtain ⟨output,run,macros_eq,lines_eq,matching⟩ := beside.run
  constructor
  refine ⟨output,run,macros_eq,lines_eq,?_⟩
  cases value with
  | true => exact matching.true_ false
  | false => exact matching.false_ false

theorem else_beside (beside : Beside cpp macros f s σ open_) {gap rest : Text} {value : Bool}
    {outer : List Conditional} (conditionals : σ.conditionals = ⟨value,false⟩ :: outer) (cpu : Cpu) :
    ∃ s', copy_item cpu s (.directive gap (.else_ rest)) = some s' ∧
      Beside cpp macros f s' {σ with conditionals := ⟨!value,true⟩ :: outer}
        (region cpu open_ (.directive gap (.else_ rest))) := by
  obtain ⟨output,run,macros_eq,lines_eq,matching⟩ := beside.run
  rw [conditionals] at matching
  unfold copy_item
  simp only
  generalize mode_eq : s.mode = mode at matching
  generalize output_eq : output.conditionals = inner at matching
  cases matching with
  | @copied mode _ output_rest _ c matching live =>
    refine ⟨_,rfl,?_⟩
    rw [Copied.emit,mode_eq,if_neg (by simpa using live)]
    constructor
    refine ⟨{output with conditionals := ⟨!value,true⟩ :: output_rest},?_,macros_eq,lines_eq,?_⟩
    · rw [List.map_append]
      apply run_snoc run
      simp only [Item.renamed,Directive.renamed,Cpp.step,output_eq]
    · exact matching.copied _ live
  | dropped c matching hidden =>
    refine ⟨_,rfl,?_⟩
    rw [Copied.emit,mode_eq,if_pos (List.mem_cons_of_mem _ hidden)]
    constructor
    refine ⟨output,run,macros_eq,lines_eq,?_⟩
    rw [mode_eq,output_eq]
    exact matching.dropped _ hidden
  | true_ e matching =>
    refine ⟨_,rfl,?_⟩
    constructor
    refine ⟨output,run,macros_eq,lines_eq,?_⟩
    rw [output_eq]
    exact matching.false_ true
  | false_ e matching =>
    refine ⟨_,rfl,?_⟩
    constructor
    refine ⟨output,run,macros_eq,lines_eq,?_⟩
    rw [output_eq]
    exact matching.true_ true

theorem endif_beside (beside : Beside cpp macros f s σ open_) {gap rest : Text} {c : Conditional}
    {outer : List Conditional} (conditionals : σ.conditionals = c :: outer) (cpu : Cpu) :
    ∃ s', copy_item cpu s (.directive gap (.endif rest)) = some s' ∧
      Beside cpp macros f s' {σ with conditionals := outer} (region cpu open_ (.directive gap (.endif rest))) := by
  obtain ⟨output,run,macros_eq,lines_eq,matching⟩ := beside.run
  rw [conditionals] at matching
  unfold copy_item
  simp only
  generalize mode_eq : s.mode = mode at matching
  generalize output_eq : output.conditionals = inner at matching
  cases matching with
  | @copied mode _ output_rest _ c matching live =>
    refine ⟨_,rfl,?_⟩
    rw [if_pos rfl,Copied.emit,mode_eq,if_neg (by simpa using live)]
    constructor
    refine ⟨{output with conditionals := output_rest},?_,macros_eq,lines_eq,matching⟩
    rw [List.map_append]
    apply run_snoc run
    simp only [Item.renamed,Directive.renamed,Cpp.step,output_eq]
  | dropped c matching hidden =>
    refine ⟨_,rfl,?_⟩
    rw [if_pos rfl,Copied.emit,mode_eq,if_pos (List.mem_cons_of_mem _ hidden)]
    constructor
    refine ⟨output,run,macros_eq,lines_eq,?_⟩
    rw [output_eq]
    exact matching
  | true_ e matching =>
    refine ⟨_,rfl,?_⟩
    rw [if_neg (by decide)]
    constructor
    refine ⟨output,run,macros_eq,lines_eq,?_⟩
    rw [output_eq]
    exact matching
  | false_ e matching =>
    refine ⟨_,rfl,?_⟩
    rw [if_neg (by decide)]
    constructor
    refine ⟨output,run,macros_eq,lines_eq,?_⟩
    rw [output_eq]
    exact matching

-- An item that acts only where text is selected.
theorem selected_beside (beside : Beside cpp macros f s σ open_) {i : Item} (macros_after : Macros → Macros)
    (lines_after : List Text → List Text)
    (acts : ∀ s : Selection, cpp.step unset s (i.renamed f) =
      some (if s.selecting then {s with macros := macros_after s.macros, lines := lines_after s.lines} else s)) :
    Beside cpp macros f (s.emit i)
      (if σ.selecting then {σ with macros := macros_after σ.macros, lines := lines_after σ.lines} else σ) open_ := by
  apply emit_beside beside
  · intro skipped
    rw [skipped]
    rfl
  · intro output macros_eq lines_eq selecting
    refine ⟨_,acts output,?_⟩
    rw [selecting]
    split <;> simp [macros_eq,lines_eq]
  · split <;> rfl

-- One item of the source, and what is kept of it.
theorem step_beside (r : Renaming f) (cpu : Cpu) (beside : Beside cpp macros f s σ open_) (i : Item)
    (step : cpp.step cpu.setting σ (i.renamed f) = some σ')
    (shown : ∀ gap e, i = .directive gap (.if_ e) → some false ∉ open_) :
    ∃ s', copy_item cpu s i = some s' ∧ Beside cpp macros f s' σ' (region cpu open_ i) := by
  cases i with
  | text t =>
    cases step
    exact ⟨_,rfl,selected_beside beside (fun m => m) (fun l => l ++ [f t]) (fun _ => rfl)⟩
  | block_comment body =>
    cases step
    exact ⟨_,rfl,emit_beside beside (fun _ => rfl) (fun output m l _ => ⟨_,rfl,m,l,rfl⟩) rfl⟩
  | line_comment body =>
    cases step
    exact ⟨_,rfl,emit_beside beside (fun _ => rfl) (fun output m l _ => ⟨_,rfl,m,l,rfl⟩) rfl⟩
  | directive gap d =>
    cases d with
    | include_ rest =>
      cases step
      exact ⟨_,rfl,selected_beside beside (fun m => cpp.included m (f rest)) (fun l => l) (fun _ => rfl)⟩
    | define space_ name rest =>
      cases step
      exact ⟨_,rfl,selected_beside beside (fun m => Function.update m (f name) (some (f rest))) (fun l => l) (fun _ => rfl)⟩
    | undef space_ name rest =>
      cases step
      exact ⟨_,rfl,selected_beside beside (fun m => Function.update m (f name) none) (fun l => l) (fun _ => rfl)⟩
    | ifdef space_ name rest =>
      cases step
      refine ⟨_,rfl,?_⟩
      simp only [region,setting_renamed r]
      cases set : cpu.setting name with
      | none =>
        apply open_beside beside
        intro output macros_eq
        rw [← macros_eq]
        rfl
      | some value => exact push_beside beside value
    | ifndef space_ name rest =>
      cases step
      refine ⟨_,rfl,?_⟩
      simp only [region,setting_renamed r]
      cases set : cpu.setting name with
      | none =>
        apply open_beside beside
        intro output macros_eq
        rw [← macros_eq]
        rfl
      | some value => exact push_beside beside (!value)
    | if_ rest =>
      cases step
      refine ⟨_,rfl,?_⟩
      have live : Mode.COND_FALSE ∉ s.mode := by
        obtain ⟨_,_,_,_,matching⟩ := beside.run
        rw [matching.hidden]
        exact shown gap rest rfl
      have opened := open_beside beside (.directive gap (.if_ rest)) ⟨cpp.value σ.macros (f rest),false⟩
        (by
          intro output macros_eq
          rw [← macros_eq]
          rfl)
      rw [Copied.emit,if_neg (by simpa [Copied.push] using live)] at opened
      exact opened
    | else_ rest =>
      simp only [Item.renamed,Directive.renamed,Cpp.step] at step
      split at step
      · rename_i conditionals
        cases step
        exact else_beside beside conditionals cpu
      · cases step
    | endif rest =>
      simp only [Item.renamed,Directive.renamed,Cpp.step] at step
      split at step
      · rename_i conditionals
        cases step
        exact endif_beside beside conditionals cpu
      · cases step

theorem run_beside (r : Renaming f) (cpu : Cpu) (items : List Item) (beside : Beside cpp macros f s σ open_)
    (run : (items.map (Item.renamed f)).foldlM (cpp.step cpu.setting) σ = some σ')
    (shown : hidden_if cpu open_ items = false) :
    ∃ s' open_', items.foldlM (copy_item cpu) s = some s' ∧ Beside cpp macros f s' σ' open_' := by
  induction items generalizing s σ open_ with
  | nil =>
    cases run
    exact ⟨s,open_,rfl,beside⟩
  | cons i items ih =>
    rw [List.map_cons,List.foldlM_cons] at run
    obtain ⟨next,step,rest⟩ := Option.bind_eq_some_iff.mp run
    have parts : (∀ gap e, i = .directive gap (.if_ e) → some false ∉ open_) ∧
        hidden_if cpu (region cpu open_ i) items = false := by
      cases i with
      | directive gap d =>
        cases d with
        | if_ e =>
          simp only [hidden_if,Bool.or_eq_false_iff,decide_eq_false_iff_not] at shown
          exact ⟨fun _ _ _ => shown.1,shown.2⟩
        | _ => exact ⟨fun _ _ same => (nomatch same),shown⟩
      | _ => exact ⟨fun _ _ same => (nomatch same),shown⟩
    obtain ⟨s₁,copied,beside₁⟩ := step_beside r cpu beside i step parts.1
    obtain ⟨s',open_',run',beside'⟩ := ih beside₁ rest parts.2
    refine ⟨s',open_',?_,beside'⟩
    rw [List.foldlM_cons,copied]
    exact run'

end Steps

theorem nest_renamed (f : Text → Text) (open_ : List Bool) (i : Item) : nest open_ (i.renamed f) = nest open_ i := by
  cases i with
  | directive gap d => cases d <;> rfl
  | _ => rfl

-- A run goes on as long as the conditionals nest.
theorem step_nest (cpp : Cpp) (fixed : Text → Option Bool) (s : Selection) (i : Item) :
    (cpp.step fixed s i).map (fun s => s.conditionals.map (·.else_seen)) = nest (s.conditionals.map (·.else_seen)) i := by
  cases i with
  | text t => simp only [Cpp.step,nest]; split <;> rfl
  | block_comment body => rfl
  | line_comment body => rfl
  | directive gap d =>
    cases d with
    | include_ rest => simp only [Cpp.step,nest]; split <;> rfl
    | define space_ name rest => simp only [Cpp.step,nest]; split <;> rfl
    | undef space_ name rest => simp only [Cpp.step,nest]; split <;> rfl
    | ifdef space_ name rest => rfl
    | ifndef space_ name rest => rfl
    | if_ rest => rfl
    | else_ rest =>
      simp only [Cpp.step,nest]
      rcases s.conditionals with _|⟨⟨value,_|_⟩,outer⟩ <;> rfl
    | endif rest =>
      simp only [Cpp.step,nest]
      rcases s.conditionals with _|⟨c,outer⟩ <;> rfl

theorem run_nest (cpp : Cpp) (fixed : Text → Option Bool) (items : List Item) (s : Selection) :
    (items.foldlM (cpp.step fixed) s).map (fun s => s.conditionals.map (·.else_seen)) =
      items.foldlM nest (s.conditionals.map (·.else_seen)) := by
  induction items generalizing s with
  | nil => rfl
  | cons i items ih =>
    rw [List.foldlM_cons,List.foldlM_cons,← step_nest cpp fixed s i]
    cases cpp.step fixed s i with
    | none => rfl
    | some next => exact ih next

theorem nested_renamed (f : Text → Text) (items : List Item) : Nested (items.map (Item.renamed f)) ↔ Nested items := by
  unfold Nested
  rw [List.foldlM_map]
  simp only [nest_renamed]

theorem select_nested (cpp : Cpp) (fixed : Text → Option Bool) (macros : Macros) {items : List Item} (nested : Nested items) :
    ∃ s, items.foldlM (cpp.step fixed) ⟨macros,[],[]⟩ = some s ∧ s.conditionals = [] := by
  have run := (run_nest cpp fixed items ⟨macros,[],[]⟩).trans nested
  obtain ⟨s,ran,closed⟩ := Option.map_eq_some_iff.mp run
  exact ⟨s,ran,List.map_eq_nil_iff.mp closed⟩

-- No test of a CPU's macro is kept.
def NoCpuTested (items : List Item) : Prop := ∀ i ∈ items, ¬ i.TestsCpu

theorem emit_untested {s : Copied} {i : Item} (untested : NoCpuTested s.kept) (here : ¬ i.TestsCpu) :
    NoCpuTested (s.emit i).kept := by
  unfold Copied.emit
  split
  · exact untested
  · intro j member
    rcases List.mem_append.mp member with before|last
    · exact untested j before
    · rw [List.mem_singleton.mp last]
      exact here

theorem setting_some {cpu key : Cpu} {name : Text} (same : name = key.upper) : cpu.setting name ≠ none := by
  subst same
  cases cpu <;> cases key <;> decide

theorem copy_untested {cpu : Cpu} {s s' : Copied} {i : Item} (untested : NoCpuTested s.kept)
    (copied : copy_item cpu s i = some s') : NoCpuTested s'.kept := by
  cases i with
  | text t => cases copied; exact emit_untested untested id
  | block_comment body => cases copied; exact emit_untested untested id
  | line_comment body => cases copied; exact emit_untested untested id
  | directive gap d =>
    cases d with
    | include_ rest => cases copied; exact emit_untested untested id
    | define space_ name rest => cases copied; exact emit_untested untested id
    | undef space_ name rest => cases copied; exact emit_untested untested id
    | ifdef space_ name rest =>
      cases copied
      split
      · rename_i no_cpu
        apply emit_untested (s := s.push _) untested
        rintro ⟨key,_,same⟩
        exact setting_some same no_cpu
      · exact untested
    | ifndef space_ name rest =>
      cases copied
      split
      · rename_i no_cpu
        apply emit_untested (s := s.push _) untested
        rintro ⟨key,_,same⟩
        exact setting_some same no_cpu
      · exact untested
    | if_ rest =>
      cases copied
      intro j member
      rcases List.mem_append.mp member with before|last
      · exact untested j before
      · rw [List.mem_singleton.mp last]
        exact id
    | else_ rest =>
      unfold copy_item at copied
      simp only at copied
      split at copied
      · cases copied
      · cases copied; exact untested
      · cases copied; exact untested
      · cases copied; exact emit_untested untested id
    | endif rest =>
      unfold copy_item at copied
      simp only at copied
      split at copied
      · cases copied
      · cases copied
        simp only
        split
        · exact emit_untested untested id
        · exact untested

theorem copies_untested {cpu : Cpu} (items : List Item) {s s' : Copied} (untested : NoCpuTested s.kept)
    (run : items.foldlM (copy_item cpu) s = some s') : NoCpuTested s'.kept := by
  induction items generalizing s with
  | nil =>
    cases run
    exact untested
  | cons i items ih =>
    rw [List.foldlM_cons] at run
    obtain ⟨next,copied,rest⟩ := Option.bind_eq_some_iff.mp run
    exact ih (copy_untested untested copied) rest

theorem untested_renamed {f : Text → Text} (r : Renaming f) {items : List Item} (untested : NoCpuTested items) :
    NoCpuTested (items.map (Item.renamed f)) := by
  intro j member
  obtain ⟨i,listed,rfl⟩ := List.mem_map.mp member
  intro tests
  apply untested i listed
  cases i with
  | directive gap d =>
    cases d with
    | ifdef space_ name rest | ifndef space_ name rest =>
      obtain ⟨key,is_cpu,same⟩ := tests
      exact ⟨key,is_cpu,(r.uppers key name).mp same⟩
    | _ => exact tests
  | _ => exact tests

theorem Matching.closed {mode : List Mode} {output : List Conditional} {open_ : List (Option Bool)}
    (m : Matching mode [] output open_) : mode = [.COPY] ∧ output = [] := by
  cases m
  exact ⟨rfl,rfl⟩

theorem preserved_of_named (cpu : Cpu) {items : List Item} (source : Source true items) (nested : Nested items)
    (passed : AllPassed items) (named : AllNamed items) (shown : hidden_if cpu [] items = false) :
    Preserved cpu items := by
  have r := cpu_renaming cpu
  -- a run beside any preprocessor's
  have along : ∀ (cpp : Cpp) (macros : Macros), ∃ s σ open_, items.foldlM (copy_item cpu) ⟨[.COPY],[]⟩ = some s ∧
      (items.map (Item.renamed cpu.rename)).foldlM (cpp.step cpu.setting) ⟨macros,[],[]⟩ = some σ ∧
      σ.conditionals = [] ∧ Beside cpp macros cpu.rename s σ open_ := by
    intro cpp macros
    obtain ⟨σ,run,closed⟩ := select_nested cpp cpu.setting macros ((nested_renamed cpu.rename items).mpr nested)
    have start : Beside cpp macros cpu.rename ⟨[.COPY],[]⟩ ⟨macros,[],[]⟩ [] := ⟨⟨_,rfl,rfl,rfl,.outside⟩⟩
    obtain ⟨s,open_,copied,beside⟩ := run_beside r cpu items start run shown
    exact ⟨s,σ,open_,copied,run,closed,beside⟩
  obtain ⟨s,σ,open_,copied,-,closed,beside⟩ := along ⟨fun _ _ => true,fun m _ => m⟩ (fun _ => none)
  obtain ⟨output,run,-,-,matching⟩ := beside.run
  rw [closed] at matching
  obtain ⟨mode,output_closed⟩ := matching.closed
  have kept_source : Source true s.kept := by
    apply copies_readable items (s := ⟨[.COPY],[]⟩) (p := .start) _ source copied
    · rw [mode]
      decide
    · exact readable_of_ready fun _ here => here
  refine ⟨s.kept.map (Item.renamed cpu.rename),?_,r.source _ true kept_source,?_,?_,?_⟩
  · have visited := visit_copies cpu items true source named passed ⟨[.COPY],[]⟩
    rw [copied] at visited
    rw [preprocess_items cpu source]
    change (visit_items _ _ (Copied.output ⟨[.COPY],[]⟩) items).bind _ = _
    rw [visited,Option.map_some,Option.bind_some,if_pos (show s.output.mode = [.COPY] from mode)]
    exact congrArg some (r.render s.kept true kept_source)
  · have nests := run_nest ⟨fun _ _ => true,fun m _ => m⟩ unset (s.kept.map (Item.renamed cpu.rename)) ⟨fun _ => none,[],[]⟩
    rw [run,Option.map_some,output_closed] at nests
    exact nests.symm
  · exact untested_renamed r (copies_untested items (s := ⟨[.COPY],[]⟩) (fun i member => absurd member List.not_mem_nil) copied)
  · intro cpp macros
    obtain ⟨s',σ',open_',copied',run',closed',beside'⟩ := along cpp macros
    obtain rfl : s' = s := Option.some.inj (copied'.symm.trans copied)
    obtain ⟨output',kept_run,-,lines_eq,matching'⟩ := beside'.run
    rw [closed'] at matching'
    refine ⟨σ'.lines,?_,?_⟩
    · unfold Cpp.select
      change (List.foldlM (cpp.step unset) _ _).bind _ = _
      rw [kept_run,Option.bind_some,matching'.closed.2,lines_eq]
      rfl
    · unfold Cpp.select
      rw [run',Option.bind_eq_bind,Option.bind_some,closed']
      rfl

end IcedTea.Generate

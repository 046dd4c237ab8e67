import IcedTea.PreprocessRegions

namespace IcedTea.Generate

-- What the reading of a source sees of a character: which one it is, or that it
-- belongs to an identifier.
def shadow (c : Char) : Char := if identifier c then 'a' else c

theorem shadow_eq {c x : Char} (not_letter : identifier x = false) : shadow c = x ↔ c = x := by
  unfold shadow
  split
  · rename_i letter
    constructor
    · rintro rfl
      exact absurd not_letter (by decide)
    · rintro rfl
      rw [letter] at not_letter
      cases not_letter
  · rfl

theorem identifier_shadow (c : Char) : identifier (shadow c) = identifier c := by
  unfold shadow
  split
  · rename_i letter
    rw [letter]
    decide
  · rfl

theorem blank_shadow (c : Char) : blank (shadow c) = blank c := by
  have blank_iff : shadow c = ' ' ↔ c = ' ' := shadow_eq (by decide)
  have tab_iff : shadow c = '\t' ↔ c = '\t' := shadow_eq (by decide)
  unfold blank
  simp only [blank_iff,tab_iff]

theorem mem_shadow {t : Text} {x : Char} (not_letter : identifier x = false) : x ∈ t.map shadow ↔ x ∈ t := by
  rw [List.mem_map]
  constructor
  · rintro ⟨c,member,same⟩
    rwa [(shadow_eq not_letter).mp same] at member
  · intro member
    exact ⟨x,member,(shadow_eq not_letter).mpr rfl⟩

theorem last_shadow {t : Text} {x : Char} (not_letter : identifier x = false) :
    (t.map shadow).getLast? = some x ↔ t.getLast? = some x := by
  rw [List.getLast?_map]
  cases t.getLast? with
  | none => simp
  | some c => simp [shadow_eq not_letter]

theorem head_shadow {t : Text} {x : Char} (not_letter : identifier x = false) :
    (t.map shadow).head? = some x ↔ t.head? = some x := by
  rw [List.head?_map]
  cases t.head? with
  | none => simp
  | some c => simp [shadow_eq not_letter]

theorem opens_iff (t : Text) : opens t = true ↔ t.head? = some '/' ∧
    (t.tail.head? = some '*' ∨ t.tail.head? = some '/') := by
  unfold opens
  split
  · simp
  · simp
  · rename_i not_block not_line
    constructor
    · intro h
      cases h
    · rintro ⟨first,second⟩
      cases t with
      | nil => cases first
      | cons c t =>
        cases first
        cases t with
        | nil => simp at second
        | cons d t =>
          rcases second with second|second
          · cases second
            exact absurd rfl (not_block t)
          · cases second
            exact absurd rfl (not_line t)

theorem opens_shadow (t : Text) : opens (t.map shadow) = opens t := by
  rw [Bool.eq_iff_iff,opens_iff,opens_iff,head_shadow (by decide),← List.map_tail,head_shadow (by decide),
    head_shadow (by decide)]

theorem has_marker_shadow (t : Text) : has_marker (t.map shadow) = has_marker t := by
  induction t with
  | nil => rfl
  | cons c t ih =>
    have here := opens_shadow (c :: t)
    rw [List.map_cons] at here ⊢
    rw [has_marker,has_marker,here,ih]

theorem has_close_cons (c : Char) (t : Text) :
    has_close (c :: t) = true ↔ c = '*' ∧ t.head? = some '/' ∨ has_close t = true := by
  by_cases here : c = '*' ∧ t.head? = some '/'
  · obtain ⟨rfl,first⟩ := here
    cases t with
    | nil => cases first
    | cons d t =>
      cases first
      simp [has_close]
  · have skipped : has_close (c :: t) = has_close t := by
      rw [has_close.eq_def]
      split
      · rename_i eq
        cases eq
        exact absurd ⟨rfl,rfl⟩ here
      · rename_i eq
        cases eq
        rfl
      · rename_i eq
        cases eq
    rw [skipped]
    simp [here]

theorem has_close_shadow (t : Text) : has_close (t.map shadow) = has_close t := by
  induction t with
  | nil => rfl
  | cons c t ih =>
    rw [Bool.eq_iff_iff,List.map_cons,has_close_cons,has_close_cons,ih,shadow_eq (by decide),head_shadow (by decide)]

theorem opens_block_cons (c : Char) (t : Text) :
    opens_block (c :: t) = true ↔
      ¬ (c = '/' ∧ t.head? = some '/') ∧ (c = '/' ∧ t.head? = some '*' ∨ opens_block t = true) := by
  by_cases line : c = '/' ∧ t.head? = some '/'
  · obtain ⟨rfl,first⟩ := line
    cases t with
    | nil => cases first
    | cons d t =>
      cases first
      simp [opens_block]
  · by_cases block : c = '/' ∧ t.head? = some '*'
    · obtain ⟨rfl,first⟩ := block
      cases t with
      | nil => cases first
      | cons d t =>
        cases first
        simp [opens_block]
    · have skipped : opens_block (c :: t) = opens_block t := by
        rw [opens_block.eq_def]
        split
        · rename_i eq
          cases eq
          exact absurd ⟨rfl,rfl⟩ line
        · rename_i eq
          cases eq
          exact absurd ⟨rfl,rfl⟩ block
        · rename_i eq
          cases eq
          rfl
        · rename_i eq
          cases eq
      rw [skipped]
      simp [line,block]

theorem opens_block_shadow (t : Text) : opens_block (t.map shadow) = opens_block t := by
  induction t with
  | nil => rfl
  | cons c t ih =>
    rw [Bool.eq_iff_iff,List.map_cons,opens_block_cons,opens_block_cons,ih,shadow_eq (by decide),head_shadow (by decide),
      head_shadow (by decide)]

theorem drop_blank_shadow (t : Text) : (t.map shadow).dropWhile blank = (t.dropWhile blank).map shadow := by
  induction t with
  | nil => rfl
  | cons c t ih =>
    rw [List.map_cons,List.dropWhile_cons,List.dropWhile_cons,blank_shadow,ih]
    split <;> rfl

-- A change of letters inside identifiers.
structure Renaming (f : Text → Text) : Prop where
  shadowed : ∀ t, (f t).map shadow = t.map shadow
  splits : ∀ a b : Text, (∀ c, a.getLast? = some c → identifier c = false) ∨ (∀ c, b.head? = some c → identifier c = false) →
    f (a ++ b) = f a ++ f b
  keywords : ∀ d : Directive, f d.keyword = d.keyword
  uppers : ∀ (key : Cpu) name, f name = key.upper ↔ name = key.upper

theorem renaming_id : Renaming id := ⟨fun _ => rfl,fun _ _ _ => rfl,fun _ => rfl,fun _ _ => Iff.rfl⟩

theorem replace_shadow (t : Text) : (replace_LP64 t).map shadow = t.map shadow := by
  fun_induction replace_LP64 t with
  | case1 t ih =>
    rw [List.map_append,ih]
    rfl
  | case2 c t _ ih => rw [List.map_cons,List.map_cons,ih]
  | case3 => rfl

-- An occurrence of _LP64 does not straddle a place next to which there is no
-- identifier's letter.
theorem replace_split (a b : Text)
    (apart : (∀ c, a.getLast? = some c → identifier c = false) ∨ (∀ c, b.head? = some c → identifier c = false)) :
    replace_LP64 (a ++ b) = replace_LP64 a ++ replace_LP64 b := by
  fun_induction replace_LP64 a with
  | case1 a ih =>
    have later : (∀ c, a.getLast? = some c → identifier c = false) ∨ (∀ c, b.head? = some c → identifier c = false) := by
      rcases apart with last|first
      · apply Or.inl
        intro c member
        apply last
        cases a with
        | nil => cases member
        | cons d a => simpa using member
      · exact Or.inr first
    simp only [List.cons_append,replace_LP64,List.nil_append]
    rw [ih later]
  | case2 c a not_here ih =>
    have later : (∀ c, a.getLast? = some c → identifier c = false) ∨ (∀ c, b.head? = some c → identifier c = false) := by
      rcases apart with last|first
      · apply Or.inl
        intro d member
        apply last
        cases a with
        | nil => cases member
        | cons e a => simpa using member
      · exact Or.inr first
    have still_not : ∀ t, c :: (a ++ b) ≠ '_' :: 'L' :: 'P' :: '6' :: '4' :: t := by
      intro t same
      -- The occurrence would have its last letter in a and its next in b.
      have letters : ∀ x ∈ (['_','L','P','6','4'] : Text), identifier x = true := letters_of_all rfl
      have whole : (c :: a) ++ b = ['_','L','P','6','4'] ++ t := same
      rcases List.append_eq_append_iff.mp whole with ⟨rest,pattern,b_eq⟩|⟨rest,a_eq,_⟩
      · cases rest with
        | nil =>
          rw [List.append_nil] at pattern
          cases pattern
          exact not_here [] rfl rfl
        | cons d rest =>
          have d_letter := letters d (by rw [pattern]; simp)
          have last_letter : ∀ x, (c :: a).getLast? = some x → identifier x = true := by
            intro x member
            apply letters x
            rw [pattern]
            exact List.mem_append_left _ (List.mem_of_getLast? member)
          rcases apart with last|first
          · obtain ⟨x,member⟩ : ∃ x, (c :: a).getLast? = some x := ⟨_,List.getLast?_eq_some_getLast (by simp)⟩
            have no := last x member
            rw [last_letter x member] at no
            cases no
          · have no := first d (by rw [b_eq]; rfl)
            rw [d_letter] at no
            cases no
      · cases a_eq
        exact not_here rest rfl rfl
    rw [List.cons_append]
    rw [replace_LP64.eq_2 _ _ (fun t h₁ h₂ => still_not t (by rw [h₁,h₂]))]
    rw [ih later]
    rfl
  | case3 => rfl

theorem replace_short (t : Text) (short : t.length < 5) : replace_LP64 t = t := by
  fun_induction replace_LP64 t with
  | case1 t ih =>
    simp only [List.length_cons] at short
    omega
  | case2 c t _ ih =>
    rw [ih (by rw [List.length_cons] at short; omega)]
  | case3 => rfl

theorem renaming_replace : Renaming replace_LP64 := by
  constructor
  case shadowed => exact replace_shadow
  case splits => exact replace_split
  case keywords =>
    intro d
    cases d <;> rfl
  case uppers =>
    intro key name
    have key_short : key.upper.length < 5 := by cases key <;> decide
    constructor
    · intro same
      have lengths := congrArg List.length (replace_shadow name)
      rw [List.length_map,List.length_map,same] at lengths
      rwa [replace_short name (by omega)] at same
    · rintro rfl
      exact replace_short _ key_short

theorem cpu_renaming (cpu : Cpu) : Renaming cpu.rename := by
  cases cpu with
  | ppc => exact renaming_replace
  | ia64 => exact renaming_id
  | s390 => exact renaming_id

section Renamed
variable {f : Text → Text} (r : Renaming f)
include r

theorem Renaming.nil : f [] = [] := List.map_eq_nil_iff.mp (r.shadowed [])

theorem Renaming.some_iff (t : Text) : f t = [] ↔ t = [] := by
  have same := r.shadowed t
  constructor
  · intro none_left
    rw [none_left,List.map_nil] at same
    exact List.map_eq_nil_iff.mp same.symm
  · rintro rfl
    exact r.nil

theorem Renaming.mem {t : Text} {x : Char} (not_letter : identifier x = false) : x ∈ f t ↔ x ∈ t := by
  rw [← mem_shadow not_letter,r.shadowed,mem_shadow not_letter]

theorem Renaming.last {t : Text} {x : Char} (not_letter : identifier x = false) :
    (f t).getLast? = some x ↔ t.getLast? = some x := by
  rw [← last_shadow not_letter,r.shadowed,last_shadow not_letter]

theorem Renaming.apart {t : Text} (apart : ∀ c, t.head? = some c → identifier c = false) :
    ∀ c, (f t).head? = some c → identifier c = false := by
  intro c first
  have same := congrArg List.head? (r.shadowed t)
  rw [List.head?_map,List.head?_map,first] at same
  cases old : t.head? with
  | none =>
    rw [old] at same
    cases same
  | some d =>
    rw [old] at same
    have shadows : shadow c = shadow d := Option.some.inj same
    rw [← identifier_shadow c,shadows,identifier_shadow d]
    exact apart d old

-- Text without an identifier's letter stays as it is.
theorem Renaming.plain {t : Text} (no_letters : ∀ c ∈ t, identifier c = false) : f t = t := by
  have lengths := congrArg List.length (r.shadowed t)
  rw [List.length_map,List.length_map] at lengths
  apply List.ext_getElem lengths
  intro i low high
  have same : ((f t).map shadow)[i]? = (t.map shadow)[i]? := by rw [r.shadowed]
  rw [List.getElem?_map,List.getElem?_map,List.getElem?_eq_getElem low,List.getElem?_eq_getElem high] at same
  have shadows : shadow (f t)[i] = shadow t[i] := Option.some.inj same
  have not_letter := no_letters t[i] (List.getElem_mem high)
  rw [← shadow_eq not_letter,shadows,shadow_eq not_letter]

omit r in
theorem spaces_apart {t : Text} (spaces : Spaces t) : ∀ c ∈ t, identifier c = false := by
  intro c member
  have is_blank := spaces c member
  unfold blank at is_blank
  simp only [decide_eq_true_eq] at is_blank
  rcases is_blank with rfl|rfl <;> decide

theorem Renaming.newline : f ['\n'] = ['\n'] := r.plain (no_letters_of_any rfl)

omit r in
theorem newline_first : ∀ c, (['\n'] : Text).head? = some c → identifier c = false := by
  rintro c first
  cases first
  decide

theorem Renaming.plain_text {t : Text} (plain : Plain t) : Plain (f t) := by
  constructor
  case one_line =>
    rw [r.mem (by decide)]
    exact plain.one_line
  case no_marker =>
    rw [← has_marker_shadow,r.shadowed,has_marker_shadow]
    exact plain.no_marker
  case no_directive =>
    rw [ne_eq,← head_shadow (by decide),← drop_blank_shadow,r.shadowed,drop_blank_shadow,head_shadow (by decide)]
    exact plain.no_directive

theorem Renaming.tail {t : Text} (tail : Tail t) : Tail (f t) := by
  constructor
  case apart => exact r.apart tail.apart
  case one_line =>
    rw [r.mem (by decide)]
    exact tail.one_line
  case last =>
    rw [ne_eq,r.last (by decide)]
    exact tail.last
  case no_block =>
    rw [← opens_block_shadow,r.shadowed,opens_block_shadow]
    exact tail.no_block

theorem Renaming.name {t : Text} (name : Name t) : Name (f t) := by
  constructor
  · rw [ne_eq,r.some_iff]
    exact name.1
  · intro c member
    have shadowed : shadow c ∈ (f t).map shadow := List.mem_map_of_mem member
    rw [r.shadowed] at shadowed
    obtain ⟨d,old,same⟩ := List.mem_map.mp shadowed
    rw [← identifier_shadow,← same,identifier_shadow]
    exact name.2 d old

theorem Renaming.complete {d : Directive} (complete : d.Complete) : (d.renamed f).Complete := by
  cases d with
  | include_ rest | if_ rest | else_ rest | endif rest => exact r.tail complete
  | define space_ name rest | undef space_ name rest => exact ⟨complete.1,r.name complete.2.1,r.tail complete.2.2⟩
  | ifdef space_ name rest | ifndef space_ name rest => exact ⟨complete.1,r.name complete.2.1,complete.2.2⟩

-- A source reads as a source after the change.
theorem Renaming.source (items : List Item) (line_start : Bool) (source : Source line_start items) :
    Source line_start (items.map (Item.renamed f)) := by
  induction items generalizing line_start with
  | nil => trivial
  | cons i items ih =>
    cases i with
    | text t =>
      rcases source with ⟨u,rfl,plain,later⟩|⟨some_t,plain,last,comment,later⟩
      · apply Or.inl
        refine ⟨f u,?_,r.plain_text plain,?_⟩
        · rw [r.splits u ['\n'] (Or.inr newline_first),r.newline]
        · have continued : (f u).getLast? = some '\\' ↔ u.getLast? = some '\\' := r.last (by decide)
          have same : decide ((f u).getLast? ≠ some '\\') = decide (u.getLast? ≠ some '\\') := by
            simp only [ne_eq,continued]
          rw [same]
          exact ih _ later
      · apply Or.inr
        refine ⟨?_,r.plain_text plain,?_,?_,ih _ later⟩
        · rwa [ne_eq,r.some_iff]
        · rwa [ne_eq,r.last (by decide)]
        · obtain ⟨body,rest,rfl|rfl⟩ := comment
          · exact ⟨f body,rest.map (Item.renamed f),Or.inl rfl⟩
          · exact ⟨f body,rest.map (Item.renamed f),Or.inr rfl⟩
    | block_comment body =>
      refine ⟨?_,ih _ source.2⟩
      have no_close := source.1
      rw [← has_close_shadow,List.map_append,List.map_append] at no_close ⊢
      rwa [r.shadowed]
    | line_comment body =>
      refine ⟨?_,?_,ih _ source.2.2⟩
      · rw [r.mem (by decide)]
        exact source.1
      · rw [ne_eq,r.last (by decide)]
        exact source.2.1
    | directive gap d => exact ⟨source.1,source.2.1,r.complete source.2.2.1,ih _ source.2.2.2⟩

theorem Renaming.operands {d : Directive} (complete : d.Complete) : f d.operands = (d.renamed f).operands := by
  have spaces_last : ∀ {space_ : Text}, Spaces space_ → ∀ c, space_.getLast? = some c → identifier c = false :=
    fun spaces c last => spaces_apart spaces c (List.mem_of_getLast? last)
  have joined : ∀ {space_ name rest : Text}, Spaces space_ → (∀ c, rest.head? = some c → identifier c = false) →
      f (space_ ++ name ++ rest) = space_ ++ f name ++ f rest := by
    intro space_ name rest spaces rest_apart
    rw [r.splits _ rest (Or.inr rest_apart),r.splits space_ name (Or.inl (spaces_last spaces)),
      r.plain (spaces_apart spaces)]
  cases d with
  | include_ rest | if_ rest | else_ rest | endif rest => rfl
  | define space_ name rest | undef space_ name rest => exact joined complete.1.2 complete.2.2.apart
  | ifdef space_ name rest | ifndef space_ name rest =>
    have last := @joined _ name _ complete.1.2
      (fun c first => spaces_apart complete.2.2 c (List.mem_of_mem_head? first))
    rw [r.plain (spaces_apart complete.2.2)] at last
    exact last

omit r in
theorem operands_apart {d : Directive} (complete : d.Complete) :
    ∀ c, d.operands.head? = some c → identifier c = false := by
  have spaces_first : ∀ {space_ name rest : Text}, space_ ≠ [] ∧ Spaces space_ →
      ∀ c, (space_ ++ name ++ rest).head? = some c → identifier c = false := by
    intro space_ name rest spaces c first
    cases space_ with
    | nil => exact absurd rfl spaces.1
    | cons b bs =>
      have same : b = c := Option.some.inj first
      exact spaces_apart spaces.2 c (same ▸ List.mem_cons_self)
  cases d with
  | include_ rest | if_ rest | else_ rest | endif rest => exact complete.apart
  | define space_ name rest | undef space_ name rest => exact spaces_first complete.1
  | ifdef space_ name rest | ifndef space_ name rest => exact spaces_first complete.1

theorem Renaming.directive {gap : Text} {d : Directive} (gap_blank : Spaces gap) (complete : d.Complete) :
    f (Item.directive gap d).render = ((Item.directive gap d).renamed f).render := by
  have front : ∀ c, ('#' :: gap).getLast? = some c → identifier c = false := by
    intro c last
    rcases List.mem_cons.mp (List.mem_of_getLast? last) with rfl|member
    · decide
    · exact spaces_apart gap_blank c member
  have front_plain : f ('#' :: gap) = '#' :: gap := by
    apply r.plain
    intro c member
    rcases List.mem_cons.mp member with rfl|in_gap
    · decide
    · exact spaces_apart gap_blank c in_gap
  have keyword : (d.renamed f).keyword = d.keyword := by cases d <;> rfl
  change f (('#' :: gap) ++ d.keyword ++ d.operands ++ ['\n']) =
    ('#' :: gap) ++ (d.renamed f).keyword ++ (d.renamed f).operands ++ ['\n']
  rw [r.splits _ ['\n'] (Or.inr newline_first),r.splits _ d.operands (Or.inr (operands_apart complete)),
    r.splits _ d.keyword (Or.inl front),front_plain,r.keywords,r.operands complete,keyword,r.newline]

-- The change of the text is the change of its items.
theorem Renaming.render (items : List Item) (line_start : Bool) (source : Source line_start items) :
    f (render items) = Generate.render (items.map (Item.renamed f)) := by
  induction items generalizing line_start with
  | nil => exact r.nil
  | cons i items ih =>
    have whole : Generate.render (i :: items) = i.render ++ Generate.render items := List.flatMap_cons
    have renamed_whole : Generate.render ((i :: items).map (Item.renamed f)) =
        (i.renamed f).render ++ Generate.render (items.map (Item.renamed f)) := List.flatMap_cons
    have newline : ∀ (t : Text) c, (t ++ ['\n']).getLast? = some c → identifier c = false := by
      intro t c last
      rw [List.getLast?_append] at last
      cases last
      decide
    rw [whole,renamed_whole]
    cases i with
    | text t =>
      rcases source with ⟨u,rfl,plain,later⟩|⟨some_t,plain,last,comment,later⟩
      · simp only [Item.render,Item.renamed]
        rw [r.splits _ _ (Or.inl (newline u)),ih _ later]
      · have first : ∀ c, (Generate.render items).head? = some c → identifier c = false := by
          intro c head
          obtain ⟨body,rest,rfl|rfl⟩ := comment <;> cases head <;> decide
        simp only [Item.render,Item.renamed]
        rw [r.splits _ _ (Or.inr first),ih _ later]
    | block_comment body =>
      have slash : ∀ c, (['/','*'] ++ body ++ ['*','/']).getLast? = some c → identifier c = false := by
        intro c last
        rw [List.getLast?_append] at last
        cases last
        decide
      have opened : f ['/','*'] = ['/','*'] := r.plain (no_letters_of_any rfl)
      have closed : f ['*','/'] = ['*','/'] := r.plain (no_letters_of_any rfl)
      have star : ∀ c, (['/','*'] : Text).getLast? = some c → identifier c = false := by
        intro c last
        cases last
        decide
      have star_first : ∀ c, (['*','/'] : Text).head? = some c → identifier c = false := by
        intro c first
        cases first
        decide
      simp only [Item.render,Item.renamed]
      rw [r.splits _ _ (Or.inl slash),ih _ source.2,r.splits _ ['*','/'] (Or.inr star_first),
        r.splits ['/','*'] body (Or.inl star),opened,closed]
    | line_comment body =>
      have opened : f ['/','/'] = ['/','/'] := r.plain (no_letters_of_any rfl)
      have slash : ∀ c, (['/','/'] : Text).getLast? = some c → identifier c = false := by
        intro c last
        cases last
        decide
      simp only [Item.render,Item.renamed]
      rw [r.splits _ _ (Or.inl (newline _)),ih _ source.2.2,r.splits _ ['\n'] (Or.inr newline_first),
        r.splits ['/','/'] body (Or.inl slash),opened,r.newline]
    | directive gap d =>
      have line_end : ∀ c, (Item.directive gap d).render.getLast? = some c → identifier c = false := newline _
      rw [r.splits _ _ (Or.inl line_end),ih _ source.2.2.2,r.directive source.2.1 source.2.2.1]

end Renamed
end IcedTea.Generate

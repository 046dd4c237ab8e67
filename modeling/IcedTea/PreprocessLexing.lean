import IcedTea.PreprocessSource

namespace IcedTea.Generate

theorem has_marker_cons {c : Char} {t : Text} (none_in : has_marker (c :: t) = false) :
    opens (c :: t) = false ∧ has_marker t = false := by
  rw [has_marker,Bool.or_eq_false_iff] at none_in
  exact none_in

-- Where no comment begins and no directive, there is no marker.
theorem marker_none {line_start : Bool} {src : Text} (comment : opens src = false)
    (directive : line_start = true → (src.dropWhile blank).head? ≠ some '#') : marker line_start src = none := by
  unfold marker
  split
  · simp [opens] at comment
  · simp [opens] at comment
  · split
    · rename_i after
      have absurd_ := directive rfl
      rw [after] at absurd_
      simp at absurd_
    · rfl

-- A character after the text that keeps its last one from opening a comment.
def Stops (t rest : Text) : Prop := t.getLast? ≠ some '/' ∨ ∀ c, rest.head? = some c → c ≠ '/' ∧ c ≠ '*'

theorem opens_append {c : Char} {t rest : Text} (none_in : opens (c :: t) = false) (stops : Stops (c :: t) rest) :
    opens (c :: t ++ rest) = false := by
  cases t with
  | cons d t =>
    unfold opens at none_in ⊢
    split at none_in <;> simp_all
  | nil =>
    cases rest with
    | nil => exact none_in
    | cons d rest =>
      unfold opens
      split
      · rename_i eq
        cases eq
        rcases stops with last|first
        · simp at last
        · exact absurd rfl (first '*' rfl).2
      · rename_i eq
        cases eq
        rcases stops with last|first
        · simp at last
        · exact absurd rfl (first '/' rfl).1
      · rfl

theorem Stops.tail {c : Char} {t rest : Text} (stops : Stops (c :: t) rest) (some_t : t ≠ []) : Stops t rest := by
  rcases stops with last|first
  · apply Or.inl
    rwa [List.getLast?_cons_of_ne_nil some_t] at last
  · exact Or.inr first

def prepend (t : Text) : Text × Text × Text → Text × Text × Text := fun (before,thing,rest) => (t ++ before,thing,rest)

-- Text within a line is skipped.
theorem match_text {line_start : Bool} (t rest : Text) (one_line : '\n' ∉ t) (no_marker : has_marker t = false)
    (stops : t ≠ [] → Stops t rest)
    (no_directive : line_start = true → t ≠ [] → ((t ++ rest).dropWhile blank).head? ≠ some '#') :
    match_things line_start (t ++ rest) =
      (match_things (if t = [] then line_start else false) rest).map (prepend t) := by
  induction t generalizing line_start with
  | nil =>
    rw [if_pos rfl,List.nil_append]
    cases match_things line_start rest <;> rfl
  | cons c t ih =>
    obtain ⟨not_here,none_later⟩ := has_marker_cons no_marker
    have none_here : marker line_start (c :: t ++ rest) = none :=
      marker_none (opens_append not_here (stops (by simp))) (fun start => no_directive start (by simp))
    have not_newline : ¬ c = '\n' := fun same => one_line (same ▸ List.mem_cons_self)
    rw [List.cons_append] at none_here ⊢
    rw [match_things,none_here]
    simp only [not_newline,decide_false]
    rw [ih (fun member => one_line (List.mem_cons_of_mem c member)) none_later
      (fun some_t => (stops (by simp)).tail some_t) (fun start => by cases start)]
    rw [ite_self,if_neg (by simp),Option.map_map]
    rfl

-- A line of text is skipped with its end.
theorem match_line (u rest : Text) (plain : Plain u) :
    match_things true (u ++ ['\n'] ++ rest) = (match_things true rest).map (prepend (u ++ ['\n'])) := by
  have line_end : ∀ line_start, match_things line_start ('\n' :: rest) = (match_things true rest).map (prepend ['\n']) := by
    intro line_start
    have none_here : marker line_start ('\n' :: rest) = none := by
      apply marker_none rfl
      intro _
      simp [List.dropWhile,blank]
    rw [match_things,none_here]
    rfl
  have newline_blank : blank '\n' = false := by decide
  rw [List.append_assoc,List.singleton_append,match_text u ('\n' :: rest) plain.one_line plain.no_marker _ _,line_end,
    Option.map_map]
  · congr 1
    funext ⟨before,thing,rest⟩
    simp [prepend]
  · intro _
    apply Or.inr
    intro c first
    cases first
    exact ⟨by decide,by decide⟩
  · intro _ _
    have plain_start := plain.no_directive
    rw [List.dropWhile_append]
    split
    · rw [List.dropWhile_cons_of_neg (by simp [newline_blank])]
      simp
    · rename_i some_left
      cases left : u.dropWhile blank with
      | nil =>
        rw [left] at some_left
        exact absurd rfl some_left
      | cons c later =>
        rw [left] at plain_start
        exact plain_start

-- Text up to a comment is skipped; where the comment is found the line's start
-- does not matter.
theorem match_to_comment (t rest : Text) (plain : Plain t) (last : t.getLast? ≠ some '/')
    (comment : ∃ tail, rest = '/' :: '*' :: tail ∨ rest = '/' :: '/' :: tail) :
    match_things true (t ++ rest) = (match_things true rest).map (prepend t) := by
  have slash_blank : blank '/' = false := by decide
  rw [match_text t rest plain.one_line plain.no_marker (fun _ => Or.inl last)]
  · obtain ⟨tail,rfl|rfl⟩ := comment
    · split <;> rfl
    · split <;> rfl
  · intro _ _
    have plain_start := plain.no_directive
    rw [List.dropWhile_append]
    split
    · obtain ⟨tail,rfl|rfl⟩ := comment
      all_goals
        rw [List.dropWhile_cons_of_neg (by simp [slash_blank])]
        simp
    · rename_i some_left
      cases left : t.dropWhile blank with
      | nil =>
        rw [left] at some_left
        exact absurd rfl some_left
      | cons c later =>
        rw [left] at plain_start
        exact plain_start

theorem split_newline (line rest : Text) (one_line : '\n' ∉ line) :
    split_after ['\n'] (line ++ ['\n'] ++ rest) = some (line ++ ['\n'],rest) := by
  induction line with
  | nil => simp [split_after]
  | cons c line ih =>
    have differs : ¬ '\n' = c := fun same => one_line (same ▸ List.mem_cons_self)
    rw [List.cons_append,List.cons_append,split_after,if_neg (by simp [differs]),
      ih (fun member => one_line (List.mem_cons_of_mem c member))]
    rfl

theorem split_close (body rest : Text) (no_close : has_close (body ++ ['*']) = false) :
    split_after ['*','/'] (body ++ ['*','/'] ++ rest) = some (body ++ ['*','/'],rest) := by
  induction body with
  | nil => simp [split_after]
  | cons c body ih =>
    have later : has_close (body ++ ['*']) = false := by
      rw [List.cons_append] at no_close
      unfold has_close at no_close
      split at no_close
      · cases no_close
      · rename_i eq
        cases eq
        exact no_close
      · rename_i eq
        cases eq
    have not_here : ¬ ['*','/'] <+: c :: (body ++ ['*','/'] ++ rest) := by
      intro here
      rw [List.cons_append] at no_close
      cases body with
      | nil => simp at here
      | cons d body =>
        simp at here
        obtain ⟨rfl,rfl⟩ := here
        simp [has_close] at no_close
    rw [List.cons_append,List.cons_append,split_after,if_neg not_here,ih later]
    rfl

theorem pieces_none {src : Text} (none_found : match_things true src = none) : pieces src = some ([],src) := by
  rw [pieces]
  split
  · rfl
  · rename_i found
    rw [none_found] at found
    cases found

theorem pieces_some {src before thing rest : Text} (found : match_things true src = some (before,thing,rest)) :
    pieces src = (split_after (ends thing) (thing ++ rest)).bind fun (whole,rest') =>
      (pieces rest').map fun (ps,last) => ((before,whole) :: ps,last) := by
  rw [pieces]
  split
  · rename_i none_found
    rw [found] at none_found
    cases none_found
  · rename_i other
    rw [found] at other
    cases other
    split
    · rename_i none_cut
      rw [none_cut]
      rfl
    · rename_i cut
      rw [cut]
      rfl

-- What text before it does to the pieces of a source.
def before_pieces (t : Text) : List (Text × Text) × Text → List (Text × Text) × Text
  | ([],last) => ([],t ++ last)
  | ((before,thing) :: ps,last) => ((t ++ before,thing) :: ps,last)

theorem pieces_text {t rest : Text}
    (skipped : match_things true (t ++ rest) = (match_things true rest).map (prepend t)) :
    pieces (t ++ rest) = (pieces rest).map (before_pieces t) := by
  cases inner : match_things true rest with
  | none =>
    rw [inner] at skipped
    rw [pieces_none skipped,pieces_none inner]
    rfl
  | some found =>
    obtain ⟨before,thing,tail⟩ := found
    rw [inner] at skipped
    rw [pieces_some skipped,pieces_some inner]
    cases split_after (ends thing) (thing ++ tail) with
    | none => rfl
    | some cut =>
      rw [Option.bind_some,Option.bind_some,Option.map_map]
      rfl

-- A comment or a directive is a piece of its own.
theorem pieces_thing {whole rest : Text} (thing tail : Text) (found : match_things true (whole ++ rest) = some ([],thing,tail))
    (cut : split_after (ends thing) (thing ++ tail) = some (whole,rest)) :
    pieces (whole ++ rest) = (pieces rest).map fun (ps,last) => (([],whole) :: ps,last) := by
  rw [pieces_some found,cut]
  rfl

theorem pieces_block (body rest : Text) (no_close : has_close (['/','*'] ++ body ++ ['*']) = false) :
    pieces ((Item.block_comment body).render ++ rest) =
      (pieces rest).map fun (ps,last) => (([],(Item.block_comment body).render) :: ps,last) := by
  have cut := split_close (['/','*'] ++ body) rest no_close
  apply pieces_thing ['/','*'] (body ++ ['*','/'] ++ rest)
  · rfl
  · exact cut

theorem pieces_line (body rest : Text) (one_line : '\n' ∉ body) :
    pieces ((Item.line_comment body).render ++ rest) =
      (pieces rest).map fun (ps,last) => (([],(Item.line_comment body).render) :: ps,last) := by
  have cut := split_newline (['/','/'] ++ body) rest (by simpa using one_line)
  apply pieces_thing ['/','/'] (body ++ ['\n'] ++ rest)
  · rfl
  · exact cut

theorem pieces_directive (line rest : Text) (one_line : '\n' ∉ line) :
    pieces ('#' :: line ++ ['\n'] ++ rest) =
      (pieces rest).map fun (ps,last) => (([],'#' :: line ++ ['\n']) :: ps,last) := by
  have cut := split_newline ('#' :: line) rest (by simpa using one_line)
  apply pieces_thing ['#'] (line ++ ['\n'] ++ rest)
  · rfl
  · exact cut

-- The loop over a source, by items: text goes to `skip`, the rest to `visit`.
section Loop
variable {σ : Type} (skip : σ → Text → σ) (visit : σ → Text → Option σ)

def visit_items (s : σ) : List Item → Option σ
  | [] => some s
  | .text t :: items => visit_items (skip s t) items
  | i :: items => (visit s i.render).bind fun s => visit_items s items

def visit_list (last : Text) (s : σ) : List (Text × Text) → Option σ
  | [] => some (skip s last)
  | (before,thing) :: ps => (visit (skip s before) thing).bind fun s => visit_list last s ps

def visit_pieces (s : σ) (p : List (Text × Text) × Text) : Option σ := visit_list skip visit p.2 s p.1

variable {skip visit} (skip_append : ∀ s a b, skip s (a ++ b) = skip (skip s a) b) (skip_nil : ∀ s, skip s [] = s)

include skip_append in
theorem visit_before (s : σ) (t : Text) (p : List (Text × Text) × Text) :
    visit_pieces skip visit s (before_pieces t p) = visit_pieces skip visit (skip s t) p := by
  obtain ⟨ps,last⟩ := p
  cases ps with
  | nil => simp only [before_pieces,visit_pieces,visit_list,skip_append]
  | cons p ps =>
    obtain ⟨before,thing⟩ := p
    simp only [before_pieces,visit_pieces,visit_list,skip_append]

theorem directive_one_line {d : Directive} (complete : d.Complete) : '\n' ∉ d.operands := by
  have newline_blank : blank '\n' = false := by decide
  have newline_identifier : identifier '\n' = false := by decide
  have spaces : ∀ t : Text, Spaces t → '\n' ∉ t := by
    intro t spaces member
    exact absurd (spaces _ member) (by simp [newline_blank])
  have name : ∀ t : Text, Name t → '\n' ∉ t := by
    intro t name member
    exact absurd (name.2 _ member) (by simp [newline_identifier])
  cases d with
  | include_ rest => exact complete.one_line
  | if_ rest => exact complete.one_line
  | else_ rest => exact complete.one_line
  | endif rest => exact complete.one_line
  | define s n rest | undef s n rest =>
    obtain ⟨⟨_,s_ok⟩,n_ok,tail⟩ := complete
    simp [Directive.operands,spaces s s_ok,name n n_ok,tail.one_line]
  | ifdef s n rest | ifndef s n rest =>
    obtain ⟨⟨_,s_ok⟩,n_ok,tail⟩ := complete
    simp [Directive.operands,spaces s s_ok,name n n_ok,spaces rest tail]

-- What holds of every character of a given text is computed.
theorem letters_of_all {t : Text} (all : t.all identifier = true) : ∀ c ∈ t, identifier c = true :=
  List.all_eq_true.mp all

theorem no_letters_of_any {t : Text} (none_in : t.any identifier = false) : ∀ c ∈ t, identifier c = false := by
  intro c member
  exact Bool.eq_false_iff.mpr (List.any_eq_false.mp none_in c member)

theorem keyword_letters (d : Directive) : ∀ c ∈ d.keyword, identifier c = true ∧ space c = false := by
  have letters : d.keyword.all identifier = true := by cases d <;> rfl
  have no_spaces : d.keyword.any space = false := by cases d <;> rfl
  intro c member
  exact ⟨letters_of_all letters c member,Bool.eq_false_iff.mpr (List.any_eq_false.mp no_spaces c member)⟩

theorem directive_line_one_line {gap : Text} {d : Directive} (gap_blank : Spaces gap) (complete : d.Complete) :
    '\n' ∉ gap ++ d.keyword ++ d.operands := by
  have newline_blank : blank '\n' = false := by decide
  intro member
  rcases List.mem_append.mp member with front|operands
  · rcases List.mem_append.mp front with in_gap|in_keyword
    · exact absurd (gap_blank _ in_gap) (by simp [newline_blank])
    · exact absurd (keyword_letters d _ in_keyword).1 (by decide)
  · exact directive_one_line complete operands

include skip_append skip_nil in
-- The pieces are visited as the items are.
theorem visit_source (items : List Item) (line_start : Bool) (source : Source line_start items) :
    ∃ ps, pieces (render items) = some ps ∧
      ∀ s, visit_pieces skip visit s ps = visit_items skip visit s items := by
  induction items generalizing line_start with
  | nil =>
    refine ⟨([],[]),pieces_none rfl,?_⟩
    intro s
    simp only [visit_pieces,visit_list,visit_items,skip_nil]
  | cons i items ih =>
    have rendered : render (i :: items) = i.render ++ render items := List.flatMap_cons
    have thing_visited : ∀ {line_start'} {whole : Text}, Source line_start' items → i.render = whole →
        (∀ s, visit_items skip visit s (i :: items) = (visit s whole).bind fun s => visit_items skip visit s items) →
        (pieces (whole ++ render items) = (pieces (render items)).map fun (ps,last) => (([],whole) :: ps,last)) →
        ∃ ps, pieces (render (i :: items)) = some ps ∧
          ∀ s, visit_pieces skip visit s ps = visit_items skip visit s (i :: items) := by
      intro line_start' whole later same items_visit cut
      obtain ⟨⟨ps,last⟩,run,visited⟩ := ih line_start' later
      rw [run] at cut
      refine ⟨(([],whole) :: ps,last),by rw [rendered,same,cut]; rfl,?_⟩
      intro s
      rw [items_visit,visit_pieces,visit_list,skip_nil]
      exact congrArg _ (funext visited)
    have text_visited : ∀ {line_start'} {t : Text}, Source line_start' items → i = .text t →
        (match_things true (t ++ render items) = (match_things true (render items)).map (prepend t)) →
        ∃ ps, pieces (render (i :: items)) = some ps ∧
          ∀ s, visit_pieces skip visit s ps = visit_items skip visit s (i :: items) := by
      intro line_start' t later same skipped
      obtain ⟨ps,run,visited⟩ := ih line_start' later
      have cut := pieces_text skipped
      rw [run] at cut
      subst same
      refine ⟨before_pieces t ps,by rw [rendered]; exact cut,?_⟩
      intro s
      rw [visit_before skip_append,visited]
      rfl
    cases i with
    | text t =>
      rcases source with ⟨u,rfl,plain,later⟩|⟨_,plain,last,comment,later⟩
      · exact text_visited later rfl (match_line u _ plain)
      · apply text_visited later rfl (match_to_comment t _ plain last _)
        obtain ⟨body,rest,rfl|rfl⟩ := comment
        · exact ⟨_,Or.inl rfl⟩
        · exact ⟨_,Or.inr rfl⟩
    | block_comment body =>
      obtain ⟨no_close,later⟩ := source
      exact thing_visited later rfl (fun _ => rfl) (pieces_block body _ no_close)
    | line_comment body =>
      obtain ⟨one_line,_,later⟩ := source
      exact thing_visited later rfl (fun _ => rfl) (pieces_line body _ one_line)
    | directive gap d =>
      obtain ⟨_,gap_blank,complete,later⟩ := source
      exact thing_visited later rfl (fun _ => rfl)
        (pieces_directive _ _ (directive_line_one_line gap_blank complete))

end Loop
end IcedTea.Generate

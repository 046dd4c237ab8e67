import IcedTea.PreprocessDirectives

namespace IcedTea.Generate

theorem emit_append (s : Output) (a b : Text) : s.emit (a ++ b) = (s.emit a).emit b := by
  unfold Output.emit
  by_cases hidden : Mode.COND_FALSE ∈ s.mode
  · rw [if_pos hidden,if_pos hidden,if_pos hidden]
  · rw [if_neg hidden,if_neg hidden,if_neg hidden,List.append_assoc]

theorem emit_nil (s : Output) : s.emit [] = s := by
  unfold Output.emit
  split
  · rfl
  · rw [List.append_nil]

theorem visit_fold (cpu : Cpu) (ps : List (Text × Text)) (last : Text) (s : Output) :
    visit_pieces Output.emit (process cpu) s (ps,last) =
      (ps.foldlM (fun (s : Output) (before,thing) => process cpu (s.emit before) thing) s).map fun (s : Output) => s.emit last := by
  induction ps generalizing s with
  | nil => rfl
  | cons p ps ih =>
    obtain ⟨before,thing⟩ := p
    unfold visit_pieces at ih ⊢
    rw [visit_list,List.foldlM_cons]
    cases one : process cpu (s.emit before) thing with
    | none => simp only [one]; rfl
    | some next =>
      simp only [one]
      exact ih next

theorem preprocess_items (cpu : Cpu) {items : List Item} (source : Source true items) :
    preprocess (render items) cpu = (visit_items Output.emit (process cpu) ⟨[.COPY],[]⟩ items).bind fun s =>
      if s.mode = [.COPY] then some (cpu.rename s.dst) else none := by
  obtain ⟨⟨ps,last⟩,cut,visited⟩ := @visit_source _ _ (process cpu) emit_append emit_nil items true source
  rw [← visited,visit_fold,preprocess,cut,Option.bind_eq_bind,Option.bind_some]
  simp only
  cases ps.foldlM (fun (s : Output) (x : Text × Text) => process cpu (s.emit x.1) x.2) ⟨[.COPY],[]⟩ <;> rfl

-- Where the reading of a source stands.
inductive Position where
  | start | middle | before_comment

def Position.At (p : Position) (items : List Item) : Prop :=
  match p with
  | start => Source true items
  | middle => Source false items
  | before_comment => Source false items ∧
      ∃ body rest, items = .block_comment body :: rest ∨ items = .line_comment body :: rest

-- After an item the reading stands where other items may follow too.
theorem at_next {p : Position} {i : Item} {items : List Item} (here : p.At (i :: items)) :
    ∃ p' : Position, p'.At items ∧ (∀ items', p'.At items' → p.At (i :: items')) ∧
      ((∃ gap d, i = .directive gap d) → p = .start ∧ p' = .start) := by
  have anywhere : ∀ items, Source false items → Source true items := by
    intro items source
    cases items with
    | nil => trivial
    | cons i items =>
      cases i with
      | directive gap d => exact absurd source.1 (by decide)
      | text t => exact source
      | block_comment body => exact source
      | line_comment body => exact source
  have source_start : ∃ ls, Source ls (i :: items) ∧ (ls = true → p = .start) := by
    cases p with
    | start => exact ⟨true,here,fun _ => rfl⟩
    | middle => exact ⟨false,here,fun h => nomatch h⟩
    | before_comment => exact ⟨false,here.1,fun h => nomatch h⟩
  -- Comments may stand anywhere; text may not stand where a comment must.
  have rebuild : ∀ {items' : List Item}, Source false (i :: items') →
      ((∃ t, i = .text t) → p ≠ .before_comment) → (∀ gap d, i ≠ .directive gap d) → p.At (i :: items') := by
    intro items' source not_text not_directive
    cases p with
    | start => exact anywhere _ source
    | middle => exact source
    | before_comment =>
      refine ⟨source,?_⟩
      cases i with
      | text t => exact absurd rfl (not_text ⟨t,rfl⟩)
      | block_comment body => exact ⟨body,items',Or.inl rfl⟩
      | line_comment body => exact ⟨body,items',Or.inr rfl⟩
      | directive gap d => exact absurd rfl (not_directive gap d)
  have not_before : ∀ t, i = .text t → p ≠ .before_comment := by
    rintro t rfl rfl
    obtain ⟨_,_,_,same|same⟩ := here <;> cases same
  obtain ⟨ls,source,at_start⟩ := source_start
  cases i with
  | text t =>
    rcases source with ⟨u,rfl,plain,later⟩|⟨some_t,plain,last,comment,later⟩
    · by_cases continued : u.getLast? ≠ some '\\'
      · refine ⟨.start,by simpa [continued,Position.At] using later,?_,fun ⟨_,_,same⟩ => nomatch same⟩
        intro items' later'
        apply rebuild _ (fun _ => not_before _ rfl) (fun _ _ same => nomatch same)
        exact Or.inl ⟨u,rfl,plain,by simpa [continued,Position.At] using later'⟩
      · refine ⟨.middle,by simpa [continued,Position.At] using later,?_,fun ⟨_,_,same⟩ => nomatch same⟩
        intro items' later'
        apply rebuild _ (fun _ => not_before _ rfl) (fun _ _ same => nomatch same)
        exact Or.inl ⟨u,rfl,plain,by simpa [continued,Position.At] using later'⟩
    · refine ⟨.before_comment,⟨later,comment⟩,?_,fun ⟨_,_,same⟩ => nomatch same⟩
      intro items' later'
      apply rebuild _ (fun _ => not_before _ rfl) (fun _ _ same => nomatch same)
      exact Or.inr ⟨some_t,plain,last,later'.2,later'.1⟩
  | block_comment body =>
    refine ⟨.middle,source.2,?_,fun ⟨_,_,same⟩ => nomatch same⟩
    intro items' later'
    exact rebuild ⟨source.1,later'⟩ (fun ⟨_,same⟩ => nomatch same) (fun _ _ same => nomatch same)
  | line_comment body =>
    refine ⟨.start,source.2.2,?_,fun ⟨_,_,same⟩ => nomatch same⟩
    intro items' later'
    exact rebuild ⟨source.1,source.2.1,later'⟩ (fun ⟨_,same⟩ => nomatch same) (fun _ _ same => nomatch same)
  | directive gap d =>
    obtain rfl := at_start source.1
    refine ⟨.start,source.2.2.2,?_,fun _ => ⟨rfl,rfl⟩⟩
    intro items' later'
    exact ⟨rfl,source.2.1,source.2.2.1,later'⟩

-- Items that what is still to come may be appended to.
def Ready (kept : List Item) (p : Position) : Prop := ∀ items, p.At items → Source true (kept ++ items)

theorem Ready.snoc {kept : List Item} {p p' : Position} {i : Item} (ready : Ready kept p)
    (next : ∀ items', p'.At items' → p.At (i :: items')) : Ready (kept ++ [i]) p' := by
  intro items here
  rw [List.append_assoc,List.singleton_append]
  exact ready _ (next items here)

-- Kept items stay readable: in a false region they have stopped at a directive.
structure Readable (s : Copied) (p : Position) : Prop where
  live : .COND_FALSE ∉ s.mode → Ready s.kept p
  hidden : .COND_FALSE ∈ s.mode → Ready s.kept .start

theorem emit_readable {s : Copied} {p p' : Position} {i : Item} (readable : Readable s p)
    (next : ∀ items', p'.At items' → p.At (i :: items')) : Readable (s.emit i) p' := by
  unfold Copied.emit
  by_cases hidden : Mode.COND_FALSE ∈ s.mode
  · rw [if_pos hidden]
    exact ⟨fun live => absurd hidden live,readable.hidden⟩
  · rw [if_neg hidden]
    exact ⟨fun _ => (readable.live hidden).snoc next,fun now => absurd now hidden⟩

theorem Readable.start {s : Copied} (readable : Readable s .start) : Ready s.kept .start := by
  by_cases hidden : Mode.COND_FALSE ∈ s.mode
  · exact readable.hidden hidden
  · exact readable.live hidden

theorem readable_of_ready {s : Copied} (ready : Ready s.kept .start) : Readable s .start :=
  ⟨fun _ => ready,fun _ => ready⟩

theorem copy_readable {cpu : Cpu} {s s' : Copied} {p : Position} {i : Item} {items : List Item}
    (readable : Readable s p) (here : p.At (i :: items)) (copied : copy_item cpu s i = some s') :
    ∃ p' : Position, p'.At items ∧ Readable s' p' := by
  obtain ⟨p',later,next,directive⟩ := at_next here
  refine ⟨p',later,?_⟩
  cases i with
  | text t => cases copied; exact emit_readable readable next
  | block_comment body => cases copied; exact emit_readable readable next
  | line_comment body => cases copied; exact emit_readable readable next
  | directive gap d =>
    obtain ⟨rfl,rfl⟩ := directive ⟨gap,d,rfl⟩
    have ready := readable.start
    have pushed : ∀ m, Readable (s.push m) .start := fun _ => readable_of_ready ready
    cases d with
    | include_ rest => cases copied; exact emit_readable readable next
    | define space_ name rest => cases copied; exact emit_readable readable next
    | undef space_ name rest => cases copied; exact emit_readable readable next
    | ifdef space_ name rest =>
      cases copied
      split
      · exact emit_readable (pushed _) next
      · exact pushed _
    | ifndef space_ name rest =>
      cases copied
      split
      · exact emit_readable (pushed _) next
      · exact pushed _
    | if_ rest =>
      cases copied
      exact readable_of_ready (ready.snoc next)
    | else_ rest =>
      unfold copy_item at copied
      simp only at copied
      split at copied
      · cases copied
      · cases copied; exact readable_of_ready ready
      · cases copied; exact readable_of_ready ready
      · cases copied; exact emit_readable readable next
    | endif rest =>
      unfold copy_item at copied
      simp only at copied
      split at copied
      · cases copied
      · cases copied
        apply readable_of_ready
        split
        · exact (emit_readable readable next).start
        · exact ready

theorem copies_readable {cpu : Cpu} (items : List Item) {s s' : Copied} {p : Position} (readable : Readable s p)
    (here : p.At items) (run : items.foldlM (copy_item cpu) s = some s') (live : .COND_FALSE ∉ s'.mode) :
    Source true s'.kept := by
  induction items generalizing s p with
  | nil =>
    cases run
    have source := readable.live live [] here
    rwa [List.append_nil] at source
  | cons i items ih =>
    rw [List.foldlM_cons] at run
    obtain ⟨next,copied,rest⟩ := Option.bind_eq_some_iff.mp run
    obtain ⟨p',later,next_readable⟩ := copy_readable readable here copied
    exact ih next_readable later rest

end IcedTea.Generate

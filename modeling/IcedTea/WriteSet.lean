import IcedTea.Machine

namespace IcedTea

-- The register file place by place, and what each instruction writes of it.
inductive Place where
  | gpr (r : Register) | fpr (f : FloatRegister) | cr (c : ConditionRegister) | lr | ctr
  deriving DecidableEq, Repr

def Place.Same (m m' : Machine) : Place → Prop
  | gpr r => m'.gpr r = m.gpr r
  | fpr f => m'.fpr f = m.fpr f
  | cr c => m'.cr c = m.cr c
  | lr => m'.lr = m.lr
  | ctr => m'.ctr = m.ctr

def Instr.written : Instr → List Place
  | .loadImm dst _ | .load dst _ | .load_indexed dst _ _ | .lwz dst _ | .lwa dst _ | .lhz dst _ | .mr dst _ | .la dst _
  | .add dst _ _ | .addi dst _ _ | .sub dst _ _ | .subi dst _ _ | .subfic dst _ _ | .neg dst _ | .ori dst _ _
  | .extsb dst _ | .extsh dst _ | .extsw dst _ | .shift_left dst _ _ | .shift_right dst _ _ | .mflr dst | .mfctr dst
  | .mfcr dst => [.gpr dst]
  | .andi_ dst _ _ => [.gpr dst,.cr cr0]
  | .store _ _ | .stw _ _ | .stwx _ _ _ | .stfs _ _ | .stfd _ _ => []
  | .store_update _ dst => [.gpr dst.base]
  | .store_update_indexed _ a _ => [.gpr a]
  | .lfs dst _ | .lfd dst _ | .fmr dst _ => [.fpr dst]
  | .compare dst _ _ | .compareImm dst _ _ => [.cr dst]
  | .mpclr _ | .mtlr _ => [.lr]
  | .mtctr _ => [.ctr]
  | .mtcr _ => [.cr 0,.cr 1,.cr 2,.cr 3,.cr 4,.cr 5,.cr 6,.cr 7]

-- Nothing outside `places` changes.
def Keeps (places : List Place) (m m' : Machine) : Prop := ∀ p, p ∉ places → p.Same m m'

namespace Keeps

theorem refl (places : List Place) (m : Machine) : Keeps places m m := by
  intro p _
  cases p <;> rfl

theorem trans (one : Keeps places m m₁) (two : Keeps places' m₁ m') : Keeps (places ++ places') m m' := by
  intro p absent
  rw [List.mem_append,not_or] at absent
  have first := one p absent.1
  have second := two p absent.2
  cases p <;> exact second.trans first

theorem mono (keeps : Keeps places m m') (subset : ∀ p ∈ places, p ∈ places') : Keeps places' m m' :=
  fun p absent => keeps p fun member => absent (subset p member)

theorem gpr (keeps : Keeps places m m') (r : Register) (absent : .gpr r ∉ places) : m'.gpr r = m.gpr r := keeps (.gpr r) absent
theorem fpr (keeps : Keeps places m m') (f : FloatRegister) (absent : .fpr f ∉ places) : m'.fpr f = m.fpr f :=
  keeps (.fpr f) absent
theorem cr (keeps : Keeps places m m') (c : ConditionRegister) (absent : .cr c ∉ places) : m'.cr c = m.cr c :=
  keeps (.cr c) absent
theorem lr (keeps : Keeps places m m') (absent : .lr ∉ places) : m'.lr = m.lr := keeps .lr absent
theorem ctr (keeps : Keeps places m m') (absent : .ctr ∉ places) : m'.ctr = m.ctr := keeps .ctr absent

end Keeps

variable [Target]

theorem step_keeps (i : Instr) (m : Machine) : Keeps i.written m (step m i) := by
  intro p absent
  have gpr : ∀ (dst : Register) (v : Int), p ∉ [Place.gpr dst] → p.Same m (m.set dst v) := by
    intro dst v absent
    cases p with
    | gpr r =>
      have other : r ≠ dst := fun same => absent (by rw [same]; exact List.mem_singleton_self _)
      simp [Place.Same,other]
    | _ => rfl
  have fpr : ∀ (dst : FloatRegister) (v : Int), p ∉ [Place.fpr dst] →
      p.Same m {m with fpr := Function.update m.fpr dst v} := by
    intro dst v absent
    cases p with
    | fpr f =>
      have other : f ≠ dst := fun same => absent (by rw [same]; exact List.mem_singleton_self _)
      simp [Place.Same,Function.update_of_ne other]
    | _ => rfl
  have field : ∀ (dst : ConditionRegister) (v : Field), p ∉ [Place.cr dst] → p.Same m (m.setField dst v) := by
    intro dst v absent
    cases p with
    | cr c =>
      have other : c ≠ dst := fun same => absent (by rw [same]; exact List.mem_singleton_self _)
      simp [Place.Same,other]
    | _ => rfl
  cases i with
  | andi_ dst a mask =>
    simp only [Instr.written,List.mem_cons,List.not_mem_nil,or_false,not_or] at absent
    cases p with
    | gpr r => have other : r ≠ dst := fun same => absent.1 (by rw [same]); simp [Place.Same,step,other]
    | cr c => have other : c ≠ cr0 := fun same => absent.2 (by rw [same]); simp [Place.Same,step,other]
    | _ => rfl
  | store_update src dst =>
    cases p with
    | gpr r =>
      have other : r ≠ dst.base := fun same => absent (by rw [same]; exact List.mem_singleton_self _)
      simp [Place.Same,step,other]
    | _ => rfl
  | store_update_indexed src a b =>
    cases p with
    | gpr r =>
      have other : r ≠ a := fun same => absent (by rw [same]; exact List.mem_singleton_self _)
      simp [Place.Same,step,other]
    | _ => rfl
  | lfs dst src => exact fpr dst _ absent
  | lfd dst src => exact fpr dst _ absent
  | fmr dst src => exact fpr dst _ absent
  | compare dst a b => exact field dst _ absent
  | compareImm dst a v => exact field dst _ absent
  | mpclr pc => cases p <;> first | rfl | exact absurd (List.mem_singleton_self _) absent
  | mtlr src => cases p <;> first | rfl | exact absurd (List.mem_singleton_self _) absent
  | mtctr src => cases p <;> first | rfl | exact absurd (List.mem_singleton_self _) absent
  | mtcr src =>
    cases p with
    | cr c =>
      have every : ∀ c : ConditionRegister, Place.cr c ∈ (Instr.mtcr src).written := by
        intro c
        fin_cases c <;> simp [Instr.written]
      exact absurd (every c) absent
    | _ => rfl
  | store src dst => cases p <;> rfl
  | stw src dst => cases p <;> rfl
  | stwx src a b => cases p <;> rfl
  | stfs src dst => cases p <;> rfl
  | stfd src dst => cases p <;> rfl
  | _ => exact gpr _ _ absent

def written (code : List Instr) : List Place := code.flatMap Instr.written

theorem exec_keeps (code : List Instr) (m : Machine) : Keeps (written code) m (exec code m) := by
  induction code generalizing m with
  | nil => exact Keeps.refl _ m
  | cons i code ih => exact (step_keeps i m).trans (ih (step m i))

end IcedTea

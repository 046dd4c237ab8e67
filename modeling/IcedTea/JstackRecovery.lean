import IcedTea.Jstack

namespace IcedTea.Jstack
open WhileLoop
variable (p : Process) (mode : Mode)

-- What the scan takes for a frame: a frame pointer further up the stack, and a pc
-- in the code cache.
def Plausible (old_fp fp pc : Long) : Prop := old_fp.slt fp = true ∧ p.generated pc

-- The words that the scan reads at its index i.
def candidate_sp (old_sp frame_size : Long) (i : Nat) : Long := old_sp + (frame_size + BitVec.ofNat 64 i)*p.arch.ptr_size
def candidate_fp (old_sp frame_size : Long) (i : Nat) : Long := p.user_long (candidate_sp p old_sp frame_size i)
def candidate_pc (old_sp frame_size : Long) (i : Nat) : Long :=
  p.user_long (candidate_fp p old_sp frame_size i + p.arch.ptr_size)

def Qualifies (d : Described) (old : State) (i : Nat) : Prop :=
  Plausible p old.fp (candidate_fp p old.sp d.frame_size i) (candidate_pc p old.sp d.frame_size i)

structure FirstQualifying (d : Described) (old : State) (i : Nat) : Prop where
  scanned : 1 ≤ i ∧ i < max_stack_scan
  qualifies : Qualifies p d old i
  first : ∀ j, 1 ≤ j → j < i → ¬ Qualifies p d old j

def stack_lost (s : State) : State := s.put mode (if mode.print_frames = 0 then " <stack_lost>" else "<stack_lost>")

-- The report of a lost stack can be seen in what is written.
def ReportsLost (s t : State) : Prop := t.frames = (stack_lost mode s).frames ∧ t.logged = (stack_lost mode s).logged

structure Recovered (d : Described) (old s t : State) : Prop where
  continues : ∀ i, FirstQualifying p d old i → t = {s with
    sp := candidate_sp p old.sp d.frame_size i
    fp := candidate_fp p old.sp d.frame_size i
    pc := candidate_pc p old.sp d.frame_size i}
  lost : ReportsLost mode s t ↔ ∀ i, 1 ≤ i → i < max_stack_scan → ¬ Qualifies p d old i

theorem more_iff (old_fp : Long) (s : Scan) : s.more p old_fp ↔ s.i < max_stack_scan ∧ ¬ Plausible p old_fp s.fp s.pc := by
  unfold Scan.more Plausible Process.generated
  simp only [BitVec.sle,BitVec.slt,decide_eq_true_eq]
  refine and_congr_right fun _ => ?_
  constructor
  · rintro (low | high | fp) ⟨above,at_low,below⟩ <;> omega
  · intro doubtful
    by_contra none
    push Not at none
    exact doubtful ⟨by omega,by omega,by omega⟩

theorem next_eq (old_sp frame_size : Long) (s : Scan) : s.next p old_sp frame_size =
    ⟨s.i+1,candidate_sp p old_sp frame_size s.i,candidate_fp p old_sp frame_size s.i,candidate_pc p old_sp frame_size s.i⟩ := rfl

-- The index at which the scan read what it ends with.
structure ScanEnds (old_fp old_sp frame_size : Long) (start k : Nat) (u : Scan) : Prop where
  scanned : start ≤ k ∧ k < max_stack_scan
  reads : u = ⟨k+1,candidate_sp p old_sp frame_size k,candidate_fp p old_sp frame_size k,candidate_pc p old_sp frame_size k⟩
  before : ∀ j, start ≤ j → j < k → ¬ Plausible p old_fp (candidate_fp p old_sp frame_size j) (candidate_pc p old_sp frame_size j)
  stops : k+1 = max_stack_scan ∨ Plausible p old_fp (candidate_fp p old_sp frame_size k) (candidate_pc p old_sp frame_size k)

-- A scan that does not stop at once ends with the first good candidate, or the last.
-- Induction on the turns: the first of them reads the candidate of the index it starts with.
theorem scan_ends {old_fp old_sp frame_size : Long} {n : Nat} {s u : Scan}
    (turns : Turns (Scan.more p old_fp) (fun a b => b = a.next p old_sp frame_size) n s u) (goes_on : s.more p old_fp) :
    ∃ k, ScanEnds p old_fp old_sp frame_size s.i k u := by
  induction turns with
  | stop done => exact absurd goes_on done
  | turn started one rest ih =>
    rename_i s t m u
    have below := ((more_iff p old_fp s).mp started).1
    by_cases again : t.more p old_fp
    · obtain ⟨k,ends⟩ := ih again
      have index : t.i = s.i+1 := by rw [one,next_eq]
      have unlike := ((more_iff p old_fp t).mp again).2
      rw [one,next_eq] at unlike
      refine ⟨k,⟨⟨?_,ends.scanned.2⟩,ends.reads,?_,ends.stops⟩⟩
      · have later := ends.scanned.1
        omega
      · intro j from_start less
        rcases Nat.eq_or_lt_of_le from_start with rfl | later
        · exact unlike
        · exact ends.before j (by omega) less
    · cases rest with
      | turn still => exact absurd still again
      | stop =>
        refine ⟨s.i,⟨⟨Nat.le_refl _,below⟩,one.trans (next_eq p old_sp frame_size s),fun j at_least less => by omega,?_⟩⟩
        rw [more_iff,one,next_eq] at again
        by_cases last : s.i+1 = max_stack_scan
        · exact .inl last
        · refine .inr (not_not.mp fun doubtful => again ⟨?_,doubtful⟩)
          change s.i+1 < max_stack_scan
          omega

theorem stack_lost_differs (s : State) : ¬ (s.frames = (stack_lost mode s).frames ∧ s.logged = (stack_lost mode s).logged) := by
  unfold stack_lost State.put
  split
  · rintro ⟨same,-⟩
    have lengths := congrArg String.length same
    rw [String.length_append] at lengths
    have long : 0 < " <stack_lost>".length := by decide
    omega
  · rintro ⟨-,same⟩
    have lengths := congrArg List.length same
    rw [List.length_append] at lengths
    simp at lengths

-- What the recovery leaves behind, by the index that the scan ends with.
theorem recovers_ends {d : Described} {old s t : State} (untrusted : trusted p d = false)
    (doubtful : ¬ Plausible p old.fp s.fp s.pc) (recovers : Recovers p mode d old s t) :
    ∃ k, (1 ≤ k ∧ k < max_stack_scan) ∧ (∀ j, 1 ≤ j → j < k → ¬ Qualifies p d old j) ∧
      (k+1 = max_stack_scan ∨ Qualifies p d old k) ∧
      t = if k+1 = max_stack_scan then {stack_lost mode s with
          sp := candidate_sp p old.sp d.frame_size k, fp := candidate_fp p old.sp d.frame_size k, pc := 0}
        else {s with
          sp := candidate_sp p old.sp d.frame_size k
          fp := candidate_fp p old.sp d.frame_size k
          pc := candidate_pc p old.sp d.frame_size k} := by
  unfold Recovers at recovers
  rw [untrusted] at recovers
  obtain ⟨n,u,turns,result⟩ := recovers
  have goes_on : Scan.more p old.fp ⟨1,s.sp,s.fp,s.pc⟩ :=
    (more_iff p old.fp _).mpr ⟨(by decide : 1 < max_stack_scan),doubtful⟩
  obtain ⟨k,ends⟩ := scan_ends p turns goes_on
  refine ⟨k,ends.scanned,ends.before,ends.stops,?_⟩
  rw [result,ends.reads]
  rfl

theorem recovered_iff {d : Described} {old s t : State} (untrusted : trusted p d = false)
    (doubtful : ¬ Plausible p old.fp s.fp s.pc) (recovers : Recovers p mode d old s t) :
    Recovered p mode d old s t ↔ ¬ FirstQualifying p d old (max_stack_scan-1) := by
  obtain ⟨k,scanned,before,stops,result⟩ := recovers_ends p mode untrusted doubtful recovers
  by_cases last : k+1 = max_stack_scan
  · rw [if_pos last] at result
    have reports : ReportsLost mode s t := by
      rw [result]
      exact ⟨rfl,rfl⟩
    constructor
    · intro good first
      exact good.lost.mp reports _ first.scanned.1 first.scanned.2 first.qualifies
    · intro not_last
      have at_last : k = max_stack_scan-1 := by omega
      have none : ∀ i, 1 ≤ i → i < max_stack_scan → ¬ Qualifies p d old i := by
        intro i from_one below qualifies
        by_cases earlier : i < k
        · exact before i from_one earlier qualifies
        · have same : i = max_stack_scan-1 := by omega
          subst same
          exact not_last ⟨⟨from_one,below⟩,qualifies,fun j from_one less => before j from_one (by omega)⟩
      exact ⟨fun i first => absurd first.qualifies (none i first.scanned.1 first.scanned.2),
        iff_of_true reports none⟩
  · rw [if_neg last] at result
    have qualifies : Qualifies p d old k := stops.resolve_left last
    refine iff_of_true ⟨?_,?_⟩ fun first => first.first k scanned.1 (by omega) qualifies
    · intro i first
      have same : i = k := by
        rcases Nat.lt_trichotomy i k with less | same | more
        · exact absurd first.qualifies (before i first.scanned.1 less)
        · exact same
        · exact absurd qualifies (first.first k scanned.1 more)
      rw [result,same]
    · refine iff_of_false ?_ fun none => none k scanned.1 scanned.2 qualifies
      rw [result]
      exact stack_lost_differs mode s

-- The scan of one frame whose frame pointer is not to be trusted, from the pair
-- that trusting it gives.
def ScanRecovers (d : Described) (s : State) : Prop :=
  (∃ t, Recovers p mode d s (follow p s) t) ∧
    ∀ t, Recovers p mode d s (follow p s) t → Recovered p mode d s (follow p s) t

-- A good candidate at the last index is the one that is taken for a lost stack.
theorem scan_recovers_iff (mask size : Long) (arch : p.arch = .other mask size) (d : Described)
    (untrusted : d.trust_fp = false) (s : State) (doubtful : ¬ Plausible p s.fp (follow p s).fp (follow p s).pc) :
    ScanRecovers p mode d s ↔ ¬ FirstQualifying p d s (max_stack_scan-1) := by
  have no_trust : trusted p d = false := by
    unfold trusted
    rw [arch]
    exact untrusted
  obtain ⟨t,recovers⟩ := recovers_total p mode d s (follow p s)
  constructor
  · intro all
    exact (recovered_iff p mode no_trust doubtful recovers).mp (all.2 t recovers)
  · intro not_last
    exact ⟨⟨t,recovers⟩,fun t recovers => (recovered_iff p mode no_trust doubtful recovers).mpr not_last⟩

-- A stack of zeroes in which the word of one index leads to a caller.
def one_frame (index : Long) : Process := {lost (.other (BitVec.allOnes 64) 8) with
  cast_ := fun member _ => if member = .memory_high then 16 else 0
  user_long := fun a => if a = index*8 then 4096 else if a = 4104 then 8 else 0
  user_char := fun _ => 0}

def unsure : Described := ⟨"",false,0⟩
def in_nmethod : State := ⟨8,16,0,0,0,"",[]⟩

instance (old_fp fp pc : Long) : Decidable (Plausible p old_fp fp pc) := inferInstanceAs (Decidable (_ ∧ _))
instance (d : Described) (old : State) (i : Nat) : Decidable (Qualifies p d old i) := inferInstanceAs (Decidable (Plausible _ _ _ _))

theorem one_frame_last : ∀ i < max_stack_scan, Qualifies (one_frame 95) unsure in_nmethod i ↔ i = 95 := by decide
theorem one_frame_third : ∀ i < max_stack_scan, Qualifies (one_frame 3) unsure in_nmethod i ↔ i = 3 := by decide

-- The caller is found at the last index, and the stack is reported as lost.
theorem last_candidate_lost : ¬ ∀ (p : Process) (mask size : Long) (_ : p.arch = .other mask size) (mode : Mode) (d : Described)
    (_ : d.trust_fp = false) (s : State) (_ : ¬ Plausible p s.fp (follow p s).fp (follow p s).pc), ScanRecovers p mode d s := by
  intro all
  have recovers := all (one_frame 95) _ 8 rfl ⟨0,0,1⟩ unsure rfl in_nmethod (by decide)
  obtain ⟨t,step⟩ := recovers.1
  have good := recovers.2 t step
  have qualifies : Qualifies (one_frame 95) unsure in_nmethod 95 := (one_frame_last 95 (by decide)).mpr rfl
  have first : FirstQualifying (one_frame 95) unsure in_nmethod 95 :=
    ⟨by decide,qualifies,fun j _ less found =>
      absurd ((one_frame_last j (Nat.lt_trans less (by decide))).mp found) (Nat.ne_of_lt less)⟩
  obtain ⟨k,scanned,before,stops,result⟩ :=
    recovers_ends (one_frame 95) ⟨0,0,1⟩ (s := follow (one_frame 95) in_nmethod) rfl (by decide) step
  have at_last : k = 95 := by
    rcases stops with last | found
    · exact Nat.succ.inj last
    · exact (one_frame_last k scanned.2).mp found
  subst at_last
  have pc := congrArg State.pc ((good.continues 95 first).symm.trans result)
  exact absurd pc (by decide)

-- With a caller at an earlier index the walk goes on.
theorem third_candidate_recovers : ScanRecovers (one_frame 3) ⟨0,0,1⟩ unsure in_nmethod :=
  (scan_recovers_iff (one_frame 3) ⟨0,0,1⟩ (BitVec.allOnes 64) 8 rfl unsure rfl in_nmethod (by decide)).mpr fun first =>
    absurd ((one_frame_third _ (by decide)).mp first.qualifies) (by decide)

end IcedTea.Jstack

import IcedTea.SlowSignatureArea
import IcedTea.SignatureHandlerPlaces

namespace IcedTea.InterpreterRuntime
open StackFrame (link_area_words)
open Vm Cells

section
variable [Target]

-- The register-wide words of a parameter that is not a float or a double.
def general_words (mem : Cells) (from_ : Int) (n : Nat) : NativeType → List Int
  | .int => [intValue mem (from_ + local_offset_in_bytes n)]
  | .object => [objectValue mem (from_ + local_offset_in_bytes n)]
  | .long =>
    match Target.cpu with
    | .ppc32 => [mem.word wide (from_ + local_offset_in_bytes (n+1)),mem.word wide (from_ + local_offset_in_bytes n)]
    | .ppc64 => [mem.word wide (from_ + local_offset_in_bytes (n+1))]
  | .float | .double => []

-- The register an image is for and the word of the frame an argument is stored to.
def image_register (images a : Int) : Nat := gp_reg_start + ((a - images) / wordSize).toNat
def stack_word (to_ a : Int) : Nat := link_area_words + ((a - to_) / wordSize).toNat

-- What one or more parameters of the walk were stored to.
def SlowSignatureHandler.filled (images to_ : Int) (h h' : SlowSignatureHandler) : List Part :=
  ((h'.images.drop h.images.length).map fun w => .gpr (image_register images w.1)) ++
    ((h'.stacked.drop h.stacked.length).map fun w => .word (stack_word to_ w.1))

def slow_parts (images to_ : Int) (h : SlowSignatureHandler) (n : Nat) : List NativeType → List (List Part)
  | [] => []
  | t :: rest => (h.pass n t).elim [] fun h' => h.filled images to_ h' :: slow_parts images to_ h' (n + t.words) rest

def Spot.place (p : Spot) (t : NativeType) : Place :=
  if t = .long ∧ Target.cpu = .ppc32 then
    if p.images < 6 then .pair (gp_reg_start + p.pair) else .words (link_area_words + p.stack)
  else if p.images ≤ 6 then .register (gp_reg_start + p.images) else .word (link_area_words + p.stack)

def Spot.parts (p : Spot) : List NativeType → List (List Part)
  | [] => []
  | t :: rest => (p.place t).parts :: (p.next t).parts rest

theorem place_single (p : Spot) (single : Target.cpu = .ppc64 ∨ t ≠ .long) :
    p.place t = if p.images ≤ 6 then .register (gp_reg_start + p.images) else .word (link_area_words + p.stack) := by
  refine if_neg fun both => ?_
  rcases single with large|short
  · rw [both.2] at large
    cases large
  · exact short both.1

theorem place_pair (cpu : Target.cpu = .ppc32) (p : Spot) :
    p.place .long = if p.images < 6 then .pair (gp_reg_start + p.pair) else .words (link_area_words + p.stack) :=
  if_pos ⟨rfl,cpu⟩

theorem image_register_at (images : Int) (k : Nat) : image_register images (images + k*wordSize) = gp_reg_start + k := by
  unfold image_register
  rw [show images + (k : Int)*wordSize - images = k*wordSize by ring,Int.mul_ediv_cancel _ (Int.ne_of_gt wordSize_pos)]
  rfl

theorem stack_word_at (to_ : Int) (k : Nat) : stack_word to_ (to_ + k*wordSize) = link_area_words + k := by
  unfold stack_word
  rw [show to_ + (k : Int)*wordSize - to_ = k*wordSize by ring,Int.mul_ediv_cancel _ (Int.ne_of_gt wordSize_pos)]
  rfl

theorem word_after (base : Int) (k : Nat) : base + (k : Int)*wordSize + wordSize = base + ((k+1 : Nat) : Int)*wordSize := by
  push_cast
  ring

theorem image_register_next (images : Int) (k : Nat) :
    image_register images (images + k*wordSize + wordSize) = gp_reg_start + (k+1) ∧
      image_register images (images + k*wordSize + wordSize + wordSize) = gp_reg_start + (k+2) := by
  rw [word_after,word_after]
  exact ⟨image_register_at images (k+1),image_register_at images (k+2)⟩

theorem stack_word_next (to_ : Int) (k : Nat) : stack_word to_ (to_ + k*wordSize + wordSize) = link_area_words + (k+1) := by
  rw [word_after]
  exact stack_word_at to_ (k+1)

theorem shadow_same (h : SlowSignatureHandler) :
    h.shadow.images = h.images ∧ h.shadow.stacked = h.stacked ∧ h.shadow.mem = h.mem := by
  unfold SlowSignatureHandler.shadow
  cases Target.cpu <;> exact ⟨rfl,rfl,rfl⟩

-- The walk fills the places in order.
theorem filled_single {h : SlowSignatureHandler} (at_ : h.At images to_ p) (single : Target.cpu = .ppc64 ∨ t ≠ .long)
    (mem mem' : Cells) :
    h.filled images to_ (if h.gp_regs ≤ h.gp_reg_max then (h.put_gp bytes mem).shadow else h.put_st bytes mem') =
      (p.place t).parts := by
  rw [place_single p single]
  by_cases room : h.gp_regs ≤ h.gp_reg_max
  · obtain ⟨same,same',-⟩ := shadow_same (h.put_gp bytes mem)
    rw [if_pos room,if_pos (at_.room.mp room)]
    unfold SlowSignatureHandler.filled
    rw [same,same']
    simp [SlowSignatureHandler.put_gp,at_.gp_regs,image_register_at,Place.parts]
  · rw [if_neg room,if_neg (at_.room.not.mp room)]
    simp [SlowSignatureHandler.filled,SlowSignatureHandler.put_st,at_.st_args,stack_word_at,Place.parts]

theorem filled_long {h : SlowSignatureHandler} (at_ : h.At images to_ p) (n : Nat) :
    h.filled images to_ (h.pass_long n) = (p.place .long).parts := by
  unfold SlowSignatureHandler.pass_long
  cases cpu : Target.cpu with
  | ppc64 => exact filled_single at_ (.inl cpu) _ _
  | ppc32 =>
    dsimp only
    rw [place_pair cpu]
    by_cases room : h.gp_regs < h.gp_reg_max
    · rw [if_pos room,if_pos (at_.room_for_two.mp room),at_.left]
      unfold Spot.pair
      by_cases even : p.images % 2 = 0
      · have skip : (6 - (p.images : Int)) % 2 = 0 := by omega
        rw [if_pos even,if_pos skip]
        simp [SlowSignatureHandler.filled,SlowSignatureHandler.put_gp_word,SlowSignatureHandler.put_gp,at_.gp_regs,
          image_register_next,Place.parts,Nat.add_assoc]
      · have straight : ¬ (6 - (p.images : Int)) % 2 = 0 := by omega
        rw [if_neg even,if_neg straight]
        simp [SlowSignatureHandler.filled,SlowSignatureHandler.put_gp_word,SlowSignatureHandler.put_gp,at_.gp_regs,
          image_register_at,image_register_next,Place.parts,Nat.add_assoc]
    · rw [if_neg room,if_neg (at_.room_for_two.not.mp room)]
      simp [SlowSignatureHandler.filled,SlowSignatureHandler.put_st_word,SlowSignatureHandler.put_st,at_.st_args,stack_word_at,
        stack_word_next,Place.parts,Nat.add_assoc]

theorem filled_pass {h : SlowSignatureHandler} (at_ : h.At images to_ p) (n : Nat) (t : NativeType) (passed : h.pass n t = some h') :
    h.filled images to_ h' = (p.place t).parts := by
  cases t with
  | int =>
    cases passed
    exact filled_single at_ (.inr (by decide)) _ _
  | long =>
    cases passed
    exact filled_long at_ n
  | object =>
    cases passed
    exact filled_single at_ (.inr (by decide)) _ _
  | float => cases passed
  | double => cases passed

theorem slow_parts_eq {h : SlowSignatureHandler} (at_ : h.At images to_ p) (n : Nat) (params : List NativeType)
    (run : h.iterate n params = some h') : slow_parts images to_ h n params = p.parts params := by
  induction params generalizing h p n with
  | nil => rfl
  | cons t rest ih =>
    obtain ⟨h₁,passed,run⟩ := Option.bind_eq_some_iff.mp run
    simp only [slow_parts,passed,Option.elim_some,Spot.parts]
    rw [filled_pass at_ n t passed,ih (at_pass at_ n t passed) _ run]

-- What the walk leaves for a part, in the images or on the stack.
def Part.image (images to_ : Int) (mem : Cells) : Part → Int
  | gpr r => mem.word wide (images + ((r : Nat) - gp_reg_start : Int)*wordSize)
  | fpr f => mem.word true (images + gp_image_bytes + ((f : Nat) - fp_reg_start : Int)*8)
  | word k => mem.word wide (to_ + ((k : Int) - link_area_words)*wordSize)

theorem image_gpr (images to_ : Int) (mem : Cells) (k : Nat) :
    Part.image images to_ mem (.gpr (gp_reg_start + k)) = mem.word wide (images + k*wordSize) := by
  have offset : ((gp_reg_start + k : Nat) : Int) - gp_reg_start = k := by push_cast; ring
  simp only [Part.image,offset]

theorem image_word (images to_ : Int) (mem : Cells) (k : Nat) :
    Part.image images to_ mem (.word (link_area_words + k)) = mem.word wide (to_ + k*wordSize) := by
  have offset : ((link_area_words + k : Nat) : Int) - link_area_words = k := by push_cast; ring
  simp only [Part.image,offset]

-- One word stored and two.
theorem carries_single {h : SlowSignatureHandler} (at_ : h.At images to_ p) (single : Target.cpu = .ppc64 ∨ t ≠ .long) (v : Int) :
    (p.place t).parts.map (Part.image images to_
      (if h.gp_regs ≤ h.gp_reg_max then (h.put_gp_word v).shadow else h.put_st_word v).mem) = [v] := by
  rw [place_single p single]
  by_cases room : h.gp_regs ≤ h.gp_reg_max
  · rw [if_pos room,if_pos (at_.room.mp room),(shadow_same _).2.2]
    simp only [Place.parts,List.map_cons,List.map_nil,image_gpr,← at_.gp_regs]
    exact congrArg (fun v => [v]) (word_putWord _ _ _)
  · rw [if_neg room,if_neg (at_.room.not.mp room)]
    simp only [Place.parts,List.map_cons,List.map_nil,image_word,← at_.st_args]
    exact congrArg (fun v => [v]) (word_putWord _ _ _)

theorem words_stored (mem : Cells) (a v w : Int) :
    let mem' := (mem.putWord wide a v).putWord wide (a + wordSize) w
    mem'.word wide a = v ∧ mem'.word wide (a + wordSize) = w :=
  ⟨(word_putWord_apart _ _ (.inr (Int.le_refl _))).trans (word_putWord _ _ _),word_putWord _ _ _⟩

theorem carries_long {h : SlowSignatureHandler} (at_ : h.At images to_ p) (n : Nat) :
    (p.place .long).parts.map (Part.image images to_ (h.pass_long n).mem) = general_words h.mem h.from_ n .long := by
  unfold SlowSignatureHandler.pass_long
  cases cpu : Target.cpu with
  | ppc64 =>
    simp only [general_words,cpu]
    exact carries_single at_ (.inl cpu) _
  | ppc32 =>
    simp only [general_words,cpu]
    rw [place_pair cpu]
    by_cases room : h.gp_regs < h.gp_reg_max
    · rw [if_pos room,if_pos (at_.room_for_two.mp room),at_.left]
      unfold Spot.pair
      by_cases even : p.images % 2 = 0
      · have skip : (6 - (p.images : Int)) % 2 = 0 := by omega
        rw [if_pos even,if_pos skip]
        simp only [Place.parts,List.map_cons,List.map_nil,Nat.add_assoc,image_gpr,← word_after,← at_.gp_regs]
        have both := words_stored h.mem (h.gp_regs + wordSize) (h.mem.word wide (h.local_ (n+1))) (h.mem.word wide (h.local_ n))
        exact congrArg₂ (fun v w => [v,w]) both.1 both.2
      · have straight : ¬ (6 - (p.images : Int)) % 2 = 0 := by omega
        rw [if_neg even,if_neg straight]
        simp only [Place.parts,List.map_cons,List.map_nil,Nat.add_assoc,image_gpr,← word_after,← at_.gp_regs]
        have both := words_stored h.mem h.gp_regs (h.mem.word wide (h.local_ (n+1))) (h.mem.word wide (h.local_ n))
        exact congrArg₂ (fun v w => [v,w]) both.1 both.2
    · rw [if_neg room,if_neg (at_.room_for_two.not.mp room)]
      simp only [Place.parts,List.map_cons,List.map_nil,Nat.add_assoc,image_word,← word_after,← at_.st_args]
      have both := words_stored h.mem h.st_args (h.mem.word wide (h.local_ (n+1))) (h.mem.word wide (h.local_ n))
      exact congrArg₂ (fun v w => [v,w]) both.1 both.2

-- An int is extended to its register on the small processor only.
theorem carries_pass {h : SlowSignatureHandler} (at_ : h.At images to_ p) (n : Nat) (t : NativeType)
    (int : t = .int → Target.cpu = .ppc32) (passed : h.pass n t = some h') :
    (p.place t).parts.map (Part.image images to_ h'.mem) = general_words h.mem h.from_ n t := by
  cases t with
  | int =>
    cases passed
    have narrow : wide = false := by simp [wide,int rfl]
    have bytes : wordSize = 4 := wordSize_ppc32 (int rfl)
    have same : h.pass_int n = if h.gp_regs ≤ h.gp_reg_max then (h.put_gp_word (intValue h.mem (h.local_ n))).shadow
        else h.put_st_word (intValue h.mem (h.local_ n)) := by
      simp only [SlowSignatureHandler.pass_int,SlowSignatureHandler.put_gp_word,SlowSignatureHandler.put_st_word,putWord,narrow,bytes,
        Bool.false_eq_true,if_false]
    rw [same]
    exact carries_single at_ (.inr (by decide)) _
  | object =>
    cases passed
    exact carries_single at_ (.inr (by decide)) _
  | long =>
    cases passed
    exact carries_long at_ n
  | float => cases passed
  | double => cases passed

-- From one point of the walk to another the pointers move up, and memory changes
-- only between them.
structure Ahead (top : Int) (h h' : SlowSignatureHandler) : Prop where
  from_ : h'.from_ = h.from_
  gp_regs : h.gp_regs ≤ h'.gp_regs
  st_args : h.st_args ≤ h'.st_args
  mem : ∀ b, b < h.gp_regs ∨ top ≤ b → b < h.st_args ∨ h'.st_args ≤ b → h'.mem b = h.mem b

namespace Ahead
variable {top : Int} {h h' h'' : SlowSignatureHandler} {cells : Cells}

omit [Target] in
theorem refl (top : Int) (h : SlowSignatureHandler) : Ahead top h h :=
  ⟨rfl,Int.le_refl _,Int.le_refl _,fun _ _ _ => rfl⟩

omit [Target] in
theorem trans (one : Ahead top h h') (two : Ahead top h' h'') : Ahead top h h'' := by
  have gp := one.gp_regs
  have st := one.st_args
  have st' := two.st_args
  refine ⟨two.from_.trans one.from_,Int.le_trans gp two.gp_regs,Int.le_trans st st',fun b images stack => ?_⟩
  exact (two.mem b (by omega) (by omega)).trans (one.mem b images (by omega))

theorem put_gp (h : SlowSignatureHandler) (room : h.gp_regs + wordSize ≤ top) (small : bytes ≤ wordSize)
    (outside : ∀ b, b < h.gp_regs ∨ h.gp_regs + bytes ≤ b → cells b = h.mem b) : Ahead top h (h.put_gp bytes cells) := by
  have pos := wordSize_pos
  refine ⟨rfl,?_,Int.le_refl _,fun b images _ => outside b (by omega)⟩
  change h.gp_regs ≤ h.gp_regs + wordSize
  omega

theorem put_st (top : Int) (h : SlowSignatureHandler) (small : bytes ≤ wordSize)
    (outside : ∀ b, b < h.st_args ∨ h.st_args + bytes ≤ b → cells b = h.mem b) : Ahead top h (h.put_st bytes cells) := by
  have pos := wordSize_pos
  refine ⟨rfl,Int.le_refl _,?_,fun b _ stack => outside b ?_⟩
  · change h.st_args ≤ h.st_args + wordSize
    omega
  · change b < h.st_args ∨ h.st_args + wordSize ≤ b at stack
    omega

theorem put_gp_word (h : SlowSignatureHandler) (room : h.gp_regs + wordSize ≤ top) (v : Int) : Ahead top h (h.put_gp_word v) :=
  put_gp h room (Int.le_refl _) fun _ outside => Cells.putWord_outside _ _ outside

theorem put_st_word (top : Int) (h : SlowSignatureHandler) (v : Int) : Ahead top h (h.put_st_word v) :=
  put_st top h (Int.le_refl _) fun _ outside => Cells.putWord_outside _ _ outside

theorem skip (top : Int) (h : SlowSignatureHandler) : Ahead top h {h with gp_regs := h.gp_regs + wordSize} := by
  have pos := wordSize_pos
  refine ⟨rfl,?_,Int.le_refl _,fun _ _ _ => rfl⟩
  change h.gp_regs ≤ h.gp_regs + wordSize
  omega

theorem shadow (top : Int) (h : SlowSignatureHandler) : Ahead top h h.shadow := by
  have pos := wordSize_pos
  unfold SlowSignatureHandler.shadow
  cases Target.cpu with
  | ppc32 => exact refl top h
  | ppc64 =>
    refine ⟨rfl,Int.le_refl _,?_,fun _ _ _ => rfl⟩
    change h.st_args ≤ h.st_args + wordSize
    omega

theorem single (at_ : h.At images to_ p) (small : bytes ≤ wordSize)
    (gp : ∀ b, b < h.gp_regs ∨ h.gp_regs + bytes ≤ b → cells b = h.mem b)
    (st : ∀ b, b < h.st_args ∨ h.st_args + bytes ≤ b → cells' b = h.mem b) :
    Ahead (images + gp_image_bytes) h
      (if h.gp_regs ≤ h.gp_reg_max then (h.put_gp bytes cells).shadow else h.put_st bytes cells') := by
  by_cases room : h.gp_regs ≤ h.gp_reg_max
  · rw [if_pos room]
    have few := at_.room.mp room
    exact (put_gp h (at_.below few) small gp).trans (shadow _ _)
  · rw [if_neg room]
    exact put_st _ h small st

theorem long (at_ : h.At images to_ p) (n : Nat) : Ahead (images + gp_image_bytes) h (h.pass_long n) := by
  unfold SlowSignatureHandler.pass_long
  cases cpu : Target.cpu with
  | ppc64 =>
    exact single at_ (Int.le_refl _) (fun _ outside => Cells.putWord_outside _ _ outside) fun _ outside =>
      Cells.putWord_outside _ _ outside
  | ppc32 =>
    dsimp only
    by_cases room : h.gp_regs < h.gp_reg_max
    · have few := at_.room_for_two.mp room
      rw [if_pos room,at_.left]
      by_cases skipped : (6 - (p.images : Int)) % 2 = 0
      · have first : Pointers images to_ (p.images+1) p.stack {h with gp_regs := h.gp_regs + wordSize} := at_.skip
        have second := first.put_gp (by omega) (Int.le_refl _) (h.mem.putWord wide (h.gp_regs + wordSize) (h.mem.word wide (h.local_ (n+1))))
        rw [if_pos skipped]
        exact ((skip _ h).trans (put_gp_word _ (first.below (by omega)) _)).trans (put_gp_word _ (second.below (by omega)) _)
      · have second := at_.put_gp (by omega) (Int.le_refl _) (h.mem.putWord wide h.gp_regs (h.mem.word wide (h.local_ (n+1))))
        rw [if_neg skipped]
        exact (put_gp_word _ (at_.below (by omega)) _).trans (put_gp_word _ (second.below (by omega)) _)
    · rw [if_neg room]
      exact (put_st_word _ h _).trans (put_st_word _ _ _)

theorem pass (at_ : h.At images to_ p) (n : Nat) (t : NativeType) (passed : h.pass n t = some h') :
    Ahead (images + gp_image_bytes) h h' := by
  have small : 4 ≤ wordSize := by unfold wordSize width; split <;> decide
  have cell : ∀ a v b, b < a ∨ a + 4 ≤ b → h.mem.put a v b = h.mem b := fun a v b outside => put_other _ _ (by omega)
  cases t with
  | int =>
    cases passed
    exact single at_ small (cell _ _) (cell _ _)
  | object =>
    cases passed
    exact single at_ (Int.le_refl _) (fun _ outside => Cells.putWord_outside _ _ outside) fun _ outside =>
      Cells.putWord_outside _ _ outside
  | long =>
    cases passed
    exact long at_ n
  | float => cases passed
  | double => cases passed

theorem iterate (at_ : h.At images to_ p) (n : Nat) (params : List NativeType) (run : h.iterate n params = some h') :
    Ahead (images + gp_image_bytes) h h' := by
  induction params generalizing h p n with
  | nil =>
    cases run
    exact refl _ _
  | cons t rest ih =>
    obtain ⟨h₁,passed,run⟩ := Option.bind_eq_some_iff.mp run
    exact (pass at_ n t passed).trans (ih (at_pass at_ n t passed) _ run)

end Ahead

-- A part the walk has passed keeps what was stored for it.
def Spot.Behind (p : Spot) : Part → Prop
  | .gpr r => ∃ k, k < p.images ∧ r = gp_reg_start + k
  | .fpr _ => False
  | .word w => ∃ k, k < p.stack ∧ w = link_area_words + k

theorem place_behind (p : Spot) (t : NativeType) : ∀ part ∈ (p.place t).parts, (p.next t).Behind part := by
  by_cases both : t = .long ∧ Target.cpu = .ppc32
  · obtain ⟨rfl,cpu⟩ := both
    rw [place_pair cpu]
    simp only [Spot.next,cpu,if_true]
    intro part member
    by_cases few : p.images < 6
    · rw [if_pos few] at member ⊢
      rcases List.mem_cons.mp member with rfl|second
      · exact ⟨p.pair,by dsimp only; omega,rfl⟩
      · rw [List.mem_singleton.mp second]
        exact ⟨p.pair+1,by dsimp only; omega,rfl⟩
    · rw [if_neg few] at member ⊢
      rcases List.mem_cons.mp member with rfl|second
      · exact ⟨p.stack,by dsimp only; omega,rfl⟩
      · rw [List.mem_singleton.mp second]
        exact ⟨p.stack+1,by dsimp only; omega,rfl⟩
  · have single : Target.cpu = .ppc64 ∨ t ≠ .long := by
      cases cpu : Target.cpu with
      | ppc64 => exact .inl rfl
      | ppc32 => exact .inr fun long => both ⟨long,cpu⟩
    rw [place_single p single]
    have next : p.next t = if p.images ≤ 6 then ⟨p.images+1,(p.next t).stack⟩ else {p with stack := p.stack+1} := by
      cases cpu : Target.cpu with
      | ppc64 => by_cases few : p.images ≤ 6 <;> simp [Spot.next,cpu,few]
      | ppc32 =>
        have short : t ≠ .long := fun long => both ⟨long,cpu⟩
        by_cases few : p.images ≤ 6 <;> simp [Spot.next,cpu,few,short]
    intro part member
    by_cases few : p.images ≤ 6
    · rw [if_pos few] at member next
      rw [List.mem_singleton.mp member,next]
      exact ⟨p.images,Nat.lt_succ_self _,rfl⟩
    · rw [if_neg few] at member next
      rw [List.mem_singleton.mp member,next]
      exact ⟨p.stack,Nat.lt_succ_self _,rfl⟩

theorem image_kept (at_ : h.At images to_ p) (ahead : Ahead top h h') (apart : h'.st_args ≤ images) (behind : p.Behind part) :
    part.image images to_ h'.mem = part.image images to_ h.mem := by
  have pos := wordSize_pos
  have gp := at_.gp_regs
  have st := at_.st_args
  have moved := ahead.st_args
  have low := Int.mul_nonneg (Int.natCast_nonneg p.images) (Int.le_of_lt pos)
  cases part with
  | gpr r =>
    obtain ⟨k,less,rfl⟩ := behind
    have first := Int.mul_nonneg (Int.natCast_nonneg k) (Int.le_of_lt pos)
    have room := Int.mul_le_mul_of_nonneg_right (show ((k+1 : Nat) : Int) ≤ p.images by omega) (Int.le_of_lt pos)
    push_cast [Int.add_mul] at room
    rw [image_gpr,image_gpr]
    refine word_congr fun b lower upper => ahead.mem b (.inl ?_) (.inr ?_)
    · change b < _ + wordSize at upper
      omega
    · omega
  | fpr f => cases behind
  | word w =>
    obtain ⟨k,less,rfl⟩ := behind
    have room := Int.mul_le_mul_of_nonneg_right (show ((k+1 : Nat) : Int) ≤ p.stack by omega) (Int.le_of_lt pos)
    push_cast [Int.add_mul] at room
    rw [image_word,image_word]
    refine word_congr fun b lower upper => ahead.mem b (.inl ?_) (.inl ?_)
    all_goals
      change b < _ + wordSize at upper
      omega

-- The parameters' words at their parts.
def Carries (words : Nat → NativeType → List Int) (value : Part → Int) : Nat → List NativeType → List (List Part) → Prop
  | _,[],[] => True
  | n,t :: rest,parts :: later => parts.map value = words n t ∧ Carries words value (n + t.words) rest later
  | _,_,_ => False

omit [Target] in
theorem Carries.same {found : List (List Part)} (one : Carries words value n params found)
    (two : Carries words value' n params found) : ∀ parts ∈ found, ∀ part ∈ parts, value part = value' part := by
  induction params generalizing n found with
  | nil =>
    cases found with
    | nil => exact fun p member => absurd member List.not_mem_nil
    | cons p rest => cases one
  | cons t rest ih =>
    cases found with
    | nil => cases one
    | cons q later =>
      intro parts member
      rcases List.mem_cons.mp member with rfl|after
      · exact List.map_inj_left.mp (one.1.trans two.1.symm)
      · exact ih one.2 two.2 parts after

theorem general_words_same (same : ∀ b, bottom ≤ b → cells' b = cells b) (n : Nat) (t : NativeType)
    (above : ∀ k, n ≤ k → k < n + t.words → bottom ≤ from_ + local_offset_in_bytes k) :
    general_words cells' from_ n t = general_words cells from_ n t := by
  have word : ∀ k, n ≤ k → k < n + t.words →
      cells'.word wide (from_ + local_offset_in_bytes k) = cells.word wide (from_ + local_offset_in_bytes k) := fun k low high =>
    word_congr fun b lower _ => same b (Int.le_trans (above k low high) lower)
  have cell : ∀ k, n ≤ k → k < n + t.words → cells' (from_ + local_offset_in_bytes k) = cells (from_ + local_offset_in_bytes k) :=
    fun k low high => same _ (above k low high)
  cases t with
  | int => simp only [general_words,intValue,cell n (Nat.le_refl _) (by simp [NativeType.words])]
  | object => simp only [general_words,objectValue,word n (Nat.le_refl _) (by simp [NativeType.words])]
  | long =>
    simp only [general_words,word n (Nat.le_refl _) (by simp [NativeType.words]),
      word (n+1) (Nat.le_succ _) (by simp [NativeType.words])]
  | float => rfl
  | double => rfl

-- The whole walk, over locals that are above everything it stores.
theorem slow_carries {h h' : SlowSignatureHandler} (cells : Cells) (bottom : Int) (at_ : h.At images to_ p) (n : Nat) (params : List NativeType) (run : h.iterate n params = some h')
    (ints : .int ∈ params → Target.cpu = .ppc32) (apart : h'.st_args ≤ images) (high : images + gp_image_bytes ≤ bottom)
    (same : ∀ b, bottom ≤ b → h.mem b = cells b)
    (above : ∀ k, n ≤ k → k < n + parameterWords params → bottom ≤ h.from_ + local_offset_in_bytes k) :
    Carries (general_words cells h.from_) (Part.image images to_ h'.mem) n params (p.parts params) := by
  induction params generalizing h p n with
  | nil => trivial
  | cons t rest ih =>
    obtain ⟨h₁,passed,run⟩ := Option.bind_eq_some_iff.mp run
    have next := at_pass at_ n t passed
    have step_ahead := Ahead.pass at_ n t passed
    have later := Ahead.iterate next _ _ run
    have words : parameterWords (t :: rest) = t.words + parameterWords rest := by simp [parameterWords]
    have bytes : 0 ≤ gp_image_bytes := by
      have pos := wordSize_pos
      rw [gp_image_bytes_eq]
      omega
    have moved := later.st_args
    rw [words] at above
    have rest_carries := ih next (n + t.words) run (fun member => ints (List.mem_cons_of_mem _ member))
      (fun b low => (step_ahead.mem b (.inr (by omega)) (.inr (by omega))).trans (same b low))
      fun k low few => by rw [step_ahead.from_]; exact above k (by omega) (by omega)
    rw [step_ahead.from_] at rest_carries
    refine ⟨?_,rest_carries⟩
    have here := carries_pass at_ n t (fun int => ints (int ▸ List.mem_cons_self)) passed
    rw [general_words_same same n t fun k low few => above k low (by omega)] at here
    rw [← here]
    exact List.map_congr_left fun part member => image_kept next later apart (place_behind p t part member)

end
end IcedTea.InterpreterRuntime

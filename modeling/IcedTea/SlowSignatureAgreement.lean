import IcedTea.SignatureHandlerParts

namespace IcedTea.InterpreterRuntime
open StackFrame (link_area_words)
open CppInterpreter (size_of_parameters size_of_parameters_addr)
open Vm Cells

section
variable [Target]

theorem next_up (p : Spot) (t : NativeType) : p.images ≤ (p.next t).images ∧ p.stack ≤ (p.next t).stack := by
  have pair : p.images ≤ p.pair := by
    unfold Spot.pair
    split <;> omega
  cases cpu : Target.cpu with
  | ppc64 =>
    simp only [Spot.next,cpu]
    split <;> exact ⟨by dsimp only; omega,by dsimp only; omega⟩
  | ppc32 =>
    simp only [Spot.next,cpu]
    split <;> split <;> exact ⟨by dsimp only; omega,by dsimp only; omega⟩

theorem behind_next {p : Spot} (behind : p.Behind part) (t : NativeType) : (p.next t).Behind part := by
  obtain ⟨images,stack⟩ := next_up p t
  cases part with
  | gpr r =>
    obtain ⟨k,less,same⟩ := behind
    exact ⟨k,Nat.lt_of_lt_of_le less images,same⟩
  | fpr f => cases behind
  | word w =>
    obtain ⟨k,less,same⟩ := behind
    exact ⟨k,Nat.lt_of_lt_of_le less stack,same⟩

theorem behind_iterate {p : Spot} (behind : p.Behind part) (params : List NativeType) : (params.foldl Spot.next p).Behind part := by
  induction params generalizing p with
  | nil => exact behind
  | cons t rest ih => exact ih (behind_next behind t)

theorem parts_behind (p : Spot) (params : List NativeType) :
    ∀ parts ∈ p.parts params, ∀ part ∈ parts, (params.foldl Spot.next p).Behind part := by
  induction params generalizing p with
  | nil => exact fun parts member => absurd member List.not_mem_nil
  | cons t rest ih =>
    intro parts member part inside
    rcases List.mem_cons.mp member with rfl|later
    · exact behind_iterate (place_behind p t part inside) rest
    · exact ih (p.next t) parts later part inside

end

variable [Vm]

-- What the generated code has after the call, in registers and on the stack.
theorem reloaded_part (m₁ m₂ : Machine) (link : m₁.gpr r6 = m₁.gpr r1 + link_area_words*wordSize)
    (saved : m₁.gpr r14 = register_images size 0) (top : m₂.gpr r1 = m₁.gpr r1) (block : m₂.gpr r14 = m₁.gpr r14)
    (high : m₁.gpr r6 ≤ register_images size (m₁.gpr r6)) (kept : ∀ b, m₁.gpr r6 ≤ b → m₂.mem b = cells b) {p : Spot}
    (behind : p.Behind part) (few : p.images ≤ 7) :
    part.content (exec (find_register_images ++ load_register_images) m₂) =
      part.image (register_images size (m₁.gpr r6)) (m₁.gpr r6) cells := by
  obtain ⟨general,-,stack,mem⟩ := reload_spec m₁ m₂ link saved top block
  have pos := wordSize_pos
  generalize exec (find_register_images ++ load_register_images) m₂ = m₃ at general stack mem
  cases part with
  | gpr r =>
    obtain ⟨k,less,rfl⟩ := behind
    have low := Int.mul_nonneg (Int.natCast_nonneg k) (Int.le_of_lt pos)
    rw [image_gpr]
    refine (general k (by unfold gp_reg_start gp_reg_max; omega)).trans (word_congr fun b lower _ => kept b ?_)
    omega
  | fpr f => cases behind
  | word w =>
    obtain ⟨k,less,rfl⟩ := behind
    have low := Int.mul_nonneg (Int.natCast_nonneg k) (Int.le_of_lt pos)
    have place : m₃.gpr r1 + ((link_area_words + k : Nat) : Int)*wordSize = m₁.gpr r6 + k*wordSize := by
      rw [stack,top,link]
      push_cast
      ring
    rw [image_word,Part.content,place,Machine.read,mem]
    exact word_congr fun b lower _ => kept b (by omega)

-- The stack, the images and the locals of a walk are one after another.
theorem walk_room {m m₁ : Machine} {h : SlowSignatureHandler} {p : Spot} (entry : HandlerEntry words m)
    (sized : size_of_parameters m = words)
    (room : m₁.gpr r6 + required m ≤ m.read (m.ea (STATE .stack_limit)) + wordSize) (counted : Counted p.images p.stack words)
    (large : Target.cpu = .ppc64 ∨ 3 ≤ words) (at_ : h.At (register_images (size_of_parameters m) (m₁.gpr r6)) (m₁.gpr r6) p) :
    m₁.gpr r6 ≤ h.st_args ∧ h.st_args ≤ register_images (size_of_parameters m) (m₁.gpr r6) ∧
      register_images (size_of_parameters m) (m₁.gpr r6) + gp_image_bytes ≤ m.gpr Rstate ∧ 0 ≤ gp_image_bytes := by
  have asked : required m = register_images (size_of_parameters m) 0 + image_bytes := (parameter_list_space_spec m).1
  have spilled := stack_below_images counted large
  rw [← sized] at spilled
  have shift := register_images_shift (size_of_parameters m) (m₁.gpr r6)
  have pos := wordSize_pos
  have low := Int.mul_nonneg (Int.natCast_nonneg p.stack) (Int.le_of_lt pos)
  have bytes : 0 ≤ gp_image_bytes ∧ gp_image_bytes ≤ image_bytes := by
    unfold image_bytes
    rw [gp_image_bytes_eq]
    omega
  have state := entry.state
  have st := at_.st_args
  exact ⟨by omega,by omega,by omega,bytes.1⟩

-- The two handlers put every argument at the same place with the same value, in
-- every state they are called in. From the parameter list up the call leaves
-- memory as the slow handler does.
def HandlersAgree (is_static : Bool) (signature : List NativeType) : Prop :=
  let params := parameters is_static signature
  ∀ (result_handler : Int) (m : Machine), HandlerEntry (parameterWords params) m → size_of_parameters m = parameterWords params →
    let m' := generate_narrow is_static signature result_handler m
    let m₁ := extend_for_call m
    let to_ := m₁.gpr r6
    let start := SlowSignatureHandler.start (size_of_parameters m) is_static (m₁.gpr Rlocals) to_ m₁.mem
    fast_parts (Counters.start is_static) 0 params = slow_parts (register_images (size_of_parameters m) to_) to_ start 0 params ∧
    ∃ h, slow_signature_handler (size_of_parameters m) is_static signature (m₁.gpr Rlocals) to_ m₁.mem = some h ∧
      ∀ m₂ : Machine, m₂.gpr r1 = m₁.gpr r1 → m₂.gpr r14 = m₁.gpr r14 → (∀ b, to_ ≤ b → m₂.mem b = h.mem b) →
        ∀ parts ∈ fast_parts (Counters.start is_static) 0 params, ∀ part ∈ parts,
          part.content m' = part.content (exec (find_register_images ++ load_register_images) m₂)

-- No int on the large processor; on the small one no parameters or three words of
-- them, with every long of the stack after an even number of words.
def Compatible (is_static : Bool) (signature : List NativeType) : Prop :=
  let params := parameters is_static signature
  (Target.cpu = .ppc64 → .int ∉ params) ∧
    (Target.cpu = .ppc32 → (params = [] ∨ 3 ≤ parameterWords params) ∧ Lined (.start is_static) params)

instance (is_static : Bool) (signature : List NativeType) : Decidable (Compatible is_static signature) :=
  inferInstanceAs (Decidable ((_ → _) ∧ (_ → _)))

omit [Vm] in
theorem lined_ppc64 [Target] (cpu : Target.cpu = .ppc64) (p : Spot) (params : List NativeType) : Lined p params := by
  induction params generalizing p with
  | nil => trivial
  | cons t rest ih => exact ⟨straight_ppc64 cpu p t,ih (p.next t)⟩

theorem Compatible.lined {is_static : Bool} {signature : List NativeType} (compatible : Compatible is_static signature) :
    Lined (.start is_static) (parameters is_static signature) := by
  cases cpu : Target.cpu with
  | ppc32 => exact (compatible.2 cpu).2
  | ppc64 => exact lined_ppc64 cpu _ _

theorem Compatible.enough {is_static : Bool} {signature : List NativeType} (compatible : Compatible is_static signature)
    (some : parameters is_static signature ≠ []) : Target.cpu = .ppc64 ∨ 3 ≤ parameterWords (parameters is_static signature) := by
  cases cpu : Target.cpu with
  | ppc64 => exact .inl rfl
  | ppc32 => exact .inr ((compatible.2 cpu).1.resolve_left some)

theorem Compatible.ints {is_static : Bool} {signature : List NativeType} (compatible : Compatible is_static signature)
    (int : .int ∈ parameters is_static signature) : Target.cpu = .ppc32 := by
  cases cpu : Target.cpu with
  | ppc32 => rfl
  | ppc64 => exact absurd int (compatible.1 cpu)

theorem compatible_agree (is_static : Bool) (signature : List NativeType) (general : General signature)
    (within : InReach is_static signature) (compatible : Compatible is_static signature) : HandlersAgree is_static signature := by
  intro result_handler m entry sized
  have all := general.parameters is_static
  obtain ⟨link,saved,room,locals,kept⟩ := extend_for_call_spec m
  dsimp only
  generalize extend_for_call m = m₁ at link saved room locals kept ⊢
  obtain ⟨h,run⟩ := iterate_total (.start (size_of_parameters m) is_static (m₁.gpr Rlocals) (m₁.gpr r6) m₁.mem) 0
    (parameters is_static signature) all
  have at_ := at_start (size_of_parameters m) is_static (m₁.gpr Rlocals) (m₁.gpr r6) m₁.mem
  have places := (fast_parts_iff (level_start is_static) 0 all).mpr compatible.lined
  refine ⟨places.trans (slow_parts_eq at_ 0 _ run).symm,h,run,fun m₂ top block after parts member part inside => ?_⟩
  have some : parameters is_static signature ≠ [] := by
    intro none
    rw [none] at member
    cases member
  have counted := counted_iterate (counted_start is_static) _ all
  rw [Nat.zero_add] at counted
  obtain ⟨above,behind,below,bytes⟩ := walk_room entry sized room counted (compatible.enough some) (at_iterate at_ 0 _ run)
  have pos := wordSize_pos
  have object := sizeof_large
  obtain ⟨loaded,same⟩ := generate_narrow_eq is_static signature within result_handler m
  rw [same]
  obtain ⟨extra,handled⟩ := generate_spec is_static signature loaded m entry
  have ready := ready_start is_static
  have fast := fast_carries handled (iterate_listed ready 0 _) (general_spill is_static all) ready 0 all (fun _ member => member)
    fun _ member => member
  have slow := slow_carries m.mem (m.gpr Rstate) at_ 0 _ run compatible.ints behind below
    (fun b high => kept b (by omega)) fun k _ less => by
      have above := entry.locals k (by omega)
      change _ ≤ m₁.gpr Rlocals + local_offset_in_bytes k
      rw [locals]
      change _ ≤ m.gpr Rlocals + local_offset_in_bytes k at above
      omega
  change Carries (general_words m.mem (m₁.gpr Rlocals)) _ _ _ _ at slow
  rw [locals,← places] at slow
  rw [fast.same slow parts member part inside]
  rw [places] at member
  exact (reloaded_part m₁ m₂ link saved top block (by omega) after (parts_behind _ _ parts member part inside)
    counted.1).symm

-- The marked state, of a method with `words` parameter words.
def called (words k : Nat) : Machine :=
  let size_at := wordSize + sizeof_BytecodeInterpreter + words*wordSize + 16
  {marked words k with
    gpr := fun r => if r = Rmethod then size_at - size_of_parameters_offset else (marked words k).gpr r
    mem := fun b => if b = size_at ∨ b = size_at - 2 then words*2^16 + words else (marked words k).mem b}

theorem called_sized (small : words < 2^16) (k : Nat) : size_of_parameters (called words k) = words := by
  have place : (called words k).ea size_of_parameters_addr = wordSize + sizeof_BytecodeInterpreter + words*wordSize + 16 := by
    simp [called,Machine.ea,size_of_parameters_addr]
  unfold size_of_parameters Machine.read16
  rw [place]
  split
  · have high : (called words k).mem (wordSize + sizeof_BytecodeInterpreter + words*wordSize + 16) = words*2^16 + words := by
      simp [called]
    have quotient : ((words : Int)*2^16 + words) / 2^16 = words := by
      rw [Int.add_comm,Int.add_mul_ediv_right _ _ (by decide),Int.ediv_eq_zero_of_lt (by omega) (by omega),Int.zero_add]
    rw [high,quotient]
    omega
  · have low : (called words k).mem (wordSize + sizeof_BytecodeInterpreter + words*wordSize + 16 - 2) = words*2^16 + words := by
      simp [called]
    rw [low]
    omega

theorem called_below (words k : Nat) (below : b < wordSize + sizeof_BytecodeInterpreter + words*wordSize + 8) :
    (called words k).mem b = (marked words k).mem b := by
  simp only [called]
  rw [if_neg]
  omega

theorem called_entry (inside : k < words) : HandlerEntry words (called words k) := by
  have entry := marked_entry inside
  have object := state_inside .stack_limit
  have bytes : StateField.bytes .stack_limit = wordSize := rfl
  have size := Int.mul_nonneg (Int.natCast_nonneg words) (Int.le_of_lt wordSize_pos)
  have state : (called words k).gpr Rstate = (marked words k).gpr Rstate := by simp [called]
  have locals : (called words k).gpr Rlocals = (marked words k).gpr Rlocals := by simp [called]
  constructor
  · rw [state]
    refine Int.le_trans (Int.le_of_eq ?_) entry.state
    have same : (called words k).read ((called words k).ea (STATE .stack_limit)) =
        (marked words k).read ((marked words k).ea (STATE .stack_limit)) := by
      have at_ : (marked words k).ea (STATE .stack_limit) = wordSize + state_offset .stack_limit := by simp [marked,STATE]
      have at_' : (called words k).ea (STATE .stack_limit) = wordSize + state_offset .stack_limit := by simp [called,marked,STATE]
      rw [at_,at_']
      refine word_congr fun b _ upper => called_below words k ?_
      change b < _ + wordSize at upper
      omega
    rw [same]
  · intro n less
    have above := entry.locals n less
    simp only [Machine.ea,localAddress,state,locals] at above ⊢
    exact above

theorem called_local (words k : Nat) :
    (called words k).mem ((called words k).gpr Rlocals + local_offset_in_bytes k) = 1 := by
  have place : (called words k).gpr Rlocals + local_offset_in_bytes k =
      wordSize + sizeof_BytecodeInterpreter + words*wordSize - k*wordSize := by
    simp [called,marked,local_offset_in_bytes]
    omega
  have low := Int.mul_nonneg (Int.natCast_nonneg k) (Int.le_of_lt wordSize_pos)
  rw [place,called_below words k (by omega)]
  simp [marked]

-- Where the two agree the longs are lined up.
theorem agree_lined (agree : HandlersAgree is_static signature) (general : General signature) (m : Machine)
    (entry : HandlerEntry (parameterWords (parameters is_static signature)) m)
    (sized : size_of_parameters m = parameterWords (parameters is_static signature)) :
    Lined (.start is_static) (parameters is_static signature) := by
  obtain ⟨places,h,run,-⟩ := agree 0 m entry sized
  exact (fast_parts_iff (level_start is_static) 0 (general.parameters is_static)).mp
    (places.trans (slow_parts_eq (at_start _ is_static _ _ _) 0 _ run))

-- With one or two words of parameters the image of the first is below the
-- parameter list, where nothing keeps it.
theorem agree_enough (cpu : Target.cpu = .ppc32) (agree : HandlersAgree is_static signature) (m : Machine)
    (entry : HandlerEntry (parameterWords (parameters is_static signature)) m)
    (sized : size_of_parameters m = parameterWords (parameters is_static signature)) :
    parameters is_static signature = [] ∨ 3 ≤ parameterWords (parameters is_static signature) := by
  by_contra wrong
  obtain ⟨some,few⟩ := not_or.mp wrong
  obtain ⟨places,h,run,values⟩ := agree 0 m entry sized
  obtain ⟨link,saved,-⟩ := extend_for_call_spec m
  have size := wordSize_ppc32 cpu
  rw [slow_parts_eq (at_start _ is_static _ _ _) 0 _ run] at places
  rw [places] at values
  generalize parameterWords (parameters is_static signature) = words at few sized
  generalize generate_narrow is_static signature 0 m = m' at values
  generalize extend_for_call m = m₁ at link saved values run
  obtain ⟨t,rest,params⟩ := List.exists_cons_of_ne_nil some
  rw [params] at values
  obtain ⟨i,first,member⟩ : ∃ i : Nat, i ≤ 1 ∧ Part.gpr (gp_reg_start + i) ∈ ((Spot.start is_static).place t).parts := by
    by_cases long : t = .long
    · refine ⟨1,Nat.le_refl _,?_⟩
      rw [long,place_pair cpu]
      cases is_static <;> simp [Spot.start,Spot.pair,Place.parts]
    · refine ⟨(Spot.start is_static).images,by cases is_static <;> simp [Spot.start],?_⟩
      rw [place_single _ (.inr long)]
      cases is_static <;> simp [Spot.start,Place.parts]
  let z := m'.gpr (gp_reg_start + i) + 1
  let m₂ : Machine := {m₁ with mem := fun b => if m₁.gpr r6 ≤ b then h.mem b else z}
  have same : m'.gpr (gp_reg_start + i) = (exec (find_register_images ++ load_register_images) m₂).gpr (gp_reg_start + i) :=
    values m₂ rfl rfl (fun b high => if_pos high) _ List.mem_cons_self _ member
  obtain ⟨loaded,-⟩ := reload_spec m₁ m₂ link saved rfl rfl
  have found := loaded i (by unfold gp_reg_start gp_reg_max; omega)
  have below : ¬ m₁.gpr r6 ≤ register_images (size_of_parameters m) (m₁.gpr r6) + i*wordSize := by
    rw [sized]
    simp only [register_images,cpu,size]
    omega
  have narrow : wide = false := by simp [wide,cpu]
  have value : m₂.read (register_images (size_of_parameters m) (m₁.gpr r6) + i*wordSize) = z := by
    simp only [Machine.read,word,narrow,Bool.false_eq_true,if_false,m₂]
    exact if_neg below
  rw [found,value] at same
  omega

section
variable [Target]
omit [Vm]

theorem walk_append (h : SlowSignatureHandler) (n : Nat) (one two : List NativeType) :
    h.iterate n (one ++ two) = (h.iterate n one).bind fun h' => h'.iterate (n + parameterWords one) two := by
  induction one generalizing h n with
  | nil => simp [SlowSignatureHandler.iterate,parameterWords]
  | cons t rest ih =>
    simp only [List.cons_append,SlowSignatureHandler.iterate,ih,Option.bind_assoc,parameterWords,List.map_cons,List.sum_cons,
      Nat.add_assoc]

theorem parts_at (p : Spot) (before after : List NativeType) (t : NativeType) :
    ((before.foldl Spot.next p).place t).parts ∈ p.parts (before ++ t :: after) := by
  induction before generalizing p with
  | nil => exact List.mem_cons_self
  | cons u rest ih => exact List.mem_cons_of_mem _ (ih (p.next u))

theorem level_iterate (level : Level c p) (n : Nat) (general : General params) (lined : Lined p params) :
    Level (iterate c n params).next (params.foldl Spot.next p) := by
  induction params generalizing c p n with
  | nil => exact level
  | cons t rest ih =>
    obtain ⟨-,next⟩ := pass_parts level n (general t List.mem_cons_self)
    exact ih (next lined.1) _ (fun u member => general u (List.mem_cons_of_mem t member)) lined.2

theorem int_one (one : cells a = 1) : intValue cells a = 1 := by
  unfold intValue
  rw [one]
  split <;> decide

-- An int is stored to the half of the image that comes first.
theorem carries_int (cpu : Target.cpu = .ppc64) {h : SlowSignatureHandler} (at_ : h.At images to_ p) (n : Nat) :
    ∃ low, 0 ≤ low ∧ (p.place .int).parts.map (Part.image images to_ (h.pass_int n).mem) =
      [intValue h.mem (h.local_ n)*2^32 + low] := by
  have broad : wide = true := by simp [wide,cpu]
  have halves : ∀ a v, ∃ low, 0 ≤ low ∧ (h.mem.put a v).word wide a = v*2^32 + low := by
    intro a v
    refine ⟨h.mem.put a v (a+4) % 2^32,Int.emod_nonneg _ (by decide),?_⟩
    rw [broad]
    simp only [word,if_true,put_same]
  unfold SlowSignatureHandler.pass_int
  dsimp only
  rw [place_single p (.inl cpu)]
  by_cases room : h.gp_regs ≤ h.gp_reg_max
  · obtain ⟨low,some,value⟩ := halves h.gp_regs (intValue h.mem (h.local_ n))
    refine ⟨low,some,?_⟩
    rw [if_pos room,if_pos (at_.room.mp room),(shadow_same _).2.2]
    simp only [Place.parts,List.map_cons,List.map_nil,image_gpr,← at_.gp_regs]
    exact congrArg (fun v => [v]) value
  · obtain ⟨low,some,value⟩ := halves h.st_args (intValue h.mem (h.local_ n))
    refine ⟨low,some,?_⟩
    rw [if_neg room,if_neg (at_.room.not.mp room)]
    simp only [Place.parts,List.map_cons,List.map_nil,image_word,← at_.st_args]
    exact congrArg (fun v => [v]) value

end

-- The words within reach are fewer than the method's halfword counts.
theorem InReach.small {is_static : Bool} {signature : List NativeType} (within : InReach is_static signature) :
    parameterWords (parameters is_static signature) < 2^16 := by
  have locals := within.locals
  have far : reach ≤ 2^13 := by unfold reach; split <;> decide
  omega

theorem agree_ints (cpu : Target.cpu = .ppc64) (agree : HandlersAgree is_static signature) (general : General signature)
    (within : InReach is_static signature) : .int ∉ parameters is_static signature := by
  intro int
  have all := general.parameters is_static
  obtain ⟨before,after,params⟩ := List.append_of_mem int
  have inside : parameterWords before < parameterWords (parameters is_static signature) := by
    rw [params]
    simp [parameterWords,NativeType.words]
  have entry := called_entry inside
  have one := called_local (parameterWords (parameters is_static signature)) (parameterWords before)
  have sized := called_sized within.small (parameterWords before)
  generalize called (parameterWords (parameters is_static signature)) (parameterWords before) = m at entry one sized
  obtain ⟨places,h,run,values⟩ := agree 0 m entry sized
  obtain ⟨link,saved,room,locals,kept⟩ := extend_for_call_spec m
  have at_ := at_start (size_of_parameters m) is_static ((extend_for_call m).gpr Rlocals) ((extend_for_call m).gpr r6)
    (extend_for_call m).mem
  rw [slow_parts_eq at_ 0 _ run] at places
  rw [places] at values
  have counted := counted_iterate (counted_start is_static) _ all
  rw [Nat.zero_add] at counted
  obtain ⟨above,behind,below,bytes⟩ := walk_room entry sized room counted (.inl cpu) (at_iterate at_ 0 _ run)
  obtain ⟨loaded,same⟩ := generate_narrow_eq is_static signature within 0 m
  obtain ⟨extra,handled⟩ := generate_spec is_static signature loaded m entry
  rw [same] at values
  have listed := iterate_listed (ready_start is_static) 0 (parameters is_static signature)
  have local_ := entry.locals _ inside
  have spill := general_spill is_static all
  have ready := (iterate_listed (ready_start is_static) 0 before).ready
  have early : General before := fun t member => all t (by rw [params]; exact List.mem_append_left _ member)
  have level := level_iterate (level_start is_static) 0 early (lined_ppc64 cpu _ before)
  have placed := (pass_parts level (parameterWords before) (t := .int) rfl).1.mpr (straight_ppc64 cpu _ _)
  have member := parts_at (Spot.start is_static) before after .int
  generalize generate is_static signature loaded m = m' at values handled
  generalize extend_for_call m = m₁ at link saved room locals kept run values at_ above behind below
  change SlowSignatureHandler.iterate _ 0 (parameters is_static signature) = some h at run
  rw [params] at handled listed spill run values counted
  rw [iterate_append,Nat.zero_add] at handled listed spill
  -- the value the generated code passes
  have fast := passed_words handled listed spill ready (parameterWords before) (t := .int) rfl
    (fun e member => List.mem_append_right _ (List.mem_append_left _ member)) fun a member =>
    List.mem_append_right _ (List.mem_append_left _ member)
  rw [placed] at fast
  -- the value the walk stores, which stays until the registers are loaded
  rw [walk_append,Nat.zero_add] at run
  obtain ⟨h₁,run₁,run₂⟩ := Option.bind_eq_some_iff.mp run
  have at₁ := at_iterate at_ 0 before run₁
  have ahead₁ := Ahead.iterate at_ 0 before run₁
  have at₂ := at_pass at₁ (parameterWords before) .int rfl
  have ahead₂ := Ahead.iterate at₂ _ after run₂
  have ahead₁₂ := Ahead.pass at₁ (parameterWords before) .int rfl
  obtain ⟨low,some,slow⟩ := carries_int cpu at₁ (parameterWords before)
  have object := sizeof_large
  have pos := wordSize_pos
  have moved₁₂ := ahead₁₂.st_args
  have moved₂ := ahead₂.st_args
  change _ ≤ m.gpr Rlocals + local_offset_in_bytes (parameterWords before) at local_
  have source : h₁.local_ (parameterWords before) = m.gpr Rlocals + local_offset_in_bytes (parameterWords before) := by
    unfold SlowSignatureHandler.local_
    rw [ahead₁.from_]
    exact congrArg (· + _) locals
  have here : h₁.mem (m.gpr Rlocals + local_offset_in_bytes (parameterWords before)) = 1 :=
    (ahead₁.mem _ (.inr (by omega)) (.inr (by omega))).trans ((kept _ (by omega)).trans one)
  have stays : ∀ part ∈ ((before.foldl Spot.next (Spot.start is_static)).place .int).parts, part.content m' =
      part.image (register_images (size_of_parameters m) (m₁.gpr r6)) (m₁.gpr r6) (h₁.pass_int (parameterWords before)).mem := by
    intro part inside
    have found := values {m₁ with mem := h.mem} rfl rfl (fun _ _ => rfl) _ member part inside
    rw [reloaded_part m₁ {m₁ with mem := h.mem} link saved rfl rfl (by omega) (fun _ _ => rfl)
      (parts_behind _ _ _ member part inside) counted.1] at found
    exact found.trans (image_kept at₂ ahead₂ behind (place_behind _ _ part inside))
  rw [List.map_congr_left stays,slow,source] at fast
  simp only [general_words,int_one one,int_one here,List.cons.injEq,and_true] at fast
  omega

theorem handlers_agree_iff (is_static : Bool) (signature : List NativeType) (general : General signature)
    (within : InReach is_static signature) : HandlersAgree is_static signature ↔ Compatible is_static signature := by
  refine ⟨fun agree => ?_,compatible_agree is_static signature general within⟩
  by_cases none : parameters is_static signature = []
  · refine ⟨fun _ => ?_,fun _ => ⟨.inl none,?_⟩⟩ <;> rw [none]
    · exact List.not_mem_nil
    · trivial
  · have some : 0 < parameterWords (parameters is_static signature) := by
      obtain ⟨t,rest,params⟩ := List.exists_cons_of_ne_nil none
      have words : 0 < t.words := by cases t <;> decide
      rw [params]
      simp only [parameterWords,List.map_cons,List.sum_cons]
      omega
    have entry := called_entry some
    have sized := called_sized within.small 0
    exact ⟨fun cpu => agree_ints cpu agree general within,fun cpu =>
      ⟨agree_enough cpu agree _ entry sized,agree_lined agree general _ entry sized⟩⟩

section
omit [Vm]

-- A receiver, three longs and two ints: the last long and the last int are on the stack.
theorem handlers_agree_mixed : letI := Vm.plain ppc32
    Compatible false [.long,.int,.long,.long,.int] ∧
      (HandlersAgree false [.long,.int,.long,.long,.int] ↔ Compatible false [.long,.int,.long,.long,.int]) := by
  let := Vm.plain ppc32
  exact ⟨by decide,handlers_agree_iff false [.long,.int,.long,.long,.int] (by decide) (in_reach false _ (by decide))⟩

theorem not_always_agree : ¬ ∀ (_ : Vm) (is_static : Bool) (signature : List NativeType), General signature →
    InReach is_static signature → HandlersAgree is_static signature := by
  intro always
  let := Vm.plain ppc64
  have within : InReach true [.int] := in_reach true _ (by decide)
  exact agree_ints rfl (always (Vm.plain ppc64) true [.int] (by decide) within) (by decide) within (by decide)

end
end IcedTea.InterpreterRuntime

import IcedTea.WhileLoop

namespace IcedTea.Jstack
open WhileLoop

-- The script's numbers.
abbrev Long := BitVec 64

-- The members that are read with @cast, and the two arrays whose start is taken.
inductive Member where
  | memory_low | memory_high | log2_segment_size | segmap_low | header_used | name | method | constMethod | constants
  | pool_holder | klass_name | body | length | name_index | signature_index | frame_size
  deriving DecidableEq, Repr

inductive Arch where
  | powerpc | other (ptr_mask : Long) (ptr_size : Long)

def Arch.ptr_size : Arch → Long
  | powerpc => 8
  | other _ size => size

def Arch.ptr_mask : Arch → Long
  | powerpc => BitVec.allOnes 64
  | other mask _ => mask

-- What the script sees of the process that is probed, and the functions it uses
-- on it. A symbol name, or the address for want of one, is some text.
structure Process where
  arch : Arch
  heap : Long
  cast_ : Member → Long → Long
  user_long : Long → Long
  user_char : Long → Long
  user_string : Long → String
  user_string_n : Long → Long → String
  usymname : Long → String
  usymname_text : ∀ a, usymname a ≠ ""
  constantPool_size : Long
  HeapBlock_Header_size : Long
  sp_register : Long
  fp_register : Long
  link_register : Long
  pc_register : Long

structure Mode where
  log_sig : Long
  log_native : Long
  print_frames : Long

variable (p : Process) (mode : Mode)

namespace Process
def CodeCache_low : Long := p.cast_ .memory_low p.heap
def CodeCache_high : Long := p.cast_ .memory_high p.heap
def CodeHeap_log2_segment_size : Long := p.cast_ .log2_segment_size p.heap
def CodeCache_segmap_low : Long := p.cast_ .segmap_low p.heap

-- Comparisons of the script are signed.
def generated (pc : Long) : Prop := p.CodeCache_low.sle pc = true ∧ pc.slt p.CodeCache_high = true
instance (pc : Long) : Decidable (p.generated pc) := inferInstanceAs (Decidable (_ ∧ _))
def tag (segment : Long) : Long := p.user_char (p.CodeCache_segmap_low + segment) &&& 0xff
end Process

-- The loop that looks for the first segment of a block.
structure Segments where
  segment : Long
  tag : Long
  segments : Nat

def Segments.more (s : Segments) : Prop := (0 : Long).slt s.tag = true ∧ s.segments < 16
def Segments.back (s : Segments) : Segments :=
  let segment := s.segment - s.tag
  ⟨segment,p.tag segment,s.segments+1⟩

def first_segment (pc : Long) : Segments :=
  let segment := (pc - p.CodeCache_low).sshiftRight (p.CodeHeap_log2_segment_size.toNat)
  ⟨segment,p.tag segment,0⟩

-- The text of a frame, whether its frame pointer can be trusted, and the size it
-- has at least.
structure Described where
  frame : String
  trust_fp : Bool
  frame_size : Long

def hex (x : Long) : String := String.ofList (Nat.toDigits 16 x.toNat)
def underscores (s : String) : String := s.map fun c => if c = ' ' then '_' else c

def symbol_text (symbol : Long) : String := p.user_string_n (p.cast_ .body symbol) (p.cast_ .length symbol)

-- A frame of generated code. The text of an unused block is written over.
def describe (pc fp block : Long) : Described :=
  let used := p.cast_ .header_used block
  let blob := block + p.HeapBlock_Header_size
  let name := p.cast_ .name blob
  let blob_name := if used ≠ 1 then "unused" else if name = 0 then "<unknown-code-blob>" else p.user_string name
  let methodPtr := if blob_name = "nmethod" then p.cast_ .method blob
    else p.user_long (fp + (-3)*p.arch.ptr_size) &&& p.arch.ptr_mask
  let constMethod := p.cast_ .constMethod methodPtr
  let constantPool := p.cast_ .constants constMethod
  let constantPool_base := constantPool + p.constantPool_size
  let klassSymbol := p.cast_ .klass_name (p.cast_ .pool_holder constantPool)
  let methodSymbol := p.user_long (constantPool_base + p.cast_ .name_index constMethod * p.arch.ptr_size)
  let sigSymbol := p.user_long (constantPool_base + p.cast_ .signature_index constMethod * p.arch.ptr_size)
  let sig := if mode.log_sig ≠ 0 then symbol_text p sigSymbol else ""
  let code_name := if mode.log_native ≠ 0 then "<" ++ underscores blob_name ++ "@0x" ++ hex pc ++ ">" else ""
  { frame := symbol_text p klassSymbol ++ "." ++ symbol_text p methodSymbol ++ sig ++ code_name
    trust_fp := used = 1 ∧ blob_name ≠ "nmethod"
    frame_size := if blob_name = "nmethod" then p.cast_ .frame_size blob else 0 }

structure State where
  pc : Long
  fp : Long
  sp : Long
  link : Long
  depth : Nat
  frames : String
  logged : List String

-- What one turn of the main loop finds the frame to be.
def Describes (s : State) (d : Described) : Prop :=
  if p.generated s.pc then
    ∃ n u, Turns Segments.more (fun s t => t = s.back p) n (first_segment p s.pc) u ∧
      d = describe p mode s.pc s.fp (p.CodeCache_low + u.segment <<< p.CodeHeap_log2_segment_size.toNat)
  else d = ⟨if mode.log_native ≠ 0 then p.usymname s.pc else "",true,0⟩

-- The next frame when frame pointers are being used.
def follow (s : State) : State :=
  match p.arch with
  | .powerpc =>
    let sp := p.user_long s.sp
    {s with sp := sp, fp := sp + 72, pc := s.link, link := p.user_long (sp + 16)}
  | .other _ ptr_size =>
    let fp := p.user_long s.fp
    {s with sp := s.fp, fp := fp, pc := p.user_long (fp + ptr_size)}

-- On powerpc the frame pointer never needs to be recovered.
def trusted (d : Described) : Bool := match p.arch with | .powerpc => true | .other _ _ => d.trust_fp

-- The scan of the stack for a frame that looks plausible.
structure Scan where
  i : Nat
  sp : Long
  fp : Long
  pc : Long

def max_stack_scan : Nat := 96

def Scan.more (old_fp : Long) (s : Scan) : Prop :=
  s.i < max_stack_scan ∧ (s.pc.slt p.CodeCache_low = true ∨ p.CodeCache_high.sle s.pc = true ∨ s.fp.sle old_fp = true)
def Scan.next (old_sp frame_size : Long) (s : Scan) : Scan :=
  let sp := old_sp + (frame_size + BitVec.ofNat 64 s.i)*p.arch.ptr_size
  let fp := p.user_long sp
  ⟨s.i+1,sp,fp,p.user_long (fp + p.arch.ptr_size)⟩

def State.put (s : State) (text : String) : State :=
  if mode.print_frames = 0 then {s with frames := s.frames ++ text} else {s with logged := s.logged ++ [text]}

def Recovers (d : Described) (old s t : State) : Prop :=
  if trusted p d then t = s
  else ∃ n u, Turns (Scan.more p old.fp) (fun a b => b = a.next p old.sp d.frame_size) n ⟨1,s.sp,s.fp,s.pc⟩ u ∧
    t = if u.i = max_stack_scan then
        {(s.put mode (if mode.print_frames = 0 then " <stack_lost>" else "<stack_lost>")) with
          sp := u.sp, fp := u.fp, pc := 0}
      else {s with sp := u.sp, fp := u.fp, pc := u.pc}

-- Only a frame with a text counts.
def report (d : Described) (s : State) : State :=
  if d.frame ≠ "" then
    let text := if mode.print_frames = 0 then (if s.depth ≠ 0 then " " else "") ++ d.frame else d.frame
    {(s.put mode text) with depth := s.depth+1}
  else s

def more (max_depth : Nat) (s : State) : Prop := s.pc ≠ 0 ∧ s.depth < max_depth

def body (s t : State) : Prop := ∃ d s', Describes p mode s d ∧ Recovers p mode d s (follow p s) s' ∧ t = report mode d s'

def start : State :=
  match p.arch with
  | .powerpc => ⟨p.pc_register,p.sp_register + 72,p.sp_register,p.link_register,0,"",[]⟩
  | .other _ _ => ⟨p.pc_register,p.fp_register,p.sp_register,p.link_register,0,"",[]⟩

-- jstack_call once the machine is initialised, with the number of turns of its loop.
def JstackCall (max_depth : Nat) (n : Nat) (result : State) : Prop :=
  ∃ s, Turns (more max_depth) (body p mode) n (start p) s ∧
    result = if s.depth = max_depth then
        s.put mode (if mode.print_frames = 0 then " <stack_truncated>" else "<stack_truncated>")
      else s

theorem segments_stop (s : Segments) : StopsWithin Segments.more (fun s t => t = s.back p) (16 - s.segments) s := by
  refine stops_of_variant (fun s : Segments => 16 - s.segments) ?_ ?_ s
  · exact fun s _ => ⟨_,rfl⟩
  · rintro s t goes_on rfl
    have less := goes_on.2
    change 16 - (s.segments+1) < 16 - s.segments
    omega

theorem scan_stops (old_fp old_sp frame_size : Long) (s : Scan) :
    StopsWithin (Scan.more p old_fp) (fun s t => t = s.next p old_sp frame_size) (max_stack_scan - s.i) s := by
  refine stops_of_variant (fun s : Scan => max_stack_scan - s.i) ?_ ?_ s
  · exact fun s _ => ⟨_,rfl⟩
  · rintro s t goes_on rfl
    have less := goes_on.1
    change max_stack_scan - (s.i+1) < max_stack_scan - s.i
    omega

theorem describes_total (s : State) : ∃ d, Describes p mode s d := by
  unfold Describes
  split
  · obtain ⟨n,_,u,turns⟩ := segments_stop p (first_segment p s.pc)
    exact ⟨_,n,u,turns,rfl⟩
  · exact ⟨_,rfl⟩

theorem recovers_total (d : Described) (old s : State) : ∃ t, Recovers p mode d old s t := by
  unfold Recovers
  split
  · exact ⟨s,rfl⟩
  · obtain ⟨n,_,u,turns⟩ := scan_stops p old.fp old.sp d.frame_size ⟨1,s.sp,s.fp,s.pc⟩
    exact ⟨_,n,u,turns,rfl⟩

-- Every turn of the main loop comes to its end, the loops in it included.
theorem body_total (s : State) : ∃ t, body p mode s t := by
  obtain ⟨d,described⟩ := describes_total p mode s
  obtain ⟨s',recovered⟩ := recovers_total p mode d s (follow p s)
  exact ⟨_,d,s',described,recovered,rfl⟩

theorem put_depth (s : State) (text : String) : (s.put mode text).depth = s.depth := by
  unfold State.put
  split <;> rfl

theorem start_depth : (start p).depth = 0 := by
  unfold start
  split <;> rfl

theorem follow_depth (s : State) : (follow p s).depth = s.depth := by
  unfold follow
  split <;> rfl

theorem recovers_depth {d : Described} {old s t : State} (recovered : Recovers p mode d old s t) : t.depth = s.depth := by
  unfold Recovers at recovered
  split at recovered
  · rw [recovered]
  · obtain ⟨n,u,-,rfl⟩ := recovered
    split
    · exact put_depth mode s _
    · rfl

theorem report_depth (d : Described) (s : State) : (report mode d s).depth = s.depth + if d.frame = "" then 0 else 1 := by
  unfold report
  by_cases silent : d.frame = ""
  · rw [if_neg (not_not.mpr silent),if_pos silent]
    rfl
  · rw [if_pos silent,if_neg silent]

-- A generated frame has a dot in its text.
theorem describe_text (pc fp block : Long) : (describe p mode pc fp block).frame ≠ "" := by
  intro empty
  have letters := congrArg String.toList empty
  simp [describe] at letters

-- A frame is counted unless it is native and native frames are not logged.
theorem describes_text {s : State} {d : Described} (described : Describes p mode s d) :
    d.frame = "" ↔ ¬ p.generated s.pc ∧ mode.log_native = 0 := by
  unfold Describes at described
  split at described
  · rename_i generated
    obtain ⟨n,u,-,rfl⟩ := described
    exact iff_of_false (describe_text p mode _ _ _) fun silent => silent.1 generated
  · rename_i native
    rw [described]
    by_cases logs : mode.log_native = 0
    · simp only [logs,ne_eq,not_true_eq_false,if_false,native,not_false_eq_true,and_self]
    · simp only [logs,ne_eq,not_false_eq_true,if_true,and_false,iff_false]
      exact p.usymname_text s.pc

theorem body_depth {s t : State} (turn : body p mode s t) :
    t.depth = s.depth + if ¬ p.generated s.pc ∧ mode.log_native = 0 then 0 else 1 := by
  obtain ⟨d,s',described,recovered,rfl⟩ := turn
  rw [report_depth,recovers_depth p mode recovered,follow_depth]
  simp only [describes_text p mode described]

-- With native frames logged every turn counts.
theorem main_stops (logs : mode.log_native ≠ 0) (max_depth : Nat) (s : State) :
    StopsWithin (more max_depth) (body p mode) (max_depth - s.depth) s := by
  refine stops_of_variant (fun s : State => max_depth - s.depth) ?_ ?_ s
  · exact fun s _ => body_total p mode s
  · intro s t goes_on turn
    have counted := body_depth p mode turn
    rw [if_neg fun silent => logs silent.2] at counted
    have less := goes_on.2
    change max_depth - t.depth < max_depth - s.depth
    omega

-- Such a call ends, and no call reports more frames than it is asked for.
theorem jstack_call_ends (logs : mode.log_native ≠ 0) (max_depth : Nat) :
    ∃ n ≤ max_depth, ∃ result, JstackCall p mode max_depth n result := by
  obtain ⟨n,few,s,turns⟩ := main_stops p mode logs max_depth (start p)
  exact ⟨n,Nat.le_trans few (Nat.sub_le _ _),_,s,turns,rfl⟩

theorem jstack_call_depth (call : JstackCall p mode max_depth n result) : result.depth ≤ max_depth := by
  obtain ⟨s,turns,rfl⟩ := call
  have depth : s.depth ≤ max_depth := by
    refine turns.preserves (fun s => s.depth ≤ max_depth) ?_ (by rw [start_depth]; exact Nat.zero_le _)
    intro s t goes_on turn _
    have counted := body_depth p mode turn
    have less := goes_on.2
    change t.depth ≤ max_depth
    split at counted <;> omega
  split
  · rw [put_depth]
    exact depth
  · exact depth

-- A process outside generated code whose frames all lead to themselves.
def lost (arch : Arch) : Process where
  arch := arch
  heap := 0
  cast_ _ _ := 0
  user_long _ := 1
  user_char _ := 0
  user_string _ := ""
  user_string_n _ _ := ""
  usymname _ := "0x1"
  usymname_text _ := by decide
  constantPool_size := 0
  HeapBlock_Header_size := 0
  sp_register := 1
  fp_register := 1
  link_register := 1
  pc_register := 1

theorem lost_native (arch : Arch) (pc : Long) : ¬ (lost arch).generated pc := by
  rintro ⟨low,high⟩
  change (0 : Long).sle pc = true at low
  change pc.slt 0 = true at high
  simp only [BitVec.sle,BitVec.slt,decide_eq_true_eq] at low high
  omega

theorem lost_never_stops (arch : Arch) (silent : mode.log_native = 0) (n : Nat) (u : State) :
    ¬ Turns (more 1) (body (lost arch) mode) n (start (lost arch)) u := by
  apply never_stops fun s => s.pc = 1 ∧ s.link = 1 ∧ s.depth = 0
  · rintro s ⟨pc,-,depth⟩
    refine ⟨?_,?_⟩
    · rw [pc]
      decide
    · rw [depth]
      exact Nat.one_pos
  · rintro s t ⟨pc,link,depth⟩ turn
    have counted := body_depth (lost arch) mode turn
    rw [if_pos ⟨lost_native arch s.pc,silent⟩,depth] at counted
    obtain ⟨d,s',described,recovered,rfl⟩ := turn
    have empty := (describes_text (lost arch) mode described).mpr ⟨lost_native arch s.pc,silent⟩
    have trust : d.trust_fp = true := by
      unfold Describes at described
      rw [if_neg (lost_native arch s.pc)] at described
      rw [described]
    have same : s' = follow (lost arch) s := by
      unfold Recovers at recovered
      have trusts : trusted (lost arch) d = true := by
        unfold trusted
        split
        · rfl
        · exact trust
      rwa [if_pos trusts] at recovered
    have quiet : report mode d s' = s' := if_neg (not_not.mpr empty)
    rw [quiet] at counted ⊢
    rw [same] at counted ⊢
    refine ⟨?_,?_,counted⟩
    · cases arch with
      | powerpc => exact link
      | other mask size => rfl
    · cases arch with
      | powerpc => rfl
      | other mask size => exact link
  · cases arch <;> exact ⟨rfl,rfl,rfl⟩

-- On an architecture the number of turns depends on nothing but the limit, and the
-- loops inside stop.
def Bounded (arch : Arch) : Prop := ∃ bound : Nat → Nat, ∀ (p : Process) (max_depth : Nat), p.arch = arch →
  StopsWithin (more max_depth) (body p mode) (bound max_depth) (start p) ∧
  ∀ s : State, StopsWithin Segments.more (fun s t => t = s.back p) 16 (first_segment p s.pc) ∧
    ∀ frame_size i_sp i_fp i_pc, StopsWithin (Scan.more p s.fp) (fun a b => b = a.next p s.sp frame_size) max_stack_scan
      ⟨1,i_sp,i_fp,i_pc⟩

theorem not_bounded (arch : Arch) (silent : mode.log_native = 0) : ¬ Bounded mode arch := by
  rintro ⟨bound,bounded⟩
  obtain ⟨n,-,u,turns⟩ := (bounded (lost arch) 1 rfl).1
  exact lost_never_stops mode arch silent n u turns

theorem bounded (arch : Arch) (logs : mode.log_native ≠ 0) : Bounded mode arch := by
  refine ⟨fun max_depth => max_depth,fun p max_depth _ => ⟨?_,fun s => ⟨?_,fun frame_size sp fp pc => ?_⟩⟩⟩
  · have stops := main_stops p mode logs max_depth (start p)
    rw [start_depth,Nat.sub_zero] at stops
    exact stops
  · exact segments_stop p (first_segment p s.pc)
  · exact (scan_stops p s.fp s.sp frame_size ⟨1,sp,fp,pc⟩).mono (Nat.sub_le _ _)

-- The frame limit bounds the walk when native frames are logged, and only then.
theorem bounded_iff (arch : Arch) : Bounded mode arch ↔ mode.log_native ≠ 0 :=
  ⟨fun all silent => not_bounded mode arch silent all,bounded mode arch⟩

-- The mode of print_jstack.
theorem print_jstack_not_bounded : ¬ Bounded ⟨0,0,1⟩ (.other (BitVec.allOnes 64) 8) := not_bounded _ _ rfl

end IcedTea.Jstack

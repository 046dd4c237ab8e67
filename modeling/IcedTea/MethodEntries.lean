import IcedTea.NativeMethod
import IcedTea.FastEntries

namespace IcedTea

class Entries extends NativeMethod.NativeCode, CppInterpreter.FastCode

namespace MethodEntries
open CppInterpreter Vm Code Activation
open NativeMethod (OffThread CCall native_returned)
open StubGenerator (Called stub_entry)

variable [Entries]

def Fits (as : List Activation) (m : Machine) : Prop :=
  m.read (m.gpr Rthread + pending_exception_offset) = 0 → ∃ t, result_type m = some t ∧
    ∀ b rest, as = b :: rest → b.field m .stack_limit ≤ m.gpr Rlocals - result_words t * wordSize

-- Runs in which every callee is code that generate_method_entry has for it: the
-- frame manager, the native entry, or a fast entry that returns or takes the slow
-- path, which is a run of the frame manager again.
inductive Runs : Entry → Manager → Prop where
  | entered {e : Entry} : Runs e (entered e)
  | own {e : Entry} {s s' : Manager} (run : Runs e s) (here : ∀ as p m, s ≠ ⟨as,.call_non_interpreted_method p m⟩)
      (stepped : Step e s s') : Runs e s'
  | native {e : Entry} {as : List Activation} {p : Int} {m m' : Machine} (run : Runs e ⟨as,.call_non_interpreted_method p m⟩)
      (native : NativeMethod.Steps e (callers_words e.outer (m.gpr r1) as) m ⟨.entry,m⟩ ⟨.returned,m'⟩) (fits : Fits as m') :
      Runs e ⟨as,.callee_returned p m'⟩
  | fast {e : Entry} {as : List Activation} {p : Int} {m m' : Machine} (run : Runs e ⟨as,.call_non_interpreted_method p m⟩)
      (entry : FastEntry) (code : entry.code m = .blr m') (fits : Fits as m') : Runs e ⟨as,.callee_returned p m'⟩
  | slow {e : Entry} {as as' : List Activation} {p : Int} {m m₁ m' : Machine} (run : Runs e ⟨as,.call_non_interpreted_method p m⟩)
      (entry : FastEntry) (code : entry.code m = .slow_path m₁) (covered : size_of_parameters m₁ ≤ size_of_locals m₁)
      (inner : Runs (nested e as m₁) ⟨as',.blr m'⟩) (fits : Fits as m') : Runs e ⟨as,.callee_returned p m'⟩

variable {e : Entry} {s s' : Manager} {as as' : List Activation} {p : Int} {m m₁ m' : Machine}

-- Each such callee does what the frame manager expects of it, the last one by a run
-- of the frame manager.
theorem native_step (ready : e.Ready) (off : OffThread e) (run : Steps e (entered e) ⟨as,.call_non_interpreted_method p m⟩)
    (native : NativeMethod.Steps e (callers_words e.outer (m.gpr r1) as) m ⟨.entry,m⟩ ⟨.returned,m'⟩) (fits : Fits as m') :
    Step e ⟨as,.call_non_interpreted_method p m⟩ ⟨as,.callee_returned p m'⟩ := by
  cases reached_good ready run with
  | call_non_interpreted_method calling positive parameters address => exact .callee (native_returned ready off calling native fits).2

theorem fast_step (ready : e.Ready) (run : Steps e (entered e) ⟨as,.call_non_interpreted_method p m⟩) (entry : FastEntry)
    (code : entry.code m = .blr m') (fits : Fits as m') : Step e ⟨as,.call_non_interpreted_method p m⟩ ⟨as,.callee_returned p m'⟩ := by
  cases reached_good ready run with
  | call_non_interpreted_method calling positive parameters address =>
    exact .callee (fast_entry_returned ready calling parameters entry (by rw [code]; exact .fast) fits).2

theorem slow_step (ready : e.Ready) (off : OffThread e) (run : Steps e (entered e) ⟨as,.call_non_interpreted_method p m⟩) (entry : FastEntry)
    (code : entry.code m = .slow_path m₁) (covered : size_of_parameters m₁ ≤ size_of_locals m₁)
    (inner : (nested e as m₁).Ready → OffThread (nested e as m₁) → Steps (nested e as m₁) (entered (nested e as m₁)) ⟨as',.blr m'⟩)
    (fits : Fits as m') : Step e ⟨as,.call_non_interpreted_method p m⟩ ⟨as,.callee_returned p m'⟩ := by
  cases reached_good ready run with
  | @call_non_interpreted_method rest _ _ b calling positive parameters address =>
    have quiet := fast_entry_quiet entry (by rw [code]; rfl)
    have waiting := quiet_calling quiet calling
    have thread : (nested e (b :: rest) m₁).machine.gpr Rthread = e.machine.gpr Rthread := waiting.thread
    have further := inner (nested_ready ready waiting ((quiet_sizes quiet).1.trans parameters) covered)
      ⟨by rw [thread]; exact off.thread_state,off.page⟩
    exact .callee (fast_entry_returned ready calling parameters entry (by rw [code]; exact .slow covered further) fits).2

-- The runs are runs of the frame manager with callees that do what it expects of them.
theorem runs_steps (run : Runs e s) (ready : e.Ready) (off : OffThread e) : Steps e (entered e) s := by
  induction run with
  | entered => exact .refl
  | own run here stepped ih => exact .tail (ih ready off) stepped
  | native run native fits ih => exact .tail (ih ready off) (native_step ready off (ih ready off) native fits)
  | fast run entry code fits ih => exact .tail (ih ready off) (fast_step ready (ih ready off) entry code fits)
  | slow run entry code covered inner fits ih ih_inner =>
    exact .tail (ih ready off) (slow_step ready off (ih ready off) entry code covered ih_inner fits)

-- How a run goes on.
inductive MethodStep (e : Entry) : Manager → Manager → Prop where
  | own {s s' : Manager} (here : ∀ as p m, s ≠ ⟨as,.call_non_interpreted_method p m⟩) (stepped : Step e s s') : MethodStep e s s'
  | native {as : List Activation} {p : Int} {m m' : Machine}
      (native : NativeMethod.Steps e (callers_words e.outer (m.gpr r1) as) m ⟨.entry,m⟩ ⟨.returned,m'⟩) (fits : Fits as m') :
      MethodStep e ⟨as,.call_non_interpreted_method p m⟩ ⟨as,.callee_returned p m'⟩
  | fast {as : List Activation} {p : Int} {m m' : Machine} (entry : FastEntry) (code : entry.code m = .blr m') (fits : Fits as m') :
      MethodStep e ⟨as,.call_non_interpreted_method p m⟩ ⟨as,.callee_returned p m'⟩
  | slow {as as' : List Activation} {p : Int} {m m₁ m' : Machine} (entry : FastEntry) (code : entry.code m = .slow_path m₁)
      (covered : size_of_parameters m₁ ≤ size_of_locals m₁) (inner : Runs (nested e as m₁) ⟨as',.blr m'⟩) (fits : Fits as m') :
      MethodStep e ⟨as,.call_non_interpreted_method p m⟩ ⟨as,.callee_returned p m'⟩

theorem MethodStep.run (run : Runs e s) (next : MethodStep e s s') : Runs e s' := by
  cases next with
  | own here stepped => exact .own run here stepped
  | native native fits => exact .native run native fits
  | fast entry code fits => exact .fast run entry code fits
  | slow entry code covered inner fits => exact .slow run entry code covered inner fits

theorem method_step (ready : e.Ready) (off : OffThread e) (run : Runs e s) (next : MethodStep e s s') : Step e s s' := by
  have steps := runs_steps run ready off
  cases next with
  | own here stepped => exact stepped
  | native native fits => exact native_step ready off steps native fits
  | fast entry code fits => exact fast_step ready steps entry code fits
  | slow entry code covered inner fits =>
    exact slow_step ready off steps entry code covered (fun ready off => runs_steps inner ready off) fits

-- Whatever methods call each other, by whichever entries and at any depth: a run can
-- only go on by a step of the stack of calls or one that leaves the stack as it is,
-- and it is left only for the entry's caller, with everything as it was.
theorem methods_refine (ready : e.Ready) (off : OffThread e) (run : Runs e s) :
    (∀ s', MethodStep e s s' → Runs e s' ∧ (view s' = view s ∨ CallStack.Step calls (view s) (view s'))) ∧
      ∀ as m, s = ⟨as,.blr m⟩ → as = [] ∧ Left e m := by
  have steps := runs_steps run ready off
  refine ⟨fun s' next => ⟨next.run run,(manager_shows ready).steps (reached_good ready steps) (method_step ready off run next)⟩,fun as m left => ?_⟩
  subst left
  cases reached_good ready steps with
  | blr left => exact ⟨rfl,left⟩

-- A function that is called by C has to keep to the ABI, and the call stub does:
-- native methods may call back.
theorem stub_keeps_abi {m m₂ : Machine} {older words : List Int} {low high : Int} {as : List Activation} {t t' : SharedRuntime.BasicType}
    (called : Called m older low high) (off : OffThread (stub_entry m older low high))
    (run : Runs (stub_entry m older low high) ⟨as,.blr m₂⟩) (handled : stub_type t = some t') (type : m.gpr r5 = StubRoutines.type_code t')
    (apart : m.gpr r1 + frame_header ≤ m.gpr r4)
    (kept : ∀ w ∈ words, w ∈ older ∧ (w + wordSize ≤ m.gpr r4 ∨ m.gpr r4 + StubGenerator.result_size t' ≤ w)) :
    ∃ m', StubGenerator.call_stub_return m₂ = some m' ∧ m'.lr = m.lr ∧ CCall words m m' := by
  have ready := StubGenerator.stub_entry_ready called
  cases reached_good ready (runs_steps run ready off) with
  | blr left =>
    obtain ⟨_,m',returned,restored,same,_⟩ := StubGenerator.stub_returned called left handled type apart
    refine ⟨m',returned,restored.return_address,⟨fun r register => ?_,fun c field => ?_,restored.back_chain,fun w member => ?_⟩⟩
    · rcases register with rfl|⟨least,less⟩
      · exact restored.stack
      · exact restored.registers r least less
    · exact restored.cr c (by rcases field with rfl|rfl <;> decide)
    · obtain ⟨above,away⟩ := kept w member
      exact same w above away

@[reducible] def Entries.plain : Entries := {NativeMethod.NativeCode.plain,FastCode.plain with}

-- The method returns an int to C code that has words of its own on the stack.
omit [Entries] in
theorem stub_keeps_abi_int : letI := Entries.plain
    ∃ m', StubGenerator.call_stub_return (returned_int StubGenerator.int_below) = some m' ∧ m'.lr = StubGenerator.int_caller.lr ∧
      CCall [0x2300] StubGenerator.int_caller m' := by
  let := Entries.plain
  have below : Step StubGenerator.int_caller_entry (entered StubGenerator.int_caller_entry)
    ⟨(entered StubGenerator.int_caller_entry).activations,.interpreter_returned StubGenerator.int_below⟩ := StubGenerator.returns_below
  have out : Step StubGenerator.int_caller_entry
    ⟨(entered StubGenerator.int_caller_entry).activations,.interpreter_returned StubGenerator.int_below⟩
    ⟨[],.blr (returned_int StubGenerator.int_below)⟩ := StubGenerator.returns_out
  have off : OffThread StubGenerator.int_caller_entry :=
    ⟨.inr (by decide),fun i low _ => .inr (by change (0x3000 : Int) ≤ 0x10000 + i; omega)⟩
  have run : Runs StubGenerator.int_caller_entry ⟨[],.blr (returned_int StubGenerator.int_below)⟩ :=
    .own (.own .entered (fun _ _ _ same => nomatch same) below) (fun _ _ _ same => nomatch same) out
  refine stub_keeps_abi (t := .T_INT) StubGenerator.int_caller_called off run rfl rfl (by decide) fun w member => ⟨member,.inr ?_⟩
  rw [List.mem_singleton.mp member]
  decide

def getting_field : Manager := ⟨(entered getter_entry).activations,.call_non_interpreted_method 1 called_getter⟩
def gotten_field : Manager := ⟨(entered getter_entry).activations,.callee_returned 1 got_field⟩

-- A caller that waits for a getter goes on with the field.
omit [Entries] in
theorem methods_refine_getter : letI := Entries.plain
    Runs getter_entry getting_field ∧ Runs getter_entry gotten_field ∧
      (view gotten_field = view getting_field ∨ CallStack.Step calls (view getting_field) (view gotten_field)) := by
  let := Entries.plain
  have asked : Runs getter_entry ⟨(entered getter_entry).activations,.interpreter_returned asked_getter⟩ :=
    .own .entered (fun _ _ _ same => nomatch same) asks_for_getter
  have called : Runs getter_entry getting_field := .own asked (fun _ _ _ same => nomatch same) getter_called
  have next : MethodStep getter_entry getting_field gotten_field := by
    refine .fast .accessor getter_fast fun _ => ⟨.T_INT,by decide,fun b rest same => ?_⟩
    obtain ⟨rfl,rfl⟩ := List.cons.inj same
    decide
  have off : OffThread getter_entry := ⟨.inr (by decide),fun i low _ => .inr (by change (0x2000 : Int) ≤ 0x10000 + i; omega)⟩
  exact ⟨called,(methods_refine getter_ready off called).1 gotten_field next⟩
end MethodEntries
end IcedTea

import RegisterTransfer.Proofs.Independence
import RegisterTransfer.Proofs.PowerPC.Translation
import RegisterTransfer.Proofs.SingleAssignment

/-!
# Temporaries of lifted blocks

A block is lifted from one count of temporaries to another: each instruction takes the numbers from
where the one before it left off. So the output assigns every temporary once, and its programs run
the same whatever temporaries held before.

> `Codes.single`: each code of a block is in single assignment.
> `Codes.written`: together they write the temporaries taken, in order.
> `temporaries_are_disciplined`: temporaries are written once, and read where they are written.
-/

namespace RegisterTransfer

namespace SingleAssignment

variable {first count : Nat} {code : List Instruction}

/-- A temporary is nowhere made undefined. -/
theorem selfContained (h : SingleAssignment first count code) :
    Program.Tiled.SelfContained code where
  dominated := h.dominated
  defined {i name} mem undefines kind := by
    cases temporary : isTemporary name with
    | false => rfl
    | true =>
      have third : i.operand .third = .register name i.op3.width := Operand.eq_register kind
      rcases h.used mem third temporary with reads | ⟨-, writes⟩
      · rw [undefines] at reads
        cases reads
      · rw [undefines] at writes
        cases writes

end SingleAssignment

/-- Assembled codes tile their program. -/
theorem tiled_of_flatten {C : List Instruction → Prop} {codes : List (List Instruction)}
    {p : Program} (assembled : Program.ofList codes.flatten = .ok p)
    (all : ∀ code ∈ codes, ∃ native, Consecutive native code ∧ Enclosed native code ∧ C code) :
    p.Tiled C := by
  have consecutive : ∀ code ∈ codes, ∃ native, Consecutive native code := fun code mem =>
    let ⟨native, h, _⟩ := all code mem
    ⟨native, h⟩
  refine ⟨grounded_of_flatten assembled consecutive, fun {a} there => ?_⟩
  obtain ⟨code, mem, at_a⟩ := contains_of_flatten assembled consecutive there
  obtain ⟨native, h, enclosed, tile⟩ := all code mem
  obtain ⟨i, inside, address⟩ := h.head
  have same : native = a.native := by
    rw [← at_a.mem_address inside, address]
    rfl
  exact ⟨code, at_a.placed assembled consecutive mem, same ▸ enclosed, tile⟩

theorem Program.Tiled.imp {p : Program} {C D : List Instruction → Prop} (h : p.Tiled C)
    (weaken : ∀ {code}, C code → D code) : p.Tiled D where
  grounded := h.grounded
  tile there := by
    obtain ⟨code, placed, enclosed, tile⟩ := h.tile there
    exact ⟨code, placed, enclosed, weaken tile⟩

namespace PowerPC

open Script

/-! ## The codes of a block -/

theorem annotated_blank (count : Nat) (n : NativeInstruction) :
    (blank count n).Annotated count (opening count) fun _ => [] where
  start := rfl
  here := rfl
  reads at_k := by simp [blank] at at_k
  fall at_k := by simp [blank] at at_k
  arrive at_k := by simp [blank] at at_k
  wait at_k := by simp [blank] at at_k
  written := by simp [blank, opening]
  count := Nat.le_refl _

namespace Expands

variable {count : Nat} {n : NativeInstruction} {operation : Operation} {X : Expansion}
  {code : List Instruction}

/-- An expansion annotates the scope that its script leads to, with the temporaries held there. -/
theorem annotated (h : Expands count n operation X code) :
    ∃ Γ held, X.environment.temporaries = Γ.count ∧ X.Annotated count Γ held :=
  (h.lockstep count 0).annotates (describes_blank count 0 n) (by simp [Expansion.Bounded, blank])
    (annotated_blank count n) h.ran

/-- The code of an instruction takes the temporaries up to where its expansion stopped counting. -/
theorem single (h : Expands count n operation X code) :
    count ≤ X.environment.temporaries ∧
      SingleAssignment count (X.environment.temporaries - count) code := by
  obtain ⟨Γ, held, last, annotated⟩ := h.annotated
  rw [last]
  exact ⟨annotated.count, annotated.single h.finished⟩

/-- Jumps inside the code of an instruction stay inside. -/
theorem enclosed (h : Expands count n operation X code) : Enclosed n.address code := by
  obtain ⟨Γ, held, -, annotated⟩ := h.annotated
  exact h.native ▸ annotated.enclosed h.finished

end Expands

/-- The codes of a block, each lifted from where the one before it stopped counting temporaries. -/
inductive Codes : Nat → List NativeInstruction → List (List Instruction) → Nat → Prop
  | nil {count} : Codes count [] [] count
  | cons {count n operation X code block codes last} (first : Expands count n operation X code)
    (rest : Codes X.environment.temporaries block codes last) :
    Codes count (n :: block) (code :: codes) last

namespace Codes

variable {count last : Nat} {block : List NativeInstruction} {codes : List (List Instruction)}

/-- Each code is that of its instruction. -/
theorem lifts (h : Codes count block codes last) :
    List.Forall₂ (registry.Lifts (some cpu)) block codes := by
  induction h with
  | nil => exact .nil
  | @cons count n operation X code block codes last first rest ih =>
    exact .cons ⟨count, translate_eq_ok_iff.2 ⟨operation, X, first⟩⟩ ih

/-- Each code sits at the address of its instruction, and is in single assignment. -/
theorem single (h : Codes count block codes last) : ∀ code ∈ codes, ∃ native,
    Consecutive native code ∧ Enclosed native code ∧ ∃ j k, SingleAssignment j k code := by
  induction h with
  | nil => exact nofun
  | @cons count n operation X code block codes last first rest ih =>
    intro other mem
    rcases List.mem_cons.1 mem with rfl | mem
    · exact ⟨n.address, first.consecutive first.written, first.enclosed, _, _, first.single.2⟩
    · exact ih other mem

/-- Together the codes write the temporaries that were taken, in order. -/
theorem written (h : Codes count block codes last) :
    count ≤ last ∧ codes.flatten.filterMap (·.temporary?) =
      (List.range' count (last - count)).map temporaryName := by
  induction h with
  | nil => simp
  | @cons count n operation X code block codes last first rest ih =>
    obtain ⟨le, single⟩ := first.single
    obtain ⟨le', others⟩ := ih
    have split : last - count =
        (X.environment.temporaries - count) + (last - X.environment.temporaries) := by omega
    have middle : count + (X.environment.temporaries - count) = X.environment.temporaries := by
      omega
    refine ⟨Nat.le_trans le le', ?_⟩
    rw [List.flatten_cons, List.filterMap_append, single.written, others, split, ← List.map_append,
      ← List.range'_append_1, middle]

/-- The temporaries that occur are those that were taken. -/
theorem occurs_iff (h : Codes count block codes last) {name : String}
    (temporary : isTemporary name) :
    (∃ i ∈ codes.flatten, ∃ slot w, i.operand slot = .register name w) ↔
      ∃ n, count ≤ n ∧ n < last ∧ name = temporaryName n := by
  obtain ⟨le, written⟩ := h.written
  have taken : name ∈ codes.flatten.filterMap (·.temporary?) ↔
      ∃ n, count ≤ n ∧ n < last ∧ name = temporaryName n := by
    rw [written, List.mem_map]
    constructor
    · intro found
      obtain ⟨n, mem, same⟩ := found
      rw [List.mem_range'_1] at mem
      exact ⟨n, mem.1, by omega, same.symm⟩
    · intro found
      obtain ⟨n, above, below, same⟩ := found
      exact ⟨n, List.mem_range'_1.2 ⟨above, by omega⟩, same.symm⟩
  rw [← taken, List.mem_filterMap]
  constructor
  · intro occurs
    obtain ⟨i, mem, slot, w, named⟩ := occurs
    obtain ⟨code, mem', inside⟩ := List.mem_flatten.1 mem
    obtain ⟨native, -, -, first, taken, single⟩ := h.single code mem'
    -- what occurs is written in the same code
    obtain ⟨j, mem_j, writes⟩ := List.mem_filterMap.1 (single.mem_written inside named temporary)
    exact ⟨j, List.mem_flatten.2 ⟨code, mem', mem_j⟩, writes⟩
  · intro written
    obtain ⟨i, mem, writes⟩ := written
    obtain ⟨-, w, writes⟩ := Instruction.temporary?_eq_some_iff.1 writes
    exact ⟨i, mem, .third, w, writes.2⟩

/-- One instruction writes each temporary that was taken. -/
theorem written_once (h : Codes count block codes last) {n : Nat} (above : count ≤ n)
    (below : n < last) :
    ∃! k : Nat, ∃ i w, codes.flatten[k]? = some i ∧ i.Writes (temporaryName n) w := by
  obtain ⟨le, written⟩ := h.written
  have mem : temporaryName n ∈ codes.flatten.filterMap (·.temporary?) := by
    rw [written]
    exact List.mem_map_of_mem (List.mem_range'_1.2 ⟨above, by omega⟩)
  have apart : (codes.flatten.filterMap (·.temporary?)).Nodup :=
    written ▸ SingleAssignment.nodup_names _ _
  refine (existsUnique_congr fun k => exists_congr fun i => ?_).1
    (existsUnique_of_mem_filterMap apart mem)
  simp only [Instruction.temporary?_eq_some_iff, isTemporary_temporaryName, true_and,
    exists_and_left]

/-- The assembled program is tiled by codes in single assignment. -/
theorem tiled (h : Codes count block codes last) {p : Program}
    (assembled : Program.ofList codes.flatten = .ok p) :
    p.Tiled fun code => ∃ first taken, SingleAssignment first taken code :=
  tiled_of_flatten assembled h.single

end Codes

/-- A script leaves an environment for the same processor. -/
theorem Expands.environment {count : Nat} {n : NativeInstruction} {operation : Operation}
    {X : Expansion} {code : List Instruction} (h : Expands count n operation X code) :
    X.environment = ⟨some cpu, X.environment.temporaries⟩ := by
  have kept : X.environment.cpu = some cpu := by
    have := cpu_run (operation.expand n.mnemonic n.address) (blank count n)
    rwa [h.ran] at this
  rw [← kept]

/-- What is lifted one after the other are the codes of the block. -/
theorem translateAll_eq_ok_iff {block : List NativeInstruction} {count : Nat} {s s' : Session}
    (known : s.environment = ⟨some cpu, count⟩) :
    s.translateAll registry block = (.ok (), s') ↔
      ∃ codes last, s' = ⟨⟨some cpu, last⟩, s.output ++ codes.flatten⟩ ∧
        Codes count block codes last := by
  induction block generalizing s count with
  | nil =>
    constructor
    · intro ran
      cases ran
      exact ⟨[], count, by rw [← known, List.flatten_nil, List.append_nil], .nil⟩
    · intro found
      obtain ⟨codes, last, rfl, all⟩ := found
      cases all
      rw [Session.translateAll, ← known, List.flatten_nil, List.append_nil]
  | cons n rest ih =>
    rw [Session.translateAll, Session.translate, known]
    constructor
    · intro ran
      cases lifted : registry.translate ⟨some cpu, count⟩ n with
      | mk result e =>
        rw [lifted] at ran
        cases result with
        | error error => cases ran
        | ok code =>
          obtain ⟨operation, X, expands⟩ :=
            translate_eq_ok_iff.1 (congrArg Prod.fst lifted)
          rw [expands.translate] at lifted
          cases lifted
          obtain ⟨codes, last, rfl, others⟩ := (ih expands.environment).1 ran
          exact ⟨code :: codes, last, by rw [List.flatten_cons, List.append_assoc],
            .cons expands others⟩
    · intro found
      obtain ⟨codes, last, rfl, all⟩ := found
      cases all with
      | @cons _ _ operation X code _ codes _ first others =>
        rw [first.translate]
        refine (ih first.environment).2 ⟨codes, last, ?_, others⟩
        rw [List.flatten_cons, List.append_assoc]

/-- What a block is lifted to are the codes of its instructions, one after the other. -/
theorem translateBlock_eq_ok_iff {block : List NativeInstruction} {out : List Instruction}
    {count : Nat} {e : Environment} :
    registry.translateBlock ⟨some cpu, count⟩ block = (.ok out, e) ↔
      ∃ codes last, out = codes.flatten ∧ e = ⟨some cpu, last⟩ ∧
        Codes count block codes last := by
  rw [Registry.translateBlock]
  constructor
  · intro translated
    cases ran : Session.translateAll ⟨⟨some cpu, count⟩, []⟩ registry block with
    | mk result s =>
      rw [ran] at translated
      cases result with
      | error error => cases translated
      | ok _ =>
        cases translated
        obtain ⟨codes, last, rfl, all⟩ := (translateAll_eq_ok_iff rfl).1 ran
        exact ⟨codes, last, rfl, rfl, all⟩
  · intro found
    obtain ⟨codes, last, rfl, rfl, all⟩ := found
    rw [(translateAll_eq_ok_iff rfl).2 ⟨codes, last, rfl, all⟩]
    rfl

/--
A block that takes the temporaries from `first` on, `taken` of them. These are the temporaries that
occur; one instruction writes each; and every other occurrence is a read in the same code, further
on, at the width of the write, which is on every path there. Hence no run of the assembled program
reads a temporary before it has written it, and what temporaries held before changes nothing but
temporaries.
-/
theorem temporaries_are_disciplined {first taken : Nat} {block : List NativeInstruction}
    {out : List Instruction}
    (translated : registry.translateBlock ⟨some cpu, first⟩ block =
      (.ok out, ⟨some cpu, first + taken⟩)) :
    (∀ {name}, isTemporary name → ((∃ i ∈ out, ∃ slot w, i.operand slot = .register name w) ↔
      ∃ n, first ≤ n ∧ n < first + taken ∧ name = temporaryName n)) ∧
    (∀ {n}, first ≤ n → n < first + taken →
      ∃! k : Nat, ∃ i w, out[k]? = some i ∧ i.Writes (temporaryName n) w) ∧
    (∃ codes : List (List Instruction), out = codes.flatten ∧
      List.Forall₂ (registry.Lifts (some cpu)) block codes ∧
      ∀ code ∈ codes, ∀ {k : Nat} {i slot name w}, code[k]? = some i →
        i.operand slot = .register name w → isTemporary name →
          slot = .third ∧ i.opcode.writesRegister ∨
          i.opcode.reads slot ∧ ∃ j i', j < k ∧ code[j]? = some i' ∧ i'.Writes name w ∧
            ∀ visited, Path code k visited → j ∈ visited) ∧
    ∀ {p}, Program.ofList out = .ok p →
      ∀ {σ : Type} (o : Observer σ) (m : Machine) (watch : σ) (native : Nat), m.cpu = cpu →
        (∀ {turns pc i name w},
          (m.interpret o p turns (.ofNative native) watch).progress = .running pc →
            p.get? pc = some i → i.Reads name w → isTemporary name →
              ∃ earlier < turns, ∃ pc' i',
                (m.interpret o p earlier (.ofNative native) watch).progress = .running pc' ∧
                p.get? pc' = some i' ∧ i'.Writes name w) ∧
        ∀ {m'}, m.SameNative m' → ∀ turns,
          let r := m.interpret o p turns (.ofNative native) watch
          let r' := m'.interpret o p turns (.ofNative native) watch
          r'.progress = r.progress ∧ r'.watch = r.watch ∧
            r'.machine.counters = r.machine.counters ∧ r.machine.SameNative r'.machine := by
  obtain ⟨codes, last, rfl, e, all⟩ := translateBlock_eq_ok_iff.1 translated
  cases e
  refine ⟨fun temporary => all.occurs_iff temporary, fun above below => all.written_once above below,
    ⟨codes, rfl, all.lifts, fun code mem k i slot name w at_k named temporary => ?_⟩, ?_⟩
  · obtain ⟨native, -, -, j, l, single⟩ := all.single code mem
    exact single.read_behind at_k named temporary
  intro p assembled σ o m watch native processor
  have tiled := all.tiled assembled
  refine ⟨fun {turns pc i name w} running found reads temporary => ?_, fun {m'} same turns => ?_⟩
  · simp only [Machine.interpret, Run.progress_conclude] at running ⊢
    have dominated : p.Tiled Dominated := tiled.imp fun ⟨_, _, single⟩ => single.dominated
    exact dominated.written_before rfl running found temporary reads
  · have contained : p.Tiled Program.Tiled.SelfContained :=
      tiled.imp fun ⟨_, _, single⟩ => single.selfContained
    have start : (Run.begin o (.ofNative native) m watch).AgreesOn (fun _ => False)
        (Run.begin o (.ofNative native) m' watch) :=
      ⟨rfl, rfl, ⟨⟨same.settings, same.cpu, same.memory, same.register?⟩, processor ▸ cpu_plain, rfl,
        nofun⟩⟩
    have agree : (m.interpret o p turns (.ofNative native) watch).AgreesOn (fun _ => False)
        (m'.interpret o p turns (.ofNative native) watch) :=
      (contained.independent start rfl turns).conclude
    exact ⟨agree.progress, agree.watch, agree.machine.counters, agree.machine.toSameNative⟩

/-- A division without a sign. -/
def unsignedQuotient : NativeInstruction :=
  ⟨0x100, "divwu", [.sized .dword (.register "%r3"), .sized .dword (.register "%r4"),
    .sized .dword (.register "%r5")]⟩

/-- A sum with a number. -/
def increment : NativeInstruction :=
  ⟨0x104, "addi", [.sized .dword (.register "%r3"), .sized .dword (.register "%r3"), .immediate 1]⟩

/-- Lifted when seven temporaries are taken, the two take four more, and each is written once. -/
theorem quotientPlusOne_is_disciplined :
    ∃ out, registry.translateBlock ⟨some cpu, 7⟩ [unsignedQuotient, increment] =
        (.ok out, ⟨some cpu, 7 + 4⟩) ∧
      ∀ {n}, 7 ≤ n → n < 7 + 4 →
        ∃! k : Nat, ∃ i w, out[k]? = some i ∧ i.Writes (temporaryName n) w := by
  have divides : Expands 7 unsignedQuotient (.divide false 3 4 5 false false) _ _ :=
    ⟨⟨.divide false false false, by
      simp [forms, productForms, overflowing, recording, unsignedQuotient], rfl⟩, rfl, rfl⟩
  have adds : Expands 9 increment (.sum {} 3 (.register 3) (.constant 1)) _ _ :=
    ⟨⟨.sum {} .immediate false true, by simp [forms, sumForms, increment], rfl⟩, rfl, rfl⟩
  have translated := translateBlock_eq_ok_iff.2 ⟨_, _, rfl, rfl, .cons divides (.cons adds .nil)⟩
  exact ⟨_, translated, (temporaries_are_disciplined translated).2.1⟩

end PowerPC

end RegisterTransfer

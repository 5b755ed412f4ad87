import Mathlib.Data.List.Sort
import RegisterTransfer.Proofs.StepLimit

/-!
# Forward programs

A program is forward if every jump in it names a target above itself. No measure is needed to see
that it terminates: control only ever goes up, so that a run visits each instruction from the entry
on at most once. Without jumps it visits them one by one, in address order, until one halts or fails.

> `Program.onward_eq_cons`, `Program.beyond_of_above`: what lies ahead, instruction by instruction.
> `Stop.lt_of_leads`: in a forward program control only goes up.
> `Run.Tours.increasing`: so the addresses of an itinerary increase.
> `forward_programs_terminate`: how long a run of a forward program is, and what one without jumps
> completes.
-/

namespace RegisterTransfer

/-! ## What lies ahead -/

theorem Address.compare_self (a : Address) : compare a a = .eq := Std.ReflCmp.compare_self

/-- The instruction stands before another one. -/
def Instruction.Before (i j : Instruction) : Prop := compare i.address j.address = .lt

namespace Instruction

instance (i j : Instruction) : Decidable (i.Before j) := inferInstanceAs (Decidable (_ = _))

instance : Trans Before Before Before := ⟨fun h h' => Std.TransCmp.lt_trans h h'⟩

/-- No instruction stands before itself. -/
theorem Before.irrefl (i : Instruction) : ¬ i.Before i := by
  intro h
  unfold Before at h
  rw [Address.compare_self] at h
  cases h

instance : Std.Irrefl Before := ⟨Before.irrefl⟩

instance : Std.Antisymm Before :=
  ⟨fun i _ h h' => absurd (Trans.trans h h' : i.Before i) (Before.irrefl i)⟩

end Instruction

namespace Program

variable {p : Program} {a b : Address} {i : Instruction}

/-- The instructions at an address and above it, in address order. -/
def onward (p : Program) (a : Address) : List Instruction :=
  p.toList.filter fun i => (compare a i.address).isLE

/-- The instructions above an address, in address order. -/
def beyond (p : Program) (a : Address) : List Instruction :=
  p.toList.filter fun i => compare a i.address == .lt

/-- A program lists every instruction under its own address. -/
theorem mem_toList_iff : i ∈ p.toList ↔ p.get? i.address = some i := by
  unfold toList SortedMap.values
  rw [List.mem_map]
  constructor
  · rintro ⟨⟨a, j⟩, mem, rfl⟩
    have found := SortedMap.mem_toList_iff.1 mem
    rw [p.keyed found]
    exact found
  · intro found
    exact ⟨(i.address, i), SortedMap.mem_toList_iff.2 found, rfl⟩

/-- A program lists its instructions in address order. -/
theorem toList_increasing (p : Program) : p.toList.Pairwise Instruction.Before := by
  refine List.pairwise_map.2 (p.code.increasing.imp_of_mem ?_)
  intro e e' mem mem' lt
  have here := p.keyed (SortedMap.mem_toList_iff.1 mem)
  have there := p.keyed (SortedMap.mem_toList_iff.1 mem')
  unfold Instruction.Before
  rw [here, there]
  exact lt

theorem mem_onward_iff :
    i ∈ p.onward a ↔ p.get? i.address = some i ∧ (compare a i.address).isLE := by
  rw [onward, List.mem_filter, mem_toList_iff]

theorem mem_beyond_iff :
    i ∈ p.beyond a ↔ p.get? i.address = some i ∧ compare a i.address = .lt := by
  rw [beyond, List.mem_filter, mem_toList_iff, beq_iff_eq]

/-- From an instruction on, there is that instruction and what lies beyond. -/
theorem onward_eq_cons (found : p.get? a = some i) : p.onward a = i :: p.beyond a := by
  have here : i.address = a := p.keyed found
  -- both lists are in increasing order, so that it is enough to compare their members
  refine List.Pairwise.eq_of_mem_iff (p.toList_increasing.filter _)
    (List.pairwise_cons.2 ⟨fun j mem => ?_, p.toList_increasing.filter _⟩) fun j => ?_
  · unfold Instruction.Before
    rw [here]
    exact (mem_beyond_iff.1 mem).2
  · rw [List.mem_cons]
    refine mem_onward_iff.trans ⟨fun ⟨placed, le⟩ => ?_, fun mem => ?_⟩
    · cases order : compare a j.address with
      | lt => exact .inr (mem_beyond_iff.2 ⟨placed, order⟩)
      | eq =>
        rw [← Std.LawfulEqCmp.eq_of_compare order, found] at placed
        exact .inl (Option.some.inj placed).symm
      | gt =>
        rw [order] at le
        cases le
    · rcases mem with rfl | above
      · rw [here]
        exact ⟨found, by rw [Address.compare_self]; rfl⟩
      · obtain ⟨placed, lt⟩ := mem_beyond_iff.1 above
        exact ⟨placed, by rw [lt]; rfl⟩

/-- Beyond an address lies what is from the next address on. -/
theorem beyond_of_above (above : p.Above a b) : p.beyond a = p.onward b := by
  refine List.Pairwise.eq_of_mem_iff (p.toList_increasing.filter _) (p.toList_increasing.filter _)
    fun j => mem_beyond_iff.trans (Iff.trans ?_ mem_onward_iff.symm)
  refine and_congr_right fun placed => ⟨fun lt => ?_, fun le => ?_⟩
  · have there : p.contains j.address := SortedMap.contains_iff.2 ⟨j, placed⟩
    rcases above.least there lt with same | after
    · rw [same, Address.compare_self]
      rfl
    · rw [after]
      rfl
  · exact Std.TransCmp.lt_of_lt_of_isLE above.above le

/-- Beyond the last address there is nothing. -/
theorem beyond_of_last (last : p.Last a) : p.beyond a = [] := by
  refine List.eq_nil_iff_forall_not_mem.2 fun j mem => ?_
  obtain ⟨placed, lt⟩ := mem_beyond_iff.1 mem
  exact last _ (SortedMap.contains_iff.2 ⟨j, placed⟩) lt

end Program

/-- A list of instructions up to the first that halts, and with it. -/
def upToHalt : List Instruction → List Instruction
  | [] => []
  | i :: rest => if i.opcode = .halt then [i] else i :: upToHalt rest

/-- Instructions that do not halt are all before the first that does. -/
theorem upToHalt_append {l : List Instruction} (going : ∀ i ∈ l, i.opcode ≠ .halt)
    (rest : List Instruction) : upToHalt (l ++ rest) = l ++ upToHalt rest := by
  induction l with
  | nil => rfl
  | cons i l ih =>
    have on := going i (List.mem_cons_self ..)
    rw [List.cons_append, upToHalt, if_neg on, ih fun j mem => going j (List.mem_cons_of_mem _ mem)]
    rfl

/-- The list up to the first that halts is not empty: its first instruction is always there. -/
theorem upToHalt_cons (i : Instruction) (rest : List Instruction) :
    ∃ after, upToHalt (i :: rest) = i :: after := by
  rw [upToHalt]
  split <;> exact ⟨_, rfl⟩

/-! ## Forward jumps -/

/-- The address that a jump operand names, if it does not depend on the machine: a literal stands
for the start of the native instruction there. -/
def Operand.landing? (o : Operand) : Option Address :=
  match o.kind with
  | .address t => some t
  | .integer v => some ⟨v % 2 ^ o.width.bits % 2 ^ 64, 0⟩
  | .absent | .register _ => none

/-- Every jump names a target above itself. -/
def Program.Forward (p : Program) : Prop :=
  ∀ i, p.get? i.address = some i → i.opcode = .jcc →
    ∃ t, i.op3.landing? = some t ∧ compare i.address t = .lt

namespace Stop

variable {σ : Type} {p : Program} {s : Stop σ} {a t : Address}

/-- A jump goes where its operand says. -/
theorem Targets.eq_of_landing? (h : s.Targets a) (named : s.instruction.op3.landing? = some t) :
    a = t := by
  unfold Operand.landing? at named
  cases h with
  | address holds =>
    rw [holds] at named
    exact Option.some.inj named
  | @native v reads =>
    unfold Machine.source at reads
    split at reads
    · next v' kind =>
      rw [kind] at named
      cases reads
      cases named
      rw [Width.truncate, Width.modulus, Nat.one_shiftLeft]
    · next name kind =>
      rw [kind] at named
      cases named
    · cases reads
    · cases reads

/-- In a forward program control only goes up. -/
theorem lt_of_leads (forward : p.Forward)
    (placed : p.get? s.instruction.address = some s.instruction) (leads : s.Leads p a) :
    compare s.instruction.address a = .lt := by
  cases leads with
  | fall _ next => exact next.above
  | jump jumps target =>
    obtain ⟨t, named, above⟩ := forward _ placed (opcode_of_jumps jumps)
    rw [target.eq_of_landing? named]
    exact above

end Stop

namespace Run

variable {σ : Type} {o : Observer σ} {p : Program} {entry : Address} {stops : List (Stop σ)}
  {r : Run σ}

namespace Tours

/-- The addresses of the stops of a forward program increase. -/
theorem increasing (h : Tours o p entry stops r) (forward : p.Forward) :
    (stops.map (·.instruction)).Pairwise Instruction.Before := by
  have chain : stops.IsChain fun s t => s.instruction.Before t.instruction :=
    h.chain.imp_of_mem_imp fun s t mem _ leads => Stop.lt_of_leads forward (h.placed s mem) leads
  exact ((List.isChain_map _).2 chain).pairwise

/-- The stops of a forward program lie ahead of its entry. -/
theorem mem_onward (h : Tours o p entry stops r) (forward : p.Forward) :
    ∀ i ∈ stops.map (·.instruction), i ∈ p.onward entry := by
  intro i mem
  cases stops with
  | nil => cases mem
  | cons s rest =>
    have placed : ∀ t ∈ s :: rest, p.get? t.instruction.address = some t.instruction := h.placed
    have ordered := List.pairwise_cons.1 (h.increasing forward)
    rw [← h.first s rfl]
    rw [List.map_cons, List.mem_cons] at mem
    rcases mem with rfl | later
    · refine Program.mem_onward_iff.2 ⟨placed s (List.mem_cons_self ..), ?_⟩
      rw [Address.compare_self]
      rfl
    · have above := ordered.1 i later
      obtain ⟨t, mem, rfl⟩ := List.mem_map.1 later
      refine Program.mem_onward_iff.2 ⟨placed t (List.mem_cons_of_mem _ mem), ?_⟩
      rw [above]
      rfl

/-- A forward program completes no more than lies ahead of its entry. -/
theorem executed_le (h : Tours o p entry stops r) (forward : p.Forward) :
    r.machine.counters.executed ≤ (p.onward entry).length := by
  have once : (stops.map (·.instruction)).Nodup := (h.increasing forward).nodup
  have fewer := (List.subperm_of_subset once (h.mem_onward forward)).length_le
  rw [List.length_map] at fewer
  rw [h.executed]
  exact (List.length_filter_le _ _).trans fewer

/-! ### Programs without jumps -/

/-- Without jumps the only way on is to fall. -/
theorem falls_of_leads {s : Stop σ} {a : Address} (noJump : s.instruction.opcode ≠ .jcc)
    (leads : s.Leads p a) : s.Falls ∧ p.Above s.instruction.address a := by
  cases leads with
  | fall falls next => exact ⟨falls, next⟩
  | jump jumps => exact absurd (Stop.opcode_of_jumps jumps) noJump

/-- Stops that fall from one to the next are all that lies ahead of the first, up to the last; only
the last may halt. -/
theorem onward_of_chain {s : Stop σ}
    (chain : (stops ++ [s]).IsChain fun s t =>
      s.Falls ∧ p.Above s.instruction.address t.instruction.address)
    (placed : ∀ t ∈ stops ++ [s], p.get? t.instruction.address = some t.instruction)
    (first : ∀ t ∈ (stops ++ [s]).head?, t.instruction.address = entry) :
    p.onward entry = stops.map (·.instruction) ++ s.instruction :: p.beyond s.instruction.address ∧
      ∀ i ∈ stops.map (·.instruction), i.opcode ≠ .halt := by
  induction stops generalizing entry with
  | nil =>
    rw [← first s rfl]
    exact ⟨Program.onward_eq_cons (placed s (List.mem_cons_self ..)), by simp⟩
  | cons t rest ih =>
    obtain ⟨next, chain⟩ := List.isChain_cons.1 chain
    obtain ⟨u, head⟩ : ∃ u, (rest ++ [s]).head? = some u := by
      cases rest <;> exact ⟨_, rfl⟩
    obtain ⟨falls, above⟩ := next u head
    have first' : ∀ v ∈ (rest ++ [s]).head?, v.instruction.address = u.instruction.address := by
      intro v mem
      rw [head] at mem
      cases mem
      rfl
    obtain ⟨ahead, going⟩ :=
      ih chain (fun v mem => placed v (List.mem_cons_of_mem _ mem)) first'
    refine ⟨?_, fun i mem => ?_⟩
    · rw [← first t rfl, Program.onward_eq_cons (placed t (List.mem_cons_self ..)),
        Program.beyond_of_above above, ahead]
      rfl
    · rcases List.mem_cons.1 mem with rfl | later
      · exact falls.1
      · exact going i later

/-- The stops of a program without jumps are what lies ahead of the entry, up to the last stop. -/
theorem onward_eq_append {s : Stop σ} (h : Tours o p entry (stops ++ [s]) r)
    (straight : ∀ i, p.get? i.address = some i → i.opcode ≠ .jcc) :
    p.onward entry = stops.map (·.instruction) ++ s.instruction :: p.beyond s.instruction.address ∧
      ∀ i ∈ stops.map (·.instruction), i.opcode ≠ .halt :=
  onward_of_chain
    (h.chain.imp_of_mem_imp fun t _ mem _ leads =>
      falls_of_leads (straight _ (h.placed t mem)) leads)
    h.placed h.first

/--
A run of a program without jumps that is over has completed what lies ahead of the entry, up to the
first instruction that halts, and with it, or up to the first that failed, and without it.
-/
theorem completed_of_straight (h : Tours o p entry stops r)
    (straight : ∀ i, p.get? i.address = some i → i.opcode ≠ .jcc) (there : p.contains entry)
    (free : r.machine.settings.stepLimit = none) (atEnd : r.isOver) :
    r.progress = .finished ∧
        (stops.filter (·.completes o p)).map (·.instruction) = upToHalt (p.onward entry) ∨
      ∃ s ∈ stops.getLast?, ∃ f after, r.progress = .failed f ∧ s.result o p = .error f ∧
        upToHalt (p.onward entry) =
          (stops.filter (·.completes o p)).map (·.instruction) ++ s.instruction :: after := by
  have standing := h.standing
  rw [isOver] at atEnd
  generalize progress : r.progress = progress' at standing atEnd ⊢
  cases standing with
  | running => cases atEnd
  | limited _ _ _ spent =>
    rw [Machine.spent?, free] at spent
    cases spent
  | finished all ended =>
    rcases ended with ⟨-, outside⟩ | ⟨s, last, ends⟩
    · exact absurd there outside
    · refine .inl ⟨rfl, ?_⟩
      rw [List.filter_eq_self.2 all]
      obtain ⟨before, rfl⟩ := List.getLast?_eq_some_iff.1 last
      obtain ⟨ahead, going⟩ := h.onward_eq_append straight
      rw [ahead, upToHalt_append going, List.map_append]
      -- control comes to an end at an instruction that halts, or at the last of the program
      cases ends with
      | halt halts =>
        rw [upToHalt, if_pos halts]
        rfl
      | fall falls isLast =>
        rw [upToHalt, if_neg falls.1, Program.beyond_of_last isLast]
        rfl
  | @broke before s f all stops_eq result =>
    subst stops_eq
    have fails : s.completes o p = false := by
      rw [Stop.completes, result]
      rfl
    obtain ⟨ahead, going⟩ := h.onward_eq_append straight
    obtain ⟨after, rest⟩ := upToHalt_cons s.instruction (p.beyond s.instruction.address)
    refine .inr ⟨s, List.getLast?_concat, f, after, rfl, result, ?_⟩
    rw [ahead, upToHalt_append going, rest, List.filter_append, List.filter_eq_self.2 all]
    simp [fails]

/-- A program without jumps takes none. -/
theorem jumps_of_straight (h : Tours o p entry stops r)
    (straight : ∀ i, p.get? i.address = some i → i.opcode ≠ .jcc) :
    r.machine.counters.jumps = 0 := by
  rw [h.jumps, List.countP_eq_zero]
  intro s mem jumps
  have placed := h.placed s (List.mem_filter.1 mem).1
  exact straight _ placed (Stop.opcode_of_jumps jumps)

end Tours

/-- A run of a forward program is over as soon as it has made more turns than there are instructions
ahead of its entry. -/
theorem isOver_of_forward {m : Machine} {w : σ} {turns : Nat} (forward : p.Forward)
    (enough : (p.onward entry).length < turns) : (advance o p turns (begin o entry m w)).isOver := by
  cases progress : (advance o p turns (begin o entry m w)).progress with
  | running pc =>
    -- as many instructions as turns are completed by then
    have all := executed_of_running rfl progress
    have tours : Tours o p entry ((begin o entry m w).itinerary o p turns)
        (advance o p turns (begin o entry m w)) := .advance turns
    have fewer := tours.executed_le forward
    rw [all] at fewer
    omega
  | finished | failed => rw [isOver, progress]

end Run

/--
Let every jump of a program name a target above itself. Then every run, whatever its entry, its
settings, its observer and its machine, stops at increasing addresses, completes at most as many
instructions as there are from the entry on, and is over after so many turns and one more. If there
are no jumps at all, the entry is in the program, no step limit is set and the observer refuses
nothing, a run that is over has taken no jump, and has completed the instructions from the entry on,
in order: those up to the first that halts, and with it, or those up to one that fails, and without
it.
-/
theorem forward_programs_terminate {σ : Type} (o : Observer σ) (p : Program) (forward : p.Forward)
    (turns : Nat) (entry : Address) (m : Machine) (w : σ) :
    let r := m.interpret o p turns entry w
    let stops := (Run.begin o entry m w).itinerary o p turns
    let completed := (stops.filter (·.completes o p)).map (·.instruction)
    (stops.map (·.instruction.address)).Pairwise (fun a b => compare a b = .lt) ∧
      r.machine.counters.executed ≤ (p.onward entry).length ∧
      ((p.onward entry).length < turns → r.isOver) ∧
      ((∀ i, p.get? i.address = some i → i.opcode ≠ .jcc) → p.contains entry →
        m.settings.stepLimit = none → (∀ i w, (o.next i w).1 = .ok ()) → r.isOver →
          r.machine.counters.executed = completed.length ∧ r.machine.counters.jumps = 0 ∧
            (r.progress = .finished ∧ completed = upToHalt (p.onward entry) ∨
              ∃ s ∈ stops.getLast?, ∃ f after, r.progress = .failed f ∧
                (s.machine.execute p s.instruction).1 = .error f ∧
                upToHalt (p.onward entry) = completed ++ s.instruction :: after)) := by
  intro r stops completed
  let run := Run.advance o p turns (Run.begin o entry m w)
  have tours : Run.Tours o p entry stops run := .advance turns
  have progress : r.progress = run.progress := Run.progress_conclude o run
  have machine : r.machine = run.machine := Run.machine_conclude o run
  have same : r.isOver = run.isOver := by rw [Run.isOver, progress, Run.isOver]
  refine ⟨?_, ?_, fun enough => ?_, fun straight there free polite atEnd => ?_⟩
  · have increasing := tours.increasing forward
    rw [List.pairwise_map] at increasing ⊢
    exact increasing
  · rw [machine]
    exact tours.executed_le forward
  · rw [same]
    exact Run.isOver_of_forward forward enough
  · have unlimited : run.machine.settings.stepLimit = none := by
      rw [(Run.advance_setup o p turns _).settings]
      exact free
    have passes : ∀ s : Stop σ, s.result o p = (s.machine.execute p s.instruction).1 := by
      intro s
      rw [Stop.result, polite]
      rfl
    rw [machine, progress]
    refine ⟨?_, tours.jumps_of_straight straight, ?_⟩
    · rw [tours.executed, List.length_map]
    · rcases tours.completed_of_straight straight there unlimited (same ▸ atEnd) with done | failed
      · exact .inl done
      · obtain ⟨s, last, f, after, failed, result, rest⟩ := failed
        exact .inr ⟨s, last, f, after, failed, passes s ▸ result, rest⟩

/-! ## Two programs -/

/-- The program of instructions that are given in address order. -/
def Program.listed (l : List Instruction) (increasing : l.Pairwise Instruction.Before) : Program where
  code := ⟨l.map fun i => (i.address, i), by
    rw [List.pairwise_map]
    exact increasing⟩
  keyed h := by
    obtain ⟨i, -, same⟩ := List.mem_map.1 (SortedMap.mem_toList_iff.2 h)
    cases same
    rfl

/-- A jump over an instruction that halts, to a literal. -/
def jumpOverHalt : Program := .listed
  [⟨⟨0x100, 0⟩, .jcc, .integer 1 .byte, .absent, .integer 0x108 .word, none⟩,
    ⟨⟨0x104, 0⟩, .halt, .absent, .absent, .absent, none⟩,
    ⟨⟨0x108, 0⟩, .nop, .absent, .absent, .absent, none⟩] (by decide)

/-- An instruction that halts, with a gap before it and an instruction behind it. -/
def haltAcrossGap : Program := .listed
  [⟨⟨0x100, 0⟩, .nop, .absent, .absent, .absent, none⟩,
    ⟨⟨0x200, 3⟩, .halt, .absent, .absent, .absent, none⟩,
    ⟨⟨0x200, 4⟩, .nop, .absent, .absent, .absent, none⟩] (by decide)

/-- The jump is taken at most once; the halt across the gap is the second and last instruction. -/
theorem jumpOverHalt_terminates :
    let m := Machine.start {} PowerPC.cpu
    let r := m.interpret .silent jumpOverHalt 4 ⟨0x100, 0⟩ ()
    let s := m.interpret .silent haltAcrossGap 4 ⟨0x100, 0⟩ ()
    r.isOver ∧ r.machine.counters.executed ≤ 3 ∧ s.isOver ∧ s.machine.counters.jumps = 0 ∧
      (s.progress = .finished → s.machine.counters.executed = 2) := by
  intro m r s
  have forward : jumpOverHalt.Forward := by
    intro i found jump
    have one_jumps : ∀ i ∈ jumpOverHalt.toList, i.opcode = .jcc →
        i.op3.landing? = some ⟨0x108, 0⟩ ∧ compare i.address ⟨0x108, 0⟩ = .lt := by decide
    exact ⟨_, one_jumps i (Program.mem_toList_iff.2 found) jump⟩
  have straight : ∀ i, haltAcrossGap.get? i.address = some i → i.opcode ≠ .jcc := by
    intro i found
    have none_jumps : ∀ i ∈ haltAcrossGap.toList, i.opcode ≠ .jcc := by decide
    exact none_jumps i (Program.mem_toList_iff.2 found)
  obtain ⟨-, fewer, ends, -⟩ :=
    forward_programs_terminate .silent jumpOverHalt forward 4 ⟨0x100, 0⟩ m ()
  obtain ⟨-, -, ends', run⟩ := forward_programs_terminate .silent haltAcrossGap
    (fun i found jump => absurd jump (straight i found)) 4 ⟨0x100, 0⟩ m ()
  have atEnd : s.isOver := ends' (by decide)
  obtain ⟨executed, jumps, result⟩ := run straight rfl rfl (fun _ _ => rfl) atEnd
  refine ⟨ends (by decide), fewer, atEnd, jumps, fun finished => ?_⟩
  rcases result with ⟨-, completed⟩ | ⟨_, _, _, _, failed, -⟩
  · exact executed.trans (congrArg List.length completed)
  · rw [finished] at failed
    cases failed

end RegisterTransfer

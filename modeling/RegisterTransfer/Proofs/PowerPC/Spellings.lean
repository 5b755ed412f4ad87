import RegisterTransfer.Proofs.Lacking
import RegisterTransfer.Proofs.PowerPC.Divisions
import RegisterTransfer.Proofs.PowerPC.Meanings
import RegisterTransfer.Proofs.PowerPC.Sums

/-!
# Simplified spellings

A simplified spelling agrees with the instruction that it stands for, also where a run fails because
a register is undefined. Most spellings mean the very operation; the loading of a number and the move
of a register mean one of their own, so that scripts are compared: what they leave, and which
undefined register they meet first.

> `exists_delivery`: how a delivery ends depends on what is delivered only.
> `exists_move`, `exists_load`: a move ends as the operation of a register and itself, a loading as
> the sum with zero.
> `simplified_spellings_agree`: each spelling is accepted as its instruction is, and ends like it.
-/

namespace RegisterTransfer.PowerPC

open Script

/-! ## Deliveries -/

section Scripts

variable {m : Machine} {ra rs rd : Gpr} {v : Nat}

/-- Recording a result takes no jumps. -/
theorem straight_recorded (r : Gpr) (record : Bool) :
    (onlyIf record (recordResult (gprOperand r))).Straight :=
  have order : (recordResult (gprOperand r)).Straight := fun _ _ _ _ => trivial
  straight_onlyIf order record

theorem straight_deliver (o : Operand) (r : Gpr) (record : Bool) : (deliver o r record).Straight :=
  straight_recorded r record

theorem straight_complementIf (wanted : Bool) (o : Operand) : (complementIf wanted o).Straight := by
  cases wanted
  · trivial
  · exact fun _ => trivial

/-- Neither a result nor its order makes the summary overflow readable. -/
theorem lacks_ordered (plain : m.cpu.Plain) (lacks : m.Lacks summaryFlag) (ra : Gpr) (v : Nat)
    (o : Ordering) : ((m.setGpr ra v).compared defaultField o).Lacks summaryFlag := by
  have apart : ∀ bit, summaryFlag ≠ conditionBitName defaultField bit := fun bit =>
    (conditionBitName_ne (c := 'X') rfl (by decide) _ bit).symm
  exact (((lacks.set plain (StatusBit.ne_gprName .summary ra) ..).set plain (apart .lt) ..).set plain
    (apart .gt) ..).set plain (apart .eq) ..

/-- A result that is to be recorded is delivered and ordered before the summary overflow is missed. -/
theorem leads_unrecorded {e : Machine} (processor : e.cpu = cpu) (lacks : e.Lacks summaryFlag)
    (ra : Gpr) (lt : v < 2 ^ 32) {x X : Expansion} {o : Operand} (left : Leaves x e X m)
    (held : m.Holds X.taken o v) :
    (deliver o ra true).Leads X (.start m) fun _ => Brings x
      ((e.setGpr ra v).compared defaultField (compare (registerWidth.toSigned v) 0))
      (some summaryFlag) := by
  have settled : ∀ {e : Machine}, e.cpu = cpu → ∀ n, ¬ e.cpu.Scratch n summaryFlag :=
    fun processor n => processor ▸ not_scratch_status .summary n
  have processor' : m.cpu = cpu := left.keeps.cpu.trans processor
  show (copy o (gprOperand ra) >>= fun _ => recordResult (gprOperand ra)).Leads _ _ _
  rw [recordResult_eq]
  apply (runs_gpr processor' ra held).leads
  intro _ X₁ m₁ ⟨set, value, _⟩
  have processor₁ : m₁.cpu = cpu := set.keeps.cpu.trans processor'
  rw [Width.truncate_of_lt (show v < registerWidth.modulus from lt)] at value
  apply (runs_recordOrder processor₁ rfl value).leads
  intro _ X₂ m₂ ordered
  have set : Leaves X (m.setGpr ra v) X₁ m₁ := set
  have behind := (left.set set).through (·.compared defaultField _) (·.compared defaultField _)
    ordered
  have lacks := lacks_ordered (plain_of_cpu processor) lacks ra v
    (compare (registerWidth.toSigned v) 0)
  refine (leads_lacking behind.plain (lacks.keep behind.keeps (settled processor _))
    (settled (behind.keeps.cpu.trans processor) _) (.inl rfl)).mono ?_
  intro _ X₃ g ⟨leaves, missing⟩
  exact ⟨behind.trans leaves, missing⟩

/-- What a delivery leaves, and whether it meets an undefined register, depends on the result only. -/
theorem exists_delivery (processor : m.cpu = cpu) (ra : Gpr) (lt : v < 2 ^ 32) (record : Bool) :
    ∃ e missing, ∀ {x X m' o}, Leaves x m X m' → m'.Holds X.taken o v →
      (deliver o ra record).Leads X (.start m') fun _ => Brings x e missing := by
  -- the summary overflow is read only if the result is recorded
  by_cases readable : record = true → ∃ so, ∀ n, m.Holds n StatusBit.summary.operand so
  · obtain ⟨so, summary⟩ : ∃ so, record = true → ∀ n, m.Holds n StatusBit.summary.operand so := by
      cases record with
      | false => exact ⟨0, nofun⟩
      | true =>
        obtain ⟨so, summary⟩ := readable rfl
        exact ⟨so, fun _ => summary⟩
    exact ⟨m.delivered ⟨ra, v, lt, none, none, record⟩ so, none, fun {x X m' o} left held =>
      (runs_deliver left processor held ra lt record fun wanted => summary wanted _).brings⟩
  · obtain ⟨rfl, unreadable⟩ := Classical.not_imp.1 readable
    have lacks : m.Lacks summaryFlag :=
      (m.holds_or_lacks summaryFlag flagWidth).resolve_left fun ⟨so, summary⟩ =>
        unreadable ⟨so, fun n => summary (processor ▸ not_scratch_status .summary n)⟩
    exact ⟨_, some summaryFlag, fun left held => leads_unrecorded processor lacks ra lt left held⟩

/-- A bitwise operation of a register with itself is a disjunction, perhaps complemented. -/
theorem expand_doubled (complement : Bool) (ra rs : Gpr) (record : Bool) :
    expandLogic (doubled complement) ra rs rs record =
      binary .or (gprOperand rs) (gprOperand rs) >>= fun combined =>
        complementIf complement combined >>= fun result => deliver result ra record := by
  cases complement <;> rfl

/-- A move does what the operation does of a register and itself. -/
theorem exists_move (processor : m.cpu = cpu) (complement : Bool) (ra rs : Gpr) (record : Bool) :
    ∃ e missing, ∀ x,
      ((complementIf complement (gprOperand rs) >>= fun o => deliver o ra record).Leads x (.start m)
        fun _ => Brings x e missing) ∧
      (expandLogic (doubled complement) ra rs rs record).Leads x (.start m)
        fun _ => Brings x e missing := by
  have plain := plain_of_cpu processor
  have settled : ∀ n, ¬ m.cpu.Scratch n (gprName rs) := fun n => processor ▸ not_scratch_gpr rs n
  -- both scripts read the source first, so both fail there if it is undefined
  rcases m.holds_or_lacks (gprName rs) registerWidth with ⟨u, held⟩ | lacks
  · have lt : u < 2 ^ 32 := (held (settled 0)).lt
    have lt' : (if complement then registerWidth.mask - u else u) < 2 ^ 32 := by
      have mask : registerWidth.mask = 2 ^ 32 - 1 := rfl
      split <;> omega
    obtain ⟨e, missing, delivers⟩ := exists_delivery processor ra lt' record
    refine ⟨e, missing, fun x => ⟨?_, ?_⟩⟩
    · apply (runs_complementIf plain complement (held (settled _))).leads
      intro o X m' turned
      exact delivers turned.toLeaves turned.holds
    · rw [expand_doubled]
      have joined := Runs.or plain rfl (held (settled x.taken)) (held (settled x.taken))
      rw [Nat.or_self] at joined
      apply joined.leads
      intro o X m' joined
      apply (runs_complementIf joined.plain complement joined.holds).leads
      intro o' X' m'' turned
      have value := turned.holds
      rw [joined.width] at value
      exact delivers (joined.toLeaves.trans turned.toLeaves) value
  · refine ⟨m, some (gprName rs), fun x => ⟨?_, ?_⟩⟩
    · cases complement with
      | false =>
        show (copy (gprOperand rs) (gprOperand ra) >>= fun _ =>
          onlyIf record (recordResult (gprOperand ra))).Leads _ _ _
        exact leads_skipped (leads_lacking plain lacks (settled _) (.inl rfl)) fun _ =>
          straight_recorded ra record
      | true => exact leads_stuck plain lacks settled (.inr ⟨rfl, rfl⟩) fun _ => straight_deliver ..
    · rw [expand_doubled]
      exact leads_stuck plain lacks settled (.inr ⟨rfl, rfl⟩) fun _ =>
        (straight_complementIf ..).bind fun _ => straight_deliver ..

/-- Loading a number adds it to zero. -/
theorem exists_load (processor : m.cpu = cpu) (rd : Gpr) (i : Int) :
    ∃ e, ∀ x,
      ((copy (.signed i registerWidth) (gprOperand rd)).Leads x (.start m)
        fun _ => Brings x e none) ∧
      (expandSum {} rd .zero (.constant i)).Leads x (.start m) fun _ => Brings x e none := by
  have plain := plain_of_cpu processor
  refine ⟨m.setGpr rd (registerWidth.ofInt i), fun x => ⟨?_, ?_⟩⟩
  · exact (runs_copy plain (gprName rd) registerWidth (Machine.holds_signed m x.taken i _)).brings
  · have zero : m.Holds x.taken Base.zero.operand 0 := Machine.holds_integer m x.taken 0 _
    have number : m.Holds x.taken (Source.constant i).operand (registerWidth.ofInt i) :=
      Machine.holds_signed m x.taken i _
    have summary : false = true ∨ false = true → m.Holds x.taken StatusBit.summary.operand 0 := by
      simp
    have sum := runs_expandSum processor {} rd zero number (rfl : HoldsCarry m _ 0 none) summary
    have whole : registerWidth.truncate (0 + registerWidth.ofInt i + 0) = registerWidth.ofInt i := by
      rw [Nat.zero_add, Nat.add_zero, Width.truncate_ofInt]
    have same : m.summed {} rd 0 (registerWidth.ofInt i) 0 0 =
        m.setGpr rd (registerWidth.truncate (0 + registerWidth.ofInt i + 0)) := rfl
    rw [whole] at same
    exact same ▸ sum.brings

end Scripts

/-! ## Runs that end alike -/

/-- A run has come to its end, or to the read of a register that is missing. -/
def Ends (missing : Option String) (progress : Progress) : Prop :=
  match missing with
  | none => progress = .finished
  | some name => ∃ place, progress = .failed (.undefinedRead name place)

/--
Two runs end alike: both well or both at the read of the same undefined register, on machines that
agree on everything but temporaries.
-/
structure EndAlike (r r' : Run Unit) : Prop where
  machine : r.machine.SameNative r'.machine
  progress : ∃ missing, Ends missing r.progress ∧ Ends missing r'.progress

section Runs

variable {n n' : NativeInstruction} {operation operation' : Operation} {m e : Machine}
  {missing : Option String} {r r' : Run Unit}

/-- Without branches and divisions, an instruction alone ends well or at an undefined register. -/
theorem Alone.ends (h : Alone n m r) (processor : m.cpu = cpu)
    (limit : m.settings.stepLimit = none) (means : Means n operation)
    (stays : operation.branches = false) (whole : ¬ operation.Divides) :
    ∃ missing, Ends missing r.progress := by
  obtain ⟨q, lifted, step⟩ := h
  have stays' : ¬ Branches n := by
    rintro ⟨found, means', branches⟩
    rw [means'.unique means, stays] at branches
    cases branches
  rcases step_falls (laid_of_lift lifted) (List.mem_singleton_self n) processor limit stays' step
    with ends | ⟨f, found, failed, means', mild⟩
  · exact ⟨none, ends.trans (within_alone lifted)⟩
  · rw [means'.unique means] at mild
    cases mild with
    | undefinedRead => exact ⟨some _, _, failed⟩
    | divisionByZero divides => exact absurd divides whole

/-- An end is not looked up. -/
theorem Ends.within {p : Program} (lifted : lift [n] = .ok p) {progress : Progress}
    (h : Ends missing progress) : Ends missing (progress.within p n.address) := by
  cases missing with
  | none =>
    obtain rfl : progress = .finished := h
    exact within_alone lifted
  | some name =>
    obtain ⟨place, rfl⟩ := h
    exact ⟨place, rfl⟩

/-- A run ends as its stance says: at the end of the code, or at a missing register. -/
theorem ends_of_meets {p : Program} (lifted : lift [n] = .ok p) {s : Stance}
    (h : s.Meets missing) : Ends missing (s.progress p n.address) := by
  cases missing with
  | none =>
    obtain rfl : s = .going := h
    exact within_alone lifted
  | some name =>
    obtain ⟨place, rfl⟩ := h
    exact ⟨place, rfl⟩

/-- What the script of an instruction brings, its run brings. -/
theorem alone_of_brings (means : Means n operation) {p : Program} (lifted : lift [n] = .ok p)
    (limit : m.settings.stepLimit = none)
    (brings : ∀ x, (operation.expand n.mnemonic n.address).Leads x (.start m) fun _ =>
      Brings x e missing) :
    ∃ r, Alone n m r ∧ e.Alike [] r.machine ∧ Ends missing r.progress := by
  obtain ⟨count, leads⟩ := nativeStep_of_means lifted (List.mem_singleton_self n) means
  obtain ⟨_, Y, ran, leaves, stance⟩ := brings (blank count n)
  obtain ⟨r, step, progress, keeps⟩ := leads limit ⟨_, Y, ran, rfl, leaves⟩
  exact ⟨r, ⟨p, lifted, step⟩, .of_keeps keeps, progress ▸ ends_of_meets lifted stance⟩

/-- Scripts that bring the same make runs that end alike. -/
theorem endAlike_of_brings (means : Means n operation) (means' : Means n' operation')
    (address : n'.address = n.address) {p p' : Program} (lifted : lift [n] = .ok p)
    (lifted' : lift [n'] = .ok p') (processor : m.cpu = cpu) (limit : m.settings.stepLimit = none)
    (brings : ∀ x, (operation.expand n.mnemonic n.address).Leads x (.start m) fun _ =>
      Brings x e missing)
    (brings' : ∀ x, (operation'.expand n'.mnemonic n'.address).Leads x (.start m) fun _ =>
      Brings x e missing) :
    ∃ r r', Alone n m r ∧ Alone n' m r' ∧ EndAlike r r' := by
  obtain ⟨r, alone, alike, ends⟩ := alone_of_brings means lifted limit brings
  obtain ⟨r', alone', alike', ends'⟩ := alone_of_brings means' lifted' limit brings'
  refine ⟨r, r', alone, alone', ?_, missing, ends, ends'⟩
  have counter := alone.counter processor limit
  have counter' := alone'.counter processor limit
  have same := alike.symm.trans alike'
  have setup := alone.setup
  refine ⟨same.settings, same.cpu, same.memory, fun {name} native => ?_⟩
  -- the program counter is set by the run and not by the script
  by_cases pc : name = programCounter
  · rw [pc, counter, counter', address]
  · refine same.register? native ?_ List.not_mem_nil
    rwa [show r.machine.cpu.programCounter = programCounter from
      congrArg Cpu.programCounter (setup.cpu.trans processor)]

/-- One operation, spelled in two ways, ends alike. -/
theorem endAlike_of_respells (means : Means n operation) (other : Respells n n' operation)
    (means' : Means n' operation) {p : Program} (lifted : lift [n'] = .ok p)
    (processor : m.cpu = cpu) (limit : m.settings.stepLimit = none)
    (stays : operation.branches = false) (whole : ¬ operation.Divides) :
    ∃ r r', Alone n m r ∧ Alone n' m r' ∧ EndAlike r r' := by
  have respells : ∀ {count found X code}, Expands count n' found X code → Respells n n' found :=
    fun expands => Means.unique means' expands.decoded ▸ other
  obtain ⟨q, found, r, r', step, step', machine, progress, -⟩ := nativeStep_of_respells
    (laid_of_lift lifted) (List.mem_singleton_self n') respells (.refl m) processor limit
  have alone : Alone n m r := ⟨q, found, step⟩
  obtain ⟨missing, ends⟩ := alone.ends processor limit means stays whole
  exact ⟨r, r', alone, ⟨p, lifted, step'⟩, machine, missing, ends, progress ▸ ends.within lifted⟩

/-- Simplified operations end as the operations that they stand for. -/
theorem Operation.Simplifies.endAlike (h : operation.Simplifies operation')
    (means : Means n operation) (means' : Means n' operation') (address : n'.address = n.address)
    {p p' : Program} (lifted : lift [n] = .ok p) (lifted' : lift [n'] = .ok p')
    (processor : m.cpu = cpu) (limit : m.settings.stepLimit = none) :
    ∃ r r', Alone n m r ∧ Alone n' m r' ∧ EndAlike r r' := by
  cases h with
  | sum => exact endAlike_of_respells means ⟨address, means, rfl⟩ means' lifted' processor limit rfl id
  | rotate =>
    exact endAlike_of_respells means ⟨address, means, rfl⟩ means' lifted' processor limit rfl id
  | load =>
    obtain ⟨e, brings⟩ := exists_load processor _ _
    exact endAlike_of_brings means means' address lifted lifted' processor limit
      (fun x => (brings x).1) fun x => (brings x).2
  | move =>
    obtain ⟨e, missing, brings⟩ := exists_move processor _ _ _ _
    refine endAlike_of_brings means means' address lifted lifted' processor limit
      (fun x => ?_) fun x => (brings x).2
    rw [expand_move]
    exact (brings x).1

end Runs

/-! ## Agreement -/

/-- Both spellings stand at the address that they are simplified for. -/
theorem Simplified.addresses {address : Nat} {n n' : NativeInstruction}
    (h : Simplified address n n') : n.address = address ∧ n'.address = address := by
  cases h <;> exact ⟨rfl, rfl⟩

/-- What an instruction does alone, its interpretation does. -/
theorem Alone.interpret {n : NativeInstruction} {m : Machine} {r : Run Unit}
    (h : Alone n m.begun r) {p : Program} (lifted : lift [n] = .ok p) :
    ∃ turns, m.interpret .silent p turns (.ofNative n.address) () = r := by
  obtain ⟨q, found, step⟩ := h
  rw [lifted] at found
  cases found
  exact interpret_of_nativeStep step

/--
A simplified spelling is accepted exactly if the instruction that it stands for is. From any state,
whatever is undefined in it, both run to the same end: both finish, or both fail at the read of the
same undefined register, and everything but temporaries is the same in both states.
-/
theorem simplified_spellings_agree {address : Nat} {n n' : NativeInstruction}
    (h : Simplified address n n') :
    ((∃ p, lift [n] = .ok p) ↔ ∃ p, lift [n'] = .ok p) ∧
      ∀ {p p' : Program}, lift [n] = .ok p → lift [n'] = .ok p' →
        ∀ {m : Machine}, m.cpu = cpu → m.settings.stepLimit = none →
          ∃ turns turns', EndAlike (m.interpret .silent p turns (.ofNative address) ())
            (m.interpret .silent p' turns' (.ofNative address) ()) := by
  refine ⟨h.corresponds.accepts, fun {p p'} lifted lifted' {m} processor limit => ?_⟩
  obtain ⟨rfl, same⟩ := h.addresses
  obtain ⟨operation, means, -⟩ := lift_alone_isOk_iff.1 ⟨p, lifted⟩
  obtain ⟨operation', means', simplifies⟩ := h.corresponds.onward means
  obtain ⟨r, r', alone, alone', alike⟩ :=
    simplifies.endAlike (m := m.begun) means means' same lifted lifted' processor limit
  obtain ⟨turns, ran⟩ := alone.interpret lifted
  obtain ⟨turns', ran'⟩ := alone'.interpret lifted'
  refine ⟨turns, turns', ?_⟩
  rw [ran, ← same, ran']
  exact alike

/-- A shift to the right by nothing. -/
def idleShift : NativeInstruction :=
  ⟨0x100, "srwi.", [.sized .dword (.register "%r3"), .sized .dword (.register "%r4"),
    .immediate 0]⟩

/-- The rotation that it stands for. -/
def idleRotation : NativeInstruction :=
  ⟨0x100, "rlwinm.", [.sized .dword (.register "%r3"), .sized .dword (.register "%r4"),
    .immediate 0, .immediate 0, .immediate 31]⟩

/-- A machine where the source is defined, but not the flag that is recorded with the result. -/
def beforeIdling : Machine :=
  (Machine.start {} cpu).setRegister (gprName 4) 0x80000000 .dword .defined

/-- The amount 32 that a shift by nothing would be is spelled as 0. -/
theorem idleShift_agrees :
    ∃ p p', lift [idleShift] = .ok p ∧ lift [idleRotation] = .ok p' ∧ ∃ turns turns',
      EndAlike (beforeIdling.interpret .silent p turns (.ofNative 0x100) ())
        (beforeIdling.interpret .silent p' turns' (.ofNative 0x100) ()) := by
  have spells : ∀ v : Int, Spells (.immediate v) v := fun v => ⟨_, rfl⟩
  have simplified : Simplified 0x100 idleShift idleRotation :=
    .rotation true .shiftRight (spells 0) (spells 0) (spells 0) (spells 31)
  have expands : Expands 0 idleShift (.rotate 3 4 0 0 31 true) _ _ :=
    ⟨⟨_, (Shift.rotate .shiftRight true).registered, rfl⟩, rfl, rfl⟩
  obtain ⟨p, lifted, -⟩ := expands.lift_alone
  obtain ⟨accepts, agrees⟩ := simplified_spellings_agree simplified
  obtain ⟨p', lifted'⟩ := accepts.1 ⟨p, lifted⟩
  exact ⟨p, p', lifted, lifted', agrees lifted lifted' rfl rfl⟩

end RegisterTransfer.PowerPC

import RegisterTransfer.Proofs.PowerPC.Frames
import RegisterTransfer.Proofs.PowerPC.Terms

/-!
# Calls and returns

A call goes to its target and leaves the address behind itself in the link register; a branch through
a register goes to what the register held before, even if it links. Nothing else changes. So a
subroutine that leaves the link register alone comes back behind its call, with what it does by
itself from the state behind the call.

> `Transfer.nativeStep`: where a transfer goes and what it changes.
> `calls_return`: what follows for whole subroutines.
-/

namespace RegisterTransfer

section Writing

variable {α : Type} {x : Expansion} {m : Machine}

/-- Writing a script does not change the native address. -/
theorem Script.native_run (s : Script α) (x : Expansion) : (s.run x).2.native = x.native := by
  induction s generalizing x with
  | done | fail => rfl
  | allocate _ _ ih | create _ ih => exact ih _ _
  | write _ _ _ _ _ ih | attach _ _ ih | leave _ _ _ ih => exact ih _

/-- Whatever a script does, the native address of its expansion stays. -/
theorem Script.Runs.native {s : Script α} {Q : α → Expansion → Machine → Prop}
    (h : s.Runs x m Q) : s.Runs x m fun a X m' => X.native = x.native ∧ Q a X m' := by
  obtain ⟨a, X, ran, going, q⟩ := h
  have same := s.native_run x
  rw [ran] at same
  exact ⟨a, X, ran, going, same, q⟩

end Writing

namespace PowerPC

open Script

/-! ## Transfers of control -/

/-- Calls and branches through a register. -/
inductive Transfer where
  | call
  /-- If `link` is set, a call too. -/
  | through (register : BranchRegister) (link : Bool)
  deriving DecidableEq, Repr

namespace Transfer

/-- The spelling of a transfer. -/
def mnemonic : Transfer → String
  | call => "bl"
  | through .link false => "blr"
  | through .link true => "blrl"
  | through .count false => "bctr"
  | through .count true => "bctrl"

/-- The form of its operands. -/
def form : Transfer → Form
  | call => .branch true
  | through register link => .branchThrough register link

/-- Whether the address behind it is saved. -/
def links : Transfer → Bool
  | call => true
  | through _ link => link

theorem registered (k : Transfer) : (k.mnemonic, k.form) ∈ forms := by
  rcases k with _ | ⟨_ | _, _ | _⟩ <;> simp [mnemonic, form, forms, controlForms]

/-- Where a transfer goes from a machine. -/
inductive GoesTo (n : NativeInstruction) (m : Machine) : Transfer → Nat → Prop
  | call {t} (written : targetAt cpu.catalog.widthOf n 0 = .ok t) : GoesTo n m call t
  | through {r link v} (value : m.value? r.name = some v) :
    GoesTo n m (through r link) (v % 2 ^ 32)

end Transfer

/-- What is left in the link register at a native address. -/
def returnAddress (native : Nat) : Nat := (native + 4) % 2 ^ 32

/-- The machine behind a call at a native address. -/
def linked (native : Nat) (m : Machine) : Machine :=
  m.setRegister BranchRegister.link.name (returnAddress native) registerWidth .defined

/-- A link is the address of the next native instruction, in the link register. -/
theorem register?_linked {m : Machine} (plain : m.cpu.Plain) (native : Nat) :
    (linked native m).register? BranchRegister.link.name =
      some ⟨returnAddress native, .dword, .defined⟩ := by
  have fits : registerWidth.truncate (returnAddress native) = returnAddress native :=
    Nat.mod_mod _ _
  rw [linked, Machine.register?_setRegister plain, if_pos rfl, RegisterValue.ofNat, fits]
  rfl

/-! ## Scripts -/

section Scripts

variable {x : Expansion} {m : Machine} {o : Operand} {r : BranchRegister} {t v : Nat}

/-- Behind a script control is at a native address. -/
def LeavesTo (x : Expansion) (e : Machine) (t : Nat) (X : Expansion) (g : Journey) : Prop :=
  Leaves x e X g.machine ∧ ∃ place, place.native = x.native ∧
    g.stance = .left place (.ofNative t)

/-- A jump that is always taken. -/
theorem leads_always (plain : m.cpu.Plain) (h : m.Holds x.taken o t)
    (lt : t < registerWidth.modulus) :
    (leaveTo always o).Leads x (.start m) fun _ => LeavesTo x m t := by
  have one : m.Holds x.taken always (Width.byte.truncate 1) := Machine.holds_integer m x.taken 1 _
  refine (leads_leaveTo plain one h).mono fun ⟨leaves, stance⟩ => ⟨leaves, x.here, rfl, ?_⟩
  rw [stance, Width.truncate_of_lt (Nat.lt_of_lt_of_le lt (by decide))]
  rfl

/-- Saving a link leaves the return address in the link register. -/
theorem runs_saveLink (plain : m.cpu.Plain) (native : Nat) :
    (saveLink native).Runs x m fun _ => Leaves x (linked native m) :=
  runs_copy plain _ registerWidth (Machine.holds_integer m x.taken (native + 4) registerWidth)

/-- The link is saved, and then control leaves. -/
theorem leads_linking (plain : m.cpu.Plain) (h : m.Holds x.taken o t)
    (apart : o.kind ≠ .register BranchRegister.link.name) (lt : t < registerWidth.modulus)
    (native : Nat) :
    (saveLink native >>= fun _ => leaveTo always o).Leads x (.start m) fun _ =>
      LeavesTo x (linked native m) t := by
  apply (Runs.native (runs_saveLink plain native)).leads
  intro _ X₁ m₁ ⟨here, saved⟩
  have held := saved.holds (h.set plain apart _ registerWidth .defined)
  exact (leads_always saved.plain held lt).mono fun ⟨left, place, at_native, stance⟩ =>
    ⟨saved.trans left, place, at_native.trans here, stance⟩

/-- A call. -/
theorem leads_call (processor : m.cpu = cpu) (lt : t < registerWidth.modulus) (mnemonic : String)
    (native : Nat) :
    ((Operation.branch true t).expand mnemonic native).Leads x (.start m) fun _ =>
      LeavesTo x (linked native m) t := by
  have there := Machine.holds_integer m x.taken t registerWidth
  rw [Width.truncate_of_lt lt] at there
  exact leads_linking (plain_of_cpu processor) there nofun lt native

/-- A branch through a register, whose value is taken before the link is saved. -/
theorem leads_through (processor : m.cpu = cpu) (value : m.value? r.name = some v) (native : Nat)
    (link : Bool) :
    (expandBranchThrough native r link).Leads x (.start m) fun _ =>
      LeavesTo x (m.when link (linked native)) (v % 2 ^ 32) := by
  have plain := plain_of_cpu processor
  have held := holds_branch processor r (k := x.taken) value
  have lt : v % 2 ^ 32 < registerWidth.modulus := Nat.mod_lt _ (by decide)
  cases link with
  | false => exact leads_always plain held lt
  | true =>
    have saved := Runs.native (Runs.computed (w := registerWidth) plain (.copy held))
    rw [Width.truncate_of_lt lt] at saved
    apply saved.leads (f := fun o => saveLink native >>= fun _ => leaveTo always o)
    intro o X₁ m₁ ⟨here, saved⟩
    have apart := saved.hidden.ne (isTemporary_branchRegister .link)
    refine (leads_linking saved.plain saved.holds apart lt native).mono ?_
    intro _ X₂ g ⟨left, place, at_native, stance⟩
    exact ⟨saved.toLeaves.set left, place, at_native.trans here, stance⟩

end Scripts

/-! ## Native steps -/

section Steps

variable {block : List NativeInstruction} {p : Program} {n : NativeInstruction} {m : Machine}

namespace Transfer

/-- What a transfer leaves: the link register if it links, and everything else as it was. -/
structure Outcome (k : Transfer) (n : NativeInstruction) (m m' : Machine) : Prop where
  link : k.links = true → m'.register? BranchRegister.link.name =
    some ⟨returnAddress n.address, .dword, .defined⟩
  others : m.Alike (if k.links then [BranchRegister.link.name] else []) m'

/-- A machine that is like the linked one has the outcome of the transfer. -/
theorem outcome_of_alike {k : Transfer} {m' : Machine} (processor : m.cpu = cpu)
    (alike : (m.when k.links (linked n.address)).Alike [] m') : k.Outcome n m m' := by
  have plain := plain_of_cpu processor
  unfold Machine.when at alike
  constructor
  · intro wanted
    rw [if_pos wanted] at alike
    have settled := BranchRegister.link.ne_programCounter
    rw [alike.register? (isTemporary_branchRegister .link) (processor ▸ settled) List.not_mem_nil,
      register?_linked plain]
  · split at alike
    · next wanted =>
      rw [if_pos wanted]
      exact (Machine.Alike.of_agreesBut (Machine.agreesBut_setRegister plain ..)).trans
        (alike.of_subset (List.nil_subset _))
    · next unwanted =>
      rw [if_neg unwanted]
      exact alike

/-- The effect of the script of a transfer. -/
theorem leads {k : Transfer} {operation : Operation} {x : Expansion} (processor : m.cpu = cpu)
    (decoded : k.form.decode cpu.catalog.widthOf n = .ok operation)
    (sources : ∀ r link, k = through r link → ∃ v, m.value? r.name = some v) :
    ∃ t, k.GoesTo n m t ∧ (operation.expand n.mnemonic n.address).Leads x (.start m) fun _ =>
      LeavesTo x (m.when k.links (linked n.address)) t := by
  cases k with
  | call =>
    simp only [form, Form.decode, Form.takesConditionField, Form.read, Except.bind_eq_ok] at decoded
    obtain ⟨_, -, t, written, e⟩ := decoded
    cases e
    exact ⟨t, .call written, leads_call processor (targetAt_lt written) ..⟩
  | through r link =>
    simp only [form, Form.decode, Form.takesConditionField, Form.read, Except.bind_eq_ok] at decoded
    obtain ⟨_, -, e⟩ := decoded
    cases e
    obtain ⟨v, value⟩ := sources r link rfl
    exact ⟨v % 2 ^ 32, .through value, leads_through processor value n.address link⟩

/-- The native step of a transfer. -/
theorem nativeStep (k : Transfer) (named : n.mnemonic = k.mnemonic) (lifted : lift block = .ok p)
    (mem : n ∈ block) (processor : m.cpu = cpu) (limit : m.settings.stepLimit = none)
    (sources : ∀ r link, k = through r link → ∃ v, m.value? r.name = some v) :
    ∃ t r, k.GoesTo n m t ∧ Run.NativeStep p ⟨m, (), .running (.ofNative n.address)⟩ r ∧
      (∃ place, place.native = n.address ∧ r.progress = if p.contains (.ofNative t) then
        .running (.ofNative t) else .failed (.unmappedTarget place (.ofNative t))) ∧
      (m.when k.links (linked n.address)).Alike [] r.machine := by
  obtain ⟨count, operation, X, code, expands, leads⟩ := nativeStep_of_leads lifted mem
  obtain ⟨form, registered, decodes⟩ := expands.decoded
  obtain rfl := form_unique (named ▸ registered) k.registered
  obtain ⟨t, goes, effect⟩ := k.leads (x := blank count n) processor decodes sources
  obtain ⟨_, Y, ran, leaves, place, at_native, stance⟩ := effect
  obtain ⟨r, step, progress, keeps⟩ := leads limit ⟨_, Y, ran, congrArg _ stance, leaves⟩
  exact ⟨t, r, goes, step, ⟨place, at_native, progress⟩, .of_keeps keeps⟩

end Transfer

end Steps

/-! ## Subroutines -/

/--
A path from a native address to a return. It leaves the link register alone, and takes one machine to
another.
-/
structure Subroutine (block : List NativeInstruction) (p : Program) (t : Nat)
    (visited : List NativeInstruction) (back : NativeInstruction) (m m' : Machine) : Prop where
  travels : Travels block p visited ⟨m, (), .running (.ofNative t)⟩
    ⟨m', (), .running (.ofNative back.address)⟩
  kept : ∀ i ∈ visited, ¬ Writes .link i
  inside : back ∈ block
  named : back.mnemonic = "blr"

/--
Along a path the run comes from an instruction to the address four bytes on, which is also in the link
register; apart from `hidden` registers the machine is then as `e`.
-/
def Resumes (block : List NativeInstruction) (p : Program) (path : List NativeInstruction)
    (n : NativeInstruction) (hidden : List String) (m e : Machine) : Prop :=
  ∃ s, Travels block p path ⟨m, (), .running (.ofNative n.address)⟩ s ∧
    s.progress = .running (.ofNative (n.address + 4)) ∧
    s.machine.register? BranchRegister.link.name = some ⟨n.address + 4, .dword, .defined⟩ ∧
    e.Alike hidden s.machine

section Subroutines

variable {block visited : List NativeInstruction} {p : Program} {n back after : NativeInstruction}
  {m e e' : Machine} {s : Run Unit} {t : Nat}

/-- A path begins inside the block. -/
theorem Subroutine.contains (h : Subroutine block p t visited back m e) (laid : Laid block p) :
    p.contains (.ofNative t) := by
  have start : ∀ {r s : Run Unit}, Travels block p visited r s →
      s.progress = .running (.ofNative back.address) → r.progress = .running (.ofNative t) →
      p.contains (.ofNative t) := by
    intro r s travels ends begins
    cases travels with
    | stay =>
      rw [ends] at begins
      cases begins
      exact laid.contains h.inside
    | go mem =>
      cases begins
      exact laid.contains mem
  exact start h.travels rfl rfl

/-- A return goes to what the link register holds. -/
theorem nativeStep_return (lifted : lift block = .ok p) (inside : back ∈ block)
    (named : back.mnemonic = "blr") (mem : after ∈ block) (next : after.address = n.address + 4)
    (low : after.address < 2 ^ 32) (processor : m.cpu = cpu)
    (limit : m.settings.stepLimit = none) (link : m.register? BranchRegister.link.name =
      some ⟨returnAddress n.address, .dword, .defined⟩) :
    ∃ s, Run.NativeStep p ⟨m, (), .running (.ofNative back.address)⟩ s ∧
      s.progress = .running (.ofNative (n.address + 4)) ∧ m.Alike [] s.machine := by
  have value : m.value? BranchRegister.link.name = some (returnAddress n.address) := by
    rw [Machine.value?, link]
    rfl
  obtain ⟨t, s, goes, step, ⟨place, -, progress⟩, alike⟩ :=
    Transfer.nativeStep (.through .link false) named lifted inside processor limit fun r link e => by
      cases e
      exact ⟨_, value⟩
  cases goes with
  | through value' =>
    obtain rfl := Option.some.inj (value.symm.trans value')
    -- the address behind the call has 32 bits, so that it comes back as it was saved
    have whole : returnAddress n.address % 2 ^ 32 = after.address := by
      unfold returnAddress
      omega
    rw [whole, if_pos ((laid_of_lift lifted).contains mem), next] at progress
    exact ⟨s, step, progress, alike⟩

/-- A call of a subroutine that goes on alike, step by step, from behind the call. -/
theorem Subroutine.resumes {hidden : List String} (h : Subroutine block p t visited back e e')
    (lifted : lift block = .ok p) (mem : n ∈ block) (named : n.mnemonic = "bl")
    (target : targetAt cpu.catalog.widthOf n 0 = .ok t) (mem' : after ∈ block)
    (next : after.address = n.address + 4) (low : after.address < 2 ^ 32) (processor : m.cpu = cpu)
    (limit : m.settings.stepLimit = none) (alike : e.Alike hidden (linked n.address m))
    (each : ∀ i ∈ visited, ∀ {m m' : Machine} {r : Run Unit}, m.cpu = cpu →
      m.settings.stepLimit = none → m.Alike hidden m' →
      Run.NativeStep p ⟨m, (), .running (.ofNative i.address)⟩ r →
      ∃ r', Run.NativeStep p ⟨m', (), .running (.ofNative i.address)⟩ r' ∧
        r'.progress = r.progress ∧ r.machine.Alike hidden r'.machine) :
    Resumes block p (n :: (visited ++ [back])) n hidden m e' := by
  have laid := laid_of_lift lifted
  have processor₀ : e.cpu = cpu := alike.cpu.symm.trans processor
  have limit₀ : e.settings.stepLimit = none := alike.settings ▸ limit
  -- the call goes to the beginning of the subroutine
  obtain ⟨t', r, goes, step, ⟨place, -, progress⟩, linked⟩ :=
    Transfer.call.nativeStep named lifted mem processor limit nofun
  cases goes with
  | call written =>
    obtain rfl := Except.ok.inj (target.symm.trans written)
    rw [if_pos (h.contains laid)] at progress
    have alike₁ := alike.trans (linked.of_subset (List.nil_subset _))
    obtain ⟨r', travels, ends, alike₂⟩ :=
      h.travels.transport each processor₀ limit₀ progress alike₁
    -- behind the subroutine the link register is as the call has left it
    have setup := setup_of_nativeStep step
    have setup' := travels.setup
    have processor₁ : r.machine.cpu = cpu := setup.cpu.trans processor
    have limit₁ : r.machine.settings.stepLimit = none := setup.settings ▸ limit
    have kept := travels.register? laid processor₁ limit₁ h.kept
    have saved := (Transfer.call.outcome_of_alike processor linked).link rfl
    obtain ⟨s, step', progress', alike₃⟩ := nativeStep_return lifted h.inside h.named mem' next low
      (setup'.cpu.trans processor₁) (setup'.settings ▸ limit₁) (kept.trans saved)
    have at_return := Run.eq_of_progress ends
    refine ⟨s, ?_, progress', ?_, alike₂.trans (alike₃.of_subset (List.nil_subset _))⟩
    · exact .go mem step (travels.append (at_return ▸ .go h.inside step' (.stay s)))
    · have settled := BranchRegister.link.ne_programCounter
      have fits : returnAddress n.address = n.address + 4 := by
        unfold returnAddress
        omega
      rw [alike₃.register? (isTemporary_branchRegister .link)
        ((setup'.cpu.trans processor₁).symm ▸ settled) List.not_mem_nil, kept, saved, fits]

end Subroutines

/--
A call saves the address behind it and goes to its target, and a branch through a register goes to
what the register held before; the run is over where there is no instruction. Nothing else changes.
So a call of a subroutine comes back behind the call, with what the subroutine leaves when it starts
behind the call, or, if it does not read the link register, when it starts in place of the call.
-/
theorem calls_return {block : List NativeInstruction} {p : Program} (lifted : lift block = .ok p)
    (low : ∀ i ∈ block, i.address < 2 ^ 32) {n : NativeInstruction} (mem : n ∈ block) {m : Machine}
    (processor : m.cpu = cpu) (limit : m.settings.stepLimit = none) :
    (∀ k : Transfer, n.mnemonic = k.mnemonic →
      (∀ r link, k = .through r link → ∃ v, m.value? r.name = some v) →
      ∃ t s, k.GoesTo n m t ∧ Run.NativeStep p ⟨m, (), .running (.ofNative n.address)⟩ s ∧
        (∃ place, place.native = n.address ∧ s.progress = if p.contains (.ofNative t) then
          .running (.ofNative t) else .failed (.unmappedTarget place (.ofNative t))) ∧
        k.Outcome n m s.machine) ∧
    ∀ t, n.mnemonic = "bl" → targetAt cpu.catalog.widthOf n 0 = .ok t →
      ∀ after ∈ block, after.address = n.address + 4 → ∀ visited back e,
        (Subroutine block p t visited back (linked n.address m) e →
          Resumes block p (n :: (visited ++ [back])) n [] m e) ∧
        (Subroutine block p t visited back m e → (∀ i ∈ visited, ¬ Reads .link i) →
          Resumes block p (n :: (visited ++ [back])) n [BranchRegister.link.name] m e) := by
  have laid := laid_of_lift lifted
  refine ⟨fun k named sources => ?_, fun t named target after mem' next visited back e => ⟨?_, ?_⟩⟩
  · obtain ⟨t, s, goes, step, progress, alike⟩ :=
      k.nativeStep named lifted mem processor limit sources
    exact ⟨t, s, goes, step, progress, k.outcome_of_alike processor alike⟩
  · intro routine
    refine routine.resumes lifted mem named target mem' next (low after mem') processor limit
      (.refl [] _) fun i visited' => ?_
    exact step_of_alike laid (routine.travels.inside i visited')
  · intro routine unread
    -- a subroutine that starts in place of the call finds another link, and nothing else
    have apart : m.Alike [BranchRegister.link.name] (linked n.address m) :=
      .of_agreesBut (Machine.agreesBut_setRegister (plain_of_cpu processor) ..)
    refine routine.resumes lifted mem named target mem' next (low after mem') processor limit
      apart fun i visited' => ?_
    intro m m' r processor limit
    exact step_of_unused laid (routine.travels.inside i visited') processor limit (unread i visited')
      (routine.kept i visited')

/-- Loads a number. -/
def answer : NativeInstruction :=
  ⟨0x108, "li", [.sized .dword (.register "%r3"), .immediate 42]⟩

/-- A call of a subroutine that loads a number, with something behind the call. -/
def callingBlock : List NativeInstruction :=
  [⟨0x100, "bl", [.immediate 0x108]⟩, ⟨0x104, "nop", []⟩, answer, ⟨0x10C, "blr", []⟩]

theorem means_answer : Means answer (.loadConstant 3 42) :=
  ⟨.loadConstant false, by simp [answer, forms, sumForms], rfl⟩

theorem expands_callingBlock :
    ∀ n ∈ callingBlock, ∃ operation X code, Expands 0 n operation X code := by
  intro n mem
  simp only [callingBlock, List.mem_cons, List.not_mem_nil, or_false] at mem
  rcases mem with rfl | rfl | rfl | rfl
  · exact ⟨.branch true 0x108, _, _, ⟨_, Transfer.call.registered, rfl⟩, rfl, rfl⟩
  · exact ⟨.nop, _, _, ⟨.nop, by simp [forms, logicForms], rfl⟩, rfl, rfl⟩
  · exact ⟨_, _, _, means_answer, rfl, rfl⟩
  · exact ⟨.branchThrough .link false, _, _,
      ⟨_, (Transfer.through .link false).registered, rfl⟩, rfl, rfl⟩

/-- The subroutine by itself. -/
theorem subroutine_answer {p : Program} (lifted : lift callingBlock = .ok p) {m : Machine}
    (processor : m.cpu = cpu) (limit : m.settings.stepLimit = none) :
    ∃ e, Subroutine callingBlock p 0x108 [answer] ⟨0x10C, "blr", []⟩ m e ∧ e.cpu = cpu ∧
      e.register? (gprName 3) = some ⟨42, .dword, .defined⟩ := by
  have plain := plain_of_cpu processor
  have mem : answer ∈ callingBlock := by decide
  have inside : ⟨0x10C, "blr", []⟩ ∈ callingBlock := by decide
  obtain ⟨count, leads⟩ := nativeStep_of_means lifted mem means_answer
  have number := Machine.holds_signed m (blank count answer).taken 42 registerWidth
  have loads := runs_copy plain (gprName 3) registerWidth number
  obtain ⟨r, step, progress, keeps⟩ := leads limit (loads.onward p answer.address)
  have above : p.nativeAbove? answer.address = some 0x10C := by
    apply (laid_of_lift lifted).nativeAbove?_eq_some inside (by decide)
    decide
  have ends : r = ⟨r.machine, (), .running (.ofNative 0x10C)⟩ := by
    refine Run.eq_of_progress (progress.trans ?_)
    simp only [Progress.within, above]
  refine ⟨r.machine, ⟨.go mem step (ends ▸ .stay r), ?_, inside, rfl⟩, keeps.cpu.trans processor, ?_⟩
  · rintro i visited ⟨operation, found, writes⟩
    obtain rfl := List.mem_singleton.1 visited
    obtain rfl := found.unique means_answer
    cases writes
  · rw [keeps.register? (processor ▸ not_scratch_gpr 3 count), Machine.register?_setRegister plain,
      if_pos rfl]
    rfl

/-- The call comes back with the number, from a machine with nothing in it. -/
theorem callingBlock_returns :
    ∃ p, lift callingBlock = .ok p ∧ ∃ turns,
      let run := (Machine.start {} cpu).interpret .silent p turns (.ofNative 0x100) ()
      run.progress = .running (.ofNative 0x104) ∧
        run.machine.register? (gprName 3) = some ⟨42, .dword, .defined⟩ ∧
        run.machine.register? BranchRegister.link.name = some ⟨0x104, .dword, .defined⟩ := by
  let m : Machine := (Machine.start {} cpu).begun
  obtain ⟨p, lifted⟩ := lift_isOk expands_callingBlock (by decide)
  obtain ⟨e, routine, processor, result⟩ := subroutine_answer lifted (m := m) rfl rfl
  have unread : ∀ i ∈ [answer], ¬ Reads .link i := by
    rintro i visited ⟨operation, found, reads⟩
    obtain rfl := List.mem_singleton.1 visited
    obtain rfl := found.unique means_answer
    cases reads
  obtain ⟨-, calls⟩ := calls_return lifted (by decide) (n := ⟨0x100, "bl", [.immediate 0x108]⟩)
    (by decide) (m := m) rfl rfl
  have target : targetAt cpu.catalog.widthOf ⟨0x100, "bl", [.immediate 0x108]⟩ 0 = .ok 0x108 := rfl
  obtain ⟨s, travels, arrives, link, alike⟩ :=
    (calls _ rfl target ⟨0x104, "nop", []⟩ (by decide) rfl _ _ _).2 routine unread
  obtain ⟨turns, there⟩ := travels.interpret
  refine ⟨p, lifted, turns, ?_⟩
  rw [there]
  refine ⟨arrives, ?_, link⟩
  rw [alike.register? (isTemporary_gprName 3) (processor ▸ gprName_ne_programCounter 3) (by decide),
    result]

end PowerPC

end RegisterTransfer

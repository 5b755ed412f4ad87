import RegisterTransfer.Proofs.Effects

/-!
# Reads of undefined registers

A register is defined, or undefined registers read as zero, or it cannot be read: then the first
instruction that reads it fails, and nothing behind that instruction is executed.

> `Machine.holds_or_lacks`: a register can be read, or it cannot.
> `Script.leads_lacking`, `Script.leads_stuck`: what reads a register that cannot be read fails.
-/

namespace RegisterTransfer

namespace Machine

variable {m m' : Machine} {n : Nat} {name : String}

/-- A register that cannot be read. -/
structure Lacks (m : Machine) (name : String) : Prop where
  undefined : m.value? name = none
  mode : m.settings.undefinedReads = .fail

/-- The read of a register that is lacking fails, and names it. -/
theorem Lacks.source (h : m.Lacks name) (w : Width) (place : Address) :
    m.source place (.register name w) = .error (.undefinedRead name place) := by
  simp only [Machine.source, Operand.register, h.undefined, h.mode]

/-- Only scratch registers come and go behind a script, so what is lacking stays so. -/
theorem Lacks.keep (h : m.Lacks name) (keeps : m.Keeps n m') (settled : ¬ m.cpu.Scratch n name) :
    m'.Lacks name :=
  ⟨(keeps.value? settled).trans h.undefined, keeps.settings ▸ h.mode⟩

/-- A register that is not written still cannot be read. -/
theorem Lacks.set (h : m.Lacks name) (plain : m.cpu.Plain) {other : String} (ne : name ≠ other)
    (v : Nat) (w : Width) (status : RegisterStatus) : (m.setRegister other v w status).Lacks name :=
  ⟨(value?_congr ((register?_setRegister plain ..).trans (if_neg ne))).trans h.undefined, h.mode⟩

/-- A register can be read, or it cannot. -/
theorem holds_or_lacks (m : Machine) (name : String) (w : Width) :
    (∃ v, ∀ {n}, ¬ m.cpu.Scratch n name → m.Holds n (.register name w) v) ∨ m.Lacks name := by
  cases value : m.value? name with
  | some v => exact .inl ⟨_, fun settled => holds_register value settled w⟩
  | none =>
    cases mode : m.settings.undefinedReads with
    | fail => exact .inr ⟨value, mode⟩
    | zero =>
      refine .inl ⟨0, fun settled => ⟨fun place => ?_, fun e => ?_⟩⟩
      · simp only [Machine.source, Operand.register, value, mode]
      · cases e
        exact settled

/-- An instruction reads its first operand before anything else. -/
def ReadsFirst (opcode : Opcode) (a b : Operand) (w : Width) : Prop :=
  opcode = .str ∨ opcode.combines ∧ opcode.Fits a.width b.width w

/-- Where the first operand cannot be read, that is how the instruction fails. -/
theorem ReadsFirst.outcome {opcode : Opcode} {a b : Operand} {w : Width} {place : Address}
    {f : Fault Address} (h : ReadsFirst opcode a b w) (read : m.source place a = .error f)
    (name : String) : m.outcome ⟨place, opcode, a, b, .register name w, none⟩ = .error f := by
  rcases h with rfl | ⟨two, fits⟩
  · simp only [Machine.outcome, read, Except.map]
  · rw [outcome_of_combines two, combine_of_fits fits]
    dsimp only
    rw [read]
    rfl

theorem ReadsFirst.writesRegister {opcode : Opcode} {a b : Operand} {w : Width}
    (h : ReadsFirst opcode a b w) : opcode.writesRegister := by
  rcases h with rfl | ⟨two, -⟩
  · rfl
  · cases opcode <;> first | rfl | cases two

end Machine

/-- Control is still going on, or has come to the read of a register. -/
def Stance.Meets (missing : Option String) (s : Stance) : Prop :=
  match missing with
  | none => s = .going
  | some name => ∃ place, s = .failed (.undefinedRead name place)

/-- Behind a script the machine is `e`, but for scratch registers, unless a register was missing. -/
def Brings (x : Expansion) (e : Machine) (missing : Option String) (X : Expansion) (g : Journey) :
    Prop :=
  Leaves x e X g.machine ∧ g.stance.Meets missing

namespace Script

variable {x : Expansion} {m e : Machine} {name target : String} {opcode : Opcode} {b : Operand}
  {w v : Width}

/-- A script that runs to its end meets no missing register. -/
theorem Runs.brings {α : Type} {s : Script α} {X : Expansion} (h : s.Runs X m fun _ => Leaves x e) :
    s.Leads X (.start m) fun _ => Brings x e none :=
  Leads.mono h fun ⟨going, leaves⟩ => ⟨leaves, going⟩

/-- An instruction fails if its first operand cannot be read. -/
theorem leads_lacking (plain : m.cpu.Plain) (lacks : m.Lacks name)
    (settled : ¬ m.cpu.Scratch x.taken name)
    (first : Machine.ReadsFirst opcode (.register name v) b w) :
    (emit opcode (.register name v) b (.register target w)).Leads x (.start m) fun _ =>
      Brings x m (some name) := by
  have sync := Machine.keeps_syncProgramCounter plain x.taken x.native
  have read : (m.syncProgramCounter x.here.native).source x.here (.register name v) =
      .error (.undefinedRead name x.here) := (lacks.keep sync settled).source v x.here
  refine ⟨(), _, rfl, ?_⟩
  rw [walk_emit]
  simp only [Journey.perform, Journey.start]
  rw [Journey.after_outcome target first.writesRegister rfl, first.outcome read target]
  exact ⟨⟨Nat.le_refl _, sync⟩, x.here, rfl⟩

/-- Behind a register that cannot be read, code without labels is skipped. -/
theorem leads_skipped {α : Type} {s : Script α} {f : α → Script Unit} {g : Journey}
    (h : s.Leads x g fun _ => Brings x e (some name)) (straight : ∀ a, (f a).Straight) :
    (s >>= f).Leads x g fun _ => Brings x e (some name) := by
  refine h.bind fun {a X g'} ⟨leaves, place, stance⟩ => ?_
  have past : g'.stance ≠ .going := by
    rw [stance]
    exact nofun
  refine ((straight a).skips past).mono fun ⟨taken, same⟩ => ?_
  subst same
  exact ⟨⟨Nat.le_trans leaves.taken taken, leaves.keeps⟩, place, stance⟩

/-- Whatever follows an instruction whose first operand cannot be read is skipped. -/
theorem leads_stuck {f : Operand → Script Unit} (plain : m.cpu.Plain) (lacks : m.Lacks name)
    (settled : ∀ n, ¬ m.cpu.Scratch n name)
    (first : Machine.ReadsFirst opcode (.register name v) b w) (straight : ∀ o, (f o).Straight) :
    (temporary w >>= fun o => emit opcode (.register name v) b o >>= fun _ => f o).Leads x (.start m)
      fun _ => Brings x m (some name) := by
  have fails : (emit opcode (.register name v) b (.register (temporaryName x.taken) w)).Leads
      (x.temporary w).2 (.start m) fun _ => Brings (x.temporary w).2 m (some name) :=
    leads_lacking plain lacks (settled _) first
  obtain ⟨a, X, ran, leaves, missing⟩ := leads_skipped fails fun _ => straight _
  have less : x.taken ≤ (x.temporary w).2.taken := Nat.le_succ _
  exact ⟨a, X, ran, ⟨Nat.le_trans less leaves.taken, leaves.keeps.of_le less⟩, missing⟩

end Script

end RegisterTransfer

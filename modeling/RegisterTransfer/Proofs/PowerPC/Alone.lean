import RegisterTransfer.Proofs.Effects
import RegisterTransfer.Proofs.PowerPC.NativeStep

/-!
# One instruction, run to its end

A program that is lifted from one instruction, started there. If the script of its operation runs to
its end, so does the program, and what it does to registers and memory is what the script does.

> `nativeStep_of_leads`: the native step of an instruction of a block, where its script leads.
> `interpret_alone`: the run of one lifted instruction has the effect of its script.
-/

namespace RegisterTransfer

/-- The machine as a run finds it. -/
def Machine.begun (m : Machine) : Machine := { m with counters := {} }

/-- A machine as a run finds it differs in its counters only. -/
theorem Machine.keeps_begun {m : Machine} (plain : m.cpu.Plain) (n : Nat) : m.Keeps n m.begun :=
  ⟨plain, rfl, rfl, rfl, fun _ => rfl⟩

/-- A `nop` at the end of an expansion changes scratch registers only. -/
theorem Expansion.conclude_keeps (X : Expansion) (g : Journey) (plain : g.machine.cpu.Plain)
    (n : Nat) :
    (X.conclude g).stance = g.stance ∧ g.machine.Keeps n (X.conclude g).machine := by
  unfold conclude
  split
  · cases going : g.stance with
    | going =>
      have opened : g.perform ⟨X.here, .nop, .absent, .absent, .absent, none⟩ =
          ⟨(g.machine.syncProgramCounter X.here.native).counted, .going⟩ := by
        rw [Journey.perform, going]
        exact Journey.after_nop rfl
      rw [opened]
      exact ⟨rfl, (Machine.keeps_syncProgramCounter plain n _).counted⟩
    | seeking | halted | left | failed =>
      have past : g.stance ≠ .going := by simp [going]
      rw [Journey.perform_of_ne_going past]
      exact ⟨going, .refl plain n⟩
  · exact ⟨rfl, .refl plain n⟩

/-! ## Behind the code -/

/-- How a run goes on behind the code of the instruction at a native address. -/
def Stance.progress (p : Program) (native : Nat) : Stance → Progress
  | .going | .seeking _ => Progress.within p native .finished
  | .halted => .finished
  | .left place t => if p.contains t then .running t else .failed (.unmappedTarget place t)
  | .failed f => .failed f

/-- Looking up where control goes changes scratch registers only. -/
theorem Placed.settle_progress {p : Program} {native : Nat} {code : List Instruction}
    (placed : Placed p native code) (grounded : p.Grounded) (g : Journey)
    (plain : g.machine.cpu.Plain) (n : Nat) :
    (g.settle p ⟨native, code.length - 1⟩).progress = g.stance.progress p native ∧
      g.machine.Keeps n (g.settle p ⟨native, code.length - 1⟩).machine := by
  have same : g.machine.Keeps n g.machine := .refl plain n
  unfold Journey.settle
  cases g.stance with
  | going | seeking =>
    dsimp only
    rw [placed.follow_last grounded]
    exact ⟨rfl, same⟩
  | halted | failed => exact ⟨rfl, same⟩
  | left place t =>
    dsimp only [Stance.progress]
    split
    · exact ⟨rfl, same.plain, rfl, rfl, rfl, fun _ => rfl⟩
    · exact ⟨rfl, same⟩

/-- Behind a script that runs to its end, control goes on behind the code. -/
theorem Script.Runs.onward {s : Script Unit} {x : Expansion} {m e : Machine}
    (h : s.Runs x m fun _ => Leaves x e) (p : Program) (native : Nat) :
    s.Leads x (.start m) fun _ X g =>
      g.stance.progress p native = Progress.within p native .finished ∧ Leaves x e X g.machine :=
  Script.Leads.mono h fun ⟨going, leaves⟩ =>
    ⟨congrArg (Stance.progress p native) going, leaves⟩

/-- Telling the silent observer that a run is over does nothing. -/
theorem Run.conclude_silent (r : Run Unit) : r.conclude .silent = r := by
  unfold conclude
  split <;> rfl

namespace PowerPC

/-- A mnemonic has one form. -/
theorem form_unique {mnemonic : String} {form form' : Form} (h : (mnemonic, form) ∈ forms)
    (h' : (mnemonic, form') ∈ forms) : form = form' := by
  have same := List.inj_on_of_nodup_map nodup_mnemonics h h' rfl
  injection same

/--
The native step of an instruction of a block leads where its script leads, and has its effect. The
script may end at the end of the code or by a jump out of it.
-/
theorem nativeStep_of_leads {block : List NativeInstruction} {p : Program}
    (lifted : lift block = .ok p) {n : NativeInstruction} (mem : n ∈ block) :
    ∃ count operation X code, Expands count n operation X code ∧
      ∀ {m e : Machine} {q : Progress}, m.settings.stepLimit = none →
        ((operation.expand n.mnemonic n.address).Leads (blank count n) (.start m) fun _ X g =>
          g.stance.progress p n.address = q ∧ Leaves (blank count n) e X g.machine) →
        ∃ r, Run.NativeStep p ⟨m, (), .running (.ofNative n.address)⟩ r ∧
          r.progress = q ∧ e.Keeps count r.machine := by
  have laid := laid_of_lift lifted
  obtain ⟨count, operation, X, code, expands, placed⟩ := laid.placed n mem
  refine ⟨count, operation, X, code, expands, ?_⟩
  intro m e q limit leads
  obtain ⟨_, Y, ran, onward, leaves⟩ := leads
  rw [expands.ran] at ran
  cases ran
  -- neither the last `nop` nor the turn out of the code undoes what the script has done
  obtain ⟨stance', keeps⟩ := X.conclude_keeps
    ((operation.expand n.mnemonic n.address).walk (blank count n) (.start m)) leaves.plain count
  obtain ⟨progress, keeps'⟩ := placed.settle_progress laid.grounded
    (Expands.journey count n operation X m) keeps.plain' count
  refine ⟨_, expands.nativeStep placed laid.grounded limit, ?_, ?_⟩
  · rw [progress, Expands.journey, stance', onward]
  · exact (leaves.keeps.trans keeps).trans keeps'

/-- A native step is a number of turns. -/
theorem interpret_of_nativeStep {p : Program} {entry : Address} {m : Machine} {r : Run Unit}
    (step : Run.NativeStep p ⟨m.begun, (), .running entry⟩ r) :
    ∃ turns, m.interpret .silent p turns entry () = r := by
  obtain ⟨turns, there⟩ := step.advance
  have ends : Run.advance .silent p (turns + 1) (Run.begin .silent entry m ()) = r := by
    rw [Run.advance_succ]
    exact there
  exact ⟨turns + 1, by rw [Machine.interpret, ends, Run.conclude_silent]⟩

/-- A native step behind some turns is a number of further turns. -/
theorem interpret_of_nativeStep_next {p : Program} {entry next : Address} {m m' : Machine}
    {r : Run Unit} {turns : Nat}
    (reached : m.interpret .silent p turns entry () = ⟨m', (), .running next⟩)
    (step : Run.NativeStep p ⟨m', (), .running next⟩ r) :
    ∃ turns', m.interpret .silent p (turns + turns') entry () = r := by
  obtain ⟨more, there⟩ := step.advance
  rw [Machine.interpret, Run.conclude_silent] at reached
  refine ⟨more + 1, ?_⟩
  rw [Machine.interpret, Run.conclude_silent, Run.advance_add, reached, Run.advance_succ]
  exact there

/-- The run of one lifted instruction has the effect of its script. -/
theorem interpret_expanded {n : NativeInstruction} {p : Program} (lifted : lift [n] = .ok p) :
    ∃ count operation X code, Expands count n operation X code ∧
      ∀ {m e : Machine}, m.settings.stepLimit = none →
        ((operation.expand n.mnemonic n.address).Runs (blank count n) m.begun fun _ =>
          Leaves (blank count n) e) →
        ∃ turns, (m.interpret .silent p turns (.ofNative n.address) ()).progress = .finished ∧
          e.Keeps count (m.interpret .silent p turns (.ofNative n.address) ()).machine := by
  obtain ⟨count, operation, X, code, expands, lead⟩ :=
    nativeStep_of_leads lifted (List.mem_singleton_self n)
  refine ⟨count, operation, X, code, expands, ?_⟩
  intro m e limit runs
  obtain ⟨r, step, progress, keeps⟩ := lead (m := m.begun) limit (runs.onward p n.address)
  obtain ⟨turns, ran⟩ := interpret_of_nativeStep step
  -- nothing else is in the program
  have nothing : p.nativeAbove? n.address = none := by
    rw [Program.nativeAbove?_eq_none_iff]
    intro a there
    obtain ⟨other, mem, address⟩ := (laid_of_lift lifted).covered there
    exact Nat.le_of_eq (by rw [← address, List.mem_singleton.1 mem])
  refine ⟨turns, ?_, ran ▸ keeps⟩
  rw [ran, progress]
  simp only [Progress.within, nothing]

/-- The run of one lifted instruction has the effect of its script, once its form is known. -/
theorem interpret_alone {n : NativeInstruction} {p : Program} (lifted : lift [n] = .ok p) :
    ∃ count operation,
      (∃ form, (n.mnemonic, form) ∈ forms ∧ form.decode cpu.catalog.widthOf n = .ok operation) ∧
      ∀ {m e : Machine}, m.cpu = cpu → m.settings.stepLimit = none →
        ((operation.expand n.mnemonic n.address).Runs (blank count n) m.begun fun _ =>
          Leaves (blank count n) e) →
        ∃ turns, (m.interpret .silent p turns (.ofNative n.address) ()).progress = .finished ∧
          e.Keeps count (m.interpret .silent p turns (.ofNative n.address) ()).machine := by
  obtain ⟨count, operation, X, code, expands, run⟩ := interpret_expanded lifted
  exact ⟨count, operation, expands.decoded, fun _ limit runs => run limit runs⟩

end PowerPC

end RegisterTransfer

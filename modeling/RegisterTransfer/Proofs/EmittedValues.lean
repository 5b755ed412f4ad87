import RegisterTransfer.Proofs.Counters
import RegisterTransfer.Proofs.Evaluation

/-!
# Emitted values

What a computation hands on when it is written behind an expansion and its code is run by itself: a
temporary that was taken on the way and holds the value in the end. The operands may be any that the
first of the instructions can read, the program counter included.

> `Script.Calculates.emits`: what is known of a computation whose operands hold their values, for a run
> of its code.
> `Script.Calculates.emits_value`: a run of the code of a computed value leaves it in a temporary.
-/

namespace RegisterTransfer

/-- A temporary that was taken on the way from one expansion to another. -/
def Expansion.Took (x X : Expansion) (w : Width) (o : Operand) : Prop :=
  ∃ k, x.taken ≤ k ∧ k < X.taken ∧ o = .register (temporaryName k) w

/-- A temporary taken on a part of the way was taken on the whole of it. -/
theorem Expansion.Took.mono {x x' X X' : Expansion} {w : Width} {o : Operand} (h : x.Took X w o)
    (le : x'.taken ≤ x.taken) (le' : X.taken ≤ X'.taken) : x'.Took X' w o := by
  obtain ⟨k, above, below, same⟩ := h
  exact ⟨k, Nat.le_trans le above, Nat.lt_of_lt_of_le below le', same⟩

namespace Machine

variable {m m' f : Machine} {x X : Expansion} {o : Operand} {w : Width} {v : Nat} {name : String}

/-- A temporary that was taken on the way holds a value. -/
structure Delivers (f : Machine) (x X : Expansion) (w : Width) (v : Nat) (o : Operand) : Prop where
  took : x.Took X w o
  source : ∀ place, f.source place o = .ok v

/-- A value in a temporary, on the machine whose processor counts in its own register. -/
theorem delivers_of_holds (h : (m'.countingIn name).Holds X.taken o v) (plain : f.cpu.Plain)
    (agrees : (f.syncProgramCounter X.native).AgreesBut name m') (took : x.Took X w o) :
    f.Delivers x X w v o := by
  -- a temporary is not the program counter, so it does not matter whether that is up to date
  have ne : o.kind ≠ .register f.cpu.programCounter := by
    obtain ⟨k, -, -, same⟩ := took
    rw [same]
    exact Operand.kind_temporary_ne plain.programCounter k w
  have synced := agreesBut_setRegister plain f.cpu.programCounter X.native
    f.cpu.programCounterWidth .defined
  have read := (h.supplies agrees).source
  rw [Machine.syncProgramCounter, synced.source ne] at read
  exact ⟨took, source_of_ok read⟩

/--
A machine runs to its end what a script writes behind an expansion, which is all of the code if
nothing was written before. The result, the expansion and the machine that it leaves are in `Q`.
-/
def Emits {α : Type} (m : Machine) (x : Expansion) (s : Script α)
    (Q : α → Expansion → Machine → Prop) : Prop :=
  ∃ a X f, s.run x = (.ok a, X) ∧ m.Completes x X f ∧
    (x.drafts = [] → x.labels = [] → X.finish = .ok (x.codeBehind X)) ∧ Q a X f

end Machine

namespace Script.Calculates

variable {α : Type} {s : Script α} {x : Expansion} {m : Machine} {w : Width} {v : Nat}

/--
What is known of a calculation on machines where its operands hold their values, said of a run of its
code from a machine that supplies them. What is held in the end by a temporary that was taken on the
way is delivered.
-/
theorem emits (supplied : List (Operand × Nat)) {P : Machine → α → Expansion → Machine → Prop}
    {Q : α → Expansion → Machine → Prop} {T : α → Expansion → Prop} (h : s.Calculates none)
    (confined : ∀ {O}, Operand.Common O → (∀ o ∈ supplied, O o.1) →
      ∃ R, s.Each (·.Confined O) R)
    (plain : m.cpu.Plain) (unlimited : m.settings.stepLimit = none)
    (supplies : ∀ o ∈ supplied, m.Supplies x o.1 o.2)
    (runs : ∀ {e : Machine}, e.cpu.Plain → (∀ o ∈ supplied, e.Holds x.taken o.1 o.2) →
      s.Runs x e (P e))
    (leaves : ∀ {e a X m'}, P e a X m' → Leaves x e X m')
    (took : ∃ a X, s.run x = (.ok a, X) ∧ T a X)
    (known : ∀ {e a X m' f},
      (∀ {w v o}, m'.Holds X.taken o v → x.Took X w o → f.Delivers x X w v o) → T a X →
        P e a X m' → Q a X f) :
    m.Emits x s Q := by
  -- a register that no operand names, in which another processor could count
  obtain ⟨name, native, unnamed⟩ := exists_unnamed (supplied.map (·.1))
  have ne : ∀ o ∈ supplied, o.1.kind ≠ .register name := fun o mem =>
    unnamed o.1 (List.mem_map_of_mem mem)
  obtain ⟨R, each⟩ := confined (Operand.common_unnamed native) ne
  let e : Machine := (m.begun.syncProgramCounter x.native).countingIn name
  have plain' : e.cpu.Plain := ⟨plain.alias?, native⟩
  have held : ∀ o ∈ supplied, e.Holds x.taken o.1 o.2 := fun o mem =>
    (supplies o mem).holds (ne o mem)
  obtain ⟨a, X, f, m', ran, completes, agrees, q⟩ :=
    h.interpret_of_runs each plain unlimited (runs plain' held) leaves
  have blank := Expansion.finish_eq_ok_of_blank (h.extends_of_run ran)
  obtain ⟨_, _, ran', took⟩ := took
  rw [ran] at ran'
  cases ran'
  refine ⟨a, X, f, ran, completes, blank, known (fun holds took => ?_) took q⟩
  exact Machine.delivers_of_holds holds (completes.cpu ▸ plain) agrees took

/-- A run of the code of a computed value leaves the value in the temporary that is handed on. -/
theorem emits_value (supplied : List (Operand × Nat)) {s : Script Operand}
    (h : s.Calculates none)
    (confined : ∀ {O}, Operand.Common O → (∀ o ∈ supplied, O o.1) →
      ∃ R, s.Each (·.Confined O) R)
    (plain : m.cpu.Plain) (unlimited : m.settings.stepLimit = none)
    (supplies : ∀ o ∈ supplied, m.Supplies x o.1 o.2)
    (runs : ∀ {e : Machine}, e.cpu.Plain → (∀ o ∈ supplied, e.Holds x.taken o.1 o.2) →
      s.Runs x e (Computed x e w v))
    (took : ∃ o X, s.run x = (.ok o, X) ∧ x.Took X w o) :
    m.Emits x s fun o X f => f.Delivers x X w v o := by
  exact h.emits supplied confined plain unlimited supplies runs (fun computed => computed.toLeaves)
    took fun delivers took computed => delivers computed.holds took

end Script.Calculates

end RegisterTransfer

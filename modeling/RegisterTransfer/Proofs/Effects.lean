import RegisterTransfer.Proofs.Twins

/-!
# Effects of scripts

What a script does to the machine it runs on, when nothing on the way fails. An expansion may use up
the program counter and the temporaries that are still free; apart from these the machine it leaves
is a plain function of the machine it found, and the operands it hands on hold known values.

> `Script.Leads.bind`: effects compose along sequences.
> `Script.Runs.computing`: a temporary holds what its instruction computes.
> `Script.runs_assign`: a register of the processor holds what is assigned to it.
> `Script.Straight.skips`: a journey that is looking for a label passes over code without labels.
> `Script.runs_branches`: of two branches that rejoin, one has its effect.
-/

namespace RegisterTransfer

/-! ## Scratch registers -/

/-- The program counter, and the temporaries that are still free when `n` are taken. -/
def Cpu.Scratch (c : Cpu) (n : Nat) (name : String) : Prop :=
  name = c.programCounter ∨ ∃ k, n ≤ k ∧ name = temporaryName k

/-- A register that is still free later was free before. -/
theorem Cpu.Scratch.of_le {c : Cpu} {n k : Nat} {name : String} (h : c.Scratch k name)
    (le : n ≤ k) : c.Scratch n name := by
  rcases h with pc | ⟨j, above, same⟩
  · exact .inl pc
  · exact .inr ⟨j, Nat.le_trans le above, same⟩

/-- A register that is neither a temporary nor the program counter is never scratch. -/
theorem Cpu.not_scratch {c : Cpu} {name : String} (native : isTemporary name = false)
    (ne : name ≠ c.programCounter) (n : Nat) : ¬ c.Scratch n name := by
  intro found
  rcases found with pc | ⟨k, -, same⟩
  · exact ne pc
  · exact ne_temporaryName native k same

namespace Machine

/-- The second machine is the first one but for scratch registers and counters. -/
structure Keeps (n : Nat) (m m' : Machine) : Prop where
  plain : m.cpu.Plain
  settings : m'.settings = m.settings
  cpu : m'.cpu = m.cpu
  memory : m'.memory = m.memory
  register? : ∀ {name}, ¬ m.cpu.Scratch n name → m'.register? name = m.register? name

namespace Keeps

variable {n k : Nat} {m m' m'' : Machine}

theorem refl (plain : m.cpu.Plain) (n : Nat) : m.Keeps n m := ⟨plain, rfl, rfl, rfl, fun _ => rfl⟩

theorem plain' (h : m.Keeps n m') : m'.cpu.Plain := h.cpu ▸ h.plain

theorem trans (h : m.Keeps n m') (h' : m'.Keeps n m'') : m.Keeps n m'' where
  plain := h.plain
  settings := h'.settings.trans h.settings
  cpu := h'.cpu.trans h.cpu
  memory := h'.memory.trans h.memory
  register? {name} settled := by
    rw [h'.register? (h.cpu ▸ settled), h.register? settled]

/-- What keeps more keeps less. -/
theorem of_le (h : m.Keeps k m') (le : n ≤ k) : m.Keeps n m' :=
  { h with register? := fun settled => h.register? fun scratch => settled (scratch.of_le le) }

theorem counted (h : m.Keeps n m') : m.Keeps n m'.counted :=
  ⟨h.plain, h.settings, h.cpu, h.memory, h.register?⟩

theorem value? (h : m.Keeps n m') {name : String} (settled : ¬ m.cpu.Scratch n name) :
    m'.value? name = m.value? name :=
  value?_congr (h.register? settled)

/-- The same write on both sides. -/
theorem setRegister (h : m.Keeps n m') (name : String) (v : Nat) (w : Width)
    (status : RegisterStatus) :
    (m.setRegister name v w status).Keeps n (m'.setRegister name v w status) where
  plain := h.plain
  settings := h.settings
  cpu := h.cpu
  memory := h.memory
  register? {other} settled := by
    rw [register?_setRegister h.plain', register?_setRegister h.plain, h.register? settled]

/-- Making the same register undefined on both sides. -/
theorem undefineRegister (h : m.Keeps n m') {name : String} (settled : ¬ m.cpu.Scratch n name)
    (w : Width) : (m.undefineRegister name w).Keeps n (m'.undefineRegister name w) where
  plain := h.plain
  settings := h.settings
  cpu := h.cpu
  memory := h.memory
  register? {other} settled' := by
    rw [register?_undefineRegister h.plain', register?_undefineRegister h.plain,
      h.register? settled', h.register? settled]

/-- Reading memory on both sides. -/
theorem loaded (h : m.Keeps n m') (a : Nat) (w : Width) : (m.loaded a w).Keeps n (m'.loaded a w) where
  plain := h.plain
  settings := h.settings
  cpu := h.cpu
  memory := by simp only [Machine.loaded, h.memory]
  register? := h.register?

/-- Writing memory on both sides. -/
theorem stored (h : m.Keeps n m') (a v : Nat) (w : Width) :
    (m.stored a v w).Keeps n (m'.stored a v w) where
  plain := h.plain
  settings := h.settings
  cpu := h.cpu
  memory := by simp only [Machine.stored, h.memory]
  register? := h.register?

end Keeps

/-- Writing a scratch register. -/
theorem keeps_setRegister {m : Machine} (plain : m.cpu.Plain) {n : Nat} {name : String}
    (scratch : m.cpu.Scratch n name) (v : Nat) (w : Width) (status : RegisterStatus) :
    m.Keeps n (m.setRegister name v w status) where
  plain := plain
  settings := rfl
  cpu := rfl
  memory := rfl
  register? {other} settled := by
    rw [register?_setRegister plain, if_neg]
    intro same
    subst same
    exact settled scratch

/-- Bringing the program counter up to date changes nothing but scratch. -/
theorem keeps_syncProgramCounter {m : Machine} (plain : m.cpu.Plain) (n native : Nat) :
    m.Keeps n (m.syncProgramCounter native) :=
  keeps_setRegister plain (.inl rfl) _ _ _

/-! ## Known operands -/

/-- An operand that reads as a known value, and will as long as only scratch registers change. -/
structure Holds (m : Machine) (n : Nat) (o : Operand) (v : Nat) : Prop where
  source : ∀ place, m.source place o = .ok v
  settled : ∀ {name}, o.kind = .register name → ¬ m.cpu.Scratch n name

section Holds

variable {m m' : Machine} {n k : Nat} {o : Operand} {v : Nat}

/-- A literal holds its truncated value for good. -/
theorem holds_integer (m : Machine) (n v : Nat) (w : Width) :
    m.Holds n (.integer v w) (w.truncate v) :=
  ⟨fun _ => congrArg Except.ok (w.truncate_truncate v), nofun⟩

theorem holds_signed (m : Machine) (n : Nat) (i : Int) (w : Width) :
    m.Holds n (.signed i w) (w.ofInt i) :=
  ⟨fun _ => congrArg Except.ok (w.truncate_ofInt i), nofun⟩

/-- A register that is not scratch holds its value, truncated to the width it is read at. -/
theorem holds_register {name : String} (h : m.value? name = some v)
    (settled : ¬ m.cpu.Scratch n name) (w : Width) :
    m.Holds n (.register name w) (w.truncate v) := by
  refine ⟨fun place => ?_, fun e => ?_⟩
  · simp only [Machine.source, Operand.register, h]
  · cases e
    exact settled

/-- What can be read is a value of the operand's width. -/
theorem Holds.lt (h : m.Holds n o v) : v < o.width.modulus := by
  have read := h.source default
  unfold Machine.source at read
  split at read
  · cases read
    exact o.width.truncate_lt _
  · split at read
    · cases read
      exact o.width.truncate_lt _
    · split at read
      · cases read
      · cases read
        exact o.width.modulus_pos
  · cases read
  · cases read

/-- As a jump target, a value is a native address. -/
theorem Holds.target (h : m.Holds n o v) (place : Address) :
    m.target place o = .ok (.ofNative (Width.qword.truncate v)) := by
  have read := h.source place
  unfold Machine.target
  cases kind : o.kind with
  | integer | register =>
    simp only [read, bind, Except.bind]
    rfl
  | absent | address => simp [Machine.source, kind] at read

/-- What an operand holds, it holds as long as only scratch registers change. -/
theorem Holds.keep (h : m.Holds n o v) (keeps : m.Keeps n m') (le : n ≤ k) : m'.Holds k o v := by
  constructor
  · intro place
    rw [← h.source place]
    exact source_congr (congrArg _ keeps.settings) (fun _ e => keeps.value? (h.settled e)) place
  · intro name e scratch
    exact h.settled e ((keeps.cpu ▸ scratch).of_le le)

/-- A write to another register. -/
theorem Holds.set (h : m.Holds n o v) (plain : m.cpu.Plain) {name : String}
    (ne : o.kind ≠ .register name) (u : Nat) (w : Width) (status : RegisterStatus) :
    (m.setRegister name u w status).Holds n o v := by
  refine ⟨?_, h.settled⟩
  intro place
  rw [← h.source place]
  refine source_congr (by rfl) ?_ place
  intro other e
  have apart : other ≠ name := fun same => ne (same ▸ e)
  simp only [Machine.value?, register?_setRegister plain, if_neg apart]

/-- Making another register undefined. -/
theorem Holds.undefine (h : m.Holds n o v) (plain : m.cpu.Plain) {name : String}
    (ne : o.kind ≠ .register name) (w : Width) : (m.undefineRegister name w).Holds n o v := by
  refine ⟨?_, h.settled⟩
  intro place
  rw [← h.source place]
  refine source_congr (by rfl) ?_ place
  intro other e
  have apart : other ≠ name := fun same => ne (same ▸ e)
  simp only [Machine.value?, register?_undefineRegister plain, if_neg apart]

/-- A read of memory. -/
theorem Holds.loaded (h : m.Holds n o v) (a : Nat) (w : Width) : (m.loaded a w).Holds n o v :=
  ⟨fun place => h.source place, h.settled⟩

/-- A write of memory. -/
theorem Holds.stored (h : m.Holds n o v) (a u : Nat) (w : Width) : (m.stored a u w).Holds n o v :=
  ⟨fun place => h.source place, h.settled⟩

/-- What was written last can be read. -/
theorem holds_setRegister (plain : m.cpu.Plain) {name : String}
    (settled : ¬ m.cpu.Scratch n name) (v : Nat) (w : Width) :
    (m.setRegister name v w .defined).Holds n (.register name w) (w.truncate v) := by
  have value : (m.setRegister name v w .defined).value? name = some (w.truncate v) := by
    simp only [Machine.value?, register?_setRegister plain, if_true]
    rfl
  rw [← w.truncate_truncate v]
  exact holds_register value settled w

end Holds

/-! ## Known computations -/

/-- An instruction that computes a known value from known operands. -/
inductive Computes (m : Machine) (n : Nat) : Opcode → Operand → Operand → Width → Nat → Prop
  | combine {opcode a b w u v r} (two : opcode.combines) (fits : opcode.Fits a.width b.width w)
    (first : m.Holds n a u) (second : m.Holds n b v)
    (value : opcode.combine b.width u v = some r) : Computes m n opcode a b w r
  | isZero {a w u} (first : m.Holds n a u) :
    Computes m n .bisz a .absent w (if u = 0 then 1 else 0)
  | copy {a w u} (first : m.Holds n a u) : Computes m n .str a .absent w u

section Computes

variable {m m' : Machine} {n : Nat} {opcode : Opcode} {a b : Operand} {w : Width} {v : Nat}

/-- A computation whose sources are kept comes to the same result. -/
theorem Computes.keep (h : m.Computes n opcode a b w v) (keeps : m.Keeps n m') :
    m'.Computes n opcode a b w v := by
  cases h with
  | combine two fits first second value =>
    exact .combine two fits (first.keep keeps (Nat.le_refl n)) (second.keep keeps (Nat.le_refl n))
      value
  | isZero first => exact .isZero (first.keep keeps (Nat.le_refl n))
  | copy first => exact .copy (first.keep keeps (Nat.le_refl n))

theorem Computes.writesRegister (h : m.Computes n opcode a b w v) : opcode.writesRegister := by
  cases h with
  | combine two => cases opcode <;> first | rfl | cases two
  | isZero | copy => rfl

/-- What an instruction has to write is the value of its computation. -/
theorem Computes.outcome (h : m.Computes n opcode a b w v) (place : Address) {o : Operand}
    (width : o.width = w) : m.outcome ⟨place, opcode, a, b, o, none⟩ = .ok (v, m) := by
  cases h with
  | combine two fits first second value =>
    rw [outcome_of_combines two, combine_of_fits (by rw [width]; exact fits)]
    dsimp only
    rw [first.source, second.source]
    simp only [bind, Except.bind, value]
    rfl
  | isZero first => simp only [Machine.outcome, first.source, Except.map]
  | copy first => simp only [Machine.outcome, first.source, Except.map]

end Computes

end Machine

/-! ## Where scripts lead -/

/-- The number of temporaries taken when an expansion has been written so far. -/
def Expansion.taken (x : Expansion) : Nat := x.environment.temporaries

/-- No register of the processor: a number or a temporary. -/
def Operand.Hidden (o : Operand) : Prop :=
  ∀ name, o.kind = .register name → isTemporary name = true

/-- A hidden operand is no register of the processor. -/
theorem Operand.Hidden.ne {o : Operand} (h : o.Hidden) {name : String}
    (native : isTemporary name = false) : o.kind ≠ .register name := by
  intro e
  rw [h name e] at native
  cases native

/-- Behind a script the machine is `e`, but for scratch registers. -/
structure Leaves (x : Expansion) (e : Machine) (X : Expansion) (m : Machine) : Prop where
  taken : x.taken ≤ X.taken
  keeps : e.Keeps x.taken m

/-- Behind a script an operand holds a value, and only scratch registers have changed. -/
structure Settled (x : Expansion) (m : Machine) (w : Width) (v : Nat) (o : Operand)
    (X : Expansion) (m' : Machine) : Prop extends Leaves x m X m' where
  holds : m'.Holds X.taken o v
  width : o.width = w

/-- Behind a script an operand that is no register of the processor holds a value. -/
structure Computed (x : Expansion) (m : Machine) (w : Width) (v : Nat) (o : Operand)
    (X : Expansion) (m' : Machine) : Prop extends Settled x m w v o X m' where
  hidden : o.Hidden

section Leaves

variable {x X Y : Expansion} {e m m' m'' : Machine} {o : Operand} {v u : Nat} {w : Width}

theorem Leaves.plain (h : Leaves x e X m) : m.cpu.Plain := h.keeps.plain'

/-- What one script leaves and the next one changes is left by both together. -/
theorem Leaves.trans (h : Leaves x e X m) (h' : Leaves X m Y m') : Leaves x e Y m' :=
  ⟨Nat.le_trans h.taken h'.taken, h.keeps.trans (h'.keeps.of_le h.taken)⟩

/-- An effect on the way that does not depend on scratch registers. -/
theorem Leaves.through (h : Leaves x e X m) (f : Machine → Machine)
    (respects : e.Keeps x.taken m → (f e).Keeps x.taken (f m)) (h' : Leaves X (f m) Y m') :
    Leaves x (f e) Y m' :=
  ⟨Nat.le_trans h.taken h'.taken, (respects h.keeps).trans (h'.keeps.of_le h.taken)⟩

/-- A write on the way. -/
theorem Leaves.set {name : String} {status : RegisterStatus} (h : Leaves x e X m)
    (h' : Leaves X (m.setRegister name v w status) Y m') :
    Leaves x (e.setRegister name v w status) Y m' :=
  h.through (·.setRegister name v w status) (·.setRegister name v w status) h'

/-- An operand that held a value in the machine aimed at holds it behind the script. -/
theorem Leaves.holds (h : Leaves x e X m) (held : e.Holds x.taken o v) : m.Holds X.taken o v :=
  held.keep h.keeps h.taken

/-- A result, said of an earlier machine. -/
theorem Settled.after (h : Settled X m' w v o Y m'') (before : Leaves x m X m') :
    Settled x m w v o Y m'' :=
  ⟨before.trans h.toLeaves, h.holds, h.width⟩

/-- A computed value stays computed when what came before is counted in. -/
theorem Computed.after (h : Computed X m' w v o Y m'') (before : Leaves x m X m') :
    Computed x m w v o Y m'' :=
  ⟨h.toSettled.after before, h.hidden⟩

/-- A result stays where it is behind what changes scratch registers only. -/
theorem Computed.kept (h : Computed x m w v o X m') (later : Leaves X m' Y m'') :
    Computed x m w v o Y m'' :=
  ⟨⟨h.toLeaves.trans later, later.holds h.holds, h.width⟩, h.hidden⟩

end Leaves

namespace Script

variable {α β : Type} {s : Script α} {f : α → Script β} {x X : Expansion} {g : Journey}
  {m : Machine}

/-- A script that does not give up, and what is known of its result and of the journey behind it. -/
def Leads (s : Script α) (x : Expansion) (g : Journey) (Q : α → Expansion → Journey → Prop) :
    Prop :=
  ∃ a X, s.run x = (.ok a, X) ∧ Q a X (s.walk x g)

/-- A script that runs to its end. -/
def Runs (s : Script α) (x : Expansion) (m : Machine) (Q : α → Expansion → Machine → Prop) :
    Prop :=
  s.Leads x (.start m) fun a X g => g.stance = .going ∧ Q a X g.machine

namespace Leads

variable {Q R : α → Expansion → Journey → Prop} {S : β → Expansion → Journey → Prop}

theorem bind (h : s.Leads x g Q) (next : ∀ {a X g}, Q a X g → (f a).Leads X g S) :
    (s >>= f).Leads x g S := by
  obtain ⟨a, X, ran, q⟩ := h
  obtain ⟨b, Y, ran', r⟩ := next q
  refine ⟨b, Y, ?_, ?_⟩
  · rw [run_bind, ran]
    exact ran'
  · rw [walk_bind, ran]
    exact r

theorem mono (h : s.Leads x g Q) (weaken : ∀ {a X g}, Q a X g → R a X g) : s.Leads x g R := by
  obtain ⟨a, X, ran, q⟩ := h
  exact ⟨a, X, ran, weaken q⟩

end Leads

namespace Runs

variable {Q R : α → Expansion → Machine → Prop} {S : β → Expansion → Machine → Prop}

theorem pure {a : α} (h : Q a x m) : (Pure.pure a : Script α).Runs x m Q := ⟨a, x, rfl, rfl, h⟩

/-- What follows a script that runs to its end starts where that ended. -/
theorem leads {S : β → Expansion → Journey → Prop} (h : s.Runs x m Q)
    (next : ∀ {a X m}, Q a X m → (f a).Leads X (.start m) S) : (s >>= f).Leads x (.start m) S := by
  refine Leads.bind h fun {a X g} ⟨going, q⟩ => ?_
  have start : g = .start g.machine := by rw [Journey.start, ← going]
  rw [start]
  exact next q

theorem bind (h : s.Runs x m Q) (next : ∀ {a X m}, Q a X m → (f a).Runs X m S) :
    (s >>= f).Runs x m S :=
  h.leads next

theorem mono (h : s.Runs x m Q) (weaken : ∀ {a X m}, Q a X m → R a X m) : s.Runs x m R :=
  Leads.mono h fun ⟨going, q⟩ => ⟨going, weaken q⟩

end Runs

/-! ## One instruction -/

section Steps

variable {opcode : Opcode} {a b : Operand} {w : Width} {v : Nat}

/-- A write of an outcome, with the program counter brought up to date before it. -/
theorem perform_of_outcome {e : Machine} (writes : opcode.writesRegister) (place : Address)
    (name : String) (outcome : (m.syncProgramCounter place.native).outcome
      ⟨place, opcode, a, b, .register name w, none⟩ = .ok (v, e)) :
    (Journey.start m).perform ⟨place, opcode, a, b, .register name w, none⟩ =
      .start (e.setRegister name v w .defined).counted := by
  simp only [Journey.perform, Journey.start]
  rw [Journey.after_outcome name writes rfl, outcome]
  rfl

/-- A temporary holds the outcome of its instruction, which may have read memory. -/
theorem Runs.holding {R : β → Expansion → Machine → Prop} {f : Operand → Script β}
    {e e' : Machine} (writes : opcode.writesRegister)
    (outcome : ∀ {place : Address} {name : String}, place.native = x.native →
      (m.syncProgramCounter place.native).outcome ⟨place, opcode, a, b, .register name w, none⟩ =
        .ok (v, e'))
    (same : e.Keeps x.taken e')
    (rest : ∀ {o X m'}, Computed x e w (w.truncate v) o X m' → (f o).Runs X m' R) :
    (temporary w >>= fun o => emit opcode a b o >>= fun _ => f o).Runs x m R := by
  let o : Operand := .register (temporaryName x.taken) w
  let Y : Expansion := (x.temporary w).2.emit opcode a b o
  let m' : Machine := (e'.setRegister (temporaryName x.taken) v w .defined).counted
  have scratch : e'.cpu.Scratch x.taken (temporaryName x.taken) := .inr ⟨_, Nat.le_refl _, rfl⟩
  have keeps : e.Keeps x.taken m' :=
    (same.trans (Machine.keeps_setRegister same.plain' scratch v w .defined)).counted
  -- behind the instruction the temporary is taken
  have settled : ¬ e'.cpu.Scratch (x.taken + 1) (temporaryName x.taken) := by
    intro found
    rcases found with pc | ⟨k, above, same⟩
    · exact ne_temporaryName same.plain'.programCounter x.taken pc.symm
    · have := temporaryName_injective same
      omega
  have held : m'.Holds (x.taken + 1) o (w.truncate v) := by
    have set := Machine.holds_setRegister same.plain' settled v w
    exact ⟨set.source, set.settled⟩
  have hidden : o.Hidden := by
    intro name e
    cases e
    exact isTemporary_temporaryName _
  have computed : Computed x e w (w.truncate v) o Y m' :=
    ⟨⟨⟨Nat.le_succ _, keeps⟩, held, rfl⟩, hidden⟩
  obtain ⟨r, Z, ran, going, q⟩ := rest computed
  refine ⟨r, Z, ran, ?_⟩
  have performed : (Journey.start m).perform ⟨(x.temporary w).2.here, opcode, a, b, o, none⟩ =
      .start m' := perform_of_outcome writes _ _ (outcome rfl)
  show ((f o).walk Y ((Journey.start m).perform
    ⟨(x.temporary w).2.here, opcode, a, b, o, none⟩)).stance = .going ∧ _
  rw [performed]
  refine ⟨going, ?_⟩
  show R r Z ((f o).walk Y ((Journey.start m).perform
    ⟨(x.temporary w).2.here, opcode, a, b, o, none⟩)).machine
  rw [performed]
  exact q

/-- A temporary holds what its instruction computes. -/
theorem Runs.computing {R : β → Expansion → Machine → Prop} {f : Operand → Script β}
    (plain : m.cpu.Plain) (h : m.Computes x.taken opcode a b w v)
    (rest : ∀ {o X m'}, Computed x m w (w.truncate v) o X m' → (f o).Runs X m' R) :
    (temporary w >>= fun o => emit opcode a b o >>= fun _ => f o).Runs x m R := by
  refine Runs.holding h.writesRegister ?_ (Machine.keeps_syncProgramCounter plain x.taken x.native)
    rest
  intro place name here
  rw [here]
  exact (h.keep (Machine.keeps_syncProgramCounter plain x.taken x.native)).outcome place rfl

/-- A temporary holds what is found in memory. -/
theorem Runs.loading {R : β → Expansion → Machine → Prop} {f : Operand → Script β} {u : Nat}
    (plain : m.cpu.Plain) (h : m.Holds x.taken a u)
    (rest : ∀ {o X m'}, Computed x (m.loaded (Width.qword.truncate u) w) w
      (w.truncate (m.memory.load (Width.qword.truncate u) w)) o X m' → (f o).Runs X m' R) :
    (temporary w >>= fun o => emit .ldm a .absent o >>= fun _ => f o).Runs x m R := by
  have sync := Machine.keeps_syncProgramCounter plain x.taken x.native
  refine Runs.holding rfl ?_ (sync.loaded (Width.qword.truncate u) w) rest
  intro place name here
  rw [here]
  simp only [Machine.outcome, (h.keep sync (Nat.le_refl _)).source, Except.map]
  rfl

/-- A temporary for a computed value, as the result. -/
theorem Runs.computed (plain : m.cpu.Plain) (h : m.Computes x.taken opcode a b w v) :
    (do let o ← temporary w; emit opcode a b o; return o : Script Operand).Runs x m
      (Computed x m w (w.truncate v)) :=
  Runs.computing plain h fun computed => .pure computed

/-- A register of the processor holds what is assigned to it. -/
theorem runs_assign (plain : m.cpu.Plain) (name : String)
    (h : m.Computes x.taken opcode a b w v) :
    (emit opcode a b (.register name w)).Runs x m fun _ =>
      Leaves x (m.setRegister name v w .defined) := by
  have sync := Machine.keeps_syncProgramCounter plain x.taken x.native
  have outcome := (h.keep sync).outcome x.here (o := .register name w) rfl
  refine ⟨(), _, rfl, ?_⟩
  rw [walk_emit, perform_of_outcome h.writesRegister x.here name outcome]
  exact ⟨rfl, Nat.le_refl _, (sync.setRegister name v w .defined).counted⟩

/-- A value is stored in memory. -/
theorem runs_store {u : Nat} (plain : m.cpu.Plain) (first : m.Holds x.taken a v)
    (second : m.Holds x.taken b u) :
    (emit .stm a .absent b).Runs x m fun _ =>
      Leaves x (m.stored (Width.qword.truncate u) v a.width) := by
  have sync := Machine.keeps_syncProgramCounter plain x.taken x.native
  have read : (m.syncProgramCounter x.here.native).source x.here a = .ok v :=
    (first.keep sync (Nat.le_refl _)).source x.here
  have read' : (m.syncProgramCounter x.here.native).source x.here b = .ok u :=
    (second.keep sync (Nat.le_refl _)).source x.here
  refine ⟨(), _, rfl, ?_⟩
  rw [walk_emit]
  simp only [Journey.perform, Journey.start, Journey.after_stm, read, read']
  exact ⟨trivial, Nat.le_refl _, (sync.stored _ _ _).counted⟩

/-- A register of the processor is made undefined. -/
theorem runs_undefine (plain : m.cpu.Plain) {name : String}
    (settled : ¬ m.cpu.Scratch x.taken name) :
    (emit .undef .absent .absent (.register name w)).Runs x m fun _ =>
      Leaves x (m.undefineRegister name w) := by
  refine ⟨(), _, rfl, ?_⟩
  rw [walk_emit]
  simp only [Journey.perform, Journey.start]
  rw [Journey.after_undef name rfl rfl]
  have sync := Machine.keeps_syncProgramCounter plain x.taken x.native
  exact ⟨rfl, Nat.le_refl _, (sync.undefineRegister settled w).counted⟩

/-- Behind a jump to a label: going on if it is not taken, else looking for the label. -/
theorem leads_jumpIf (plain : m.cpu.Plain) (h : m.Holds x.taken a v) (label : Label) :
    (jumpIf a label).Leads x (.start m) fun _ X g => Leaves x m X g.machine ∧
      g.stance = if v = 0 then .going else .seeking label := by
  refine ⟨(), _, rfl, ?_⟩
  have sync := Machine.keeps_syncProgramCounter plain x.taken x.native
  have read := (h.keep sync (Nat.le_refl _)).source x.here
  have read' : (m.syncProgramCounter x.here.native).source x.here a = .ok v := read
  rw [walk_jumpIf]
  simp only [Journey.jumpIf, Journey.start, read']
  split
  · exact ⟨⟨Nat.le_refl _, sync.counted⟩, rfl⟩
  · exact ⟨⟨Nat.le_refl _, ⟨sync.plain, sync.settings, sync.cpu, sync.memory, sync.register?⟩⟩, rfl⟩

/-- Behind a jump out of the expansion: going on if it is not taken, else at a native address. -/
theorem leads_leaveTo {u : Nat} (plain : m.cpu.Plain) (h : m.Holds x.taken a v)
    (there : m.Holds x.taken b u) :
    (emit .jcc a .absent b).Leads x (.start m) fun _ X g => Leaves x m X g.machine ∧
      g.stance = if v = 0 then .going
        else .left x.here (.ofNative (Width.qword.truncate u)) := by
  refine ⟨(), _, rfl, ?_⟩
  have sync := Machine.keeps_syncProgramCounter plain x.taken x.native
  have read : (m.syncProgramCounter x.here.native).source x.here a = .ok v :=
    (h.keep sync (Nat.le_refl _)).source x.here
  have found : (m.syncProgramCounter x.here.native).target x.here b =
      .ok (.ofNative (Width.qword.truncate u)) :=
    (there.keep sync (Nat.le_refl _)).target x.here
  rw [walk_emit]
  simp only [Journey.perform, Journey.start, Journey.after_jcc, Machine.route, read, found, bind,
    Except.bind]
  by_cases zero : v = 0
  · simp only [if_pos zero]
    exact ⟨⟨Nat.le_refl _, sync.counted⟩, rfl⟩
  · simp only [if_neg zero]
    exact ⟨⟨Nat.le_refl _, sync⟩, rfl⟩

/-- A jump to a number. -/
theorem leads_leave (plain : m.cpu.Plain) (h : m.Holds x.taken a v) (t : Nat) (w : Width) :
    (emit .jcc a .absent (.integer t w)).Leads x (.start m) fun _ X g => Leaves x m X g.machine ∧
      g.stance = if v = 0 then .going
        else .left x.here (.ofNative (Width.qword.truncate (w.truncate t))) :=
  leads_leaveTo plain h (Machine.holds_integer m x.taken t w)

end Steps

/-! ## Code without labels -/

/-- No label is created, bound or jumped to, and nothing gives up. -/
def Straight : Script α → Prop
  | done _ => True
  | allocate _ next => ∀ o, (next o).Straight
  | write _ _ _ _ next => next.Straight
  | fail _ | create _ | attach _ _ | leave _ _ _ => False

/-- Straight scripts one after the other are straight. -/
theorem Straight.bind (h : s.Straight) (next : ∀ a, (f a).Straight) : (s >>= f).Straight := by
  show (s.andThen f).Straight
  induction s with
  | done a => exact next a
  | allocate width k ih => exact fun o => ih o (h o)
  | write _ _ _ _ _ ih => exact ih h
  | fail | create | attach | leave => cases h

/-- A journey that is not going on passes over code without labels. -/
theorem Straight.skips (h : s.Straight) (past : g.stance ≠ .going) :
    s.Leads x g fun _ X g' => x.taken ≤ X.taken ∧ g' = g := by
  induction s generalizing x with
  | done a => exact ⟨a, x, rfl, Nat.le_refl _, rfl⟩
  | allocate width k ih =>
    obtain ⟨a, X, ran, grows, same⟩ := ih _ (h _) (x := (x.temporary width).2)
    exact ⟨a, X, ran, Nat.le_trans (Nat.le_succ _) grows, same⟩
  | write opcode op1 op2 op3 next ih =>
    obtain ⟨a, X, ran, grows, same⟩ := ih h (x := x.emit opcode op1 op2 op3)
    refine ⟨a, X, ran, grows, ?_⟩
    rw [walk, Journey.perform_of_ne_going past]
    exact same
  | fail | create | attach | leave => cases h

/-! ## Two branches -/

section Branches

variable {e : Machine} {c : Operand} {v : Nat}

/-- A new label leaves the journey alone and gets the next index. -/
theorem leads_newLabel (x : Expansion) (g : Journey) :
    newLabel.Leads x g fun label X g' =>
      label.index = x.labels.length ∧ X.labels.length = x.labels.length + 1 ∧ X.taken = x.taken ∧
        g' = g := by
  refine ⟨_, _, rfl, rfl, ?_, rfl, rfl⟩
  show (x.labels ++ [none]).length = _
  rw [List.length_append, List.length_singleton]

/-- At a bound label a journey that seeks it arrives. -/
theorem leads_bindLabel (label : Label) (x : Expansion) (g : Journey) :
    (bindLabel label).Leads x g fun _ X g' => X.taken = x.taken ∧ g' = g.reach label :=
  ⟨_, _, rfl, rfl, rfl⟩

/-- A journey that is not going on passes over a jump. -/
theorem leads_jumpIf_past (past : g.stance ≠ .going) (label : Label) :
    (jumpIf c label).Leads x g fun _ X g' => X.taken = x.taken ∧ g' = g := by
  refine ⟨(), _, rfl, rfl, ?_⟩
  rw [walk_jumpIf, Journey.jumpIf_of_ne_going past]

/-- One script if a condition is zero, else another. -/
def branches (c : Operand) (s t : Script Unit) : Script Unit := do
  let other ← newLabel
  let done ← newLabel
  jumpIf c other
  s
  jump done
  bindLabel other
  t
  bindLabel done

/-- Whichever of two branches is taken, it has the effect of the whole. -/
theorem runs_branches {s t : Script Unit} {x₀ : Expansion} (plain : m.cpu.Plain)
    (h : m.Holds x.taken c v) (straight : s.Straight) (straight' : t.Straight)
    (first : v = 0 → ∀ {X m'}, Leaves x m X m' → s.Runs X m' fun _ => Leaves x₀ e)
    (second : v ≠ 0 → ∀ {X m'}, Leaves x m X m' → t.Runs X m' fun _ => Leaves x₀ e) :
    (branches c s t).Runs x m fun _ => Leaves x₀ e := by
  apply (leads_newLabel x (.start m)).bind
  intro other X₁ _ found
  obtain ⟨index, length, taken₁, rfl⟩ := found
  apply (leads_newLabel X₁ (.start m)).bind
  intro done X₂ _ found
  obtain ⟨index', length', taken₂, rfl⟩ := found
  have apart : done ≠ other := by
    intro same
    rw [same, index] at index'
    omega
  have taken₂ : X₂.taken = x.taken := taken₂.trans taken₁
  apply (leads_jumpIf plain (taken₂ ▸ h) other).bind
  intro _ X₃ g₃ found
  obtain ⟨tested, stance₃⟩ := found
  have tested : Leaves x m X₃ g₃.machine :=
    ⟨taken₂ ▸ tested.taken, taken₂ ▸ tested.keeps⟩
  by_cases zero : v = 0
  · -- the first branch runs, and the second one is jumped over
    rw [if_pos zero] at stance₃
    have start₃ : g₃ = .start g₃.machine := by rw [Journey.start, ← stance₃]
    rw [start₃]
    apply (first zero tested).leads
    intro _ X₄ m₄ effect
    apply (leads_jumpIf effect.plain (Machine.holds_integer m₄ X₄.taken 1 .byte) done).bind
    intro _ X₅ g₅ found
    obtain ⟨jumped, stance₅⟩ := found
    rw [if_neg (by decide)] at stance₅
    have past : g₅.stance ≠ .going := by simp [stance₅]
    apply (leads_bindLabel other X₅ g₅).bind
    intro _ X₆ g₆ found
    obtain ⟨taken₆, reached⟩ := found
    rw [Journey.reach_of_ne (by rw [stance₅]; exact fun e => apart (Stance.seeking.inj e))] at reached
    subst reached
    apply (straight'.skips past).bind
    intro _ X₇ g₇ found
    obtain ⟨grows, rfl⟩ := found
    apply (leads_bindLabel done X₇ g₇).mono
    intro _ X₈ _ found
    obtain ⟨taken₈, rfl⟩ := found
    have behind := effect.trans jumped
    rw [Journey.reach, if_pos stance₅]
    exact ⟨rfl, Nat.le_trans behind.taken (taken₈ ▸ taken₆ ▸ grows), behind.keeps⟩
  · -- the first branch is jumped over, and the second one runs
    rw [if_neg zero] at stance₃
    have past : g₃.stance ≠ .going := by simp [stance₃]
    apply (straight.skips past).bind
    intro _ X₄ g₄ found
    obtain ⟨grows, rfl⟩ := found
    apply (leads_jumpIf_past past done).bind
    intro _ X₅ g₅ found
    obtain ⟨taken₅, rfl⟩ := found
    apply (leads_bindLabel other X₅ g₅).bind
    intro _ X₆ _ found
    obtain ⟨taken₆, rfl⟩ := found
    rw [Journey.reach, if_pos stance₃]
    have behind : Leaves x m X₆ g₅.machine :=
      ⟨Nat.le_trans tested.taken (taken₆ ▸ taken₅ ▸ grows), tested.keeps⟩
    apply (second zero behind).leads
    intro _ X₇ m₇ effect
    apply (leads_bindLabel done X₇ (.start m₇)).mono
    intro _ X₈ _ found
    obtain ⟨taken₈, rfl⟩ := found
    have going : Stance.going ≠ .seeking done := by simp
    rw [Journey.reach_of_ne (show (Journey.start m₇).stance ≠ .seeking done from going)]
    exact ⟨rfl, taken₈ ▸ effect.taken, effect.keeps⟩

end Branches

end Script

end RegisterTransfer

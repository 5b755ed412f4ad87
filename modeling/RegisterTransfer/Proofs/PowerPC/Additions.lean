import RegisterTransfer.Proofs.EmittedValues
import RegisterTransfer.Proofs.PowerPC.Flags

/-!
# Emitted additions

An addition with carry writes a line of instructions behind an expansion. Run by themselves, these
leave the sum modulo the width of the operands in a new temporary, and the carry and the signed
overflow in two more if they are wanted. The operands may be any that the first of the instructions
can read, the program counter included.

> `Script.addWithCarry_took`: what an addition hands on are temporaries that it took.
> `PowerPC.emitted_sum_adds`: the run of the code of an addition, from any machine.
-/

namespace RegisterTransfer

/-! ## What is handed on -/

namespace Script

variable {a b : Operand} {wide : Width}

/-- If a computation hands on a byte that it took, so does one that need not be wanted. -/
theorem optionally_took {s : Script Operand} (wanted : Bool)
    (took : ∀ x, ∃ o X, s.run x = (.ok o, X) ∧ x.Took X .byte o) (x : Expansion) :
    ∃ p X, (optionally wanted s).run x = (.ok p, X) ∧ x.taken ≤ X.taken ∧
      ∀ o, p = some o → x.Took X .byte o := by
  unfold optionally
  split
  · obtain ⟨o, X, ran, here⟩ := took x
    refine ⟨some o, X, ?_, ?_, ?_⟩
    · rw [map_eq_pure_bind, run_bind, ran]
      rfl
    · obtain ⟨k, above, below, -⟩ := here
      omega
    · intro _ same
      cases same
      exact here
  · exact ⟨none, x, rfl, Nat.le_refl _, nofun⟩

theorem carryOut_took (w wide : Width) (sum : Operand) (x : Expansion) :
    ∃ o X, (carryOut w wide sum).run x = (.ok o, X) ∧ x.Took X .byte o :=
  ⟨_, _, rfl, x.taken, Nat.le_refl _, Nat.lt_succ_self _, rfl⟩

theorem overflowOut_took (a b r : Operand) (x : Expansion) :
    ∃ o X, (overflowOut a b r).run x = (.ok o, X) ∧ x.Took X .byte o :=
  -- three temporaries lead up to the sign bit
  ⟨_, _, rfl, x.taken + 3, Nat.le_add_right _ _, Nat.lt_succ_self _, rfl⟩

/-- What an addition hands on are temporaries that it took. -/
theorem addWithCarry_took (wider : a.width.wider? = some wide) (same : b.width = a.width)
    (carryIn : Option Operand) (flags : AdditionFlags) (x : Expansion) :
    ∃ r X, (addWithCarry a b carryIn flags).run x = (.ok r, X) ∧ x.Took X a.width r.result ∧
      (∀ o, r.carry = some o → x.Took X .byte o) ∧
      ∀ o, r.overflow = some o → x.Took X .byte o := by
  obtain ⟨sum, X₁, ran₁, behind⟩ := (Calculates.wideSum wide a b carryIn).ends x
  let r : Operand := .register (temporaryName X₁.taken) a.width
  let X₂ := (X₁.temporary a.width).2.emit .and sum (.integer a.width.mask wide) r
  obtain ⟨carry, X₃, ran₃, grows₃, took₃⟩ :=
    optionally_took flags.carry (carryOut_took a.width wide sum) X₂
  obtain ⟨overflow, X₄, ran₄, grows₄, took₄⟩ :=
    optionally_took flags.overflow (overflowOut_took a b r) X₃
  have grows₁ := behind.taken
  have next : X₂.taken = X₁.taken + 1 := rfl
  refine ⟨⟨r, carry, overflow⟩, X₄, ?_, ⟨X₁.taken, grows₁, by omega, rfl⟩, ?_, ?_⟩
  · unfold addWithCarry
    rw [if_pos same, wider]
    dsimp only
    rw [run_bind, ran₁]
    show (optionally flags.carry _ >>= fun carry => optionally flags.overflow _ >>= _).run X₂ = _
    rw [run_bind, ran₃]
    show (optionally flags.overflow (overflowOut a b r) >>= _).run X₃ = _
    rw [run_bind, ran₄]
    rfl
  · exact fun o e => (took₃ o e).mono (by omega) grows₄
  · exact fun o e => (took₄ o e).mono (by omega) (Nat.le_refl _)

end Script

/-! ## What a run leaves -/

namespace Machine

variable {m m' f : Machine} {x X : Expansion} {o : Operand} {w wide : Width} {v c : Nat}
  {name : String} {carryIn p : Option Operand} {wanted : Bool}

/-- An optional carry that the next instruction can read; nothing counts as zero. -/
def SuppliesCarry (m : Machine) (x : Expansion) (wide : Width) (c : Nat) : Option Operand → Prop
  | none => c = 0
  | some o => o.width ≤ wide ∧ m.Supplies x o c ∧ c ≤ 1

/-- A flag is delivered if it is wanted, and else there is none. -/
inductive DeliversFlag (f : Machine) (x X : Expansion) (v : Nat) : Bool → Option Operand → Prop
  | unwanted : DeliversFlag f x X v false none
  | wanted {o : Operand} (delivered : f.Delivers x X .byte v o) : DeliversFlag f x X v true (some o)

/--
A carry that is supplied is there when the addition begins, unless it is read from the program
counter.
-/
theorem SuppliesCarry.holds (h : m.SuppliesCarry x wide c carryIn)
    (ne : ∀ o, carryIn = some o → o.kind ≠ .register name) :
    Script.HoldsCarryWithin wide ((m.begun.syncProgramCounter x.native).countingIn name) x.taken c
      carryIn := by
  cases carryIn with
  | none => exact h
  | some o =>
    obtain ⟨narrow, supplied, le⟩ := h
    exact ⟨narrow, supplied.holds (ne o rfl), le⟩

/-- A carry is still supplied behind code that changes scratch registers only. -/
theorem SuppliesCarry.behind (h : m.SuppliesCarry x wide c carryIn)
    (ne : ∀ o, carryIn = some o → o.kind ≠ .register name)
    (leaves : Leaves x ((m.begun.syncProgramCounter x.native).countingIn name) X
      (m'.countingIn name))
    (agrees : (f.syncProgramCounter X.native).AgreesBut name m') :
    f.SuppliesCarry X wide c carryIn := by
  cases carryIn with
  | none => exact h
  | some o =>
    obtain ⟨narrow, supplied, le⟩ := h
    exact ⟨narrow, supplied.behind (ne o rfl) leaves agrees, le⟩

/-- A flag that an expansion provides is delivered to the machine behind the run. -/
theorem deliversFlag_of_provides (h : Script.Provides (m'.countingIn name) X.taken v wanted p)
    (plain : f.cpu.Plain) (agrees : (f.syncProgramCounter X.native).AgreesBut name m')
    (took : ∀ o, p = some o → x.Took X .byte o) : f.DeliversFlag x X v wanted p := by
  cases h with
  | unwanted => exact .unwanted
  | wanted holds hidden => exact .wanted (delivers_of_holds holds plain agrees (took _ rfl))

end Machine

namespace PowerPC

/--
The code of an addition, run on its own from any machine. The sum modulo the width is in a temporary
in the end, and so are the carry and the signed overflow if they are wanted. Nothing has changed but
the temporaries that were taken and the program counter, and the operands read as they did.
-/
theorem emitted_sum_adds {m : Machine} {x : Expansion} {a b : Operand} {wide : Width}
    {carryIn : Option Operand} {u v c : Nat} (flags : Script.AdditionFlags)
    (processor : m.cpu = cpu) (unlimited : m.settings.stepLimit = none)
    (wider : a.width.wider? = some wide) (same : b.width = a.width) (first : m.Supplies x a u)
    (second : m.Supplies x b v) (third : m.SuppliesCarry x wide c carryIn) :
    ∃ r X f, (Script.addWithCarry a b carryIn flags).run x = (.ok r, X) ∧ m.Completes x X f ∧
      (x.drafts = [] → x.labels = [] → X.finish = .ok (x.codeBehind X)) ∧
      f.Delivers x X a.width ((u + v + c) % 2 ^ a.width.bits) r.result ∧
      f.DeliversFlag x X ((u + v + c) / 2 ^ a.width.bits) flags.carry r.carry ∧
      (u + v + c) / 2 ^ a.width.bits ≤ 1 ∧
      f.DeliversFlag x X (flag ¬ (-(2 ^ (a.width.bits - 1) : Int) ≤
        a.width.toSigned u + a.width.toSigned v + c ∧
          a.width.toSigned u + a.width.toSigned v + c < 2 ^ (a.width.bits - 1)))
        flags.overflow r.overflow ∧
      f.Supplies X a u ∧ f.Supplies X b v ∧ f.SuppliesCarry X wide c carryIn := by
  have plain : m.cpu.Plain := processor ▸ cpu_plain
  -- a register that no operand names, in which another processor could count
  obtain ⟨name, native, unnamed⟩ := exists_unnamed (a :: b :: carryIn.toList)
  have ne : a.kind ≠ .register name := unnamed a (by simp)
  have ne' : b.kind ≠ .register name := unnamed b (by simp)
  have ne'' : ∀ o, carryIn = some o → o.kind ≠ .register name := by
    intro o present
    exact unnamed o (by simp [present])
  have plain' : ((m.begun.syncProgramCounter x.native).countingIn name).cpu.Plain :=
    ⟨plain.alias?, native⟩
  have carried := third.holds ne''
  have calculates := Script.Calculates.addWithCarry wider same carryIn flags
  obtain ⟨r, X, f, m', ran, completes, agrees, added⟩ := calculates.interpret_of_runs
    (Script.confined_addWithCarry (Operand.common_unnamed native) ne ne' ne'') plain unlimited
    (Script.Runs.addWithCarry flags plain' wider same (first.holds ne) (second.holds ne') carried)
    fun added => added.toLeaves
  obtain ⟨_, _, ran', took, took', took''⟩ := Script.addWithCarry_took wider same carryIn flags x
  rw [ran] at ran'
  cases ran'
  have plain_f : f.cpu.Plain := completes.cpu ▸ plain
  -- operands below the modulus and a carry of at most one sum up to less than twice the modulus
  have bounded : (u + v + c) / a.width.modulus ≤ 1 := by
    have hu := (first.holds ne).lt
    have hv : v < a.width.modulus := same ▸ (second.holds ne').lt
    have le := carried.le_one
    exact Width.div_modulus_le_one (by omega)
  have overflow := Machine.deliversFlag_of_provides added.overflow plain_f agrees took''
  rw [flag_congr Width.overflows_iff] at overflow
  rw [← a.width.modulus_eq_two_pow]
  refine ⟨r, X, f, ran, completes, ?_, ?_, ?_, bounded, overflow, ?_, ?_, ?_⟩
  · exact Expansion.finish_eq_ok_of_blank (calculates.extends_of_run ran)
  · exact Machine.delivers_of_holds added.result plain_f agrees took
  · exact Machine.deliversFlag_of_provides added.carry plain_f agrees took'
  · exact first.behind ne added.toLeaves agrees
  · exact second.behind ne' added.toLeaves agrees
  · exact third.behind ne'' added.toLeaves agrees

/-- A machine with the greatest signed number in `%r3`. -/
def beforeOwnAddress : Machine := (Machine.start {} cpu).setGpr 3 0x7fffffff

/-- An expansion of the instruction at `0x40` in which nothing is written. -/
def ownAddress : Expansion := ⟨⟨some cpu, 0⟩, 0x40, none, [], []⟩

/-- A register, the program counter and a wide carry are added, and the signed sum overflows. -/
theorem ownAddress_adds :
    ∃ r X f p turns, (Script.addWithCarry (.register (gprName 3) .dword)
        (.register programCounter .dword) (some (.integer 1 .qword)) ⟨true, true⟩).run ownAddress =
          (.ok r, X) ∧
      Program.ofList (ownAddress.codeBehind X) = .ok p ∧
      beforeOwnAddress.interpret .silent p turns ⟨0x40, 0⟩ () = ⟨f, (), .finished⟩ ∧
      f.Delivers ownAddress X .dword 0x80000040 r.result ∧
      f.DeliversFlag ownAddress X 0 true r.carry ∧
      f.DeliversFlag ownAddress X 1 true r.overflow := by
  have first := Machine.supplies_register (m := beforeOwnAddress) cpu_plain (isTemporary_gprName 3)
    (gprName_ne_programCounter 3) (v := 0x7fffffff) rfl ownAddress .dword
  have second := Machine.supplies_programCounter (m := beforeOwnAddress) cpu_plain ownAddress .dword
  -- the address is a number of every width, whatever the width of the program counter
  have small (w : Width) : w.truncate ownAddress.native = ownAddress.native := by cases w <;> rfl
  rw [small, small] at second
  have third : beforeOwnAddress.SuppliesCarry ownAddress .qword 1 (some (.integer 1 .qword)) :=
    ⟨Nat.le_refl _, Machine.supplies_integer _ _ 1 .qword, Nat.le_refl 1⟩
  obtain ⟨r, X, f, ran, completes, -, result, carry, -, overflow, -⟩ :=
    emitted_sum_adds (a := .register (gprName 3) .dword) (b := .register programCounter .dword)
      ⟨true, true⟩ rfl rfl rfl rfl first second third
  rw [flag_of (by decide)] at overflow
  obtain ⟨p, turns, made, ends⟩ := completes.finished
  exact ⟨r, X, f, p, turns, ran, made, ends, result, carry, overflow⟩

end PowerPC

end RegisterTransfer

import RegisterTransfer.Lifting.Computation
import RegisterTransfer.Proofs.Effects
import RegisterTransfer.Proofs.Execution
import RegisterTransfer.Proofs.Plans

/-!
# Footprints

What a script can touch, whatever names its temporaries get. `Script.Each` says something of every
instruction that a script writes; a journey through the script then preserves whatever each of these
instructions preserves. This is said of two journeys at once, so it covers invariants of one journey
as well as the agreement of two.

> `Script.Each.walk`: journeys preserve what every instruction preserves.
> `Journey.respects_inside`: without jumps out of the expansion control does not leave it.
> `Journey.respects_has`: a register that is not changed keeps its contents.
> `Journey.respects_agreeBut`: a register that is not mentioned makes no difference.
-/

namespace RegisterTransfer

/-! ## Instructions of a script -/

/--
Every instruction that a script writes is in `C`, whatever names its temporaries get, and what it
results in is in `Q`.
-/
def Script.Each {α : Type} (C : Draft → Prop) (Q : α → Prop) : Script α → Prop
  | .done a => Q a
  | .fail _ => True
  | .allocate w next => ∀ k, (next (.register (temporaryName k) w)).Each C Q
  | .write opcode a b c next => C (.plain opcode a b c) ∧ next.Each C Q
  | .create next => ∀ label, (next label).Each C Q
  | .attach _ next => next.Each C Q
  | .leave c label next => C (.jump c label) ∧ next.Each C Q

/-- The instruction may take control out of the expansion. -/
def Draft.Departs : Draft → Prop
  | plain opcode _ _ _ => opcode = .jcc
  | jump _ _ => False

/-- The instruction may change the contents of a register. -/
def Draft.Changes (name : String) : Draft → Prop
  | plain opcode _ _ c => (opcode.writesRegister ∨ opcode = .undef) ∧ c.kind = .register name
  | jump _ _ => False

/-- A register is among the operands. -/
def Draft.Mentions (name : String) : Draft → Prop
  | plain _ a b c => a.kind = .register name ∨ b.kind = .register name ∨ c.kind = .register name
  | jump c _ => c.kind = .register name

/-- What an instruction changes is among its operands. -/
theorem Draft.Changes.mentions {name : String} {d : Draft} (h : d.Changes name) :
    d.Mentions name := by
  cases d with
  | plain => exact .inr (.inr h.2)
  | jump => cases h

/-! ## Journeys that keep a relation -/

namespace Journey

/-- Instructions in `C` of the expansion of a native instruction preserve a relation of journeys. -/
structure Respects (C : Draft → Prop) (native : Nat) (R : Journey → Journey → Prop) : Prop where
  performs : ∀ {opcode a b c} {place : Address} {g g'}, C (.plain opcode a b c) →
    place.native = native → R g g' →
    R (g.perform ⟨place, opcode, a, b, c, none⟩) (g'.perform ⟨place, opcode, a, b, c, none⟩)
  jumps : ∀ {c label} {place : Address} {g g'}, C (.jump c label) → place.native = native →
    R g g' → R (g.jumpIf place c label) (g'.jumpIf place c label)
  reaches : ∀ {label g g'}, R g g' → R (g.reach label) (g'.reach label)

end Journey

namespace Script

variable {α β : Type} {C D : Draft → Prop} {Q : α → Prop} {S : β → Prop} {s : Script α}
  {f : α → Script β}

/-- What follows a script may rely on its results. -/
theorem Each.bind (h : s.Each C Q) (next : ∀ {a}, Q a → (f a).Each C S) :
    (s >>= f).Each C S := by
  show (s.andThen f).Each C S
  induction s with
  | done a => exact next h
  | fail => trivial
  | allocate _ _ ih => exact fun k => ih _ (h k)
  | create _ ih => exact fun label => ih _ (h label)
  | attach _ _ ih => exact ih h
  | write _ _ _ _ _ ih | leave _ _ _ ih => exact ⟨h.1, ih h.2⟩

/-- A larger set of instructions and a larger set of results serve as well. -/
theorem Each.mono {R : α → Prop} (h : s.Each C Q) (instructions : ∀ {d}, C d → D d)
    (results : ∀ {a}, Q a → R a) : s.Each D R := by
  induction s with
  | done a => exact results h
  | fail => trivial
  | allocate _ _ ih => exact fun k => ih _ (h k)
  | create _ ih => exact fun label => ih _ (h label)
  | attach _ _ ih => exact ih h
  | write _ _ _ _ _ ih | leave _ _ _ ih => exact ⟨instructions h.1, ih h.2⟩

/-- The journeys through a script preserve what every instruction preserves. -/
theorem Each.walk (h : s.Each C Q) {x : Expansion} {R : Journey → Journey → Prop}
    (respects : Journey.Respects C x.native R) {g g' : Journey} (start : R g g') :
    R (s.walk x g) (s.walk x g') := by
  induction s generalizing x g g' with
  | done | fail => exact start
  | allocate w next ih => exact ih _ (h _) (x := (x.temporary w).2) respects start
  | create next ih => exact ih _ (h _) (x := x.newLabel.2) respects start
  | attach label next ih => exact ih h (x := x.bind label) respects (respects.reaches start)
  | write opcode a b c next ih =>
    exact ih h.2 (x := x.emit opcode a b c) respects (respects.performs h.1 rfl start)
  | leave c label next ih =>
    exact ih h.2 (x := x.jumpIf c label) respects (respects.jumps h.1 rfl start)

end Script

/-- What more instructions respect is respected by fewer. -/
theorem Journey.Respects.mono {C D : Draft → Prop} {native : Nat} {R : Journey → Journey → Prop}
    (respects : Respects D native R) (fewer : ∀ {d}, C d → D d) : Respects C native R :=
  ⟨fun c => respects.performs (fewer c), fun c => respects.jumps (fewer c), respects.reaches⟩

/-- A `nop` at the end of an expansion is an instruction like any other. -/
theorem Journey.Respects.conclude {C : Draft → Prop} {X : Expansion}
    {R : Journey → Journey → Prop} (respects : Respects C X.native R)
    (idle : C (.plain .nop .absent .absent .absent)) {g g' : Journey} (h : R g g') :
    R (X.conclude g) (X.conclude g') := by
  unfold Expansion.conclude
  split
  · exact respects.performs idle rfl h
  · exact h

/-! ## Control that stays in the expansion -/

namespace Journey

/-- Control has not left the expansion. -/
def Inside (g : Journey) : Prop := ∀ place t, g.stance ≠ .left place t

/-- Nothing but a jump takes control out of the expansion. -/
theorem inside_after {m : Machine} {i : Instruction} (h : i.opcode ≠ .jcc) : (after m i).Inside := by
  intro place t
  unfold after
  rw [if_neg h]
  split <;> simp

/-- Control stays inside as long as no instruction departs. -/
theorem respects_inside (native : Nat) :
    Respects (fun d => ¬ d.Departs) native fun g _ => g.Inside where
  performs {opcode a b c place g _} stays _ inside := by
    unfold perform
    split
    · exact inside_after stays
    · exact inside
  jumps {c label place g _} _ _ inside := by
    unfold jumpIf
    split
    · dsimp only
      split
      · intro place t
        simp
      · split <;> intro place t <;> simp
    · exact inside
  reaches {label g _} inside := by
    unfold reach
    split
    · exact fun _ _ => nofun
    · exact inside

end Journey

/-! ## Registers that stay as they are -/

namespace Journey

variable {m : Machine} {i : Instruction} {name : String}

/-- What an instruction does not change keeps its contents. -/
theorem register?_after (plain : m.cpu.Plain) (kept : ¬ i.Changes name) :
    (after m i).machine.register? name = m.register? name := by
  have executed := (m.executes ∅ i).register?_eq plain kept
  unfold after
  split
  · split <;> rfl
  · split <;> next e => rw [e] at executed; exact executed

/-- The journey of a processor on which a register has certain contents. -/
structure Has (c : Cpu) (name : String) (v : Option RegisterValue) (g : Journey) : Prop where
  processor : g.machine.cpu = c
  contents : g.machine.register? name = v

/-- Every instruction finds the program counter at the native address. -/
theorem Has.sync {c : Cpu} (plain : c.Plain) {native : Nat} {v : Option RegisterValue} {g : Journey}
    (counter : name = c.programCounter → v = some (.ofNat native c.programCounterWidth .defined))
    (h : g.Has c name v) :
    (g.machine.syncProgramCounter native).register? name = v := by
  rw [Machine.syncProgramCounter, Machine.register?_setRegister (h.processor ▸ plain), h.processor]
  split
  · next same => exact (counter same).symm
  · exact h.contents

/-- Contents that no instruction changes stay; those of the program counter are the native address. -/
theorem respects_has {c : Cpu} (plain : c.Plain) {native : Nat} {v : Option RegisterValue}
    (counter : name = c.programCounter → v = some (.ofNat native c.programCounterWidth .defined)) :
    Respects (fun d => ¬ d.Changes name) native fun g _ => g.Has c name v where
  performs {opcode a b o place g _} kept here has := by
    subst here
    unfold perform
    split
    · have synced := has.sync plain counter
      refine ⟨(after_setup _ _).cpu.trans has.processor, ?_⟩
      exact (register?_after (i := ⟨place, opcode, a, b, o, none⟩) (has.processor ▸ plain) kept).trans
        synced
    · exact has
  jumps {c label place g _} _ here has := by
    subst here
    have synced := has.sync plain counter
    unfold jumpIf
    split
    · dsimp only
      split
      · exact ⟨has.processor, synced⟩
      · split <;> exact ⟨has.processor, synced⟩
    · exact has
  reaches {label g _} has := by
    unfold reach
    split
    · exact ⟨has.processor, has.contents⟩
    · exact has

end Journey

/-! ## Registers that make no difference -/

namespace Machine

/-- Machines that agree on what a jump reads send it the same way. -/
theorem SourcesAgree.route {m m' : Machine} {i : Instruction} (h : m.SourcesAgree m' i)
    (jump : i.opcode = .jcc) : m'.route i = m.route i := by
  have condition := h.first (by rw [jump]; rfl)
  have number := h.third (by rw [jump]; rfl)
  have target : m'.target i.address i.op3 = m.target i.address i.op3 := by
    unfold Machine.target
    rw [number]
  rw [Machine.route, Machine.route, condition, target]

/-- Two machines that agree on everything but one register and the counters. -/
structure AgreesBut (name : String) (m m' : Machine) : Prop where
  plain : m.cpu.Plain
  settings : m'.settings = m.settings
  cpu : m'.cpu = m.cpu
  memory : m'.memory = m.memory
  register? : ∀ {other}, other ≠ name → m'.register? other = m.register? other

namespace AgreesBut

variable {name : String} {m m' : Machine} {i : Instruction}

theorem plain' (h : m.AgreesBut name m') : m'.cpu.Plain := h.cpu ▸ h.plain

theorem symm (h : m.AgreesBut name m') : m'.AgreesBut name m :=
  ⟨h.plain', h.settings.symm, h.cpu.symm, h.memory.symm, fun ne => (h.register? ne).symm⟩

/-- Agreement on all but one register passes on. -/
theorem trans {m'' : Machine} (h : m.AgreesBut name m') (h' : m'.AgreesBut name m'') :
    m.AgreesBut name m'' :=
  ⟨h.plain, h'.settings.trans h.settings, h'.cpu.trans h.cpu, h'.memory.trans h.memory,
    fun ne => (h'.register? ne).trans (h.register? ne)⟩

theorem counted (h : m.AgreesBut name m') : m.counted.AgreesBut name m'.counted :=
  ⟨h.plain, h.settings, h.cpu, h.memory, h.register?⟩

theorem jumped (h : m.AgreesBut name m') : m.jumped.AgreesBut name m'.jumped :=
  ⟨h.plain, h.settings, h.cpu, h.memory, h.register?⟩

/-- The same write keeps two machines in agreement, and settles the register that it writes. -/
theorem setRegister (h : m.AgreesBut name m') (other : String) (v : Nat) (w : Width)
    (status : RegisterStatus) :
    (m.setRegister other v w status).AgreesBut name (m'.setRegister other v w status) where
  plain := h.plain
  settings := h.settings
  cpu := h.cpu
  memory := h.memory
  register? {third} ne := by
    rw [register?_setRegister h.plain', register?_setRegister h.plain, h.register? ne]

/-- The program counter becomes the same on both sides. -/
theorem syncProgramCounter (h : m.AgreesBut name m') (native : Nat) :
    (m.syncProgramCounter native).AgreesBut name (m'.syncProgramCounter native) := by
  unfold Machine.syncProgramCounter
  rw [h.cpu]
  exact h.setRegister ..

/-- Whatever is done to both machines alike. -/
theorem enact (h : m.AgreesBut name m') (effect : Effect) :
    (m.enact effect).AgreesBut name (m'.enact effect) := by
  cases effect with
  | write other v w => exact h.setRegister other v w .defined
  | undefine other w =>
    refine ⟨h.plain, h.settings, h.cpu, h.memory, fun {third} ne => ?_⟩
    show (m'.undefineRegister other w).register? third = (m.undefineRegister other w).register? third
    rw [register?_undefineRegister h.plain', register?_undefineRegister h.plain]
    split
    · next same => rw [← same, h.register? ne]
    · exact h.register? ne
  | load a w =>
    exact ⟨h.plain, h.settings, h.cpu, by simp only [Machine.enact, Machine.loaded, h.memory],
      h.register?⟩
  | store a v w =>
    exact ⟨h.plain, h.settings, h.cpu, by simp only [Machine.enact, Machine.stored, h.memory],
      h.register?⟩

/-- The same effects keep two machines in agreement. -/
theorem foldl_enact (effects : List Effect) (h : m.AgreesBut name m') :
    (effects.foldl Machine.enact m).AgreesBut name (effects.foldl Machine.enact m') := by
  induction effects generalizing m m' with
  | nil => exact h
  | cons effect rest ih => exact ih (h.enact effect)

/-- An operand that is another register, or none, reads the same. -/
theorem source (h : m.AgreesBut name m') {o : Operand} (ne : o.kind ≠ .register name)
    (place : Address) : m'.source place o = m.source place o :=
  source_congr (congrArg _ h.settings)
    (fun _ e => value?_congr (h.register? fun same => ne (same ▸ e))) place

end AgreesBut

/-- A register may be written where it may differ. -/
theorem agreesBut_setRegister {m : Machine} (plain : m.cpu.Plain) (name : String) (v : Nat)
    (w : Width) (status : RegisterStatus) : m.AgreesBut name (m.setRegister name v w status) where
  plain := plain
  settings := rfl
  cpu := rfl
  memory := rfl
  register? ne := by rw [register?_setRegister plain, if_neg ne]

end Machine

namespace Journey

variable {name : String}

/-- Two journeys that have come equally far, on machines that agree but for a register. -/
structure AgreeBut (name : String) (g g' : Journey) : Prop where
  stance : g'.stance = g.stance
  machine : g.machine.AgreesBut name g'.machine

/-- An instruction does the same to machines that agree on what it reads. -/
theorem agreeBut_after {m m' : Machine} {i : Instruction} (h : m.AgreesBut name m')
    (sources : m.SourcesAgree m' i) : AgreeBut name (after m i) (after m' i) := by
  unfold after
  split
  · next jump =>
    rw [sources.route jump]
    split
    · exact ⟨rfl, h⟩
    · exact ⟨rfl, h.counted⟩
    · exact ⟨rfl, h⟩
  · have plans := Machine.plan_congr sources h.memory (congrArg _ h.settings) ∅
    rw [m.execute_eq_plan, m'.execute_eq_plan, plans]
    have alike := h.foldl_enact (m.plan ∅ i).effects
    unfold Machine.realize
    cases (m.plan ∅ i).result with
    | error f => exact ⟨rfl, alike⟩
    | ok flow => cases flow <;> exact ⟨rfl, alike.counted⟩

/-- Instructions that do not mention a register do not tell what it holds. -/
theorem respects_agreeBut (name : String) (native : Nat) :
    Respects (fun d => ¬ d.Mentions name) native (AgreeBut name) where
  performs {opcode a b c place g g'} apart _ h := by
    unfold perform
    rw [h.stance]
    split
    · have synced := h.machine.syncProgramCounter place.native
      refine agreeBut_after synced fun slot _ => ?_
      refine synced.source (fun kind => apart ?_) _
      cases slot with
      | first => exact .inl kind
      | second => exact .inr (.inl kind)
      | third => exact .inr (.inr kind)
    · exact h
  jumps {c label place g g'} apart _ h := by
    unfold jumpIf
    rw [h.stance]
    split
    · have synced := h.machine.syncProgramCounter place.native
      dsimp only
      rw [synced.source apart]
      split
      · exact ⟨rfl, synced⟩
      · split
        · exact ⟨rfl, synced.counted⟩
        · exact ⟨rfl, synced.counted.jumped⟩
    · exact h
  reaches {label g g'} h := by
    unfold reach
    rw [h.stance]
    split
    · exact ⟨rfl, h.machine⟩
    · exact h

end Journey

/-! ## Computations -/

/-- An instruction with its operands in a set, which does not take control out of the expansion. -/
def Draft.Confined (O : Operand → Prop) : Draft → Prop
  | plain opcode a b c => opcode ≠ .jcc ∧ O a ∧ O b ∧ O c
  | jump c _ => O c

/-- A confined instruction does not depart. -/
theorem Draft.Confined.stays {O : Operand → Prop} {d : Draft} (h : d.Confined O) : ¬ d.Departs := by
  cases d with
  | plain => exact h.1
  | jump => exact fun departs => departs

/-- A register is not mentioned if no operand in the set names it. -/
theorem Draft.Confined.apart {O : Operand → Prop} {d : Draft} {name : String} (h : d.Confined O)
    (ne : ∀ {o}, O o → o.kind ≠ .register name) : ¬ d.Mentions name := by
  cases d with
  | plain =>
    intro mentions
    rcases mentions with first | second | third
    · exact ne h.2.1 first
    · exact ne h.2.2.1 second
    · exact ne h.2.2.2 third
  | jump => exact ne h

/-- A set of operands with all temporaries and all numbers. -/
structure Operand.Common (O : Operand → Prop) : Prop where
  absent : O .absent
  number : ∀ {o : Operand} {v}, o.kind = .integer v → O o
  temporary : ∀ k w, O (.register (temporaryName k) w)

namespace Script

/-- The operands that an addition hands on are in a set. -/
structure Addition.Confined (O : Operand → Prop) (r : Addition) : Prop where
  result : O r.result
  carry : ∀ o, r.carry = some o → O o
  overflow : ∀ o, r.overflow = some o → O o

section Computations

variable {O : Operand → Prop} {opcode : Opcode} {a b c : Operand} {w wide : Width}

/-- An instruction is confined if its operands are, and it is no jump. -/
theorem confined_emit (stays : opcode ≠ .jcc) (first : O a) (second : O b) (third : O c) :
    (emit opcode a b c).Each (·.Confined O) fun _ => True :=
  ⟨⟨stays, first, second, third⟩, trivial⟩

variable (common : Operand.Common O)

include common

theorem confined_copy (first : O a) (third : O b) :
    (copy a b).Each (·.Confined O) fun _ => True :=
  confined_emit (by decide) first common.absent third

/-- A temporary for a computed value. -/
theorem confined_computed (stays : opcode ≠ .jcc) (first : O a) (second : O b) :
    (temporary w >>= fun o => emit opcode a b o >>= fun _ => pure o).Each (·.Confined O) O :=
  fun k => ⟨⟨stays, first, second, common.temporary k w⟩, common.temporary k w⟩

theorem confined_binary (stays : opcode ≠ .jcc) (first : O a) (second : O b) :
    (binary opcode a b).Each (·.Confined O) O :=
  confined_computed common stays first second

theorem confined_complement (h : O a) : (complement a).Each (·.Confined O) O :=
  confined_binary common (by decide) h (common.number rfl)

theorem confined_flagNot (h : O a) : (flagNot a).Each (·.Confined O) O :=
  confined_binary common (by decide) h (common.number rfl)

theorem confined_signBit (h : O a) : (signBit a).Each (·.Confined O) O :=
  confined_computed common (by decide) h (common.number rfl)

theorem confined_isZero (h : O a) : (isZero a).Each (·.Confined O) O :=
  confined_computed common (by decide) h common.absent

theorem confined_isNonzero (h : O a) : (isNonzero a).Each (·.Confined O) O :=
  (confined_isZero common h).bind fun zero => confined_flagNot common zero

theorem confined_equal (first : O a) (second : O b) : (equal a b).Each (·.Confined O) O :=
  (confined_binary common (by decide) first second).bind fun difference =>
    confined_isZero common difference

/-- The carry of a sum may be missing; if it is there it is confined, too. -/
theorem confined_wideSum {carryIn : Option Operand} (first : O a) (second : O b)
    (third : ∀ o, carryIn = some o → O o) : (wideSum wide a b carryIn).Each (·.Confined O) O := by
  intro k
  have sum := common.temporary k wide
  refine ⟨⟨by decide, first, second, sum⟩, ?_⟩
  cases carryIn with
  | none => exact sum
  | some o => exact confined_computed common (by decide) sum (third o rfl)

theorem confined_carryOut (h : O a) : (carryOut w wide a).Each (·.Confined O) O :=
  confined_computed common (by decide) h (common.number rfl)

theorem confined_overflowOut (first : O a) (second : O b) (third : O c) :
    (overflowOut a b c).Each (·.Confined O) O :=
  (confined_binary common (by decide) first third).bind fun left =>
    (confined_binary common (by decide) second third).bind fun right =>
      (confined_binary common (by decide) left right).bind fun both => confined_signBit common both

omit common in
/-- A result that may be unwanted is confined if it is there. -/
theorem confined_optionally {s : Script Operand} {wanted : Bool} (h : s.Each (·.Confined O) O) :
    (optionally wanted s).Each (·.Confined O) fun r => ∀ o, r = some o → O o := by
  unfold optionally
  split
  · rw [map_eq_pure_bind]
    refine h.bind fun {o} q o' same => ?_
    cases same
    exact q
  · exact fun _ => nofun

/-- An addition hands on temporaries only. -/
theorem confined_addWithCarry {carryIn : Option Operand} {flags : AdditionFlags} (first : O a)
    (second : O b) (third : ∀ o, carryIn = some o → O o) :
    (addWithCarry a b carryIn flags).Each (·.Confined O) (·.Confined O) := by
  unfold addWithCarry
  split
  · split
    · trivial
    · refine (confined_wideSum common first second third).bind fun {sum} total => ?_
      intro k
      have result := common.temporary k a.width
      refine ⟨⟨by decide, total, common.number rfl, result⟩, ?_⟩
      refine (confined_optionally (confined_carryOut common total)).bind fun carry => ?_
      refine (confined_optionally (confined_overflowOut common first second result)).bind
        fun overflow => ?_
      exact ⟨result, carry, overflow⟩
  · trivial

theorem confined_unsignedLess (first : O a) (second : O b) :
    (unsignedLess a b).Each (·.Confined O) O := by
  unfold unsignedLess
  split
  · trivial
  · intro k
    have difference := common.temporary k
    exact ⟨⟨by decide, first, second, difference _⟩, confined_signBit common (difference _)⟩

theorem confined_flipSign (h : O a) : (flipSign a).Each (·.Confined O) O :=
  confined_binary common (by decide) h (common.number rfl)

theorem confined_signedLess (first : O a) (second : O b) :
    (signedLess a b).Each (·.Confined O) O :=
  (confined_flipSign common first).bind fun left => (confined_flipSign common second).bind
    fun right => confined_unsignedLess common left right

theorem confined_signExtend (h : O a) : (signExtend a w).Each (·.Confined O) O := by
  refine (confined_flipSign common h).bind fun flipped k => ?_
  have widened := common.temporary k w
  exact ⟨⟨by decide, flipped, common.absent, widened⟩,
    confined_computed common (by decide) widened (common.number rfl)⟩

theorem confined_negateIf (first : O a) (second : O b) : (negateIf a b).Each (·.Confined O) O :=
  (confined_computed common (by decide) (common.number rfl) second).bind fun mask =>
    (confined_binary common (by decide) first mask).bind fun flipped =>
      confined_binary common (by decide) flipped mask

theorem confined_magnitude (h : O a) :
    (magnitude a).Each (·.Confined O) fun r => O r.1 ∧ O r.2 :=
  (confined_signBit common h).bind fun negative =>
    (confined_negateIf common h negative).bind fun size => ⟨size, negative⟩

end Computations

end Script

end RegisterTransfer

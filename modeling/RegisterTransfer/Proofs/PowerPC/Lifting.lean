import Mathlib.Data.List.Induction
import Mathlib.Logic.Equiv.Defs
import RegisterTransfer.Proofs.PowerPC.Temporaries
import RegisterTransfer.Proofs.Programs
import RegisterTransfer.Proofs.Renumbering

/-!
# Lifting a block

A block is lifted exactly if each of its instructions is, alone, and their addresses differ. The
temporaries taken by the instructions before decide how the temporaries of an instruction are
numbered, and nothing else, so the order of a block is a matter of numbering. If a block is not
lifted, the first instruction that cannot be translated is at fault, or else the first that is where
another is already.

> `translate_at`: what is translated when temporaries are taken is what is translated alone,
> renumbered.
> `Codes.perm`: the codes of a block in another order are the same codes, renumbered.
> `lift_characterized`: when a block is lifted, what to, and why it is not.
-/

namespace RegisterTransfer.PowerPC

open Script

/-! ## Translating one instruction -/

section Collect

variable {run : Except LiftingError Unit × Expansion}

theorem collect_of_error {e : LiftingError} (h : run.1 = .error e) :
    Expansion.collect run = (.error e, run.2.environment) := by
  obtain ⟨result, X⟩ := run
  cases h
  rfl

theorem collect_of_ok {result : Unit} (h : run.1 = .ok result) :
    Expansion.collect run = (run.2.finish, run.2.environment) := by
  obtain ⟨result, X⟩ := run
  cases h
  rfl

end Collect

/-- Temporaries taken before an operation is expanded change nothing but the numbers of its own. -/
theorem collect_at {operation : Operation} (bitwise : operation.Bitwise) (count : Nat)
    (n : NativeInstruction) :
    let alone := Expansion.collect ((operation.expand n.mnemonic n.address).run (blank 0 n))
    Expansion.collect ((operation.expand n.mnemonic n.address).run (blank count n)) =
      (alone.1.map (List.map (Instruction.renumber (· + count))),
        ⟨some cpu, alone.2.temporaries + count⟩) := by
  have closed : (opening 0).labels = [] := rfl
  have lockstep : Lockstep operation.Divides count (fun _ _ Γ => 0 < Γ.size) (opening 0)
      (operation.expand n.mnemonic n.address) (operation.expand n.mnemonic n.address) :=
    Operation.lockstep bitwise closed _ _
  have desc := describes_blank 0 count n
  rw [Nat.zero_add] at desc
  have blanks : (blank 0 n).Renumbered (· + count) (blank count n) := ⟨rfl, rfl, rfl, rfl⟩
  -- the script is in lockstep with itself, started with other temporaries taken
  obtain ⟨⟨Γ, last⟩, apart⟩ := lockstep.renumbers desc blanks
  have kept : ((operation.expand n.mnemonic n.address).run (blank count n)).2.environment.cpu =
      some cpu := cpu_run _ _
  have environment : ((operation.expand n.mnemonic n.address).run (blank count n)).2.environment =
      ⟨some cpu, ((operation.expand n.mnemonic n.address).run
        (blank 0 n)).2.environment.temporaries + count⟩ := by
    rw [last.count, ← last.count', ← kept]
  dsimp only
  rcases lockstep.agree desc with ⟨e, left, right⟩ | ⟨_, _, _, _, _, left, right, -⟩
  · rw [collect_of_error left, collect_of_error right, environment]
    rfl
  · rw [collect_of_ok (congrArg Prod.fst left), collect_of_ok (congrArg Prod.fst right),
      environment, apart.finish]

/-- Taking temporaries before an instruction changes nothing but the numbers of its own. -/
theorem translate_at (count : Nat) (n : NativeInstruction) :
    registry.translate ⟨some cpu, count⟩ n =
      ((registry.translate environment n).1.map (List.map (Instruction.renumber (· + count))),
        ⟨some cpu, (registry.translate environment n).2.temporaries + count⟩) := by
  have fresh : environment = ⟨some cpu, 0⟩ := rfl
  rw [fresh, Registry.translate, Registry.translate]
  cases registered : registry.get? n.mnemonic with
  | none => simp [Except.map]
  | some t =>
    obtain ⟨form, mem, rfl⟩ := get?_registry registered
    dsimp only
    rw [translate_script, translate_script, Form.script]
    cases decoded : form.decode cpu.catalog.widthOf n with
    | error e => simp [Expansion.collect, blank, Except.map, Script.run]
    | ok operation =>
      exact collect_at (Operation.bitwise_of_decode (bitwise_of_mem_forms _ mem) decoded) count n

/-- Whether an instruction can be translated by itself. -/
def Translatable (n : NativeInstruction) : Prop :=
  ∃ code, (registry.translate environment n).1 = .ok code

/-- What can be translated alone can be translated after anything. -/
theorem Translatable.at {n : NativeInstruction} (h : Translatable n) (count : Nat) :
    ∃ code last, registry.translate ⟨some cpu, count⟩ n = (.ok code, ⟨some cpu, last⟩) := by
  obtain ⟨code, alone⟩ := h
  exact ⟨_, _, by rw [translate_at, alone, Except.map]⟩

/-- What is translated somewhere is translated alone, and the codes differ in numbers only. -/
theorem exists_alone {count : Nat} {n : NativeInstruction} {code : List Instruction}
    {e : Environment} (h : registry.translate ⟨some cpu, count⟩ n = (.ok code, e)) :
    ∃ alone, (registry.translate environment n).1 = .ok alone ∧
      code = alone.map (Instruction.renumber (· + count)) ∧
      e = ⟨some cpu, (registry.translate environment n).2.temporaries + count⟩ := by
  rw [translate_at] at h
  cases result : (registry.translate environment n).1 with
  | error error =>
    rw [result, Except.map] at h
    cases h
  | ok alone =>
    rw [result, Except.map] at h
    cases h
    exact ⟨alone, rfl, rfl, rfl⟩

/-- The code of an instruction alone takes the temporaries from zero on. -/
theorem single_alone {n : NativeInstruction} {alone : List Instruction}
    (h : (registry.translate environment n).1 = .ok alone) :
    SingleAssignment 0 (registry.translate environment n).2.temporaries alone := by
  have fresh : environment = ⟨some cpu, 0⟩ := rfl
  rw [fresh] at h ⊢
  obtain ⟨operation, X, expands⟩ := translate_eq_ok_iff.1 h
  rw [expands.translate]
  exact expands.single.2

/-- Code is moved to other temporaries by what moves the numbers it takes. -/
theorem renumber_alone {n : NativeInstruction} {alone : List Instruction}
    (h : (registry.translate environment n).1 = .ok alone) {π : Nat → Nat} {count count' : Nat}
    (moves : ∀ k < (registry.translate environment n).2.temporaries,
      π (k + count) = k + count') :
    (alone.map (Instruction.renumber (· + count))).map (Instruction.renumber π) =
      alone.map (Instruction.renumber (· + count')) := by
  rw [← Instruction.map_renumber_comp]
  exact (single_alone h).renumber_congr fun k _ inside => moves k (by omega)

/-! ## Codes of a block -/

namespace Codes

variable {count mid last : Nat} {n : NativeInstruction} {block block' : List NativeInstruction}
  {codes codes' : List (List Instruction)} {code : List Instruction} {π : Nat → Nat}

/--
The code of a block is the code of its first instruction and that of the rest, whose temporaries go
on from there.
-/
theorem cons_translated
    (first : registry.translate ⟨some cpu, count⟩ n = (.ok code, ⟨some cpu, mid⟩))
    (rest : Codes mid block codes last) : Codes count (n :: block) (code :: codes) last := by
  obtain ⟨operation, X, expands⟩ := translate_eq_ok_iff.1 (congrArg Prod.fst first)
  have same := expands.translate.symm.trans first
  injection same with _ same
  rw [expands.environment] at same
  injection same with _ same
  exact .cons expands (same ▸ rest)

theorem translated (h : Codes count (n :: block) codes' last) :
    ∃ code codes mid, codes' = code :: codes ∧
      registry.translate ⟨some cpu, count⟩ n = (.ok code, ⟨some cpu, mid⟩) ∧
      Codes count [n] [code] mid ∧ Codes mid block codes last := by
  cases h with
  | cons first rest =>
    exact ⟨_, _, _, rfl, first.environment ▸ first.translate, .cons first .nil, rest⟩

/-- Blocks of instructions that can be translated have codes. -/
theorem of_translatable (each : ∀ n ∈ block, Translatable n) (count : Nat) :
    ∃ codes last, Codes count block codes last := by
  induction block generalizing count with
  | nil => exact ⟨[], count, .nil⟩
  | cons n rest ih =>
    obtain ⟨code, mid, first⟩ := (each n (List.mem_cons_self ..)).at count
    obtain ⟨codes, last, others⟩ := ih (fun n mem => each n (List.mem_cons_of_mem _ mem)) mid
    exact ⟨code :: codes, last, cons_translated first others⟩

/--
The codes of two blocks one behind the other, the second with the temporaries left by the first.
-/
theorem append (h : Codes count block codes mid) (h' : Codes mid block' codes' last) :
    Codes count (block ++ block') (codes ++ codes') last := by
  induction h with
  | nil => exact h'
  | cons first _ ih => exact .cons first (ih h')

/-- Each code sits at the address of its instruction. -/
theorem consecutive (h : Codes count block codes last) :
    List.Forall₂ (fun n code => Consecutive n.address code) block codes := by
  induction h with
  | nil => exact .nil
  | cons first _ ih => exact .cons (first.consecutive first.written) ih

/-- Renumbering other temporaries leaves the codes as they are. -/
theorem renumber_of_fixed (h : Codes count block codes last)
    (fixed : ∀ n, count ≤ n → n < last → π n = n) :
    codes.map (List.map (Instruction.renumber π)) = codes := by
  have each : ∀ code ∈ codes, code.map (Instruction.renumber π) = code := by
    intro code mem
    refine (List.map_congr_left fun i inside => ?_).trans (Instruction.map_renumber_id code)
    refine Instruction.renumber_congr fun {slot name w} named temporary => ?_
    have occurs : ∃ i ∈ codes.flatten, ∃ slot w, i.operand slot = .register name w :=
      ⟨i, List.mem_flatten.2 ⟨code, mem, inside⟩, slot, w, named⟩
    obtain ⟨n, above, below, same⟩ := (h.occurs_iff temporary).1 occurs
    exact ⟨n, same, fixed n above below⟩
  exact (List.map_congr_left each).trans (List.map_id codes)

end Codes

/-! ## The order of a block -/

/-- Moves `first` numbers from `start` on behind the `second` numbers that follow them. -/
def exchangeAt (start first second n : Nat) : Nat :=
  if n < start then n
  else if n < start + first then n + second
  else if n < start + first + second then n - first
  else n

/-- Exchanges two adjacent runs of numbers. -/
def exchange (start first second : Nat) : Equiv.Perm Nat where
  toFun := exchangeAt start first second
  invFun := exchangeAt start second first
  left_inv n := by
    unfold exchangeAt
    split_ifs <;> omega
  right_inv n := by
    unfold exchangeAt
    split_ifs <;> omega

section Exchange

variable {start first second k : Nat}

/-- The temporaries of the first code move behind those of the second. -/
theorem exchange_first (h : k < first) :
    exchange start first second (k + start) = k + (second + start) := by
  show exchangeAt start first second (k + start) = _
  unfold exchangeAt
  split_ifs <;> omega

/-- The temporaries of the second code move to the front. -/
theorem exchange_second (h : k < second) :
    exchange start first second (k + (first + start)) = k + start := by
  show exchangeAt start first second (k + (first + start)) = _
  unfold exchangeAt
  split_ifs <;> omega

theorem exchange_outside (h : k < start ∨ second + (first + start) ≤ k) :
    exchange start first second k = k := by
  show exchangeAt start first second k = k
  unfold exchangeAt
  split_ifs <;> omega

end Exchange

/-- Two instructions in the other order have the same codes, their runs of numbers exchanged. -/
theorem Codes.swap {count last : Nat} {m n : NativeInstruction} {block : List NativeInstruction}
    {codes : List (List Instruction)} (h : Codes count (m :: n :: block) codes last) :
    ∃ codes', ∃ π : Equiv.Perm Nat, Codes count (n :: m :: block) codes' last ∧
      (∀ k, k < count ∨ last ≤ k → π k = k) ∧
      codes'.Perm (codes.map (List.map (Instruction.renumber π))) := by
  obtain ⟨code, _, mid, rfl, at_m, -, behind⟩ := h.translated
  obtain ⟨code', others, next, rfl, at_n, -, rest⟩ := behind.translated
  obtain ⟨alone, translated, rfl, e⟩ := exists_alone at_m
  obtain ⟨alone', translated', rfl, e'⟩ := exists_alone at_n
  cases e
  cases e'
  -- each of the two is translated alone, so that either may come first
  have sooner := translate_at count n
  have later := translate_at ((registry.translate environment n).2.temporaries + count) m
  rw [translated', Except.map] at sooner
  rw [translated, Except.map, Nat.add_left_comm] at later
  refine ⟨_, exchange count (registry.translate environment m).2.temporaries
    (registry.translate environment n).2.temporaries,
    cons_translated sooner (cons_translated later rest), fun k outside => ?_, ?_⟩
  · have := rest.written.1
    exact exchange_outside (by omega)
  · rw [List.map_cons, List.map_cons, rest.renumber_of_fixed fun k above _ =>
      exchange_outside (.inr above), renumber_alone translated fun _ => exchange_first,
      renumber_alone translated' fun _ => exchange_second]
    exact .swap ..

/-- The codes of a block in another order are the same codes, renumbered. -/
theorem Codes.perm {block block' : List NativeInstruction} (perm : block.Perm block')
    {count last : Nat} {codes : List (List Instruction)} (h : Codes count block codes last) :
    ∃ codes', ∃ π : Equiv.Perm Nat, Codes count block' codes' last ∧
      (∀ k, k < count ∨ last ≤ k → π k = k) ∧
      codes'.Perm (codes.map (List.map (Instruction.renumber π))) := by
  induction perm generalizing count last codes with
  | nil =>
    cases h
    exact ⟨[], .refl _, .nil, fun _ _ => rfl, .refl _⟩
  | cons n perm ih =>
    obtain ⟨code, codes, mid, rfl, first, one, rest⟩ := h.translated
    obtain ⟨codes', π, others, fixed, same⟩ := ih rest
    -- the numbers that change places all lie behind those of the first code
    have below := one.written.1
    have above := rest.written.1
    have kept : [code].map (List.map (Instruction.renumber π)) = [code] :=
      one.renumber_of_fixed fun k _ inside => fixed k (.inl inside)
    refine ⟨code :: codes', π, cons_translated first others, fun k outside => fixed k ?_, ?_⟩
    · omega
    · rw [List.map_cons, List.singleton_inj.1 kept]
      exact same.cons code
  | swap n m block => exact h.swap
  | trans _ _ ih ih' =>
    obtain ⟨middle, π, others, fixed, same⟩ := ih h
    obtain ⟨codes', σ, others', fixed', same'⟩ := ih' others
    refine ⟨codes', π.trans σ, others', fun k outside => ?_, same'.trans ?_⟩
    · rw [Equiv.trans_apply, fixed k outside, fixed' k outside]
    · have composed : codes.map (List.map (Instruction.renumber (π.trans σ))) =
          (codes.map (List.map (Instruction.renumber π))).map
            (List.map (Instruction.renumber σ)) := by
        rw [List.map_map]
        exact List.map_congr_left fun code _ => Instruction.map_renumber_comp σ π code
      rw [composed]
      exact same.map _

/-! ## Blocks that are lifted -/

section Lifted

variable {block block' : List NativeInstruction} {codes : List (List Instruction)} {last : Nat}
  {p : Program}

/-- A block that has codes is lifted if they make a program. -/
theorem lift_of_codes (h : Codes 0 block codes last) :
    lift block = (Program.ofList codes.flatten).mapError .assembly := by
  have translated : registry.translateBlock environment block =
      (.ok codes.flatten, ⟨some cpu, last⟩) :=
    translateBlock_eq_ok_iff.2 ⟨codes, last, rfl, rfl, h⟩
  rw [lift, translated]

/-- A block lifts to a program exactly if its codes, put one behind the other, are that program. -/
theorem lift_eq_ok_iff : lift block = .ok p ↔
    ∃ codes last, Codes 0 block codes last ∧ Program.ofList codes.flatten = .ok p := by
  constructor
  · intro lifted
    cases translated : registry.translateBlock environment block with
    | mk result e =>
      cases result with
      | error error =>
        rw [lift, translated] at lifted
        cases lifted
      | ok out =>
        obtain ⟨codes, last, -, -, all⟩ := translateBlock_eq_ok_iff.1 translated
        rw [lift_of_codes all] at lifted
        refine ⟨codes, last, all, ?_⟩
        cases assembled : Program.ofList codes.flatten with
        | error e =>
          rw [assembled] at lifted
          cases lifted
        | ok q =>
          rw [assembled] at lifted
          cases lifted
          rfl
  · intro found
    obtain ⟨codes, last, all, assembled⟩ := found
    rw [lift_of_codes all, assembled]
    rfl

/-- A block is lifted if its instructions can be translated and are at different places. -/
theorem lift_of_nodup (each : ∀ n ∈ block, Translatable n)
    (apart : (block.map (·.address)).Nodup) : ∃ p, lift block = .ok p := by
  obtain ⟨codes, last, all⟩ := Codes.of_translatable each 0
  obtain ⟨p, assembled⟩ := Program.ofList_isOk (nodup_of_consecutive all.consecutive apart)
  exact ⟨p, lift_eq_ok_iff.2 ⟨codes, last, all, assembled⟩⟩

/-- A block in another order is lifted to the same program, renumbered. -/
theorem lift_perm (perm : block.Perm block') (h : lift block = .ok p) :
    ∃ p', ∃ π : Equiv.Perm Nat, lift block' = .ok p' ∧
      ∀ a, p'.get? a = (p.get? a).map (Instruction.renumber π) := by
  obtain ⟨codes, last, all, assembled⟩ := lift_eq_ok_iff.1 h
  obtain ⟨codes', π, all', -, same⟩ := all.perm perm
  have flat : codes'.flatten.Perm (codes.flatten.map (Instruction.renumber π)) := by
    rw [List.map_flatten]
    exact same.flatten
  obtain ⟨p', assembled', found⟩ := Program.ofList_renumber assembled flat
  exact ⟨p', π, lift_eq_ok_iff.2 ⟨codes', last, all', assembled'⟩, found⟩

end Lifted

/-! ## Blocks that are not lifted -/

section Refused

variable {n : NativeInstruction} {before after block : List NativeInstruction}

/-- A block fails at its first instruction that cannot be translated. -/
theorem lift_of_untranslatable {e : LiftingError} (each : ∀ m ∈ before, Translatable m)
    (fails : (registry.translate environment n).1 = .error e) :
    lift (before ++ n :: after) = .error (.lifting e) := by
  -- the instructions in front do no more than take temporaries
  have stops : ∀ (count : Nat) (s : Session), s.environment = ⟨some cpu, count⟩ →
      (s.translateAll registry (before ++ n :: after)).1 = .error e := by
    induction before with
    | nil =>
      intro count s known
      have there := translate_at count n
      rw [fails, Except.map] at there
      rw [List.nil_append, Session.translateAll, Session.translate, known, there]
    | cons m rest ih =>
      intro count s known
      obtain ⟨code, mid, there⟩ := (each m (List.mem_cons_self ..)).at count
      rw [List.cons_append, Session.translateAll, Session.translate, known, there]
      exact ih (fun m mem => each m (List.mem_cons_of_mem _ mem)) mid _ rfl
  have stopped := stops 0 ⟨environment, []⟩ rfl
  rw [lift, Registry.translateBlock]
  cases ran : Session.translateAll ⟨environment, []⟩ registry (before ++ n :: after) with
  | mk result s =>
    rw [ran] at stopped
    cases stopped
    rfl

/-- A block that can be translated fails at the first instruction where another is already. -/
theorem lift_of_repeated (each : ∀ m ∈ before ++ n :: after, Translatable m)
    (apart : (before.map (·.address)).Nodup) (taken : n.address ∈ before.map (·.address)) :
    lift (before ++ n :: after) =
      .error (.assembly (.duplicateAddress (.ofNative n.address))) := by
  obtain ⟨codes, mid, earlier⟩ :=
    Codes.of_translatable (fun m mem => each m (List.mem_append_left _ mem)) 0
  obtain ⟨codes', last, later⟩ :=
    Codes.of_translatable (fun m mem => each m (List.mem_append_right _ mem)) mid
  rw [lift_of_codes (earlier.append later)]
  obtain ⟨code, others, _, rfl, -, one, -⟩ := later.translated
  have here : Consecutive n.address code := by
    cases one.consecutive with
    | cons first _ => exact first
  rw [List.flatten_append, List.flatten_cons,
    ofList_of_repeated earlier.consecutive apart taken here]
  rfl

/-- Either a property holds throughout a list, or it fails somewhere for the first time. -/
theorem forall_or_first {α : Type} (P : α → Prop) (l : List α) :
    (∀ a ∈ l, P a) ∨
      ∃ before a after, l = before ++ a :: after ∧ (∀ b ∈ before, P b) ∧ ¬ P a := by
  induction l with
  | nil => exact .inl nofun
  | cons a rest ih =>
    by_cases holds : P a
    · rcases ih with all | ⟨before, c, after, rfl, earlier, fails⟩
      · exact .inl (List.forall_mem_cons.2 ⟨holds, all⟩)
      · exact .inr ⟨a :: before, c, after, rfl, List.forall_mem_cons.2 ⟨holds, earlier⟩, fails⟩
    · exact .inr ⟨[], a, rest, rfl, nofun, holds⟩

/-- How a block is lifted, or why it is not. -/
theorem lift_cases (block : List NativeInstruction) :
    ((∀ n ∈ block, Translatable n) ∧ (block.map (·.address)).Nodup ∧
        ∃ p, lift block = .ok p) ∨
      (∃ before n after e, block = before ++ n :: after ∧ (∀ m ∈ before, Translatable m) ∧
        (registry.translate environment n).1 = .error e ∧
        lift block = .error (.lifting e)) ∨
      ((∀ n ∈ block, Translatable n) ∧ ∃ before n after, block = before ++ n :: after ∧
        (before.map (·.address)).Nodup ∧ n.address ∈ before.map (·.address) ∧
        lift block = .error (.assembly (.duplicateAddress (.ofNative n.address)))) := by
  rcases forall_or_first Translatable block with each | ⟨before, n, after, rfl, earlier, fails⟩
  · rcases nodup_or_first NativeInstruction.address block with
      apart | ⟨before, n, after, rfl, apart, taken⟩
    · exact .inl ⟨each, apart, lift_of_nodup each apart⟩
    · exact .inr (.inr ⟨each, before, n, after, rfl, apart, taken,
        lift_of_repeated each apart taken⟩)
  · cases result : (registry.translate environment n).1 with
    | error e =>
      exact .inr (.inl ⟨before, n, after, e, rfl, earlier, result,
        lift_of_untranslatable earlier result⟩)
    | ok code => exact absurd ⟨code, result⟩ fails

end Refused

/--
A block is lifted exactly if each of its instructions can be translated alone and no two are at one
address. The program then holds, for each instruction, what it is translated to alone, at least one
instruction, from its address on, with higher numbers for the temporaries; it holds nothing else;
and the block in any other order is lifted to the same program, with the temporaries renumbered. A
block that is not lifted fails with the error of its first instruction that cannot be translated,
whatever addresses repeat, or else at the first instruction that is where another is already.
-/
theorem lift_characterized (block : List NativeInstruction) :
    ((∃ p, lift block = .ok p) ↔
      (∀ n ∈ block, Translatable n) ∧ (block.map (·.address)).Nodup) ∧
    (∀ p, lift block = .ok p →
      (∀ n ∈ block, ∃ code taken, (registry.translate environment n).1 = .ok code ∧ code ≠ [] ∧
        ∀ k, p.get? ⟨n.address, k⟩ = (code[k]?).map (Instruction.renumber (· + taken))) ∧
      (∀ a, p.contains a → ∃ n ∈ block, n.address = a.native) ∧
      ∀ block', block.Perm block' → ∃ p', ∃ π : Equiv.Perm Nat, lift block' = .ok p' ∧
        ∀ a, p'.get? a = (p.get? a).map (Instruction.renumber π)) ∧
    ∀ problem, lift block = .error problem ↔
      (∃ before n after e, block = before ++ n :: after ∧ (∀ m ∈ before, Translatable m) ∧
        (registry.translate environment n).1 = .error e ∧ problem = .lifting e) ∨
      (∀ n ∈ block, Translatable n) ∧ ∃ before n after, block = before ++ n :: after ∧
        (before.map (·.address)).Nodup ∧ n.address ∈ before.map (·.address) ∧
        problem = .assembly (.duplicateAddress (.ofNative n.address)) := by
  refine ⟨⟨fun lifted => ?_, fun ⟨each, apart⟩ => lift_of_nodup each apart⟩,
    fun p lifted => ⟨fun n mem => ?_, ?_, ?_⟩, fun problem => ⟨fun failed => ?_, ?_⟩⟩
  · obtain ⟨p, lifted⟩ := lifted
    rcases lift_cases block with
      ⟨each, apart, -⟩ | ⟨_, _, _, _, -, -, -, failed⟩ | ⟨-, _, _, _, -, -, -, failed⟩
    · exact ⟨each, apart⟩
    · rw [lifted] at failed
      cases failed
    · rw [lifted] at failed
      cases failed
  · obtain ⟨count, operation, X, code, expands, placed⟩ := (laid_of_lift lifted).placed n mem
    obtain ⟨alone, translated, rfl, -⟩ := exists_alone expands.translate
    refine ⟨alone, count, translated, fun none => placed.nonempty (by rw [none]; rfl), fun k => ?_⟩
    rw [placed.get?, List.getElem?_map]
  · exact fun a => (laid_of_lift lifted).covered
  · exact fun block' perm => lift_perm perm lifted
  · rcases lift_cases block with ⟨-, -, p, lifted⟩ |
      ⟨before, n, after, e, split, earlier, fails, result⟩ |
      ⟨each, before, n, after, split, apart, taken, result⟩
    · rw [lifted] at failed
      cases failed
    · rw [failed] at result
      cases result
      exact .inl ⟨before, n, after, e, split, earlier, fails, rfl⟩
    · rw [failed] at result
      cases result
      exact .inr ⟨each, before, n, after, split, apart, taken, rfl⟩
  · rintro (⟨before, n, after, e, rfl, earlier, fails, rfl⟩ |
      ⟨each, before, n, after, rfl, apart, taken, rfl⟩)
    · exact lift_of_untranslatable earlier fails
    · exact lift_of_repeated each apart taken

end RegisterTransfer.PowerPC

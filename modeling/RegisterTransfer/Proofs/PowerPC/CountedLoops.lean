import RegisterTransfer.Proofs.PowerPC.Frames
import RegisterTransfer.Proofs.PowerPC.Sums

/-!
# Counted loops

A straight body with a branch behind it that counts down and goes back to the beginning. The body is
executed as often as the count register says, where zero stands for `2 ^ 32`, and what happens is
what the instructions of the body do by themselves, one after the other, with the count register set
to what is left after each round.

> `nativeStep_branchCounted`: the branch counts down, and goes back unless nothing is left.
> `travels_body`: a body that does not fail is passed from its beginning to the branch.
> `counted_loop_repeats`: the whole loop.
-/

namespace RegisterTransfer.PowerPC

open Script

/-! ## Counting down -/

/-- The number of rounds that a count register stands for. -/
def iterations (c : Nat) : Nat := if c % 2 ^ 32 = 0 then 2 ^ 32 else c % 2 ^ 32

/-- A counted loop is gone through at least once. -/
theorem iterations_pos (c : Nat) : 0 < iterations c := by
  unfold iterations
  split <;> omega

/-- A counter of zero is gone through the most often, for it wraps around. -/
theorem iterations_le (c : Nat) : iterations c ≤ 2 ^ 32 := by
  have lt := Nat.mod_lt c (show 2 ^ 32 > 0 by decide)
  unfold iterations
  split <;> omega

/-- Modulo the counter the number of rounds is its value. -/
theorem iterations_mod (c : Nat) : iterations c % 2 ^ 32 = c % 2 ^ 32 := by
  unfold iterations
  split <;> omega

/-- One less, unless that is zero less one. -/
theorem ofInt_pred {left : Nat} (pos : 0 < left) (le : left ≤ 2 ^ 32) :
    registerWidth.ofInt ((left % 2 ^ 32 : Nat) - (1 : Nat)) = left - 1 := by
  have whole : registerWidth.modulus = 2 ^ 32 := rfl
  unfold Width.ofInt
  rw [whole]
  omega

section Scripts

variable {x : Expansion} {m : Machine} {v target : Nat}

/-- The script counts down, and leaves unless nothing is left. -/
theorem leads_expandBranchCounted (processor : m.cpu = cpu) (lt : target < registerWidth.modulus)
    (count : m.value? BranchRegister.count.name = some v) :
    (expandBranchCounted target).Leads x (.start m) fun _ X g =>
      Leaves x (m.setRegister BranchRegister.count.name
        (registerWidth.ofInt ((v % 2 ^ 32 : Nat) - (1 : Nat))) registerWidth .defined) X g.machine ∧
      ∃ place, g.stance = if registerWidth.ofInt ((v % 2 ^ 32 : Nat) - (1 : Nat)) = 0 then .going
        else .left place (.ofNative target) := by
  have one := Machine.holds_integer m x.taken 1 registerWidth
  rw [Width.truncate_of_le_one _ (Nat.le_refl 1)] at one
  have fits : Opcode.sub.Fits registerWidth registerWidth registerWidth :=
    registerWidth.not_lt_max_self
  apply (Runs.binary (plain_of_cpu processor) rfl fits (holds_branch processor .count count) one
    rfl).leads
  intro count' X₁ m₁ less
  rw [Width.truncate_oword_ofInt] at less
  apply (runs_copy less.plain BranchRegister.count.name registerWidth less.holds).leads
  intro _ X₂ m₂ set
  have set : Leaves X₁ (m₁.setRegister BranchRegister.count.name _ registerWidth .defined) X₂ m₂ :=
    set
  have apart := less.hidden.ne (isTemporary_branchRegister .count)
  have held := set.holds (less.holds.set less.plain apart _ registerWidth .defined)
  apply (Runs.isNonzero set.plain held).leads
  intro taken X₃ m₃ nonzero
  apply (leads_leave nonzero.plain nonzero.holds target registerWidth).mono
  intro _ X₄ g ⟨left, stance⟩
  refine ⟨less.toLeaves.set ((set.trans nonzero.toLeaves).trans left), X₃.here, ?_⟩
  rw [stance, truncate_target lt]
  simp only [flag_eq_zero_iff, ne_eq, Decidable.not_not]
  rfl

end Scripts

section Branch

variable {block : List NativeInstruction} {p : Program} {b : NativeInstruction} {m : Machine}
  {target left v : Nat}

theorem registered_branchCounted : ("bdnz", Form.branchCounted) ∈ forms := by
  simp [forms, controlForms]

/-- A counted branch that is read has a target and nothing else. -/
theorem branchCounted_decoded {operation : Operation}
    (h : Form.branchCounted.decode cpu.catalog.widthOf b = .ok operation) :
    ∃ target, targetAt cpu.catalog.widthOf b 0 = .ok target ∧
      operation = .branchCounted target := by
  simp only [Form.decode, Form.takesConditionField, Form.read, Except.bind_eq_ok] at h
  obtain ⟨_, -, target, written, e⟩ := h
  cases e
  exact ⟨target, written, rfl⟩

/-- The native step of the branch, where `left` rounds are left. -/
theorem nativeStep_branchCounted (lifted : lift block = .ok p) (mem : b ∈ block)
    (named : b.mnemonic = "bdnz") (back : targetAt cpu.catalog.widthOf b 0 = .ok target)
    (there : p.contains (.ofNative target)) (processor : m.cpu = cpu)
    (limit : m.settings.stepLimit = none) (count : m.value? BranchRegister.count.name = some v)
    (same : v % 2 ^ 32 = left % 2 ^ 32) (pos : 0 < left) (le : left ≤ 2 ^ 32) :
    ∃ r, Run.NativeStep p ⟨m, (), .running (.ofNative b.address)⟩ r ∧
      r.progress = (if left = 1 then Progress.within p b.address .finished
        else .running (.ofNative target)) ∧
      (m.setRegister BranchRegister.count.name (left - 1) registerWidth .defined).Alike []
        r.machine := by
  obtain ⟨taken, operation, X, code, expands, leads⟩ := nativeStep_of_leads lifted mem
  obtain ⟨form, registered, decodes⟩ := expands.decoded
  obtain rfl := form_unique (named ▸ registered) registered_branchCounted
  obtain ⟨target', written, rfl⟩ := branchCounted_decoded decodes
  obtain rfl := Except.ok.inj (back.symm.trans written)
  have effect := leads_expandBranchCounted (x := blank taken b) processor (targetAt_lt written) count
  rw [same, ofInt_pred pos le] at effect
  obtain ⟨r, step, progress, keeps⟩ := leads limit <| effect.mono
    (R := fun _ X g => g.stance.progress p b.address = (if left = 1 then
      Progress.within p b.address .finished else .running (.ofNative target)) ∧
        Leaves (blank taken b) _ X g.machine) fun ⟨leaves, place, stance⟩ => by
      refine ⟨?_, leaves⟩
      rw [stance]
      -- one less is zero in the last round only, as no more than `2 ^ 32` are left
      by_cases last : left = 1
      · rw [if_pos (by omega), if_pos last]
        rfl
      · rw [if_neg (by omega), if_neg last]
        exact if_pos there
  exact ⟨r, step, progress, .of_keeps keeps⟩

end Branch

/-! ## What instructions do by themselves -/

/-- The instruction by itself runs to its end, and takes one machine to another. -/
def Applies (n : NativeInstruction) (m m' : Machine) : Prop := Alone n m ⟨m', (), .finished⟩

/-- The instruction by itself fails. -/
def Fails (n : NativeInstruction) (m : Machine) : Prop :=
  ∃ r f, Alone n m r ∧ r.progress = .failed f

/-- Instructions by themselves, one after the other. -/
inductive Performs : List NativeInstruction → Machine → Machine → Prop
  | nil (m : Machine) : Performs [] m m
  | cons {n rest m k m'} (first : Applies n m k) (onward : Performs rest k m') :
    Performs (n :: rest) m m'

/-- One of the instructions fails once those before it are done. -/
def BodyFails (body : List NativeInstruction) (m : Machine) : Prop :=
  ∃ before n rest k, body = before ++ n :: rest ∧ Performs before m k ∧ Fails n k

section Alone

variable {block body rest : List NativeInstruction} {p : Program} {n : NativeInstruction}
  {m m' k e : Machine} {b : BranchRegister}

theorem Applies.setup (h : Applies n m m') : m.SameSetup m' := Alone.setup h

theorem Performs.setup (h : Performs body m m') : m.SameSetup m' := by
  induction h with
  | nil m => exact .refl m
  | cons first _ ih => exact first.setup.trans ih

/-- Bodies that are performed one behind the other are performed as one. -/
theorem Performs.append (h : Performs body m k) (h' : Performs rest k m') :
    Performs (body ++ rest) m m' := by
  induction h with
  | nil => exact h'
  | cons first _ ih => exact .cons first (ih h')

/-- An instruction by itself has one outcome at most. -/
theorem Applies.unique (h : Applies n m k) (h' : Applies n m m') : k = m' :=
  congrArg Run.machine (Alone.unique h h')

/-- What instructions do by themselves is determined. -/
theorem Performs.unique (h : Performs body m k) (h' : Performs body m m') : k = m' := by
  induction h with
  | nil =>
    cases h'
    rfl
  | cons first _ ih =>
    cases h' with
    | cons first' onward =>
      obtain rfl := first.unique first'
      exact ih onward

/-- Instructions that run to their end do not fail. -/
theorem Performs.not_bodyFails (h : Performs body m k) : ¬ BodyFails body m := by
  rintro ⟨before, n, rest, l, rfl, done, r, f, alone, failed⟩
  induction done generalizing k with
  | nil =>
    cases h with
    | cons first _ =>
      obtain rfl := Alone.unique alone first
      cases failed
  | cons first _ ih =>
    cases h with
    | cons first' onward =>
      obtain rfl := first.unique first'
      exact ih onward alone

/-- Without a fault the first instruction applies, and the others have none either. -/
theorem not_bodyFails_cons (safe : ¬ BodyFails (n :: rest) m) :
    ¬ Fails n m ∧ ∀ {k}, Applies n m k → ¬ BodyFails rest k := by
  constructor
  · intro fails
    exact safe ⟨[], n, rest, m, rfl, .nil m, fails⟩
  · intro k applies fails
    obtain ⟨before, n', rest', k', same, performs, fails⟩ := fails
    exact safe ⟨n :: before, n', rest', k', by rw [same]; rfl, .cons applies performs, fails⟩

/-- Instructions that do not write a branch register keep it. -/
theorem Performs.register? (h : Performs body m m') (processor : m.cpu = cpu)
    (limit : m.settings.stepLimit = none) (kept : ∀ n ∈ body, ¬ Writes b n) :
    m'.register? b.name = m.register? b.name := by
  induction h with
  | nil => rfl
  | cons first _ ih =>
    have setup := first.setup
    obtain ⟨q, lifted, step⟩ := first
    have here := register?_of_step (laid_of_lift lifted) (List.mem_singleton_self _) processor limit
      (kept _ (List.mem_cons_self ..)) step
    rw [ih (setup.cpu.trans processor) (setup.settings ▸ limit) fun n mem =>
      kept n (List.mem_cons_of_mem _ mem)]
    exact here

/-- A branch register that is not used makes no difference to instructions by themselves. -/
theorem Performs.of_unused (h : Performs body m m') (processor : m.cpu = cpu)
    (limit : m.settings.stepLimit = none) (unread : ∀ n ∈ body, ¬ Reads b n)
    (kept : ∀ n ∈ body, ¬ Writes b n) (alike : m.Alike [b.name] e) :
    ∃ e', Performs body e e' ∧ m'.Alike [b.name] e' := by
  induction h generalizing e with
  | nil => exact ⟨e, .nil e, alike⟩
  | cons first _ ih =>
    have setup := first.setup
    obtain ⟨q, lifted, step⟩ := first
    obtain ⟨r, step', progress, alike'⟩ := step_of_unused (laid_of_lift lifted)
      (List.mem_singleton_self _) processor limit (unread _ (List.mem_cons_self ..))
      (kept _ (List.mem_cons_self ..)) alike step
    obtain ⟨e', performs, ends⟩ := ih (setup.cpu.trans processor) (setup.settings ▸ limit)
      (fun n mem => unread n (List.mem_cons_of_mem _ mem))
      (fun n mem => kept n (List.mem_cons_of_mem _ mem)) alike'
    have there := Run.eq_of_progress progress
    exact ⟨e', .cons ⟨q, lifted, there ▸ step'⟩ performs, ends⟩

/-- In a program, an instruction that does not branch and does not fail goes on behind itself. -/
theorem nativeStep_falls (laid : Laid block p) (mem : n ∈ block) (processor : m.cpu = cpu)
    (limit : m.settings.stepLimit = none) (stays : ¬ Branches n) (safe : ¬ Fails n m)
    (alike : m.Alike [] e) :
    ∃ k r, Applies n m k ∧ Run.NativeStep p ⟨e, (), .running (.ofNative n.address)⟩ r ∧
      r.progress = Progress.within p n.address .finished ∧ k.Alike [] r.machine := by
  obtain ⟨r, r', alone, step, same, progress⟩ :=
    nativeStep_of_alike laid mem processor limit alike
  have alone' := alone
  obtain ⟨q, lifted, step'⟩ := alone
  rcases step_falls (laid_of_lift lifted) (List.mem_singleton_self n) processor limit stays step'
    with ends | ⟨f, -, failed, -⟩
  · rw [within_alone lifted] at ends
    refine ⟨r.machine, r', Run.eq_of_progress ends ▸ alone', step, ?_, .of_sameNative same⟩
    rw [progress, ends]
  · exact absurd ⟨r, f, alone', failed⟩ safe

end Alone

/-! ## Loops -/

/-- The address at which a loop begins. -/
def entry (body : List NativeInstruction) (b : NativeInstruction) : Nat := (body.headD b).address

/--
A loop in a program: a straight body that does not write the count register, and next to it, in the
order of addresses, the branch that counts down and goes back to the beginning.
-/
structure CountedLoop (block : List NativeInstruction) (p : Program)
    (body : List NativeInstruction) (b : NativeInstruction) : Prop where
  inside : ∀ n ∈ body ++ [b], n ∈ block
  follows : List.IsChain (fun n n' => p.nativeAbove? n.address = some n'.address) (body ++ [b])
  straight : ∀ n ∈ body, ¬ Branches n
  kept : ∀ n ∈ body, ¬ Writes .count n
  named : b.mnemonic = "bdnz"
  back : targetAt cpu.catalog.widthOf b 0 = .ok (entry body b)

/--
Rounds of a loop: the instructions of the body by themselves, and behind each round the count
register set to the number of rounds that are left.
-/
inductive Rounds (body : List NativeInstruction) (total : Nat) : Nat → Machine → Machine → Prop
  | start (m : Machine) : Rounds body total 0 m m
  | next {j m k k'} (before : Rounds body total j m k) (round : Performs body k k') :
    Rounds body total (j + 1) m
      (k'.setRegister BranchRegister.count.name (total - (j + 1)) registerWidth .defined)

section Loop

variable {block body : List NativeInstruction} {p : Program} {b : NativeInstruction}
  {m k e : Machine} {total j left v : Nat}

theorem Rounds.setup (h : Rounds body total j m k) : m.SameSetup k := by
  induction h with
  | start m => exact .refl m
  | next _ round ih =>
    have setup := ih.trans round.setup
    exact ⟨setup.settings, setup.cpu⟩

/-- A body that does not fail is passed from its beginning to the branch. -/
theorem travels_body (laid : Laid block p) (inside : ∀ n ∈ body, n ∈ block)
    (follows : List.IsChain (fun n n' => p.nativeAbove? n.address = some n'.address) (body ++ [b]))
    (straight : ∀ n ∈ body, ¬ Branches n) (processor : m.cpu = cpu)
    (limit : m.settings.stepLimit = none) (safe : ¬ BodyFails body m) (alike : m.Alike [] e) :
    ∃ k e', Performs body m k ∧ k.Alike [] e' ∧
      Travels block p body ⟨e, (), .running (.ofNative (entry body b))⟩
        ⟨e', (), .running (.ofNative b.address)⟩ := by
  induction body generalizing m e with
  | nil => exact ⟨m, e, .nil m, alike, .stay _⟩
  | cons n rest ih =>
    obtain ⟨whole, safe'⟩ := not_bodyFails_cons safe
    have mem := inside n (List.mem_cons_self ..)
    obtain ⟨k, r, applies, step, progress, alike'⟩ := nativeStep_falls laid mem processor limit
      (straight n (List.mem_cons_self ..)) whole alike
    -- behind the instruction the rest of the body begins
    obtain ⟨next, follows⟩ : p.nativeAbove? n.address = some (entry rest b) ∧
        List.IsChain (fun n n' => p.nativeAbove? n.address = some n'.address) (rest ++ [b]) := by
      cases rest <;> exact List.isChain_cons_cons.1 follows
    have onward : r = ⟨r.machine, (), .running (.ofNative (entry rest b))⟩ := by
      refine Run.eq_of_progress (progress.trans ?_)
      simp only [Progress.within, next]
    obtain ⟨k', e', performs, ends, travels⟩ := ih (fun n mem => inside n (List.mem_cons_of_mem _ mem))
      follows (fun n mem => straight n (List.mem_cons_of_mem _ mem))
      (applies.setup.cpu.trans processor) (applies.setup.settings ▸ limit) (safe' applies) alike'
    exact ⟨k', e', .cons applies performs, ends, .go mem step (onward ▸ travels)⟩

/-- One round, where `left` rounds are left. -/
theorem CountedLoop.travels_round (loop : CountedLoop block p body b) (lifted : lift block = .ok p)
    (processor : m.cpu = cpu) (limit : m.settings.stepLimit = none)
    (count : m.value? BranchRegister.count.name = some v) (same : v % 2 ^ 32 = left % 2 ^ 32)
    (pos : 0 < left) (le : left ≤ 2 ^ 32) (safe : ¬ BodyFails body m) (alike : m.Alike [] e) :
    ∃ k r, Performs body m k ∧
      Travels block p (body ++ [b]) ⟨e, (), .running (.ofNative (entry body b))⟩ r ∧
      r.progress = (if left = 1 then Progress.within p b.address .finished
        else .running (.ofNative (entry body b))) ∧
      (k.setRegister BranchRegister.count.name (left - 1) registerWidth .defined).Alike []
        r.machine := by
  have laid := laid_of_lift lifted
  have mem : b ∈ block := loop.inside b (List.mem_append_right _ (List.mem_singleton_self b))
  have inside : ∀ n ∈ body, n ∈ block := fun n mem => loop.inside n (List.mem_append_left _ mem)
  obtain ⟨k, e', performs, alike', travels⟩ :=
    travels_body laid inside loop.follows loop.straight processor limit safe alike
  have setup := performs.setup
  have processor' : k.cpu = cpu := setup.cpu.trans processor
  -- the body has left the count register alone
  have kept : k.value? BranchRegister.count.name = some v :=
    (Machine.value?_congr (performs.register? processor limit loop.kept)).trans count
  have counter : BranchRegister.count.name ≠ k.cpu.programCounter :=
    processor' ▸ BranchRegister.count.ne_programCounter
  have count' : e'.value? BranchRegister.count.name = some v :=
    (alike'.value? (isTemporary_branchRegister .count) counter List.not_mem_nil).trans kept
  have there : p.contains (.ofNative (entry body b)) := by
    cases body with
    | nil => exact laid.contains mem
    | cons n rest => exact laid.contains (inside n (List.mem_cons_self ..))
  obtain ⟨r, step, progress, counted⟩ := nativeStep_branchCounted lifted mem loop.named loop.back
    there (alike'.cpu.trans processor') (alike'.settings ▸ setup.settings ▸ limit) count' same pos le
  have set : (k.setRegister BranchRegister.count.name (left - 1) registerWidth .defined).Alike []
      (e'.setRegister BranchRegister.count.name (left - 1) registerWidth .defined) :=
    (alike'.of_subset (List.nil_subset _)).setRegister (plain_of_cpu processor') _ _ _
  exact ⟨k, r, performs, travels.append (.go mem step (.stay r)), progress, set.trans counted⟩

/-- All rounds but the last one go back to the beginning. -/
theorem CountedLoop.travels_rounds (loop : CountedLoop block p body b) (lifted : lift block = .ok p)
    (processor : m.cpu = cpu) (limit : m.settings.stepLimit = none)
    (count : m.value? BranchRegister.count.name = some v) (same : v % 2 ^ 32 = total % 2 ^ 32)
    (le : total ≤ 2 ^ 32) (safe : ∀ j < total, ∀ k, Rounds body total j m k → ¬ BodyFails body k)
    (lt : j < total) :
    ∃ k e v, Rounds body total j m k ∧ k.Alike [] e ∧
      Travels block p (List.replicate j (body ++ [b])).flatten
        ⟨m, (), .running (.ofNative (entry body b))⟩ ⟨e, (), .running (.ofNative (entry body b))⟩ ∧
      k.value? BranchRegister.count.name = some v ∧ v % 2 ^ 32 = (total - j) % 2 ^ 32 := by
  -- after so many rounds the run stands at the entry, with the others left to count
  induction j with
  | zero => exact ⟨m, m, v, .start m, .refl [] m, .stay _, count, same⟩
  | succ j ih =>
    obtain ⟨k, e, v, rounds, alike, travels, count, same⟩ := ih (by omega)
    have setup := rounds.setup
    have processor' : k.cpu = cpu := setup.cpu.trans processor
    obtain ⟨k', r, performs, round, progress, alike'⟩ := loop.travels_round lifted processor'
      (setup.settings ▸ limit) count same (by omega) (by omega) (safe j (by omega) k rounds) alike
    rw [if_neg (by omega)] at progress
    have onward := Run.eq_of_progress progress
    have left : total - j - 1 = total - (j + 1) := by omega
    rw [left] at alike'
    have plain : k'.cpu.Plain := plain_of_cpu (performs.setup.cpu.trans processor')
    refine ⟨_, r.machine, total - (j + 1), .next rounds performs, alike', ?_, ?_, rfl⟩
    · rw [List.replicate_succ', List.flatten_append, List.flatten_singleton]
      exact travels.append (onward ▸ round)
    · have small : total - (j + 1) < 2 ^ 32 := by omega
      simp only [Machine.value?, Machine.register?_setRegister plain, if_true, RegisterValue.ofNat,
        Width.truncate_of_lt (show total - (j + 1) < registerWidth.modulus from small)]
      rfl

/-- A body that does not read the count register is applied as often as there are rounds. -/
theorem Rounds.performs (h : Rounds body total j m k) (processor : m.cpu = cpu)
    (limit : m.settings.stepLimit = none) (unread : ∀ n ∈ body, ¬ Reads .count n)
    (kept : ∀ n ∈ body, ¬ Writes .count n) :
    ∃ e, Performs (List.replicate j body).flatten m e ∧ e.Alike [BranchRegister.count.name] k := by
  induction h with
  | start m => exact ⟨m, .nil m, .refl _ m⟩
  | @next j m k k' before round ih =>
    obtain ⟨e, performs, alike⟩ := ih processor limit
    have setup := before.setup
    have processor' : k.cpu = cpu := setup.cpu.trans processor
    obtain ⟨e', performs', alike'⟩ :=
      round.of_unused processor' (setup.settings ▸ limit) unread kept alike.symm
    have plain : k'.cpu.Plain := plain_of_cpu (round.setup.cpu.trans processor')
    have counted := Machine.Alike.of_agreesBut
      (Machine.agreesBut_setRegister plain BranchRegister.count.name (total - (j + 1)) registerWidth
        .defined)
    refine ⟨e', ?_, alike'.symm.trans counted⟩
    rw [List.replicate_succ', List.flatten_append, List.flatten_singleton]
    exact performs.append performs'

end Loop

/--
A counted loop whose rounds do not fail visits its body and its branch as often as the count register
says, where zero stands for `2 ^ 32`, and then goes on behind the branch. It leaves what the rounds
leave, with nothing left in the count register; if the body does not read that register, this is what
the body leaves when it is applied as often.
-/
theorem counted_loop_repeats {block : List NativeInstruction} {p : Program}
    (lifted : lift block = .ok p) {body : List NativeInstruction} {b : NativeInstruction}
    (loop : CountedLoop block p body b) {m : Machine} (processor : m.cpu = cpu)
    (limit : m.settings.stepLimit = none) {c : Nat}
    (count : m.value? BranchRegister.count.name = some c)
    (safe : ∀ j < iterations c, ∀ k, Rounds body (iterations c) j m k → ¬ BodyFails body k) :
    ∃ s, Travels block p (List.replicate (iterations c) (body ++ [b])).flatten
        ⟨m, (), .running (.ofNative (entry body b))⟩ s ∧
      s.progress = Progress.within p b.address .finished ∧
      s.machine.register? BranchRegister.count.name = some ⟨0, .dword, .defined⟩ ∧
      (∃ k, Rounds body (iterations c) (iterations c) m k ∧ k.Alike [] s.machine) ∧
      ((∀ n ∈ body, ¬ Reads .count n) →
        ∃ k, Performs (List.replicate (iterations c) body).flatten m k ∧
          k.Alike [BranchRegister.count.name] s.machine) := by
  have le := iterations_le c
  -- all rounds but the last go back to the entry, and the last leaves
  obtain ⟨last, whole⟩ : ∃ last, iterations c = last + 1 :=
    ⟨iterations c - 1, by have := iterations_pos c; omega⟩
  have same := (iterations_mod c).symm
  rw [whole] at le same safe ⊢
  obtain ⟨k, e, v, rounds, alike, travels, count', same'⟩ :=
    loop.travels_rounds lifted processor limit count same le safe (Nat.lt_succ_self last)
  have setup := rounds.setup
  have processor' : k.cpu = cpu := setup.cpu.trans processor
  have one : last + 1 - last = 1 := by omega
  rw [one] at same'
  obtain ⟨k', s, performs, round, progress, ends⟩ := loop.travels_round lifted processor'
    (setup.settings ▸ limit) count' same' (by decide) (by decide)
    (safe last (Nat.lt_succ_self last) k rounds) alike
  have rounds' := rounds.next performs
  have none_left : last + 1 - (last + 1) = 1 - 1 := by omega
  rw [none_left] at rounds'
  have processor'' : k'.cpu = cpu := performs.setup.cpu.trans processor'
  refine ⟨s, ?_, progress, ?_, ⟨_, rounds', ends⟩, fun unread => ?_⟩
  · rw [List.replicate_succ', List.flatten_append, List.flatten_singleton]
    exact travels.append round
  · rw [ends.register? (isTemporary_branchRegister .count)
      (processor''.symm ▸ BranchRegister.count.ne_programCounter) List.not_mem_nil,
      Machine.register?_setRegister (plain_of_cpu processor''), if_pos rfl]
    rfl
  · obtain ⟨e', performs', alike'⟩ := rounds'.performs processor limit unread loop.kept
    exact ⟨e', performs', alike'.trans (ends.of_subset (List.nil_subset _))⟩

/-! ## A loop that adds -/

/-- Adds two to `%r3`. -/
def stride : NativeInstruction :=
  ⟨0x100, "addi", [.sized .dword (.register "%r3"), .sized .dword (.register "%r3"),
    .immediate 2]⟩

/-- A loop that adds two to `%r3` in every round. -/
def stridingLoop : List NativeInstruction := [stride, ⟨0x104, "bdnz", [.immediate 0x100]⟩]

theorem means_stride : Means stride (.sum {} 3 (.register 3) (.constant 2)) :=
  ⟨.sum {} .immediate false true, by simp [stride, forms, sumForms], rfl⟩

theorem expands_stridingLoop :
    ∀ n ∈ stridingLoop, ∃ operation X code, Expands 0 n operation X code := by
  intro n mem
  simp only [stridingLoop, List.mem_cons, List.not_mem_nil, or_false] at mem
  rcases mem with rfl | rfl
  · exact ⟨_, _, _, means_stride, rfl, rfl⟩
  · exact ⟨.branchCounted 0x100, _, _, ⟨_, registered_branchCounted, rfl⟩, rfl, rfl⟩

section Striding

variable {m k : Machine} {v j total : Nat}

/-- Each stride adds 2 to its register, modulo the size of a register. -/
theorem stride_applies (processor : m.cpu = cpu) (limit : m.settings.stepLimit = none)
    (value : m.value? (gprName 3) = some v) :
    ∃ m', Applies stride m m' ∧ m'.value? (gprName 3) = some ((v + 2) % 2 ^ 32) := by
  have single : Expands 0 stride (.sum {} 3 (.register 3) (.constant 2)) _ _ :=
    ⟨means_stride, rfl, rfl⟩
  obtain ⟨q, lifted, -⟩ := single.lift_alone
  obtain ⟨count, leads⟩ :=
    nativeStep_of_means lifted (List.mem_singleton_self stride) means_stride
  have first : m.Holds (blank count stride).taken (Base.register 3).operand (v % 2 ^ 32) :=
    holds_gpr processor 3 value
  have second : m.Holds (blank count stride).taken (Source.constant 2).operand 2 :=
    Machine.holds_signed m _ 2 registerWidth
  have summary : false = true ∨ false = true →
      m.Holds (blank count stride).taken StatusBit.summary.operand 0 := by simp
  have sum := runs_expandSum processor {} 3 first second (rfl : HoldsCarry m _ 0 none) summary
  obtain ⟨r, step, progress, keeps⟩ := leads limit (Runs.onward sum q stride.address)
  rw [within_alone lifted] at progress
  refine ⟨r.machine, ⟨q, lifted, Run.eq_of_progress progress ▸ step⟩, ?_⟩
  have written : r.machine.register? (gprName 3) =
      some (.ofNat (registerWidth.truncate (v % 2 ^ 32 + 2 + 0)) registerWidth .defined) :=
    (keeps.register? (processor ▸ not_scratch_gpr 3 count)).trans
      ((Machine.register?_setRegister (plain_of_cpu processor) ..).trans (if_pos rfl))
  have modulus : registerWidth.truncate (v % 2 ^ 32 + 2 + 0) = (v + 2) % 2 ^ 32 := by
    show (v % 2 ^ 32 + 2 + 0) % 2 ^ 32 = (v + 2) % 2 ^ 32
    omega
  rw [Machine.value?, written, RegisterValue.ofNat, Width.truncate_truncate, modulus]
  rfl

/-- The rounds add up. -/
theorem rounds_stride (processor : m.cpu = cpu) (limit : m.settings.stepLimit = none)
    (value : m.value? (gprName 3) = some v) (rounds : Rounds [stride] total j m k) :
    ∃ u, k.value? (gprName 3) = some u ∧ u % 2 ^ 32 = (v + 2 * j) % 2 ^ 32 := by
  induction rounds with
  | start => exact ⟨v, value, rfl⟩
  | next before round ih =>
    obtain ⟨u, value, sum⟩ := ih processor limit value
    have setup := before.setup
    have processor' := setup.cpu.trans processor
    obtain ⟨k', applies, value'⟩ := stride_applies processor' (setup.settings ▸ limit) value
    obtain rfl := round.unique (.cons applies (.nil k'))
    have plain := plain_of_cpu (round.setup.cpu.trans processor')
    have apart : gprName 3 ≠ BranchRegister.count.name := by decide
    refine ⟨(u + 2) % 2 ^ 32, ?_, by omega⟩
    exact (Machine.value?_congr
      ((Machine.register?_setRegister plain ..).trans (if_neg apart))).trans value'

/-- No round fails. -/
theorem stride_safe (processor : m.cpu = cpu) (limit : m.settings.stepLimit = none)
    (value : m.value? (gprName 3) = some v) (rounds : Rounds [stride] total j m k) :
    ¬ BodyFails [stride] k := by
  have setup := rounds.setup
  obtain ⟨u, value, -⟩ := rounds_stride processor limit value rounds
  obtain ⟨k', applies, -⟩ :=
    stride_applies (setup.cpu.trans processor) (setup.settings ▸ limit) value
  exact Performs.not_bodyFails (.cons applies (.nil k'))

theorem countedLoop_stride {p : Program} (lifted : lift stridingLoop = .ok p) :
    CountedLoop stridingLoop p [stride] ⟨0x104, "bdnz", [.immediate 0x100]⟩ := by
  have above : p.nativeAbove? stride.address = some 0x104 :=
    (laid_of_lift lifted).nativeAbove?_eq_some (List.mem_cons_of_mem _ (List.mem_singleton_self _))
      (by decide) (by decide)
  have means : ∀ n ∈ [stride], Means n (.sum {} 3 (.register 3) (.constant 2)) := fun n mem =>
    List.mem_singleton.1 mem ▸ means_stride
  exact {
    inside := fun n mem => mem
    follows := List.isChain_cons_cons.2 ⟨above, .singleton _⟩
    straight := by
      rintro n mem ⟨operation, found, branches⟩
      obtain rfl := found.unique (means n mem)
      cases branches
    kept := by
      rintro n mem ⟨operation, found, writes⟩
      obtain rfl := found.unique (means n mem)
      cases writes
    named := rfl
    back := rfl }

end Striding

/-- A machine that is to go through the loop three times. -/
def beforeStriding : Machine :=
  ((Machine.start {} cpu).setGpr 3 100).setRegister BranchRegister.count.name 3 registerWidth
    .defined

/-- Three rounds add six. -/
theorem stridingLoop_repeats :
    ∃ p, lift stridingLoop = .ok p ∧ ∃ turns,
      let run := beforeStriding.interpret .silent p turns (.ofNative 0x100) ()
      run.progress = .finished ∧
        (∃ v, run.machine.value? (gprName 3) = some v ∧ v % 2 ^ 32 = 106) ∧
        run.machine.register? BranchRegister.count.name = some ⟨0, .dword, .defined⟩ := by
  obtain ⟨p, lifted⟩ := lift_isOk expands_stridingLoop (by decide)
  have value : beforeStriding.begun.value? (gprName 3) = some 100 := rfl
  have safe : ∀ j < iterations 3, ∀ k,
      Rounds [stride] (iterations 3) j beforeStriding.begun k → ¬ BodyFails [stride] k :=
    fun j _ k rounds => stride_safe rfl rfl value rounds
  obtain ⟨s, travels, ends, counted, ⟨k, rounds, alike⟩, -⟩ :=
    counted_loop_repeats lifted (countedLoop_stride lifted) (m := beforeStriding.begun) rfl rfl
      (c := 3) rfl safe
  obtain ⟨turns, there⟩ := travels.interpret
  refine ⟨p, lifted, turns, ?_⟩
  rw [show Address.ofNative 0x100 = .ofNative (entry [stride] _) from rfl, there]
  have last : p.nativeAbove? 0x104 = none := by
    refine Program.nativeAbove?_eq_none_iff.2 fun a inside => ?_
    obtain ⟨n, mem, address⟩ := (laid_of_lift lifted).covered inside
    have below : ∀ n ∈ stridingLoop, n.address ≤ 0x104 := by decide
    exact address ▸ below n mem
  obtain ⟨u, value', sum⟩ := rounds_stride rfl rfl value rounds
  have processor : k.cpu = cpu := rounds.setup.cpu
  refine ⟨?_, ⟨u, ?_, sum⟩, counted⟩
  · rw [ends]
    simp only [Progress.within, last]
  · rw [alike.value? (isTemporary_gprName 3) (processor ▸ gprName_ne_programCounter 3)
      List.not_mem_nil, value']

end RegisterTransfer.PowerPC

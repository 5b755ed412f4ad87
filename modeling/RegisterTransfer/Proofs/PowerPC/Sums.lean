import RegisterTransfer.Proofs.PowerPC.Alone
import RegisterTransfer.Proofs.PowerPC.Results
import RegisterTransfer.Proofs.PowerPC.Terms

/-!
# Sums

What additions and subtractions do to the registers. One script serves all of them; a spelling says
which two numbers and which carry are added, and which flags record how the sum came out.

> `runs_expandSum`: the effect of the script, from what its sources hold.
> `lifted_sum_adds`: the run of any lifted spelling.
-/

namespace RegisterTransfer

open PowerPC

/-- The machine that holds a sum and perhaps its carry. -/
def Machine.added (m : Machine) (kind : SumKind) (rd : Gpr) (x y c : Nat) : Machine :=
  (m.setGpr rd (registerWidth.truncate (x + y + c))).when kind.writesCarry
    (·.setStatus .carry ((x + y + c) / registerWidth.modulus))

/-- The machine behind a sum of `x`, `y` and `c`, where the summary flag was `so`. -/
def Machine.summed (m : Machine) (kind : SumKind) (rd : Gpr) (x y c so : Nat) : Machine :=
  (m.added kind rd x y c).flagged kind.overflow kind.record (flag (registerWidth.Overflows x y c)) so
    (some (registerWidth.truncate (x + y + c)))

theorem Machine.cpu_added (m : Machine) (kind : SumKind) (rd : Gpr) (x y c : Nat) :
    (m.added kind rd x y c).cpu = m.cpu :=
  cpu_carried ..

theorem Machine.cpu_summed (m : Machine) (kind : SumKind) (rd : Gpr) (x y c so : Nat) :
    (m.summed kind rd x y c so).cpu = m.cpu :=
  (cpu_flagged ..).trans (cpu_added ..)

namespace PowerPC

open Script

section Effect

variable {x : Expansion} {m : Machine} {u v c so : Nat}

/-- The effect of the script of a sum. -/
theorem runs_expandSum (processor : m.cpu = cpu) (kind : SumKind) (rd : Gpr) {first : Base}
    {second : Source} (hu : m.Holds x.taken first.operand u)
    (hv : m.Holds x.taken second.operand v) (hc : HoldsCarry m x.taken c kind.carryIn.operand?)
    (summary : kind.overflow = true ∨ kind.record = true →
      m.Holds x.taken StatusBit.summary.operand so) :
    (expandSum kind rd first second).Runs x m fun _ => Leaves x
      (m.summed kind rd (if kind.complement then registerWidth.mask - u else u) v c so) := by
  -- a difference is the sum with the complement of what is subtracted
  apply (runs_complementIf (plain_of_cpu processor) kind.complement hu).bind
  intro a X₁ m₁ left
  rw [width_base] at left
  have wider : a.width.wider? = some .qword := by rw [left.width]; rfl
  have same : second.operand.width = a.width := by rw [width_source, left.width]
  have carry₁ := (hc.keep left.keeps left.taken).within .qword
  apply (Runs.addWithCarry ⟨kind.writesCarry, kind.overflow⟩ left.plain wider same left.holds
    (left.toLeaves.holds hv) carry₁).bind
  rw [left.width]
  intro sum X₂ m₂ sums
  have behind := left.toLeaves.trans sums.toLeaves
  have processor₂ : m₂.cpu = cpu := behind.keeps.cpu.trans processor
  have processor₀ := (m.cpu_added kind rd (if kind.complement then registerWidth.mask - u else u)
    v c).trans processor
  apply (runs_settled processor₂ (flag_le_one _)
    ((runs_gpr processor₂ rd sums.result).mono And.left) sums.carry sums.overflow
    fun needed => behind.holds (summary needed)).mono
  intro _ X₃ m₃ settled
  rw [Width.truncate_truncate] at settled
  let added (m : Machine) : Machine :=
    m.added kind rd (if kind.complement then registerWidth.mask - u else u) v c
  refine behind.through (fun m => (added m).flagged kind.overflow kind.record _ so (some _)) ?_ settled
  intro same
  exact (same.carried rd _ kind.writesCarry _).flagged processor₀ _ _ _ so _

end Effect

/-! ## Spellings -/

/-- How a second source is written that does not change places. -/
def Term.addend : Term → Addend
  | .register _ | .base _ => .register
  | .immediate factor => if factor = 1 then .immediate else .high
  | .allOnes => .minusOne
  | .zero => .zero

/-- What a spelling adds, and what it records. -/
structure SumSpelling where
  mnemonic : String
  first : Term := .register 1
  /-- Whether the complement of the first number is added. -/
  complemented : Bool := false
  second : Term := .register 2
  carryIn : CarryIn := .clear
  carries : Bool := false
  overflow : Bool := false
  record : Bool := false
  deriving DecidableEq, Repr

/-- A spelling with its marks for condition field 0 and overflow. -/
def marked (s : SumSpelling) : List SumSpelling :=
  [s, { s with mnemonic := s.mnemonic ++ ".", record := true },
    { s with mnemonic := s.mnemonic ++ "o", overflow := true },
    { s with mnemonic := s.mnemonic ++ "o" ++ ".", overflow := true, record := true }]

/-- The additions. -/
def additions : List SumSpelling :=
  marked { mnemonic := "add" } ++
  marked { mnemonic := "addc", carries := true } ++
  marked { mnemonic := "adde", carryIn := .flag, carries := true } ++
  marked { mnemonic := "addme", second := .allOnes, carryIn := .flag, carries := true } ++
  marked { mnemonic := "addze", second := .zero, carryIn := .flag, carries := true } ++
  [ { mnemonic := "addi", first := .base 1, second := .immediate 1 },
    { mnemonic := "addis", first := .base 1, second := .immediate 0x10000 },
    { mnemonic := "addic", second := .immediate 1, carries := true },
    { mnemonic := "addic.", second := .immediate 1, carries := true, record := true } ]

/-- A subtraction, which adds the complement of what it subtracts. -/
def subtraction (mnemonic : String) : SumSpelling :=
  { mnemonic, complemented := true, carryIn := .set }

/-- The subtractions. -/
def subtractions : List SumSpelling :=
  marked (subtraction "subf") ++
  marked { subtraction "sub" with first := .register 2, second := .register 1 } ++
  marked { subtraction "subfc" with carries := true } ++
  marked { subtraction "subc" with first := .register 2, second := .register 1, carries := true } ++
  marked { subtraction "subfe" with carryIn := .flag, carries := true } ++
  marked { subtraction "subfme" with second := .allOnes, carryIn := .flag, carries := true } ++
  marked { subtraction "subfze" with second := .zero, carryIn := .flag, carries := true } ++
  [{ subtraction "subfic" with second := .immediate 1, carries := true }] ++
  marked { subtraction "neg" with second := .zero }

/-- The subtraction of an immediate, which adds its negation. -/
def immediateSubtraction : SumSpelling :=
  { mnemonic := "subi", first := .base 1, second := .immediate (-1) }

/-- All spellings of sums. -/
def sumSpellings : List SumSpelling := additions ++ subtractions ++ [immediateSubtraction]

namespace SumSpelling

/-- The kind of sum of a spelling. -/
def kind (s : SumSpelling) : SumKind :=
  ⟨s.complemented, s.carryIn, s.carries, s.overflow, s.record⟩

/-- The form that decodes a spelling, the subtraction of an immediate apart. -/
def form (s : SumSpelling) : Form :=
  .sum s.kind s.second.addend (s.first = .register 2) (s.first = .base 1)

/-- The sources stand in their order, or are two registers that have changed places. -/
def Regular (s : SumSpelling) : Prop :=
  (s.first = .register 1 ∨ s.first = .base 1) ∧
      (s.second = .register 2 ∨ (s.second = .immediate 1 ∨ s.second = .immediate 0x10000) ∨
        s.second = .allOnes ∨ s.second = .zero) ∨
    s.first = .register 2 ∧ s.second = .register 1

instance (s : SumSpelling) : Decidable s.Regular :=
  inferInstanceAs (Decidable ((_ ∨ _) ∧ _ ∨ _ ∧ _))

end SumSpelling

/-- Each of the additions and subtractions in the lists is regular. -/
theorem regular_of_mem : ∀ s ∈ additions ++ subtractions, s.Regular := by decide

theorem sumForms_eq : sumForms = (additions ++ subtractions).map (fun s => (s.mnemonic, s.form)) ++
    [("li", .loadConstant false), ("lis", .loadConstant true), ("subi", .subtractConstant)] := rfl

/-! ## Decoded operands -/

section Operands

variable {n : NativeInstruction} {m : Machine}

/-- An addend that is read stands for its term. -/
theorem becomes_of_addendAt {t : Term} {k : Nat} {b : Source}
    (regular : t = .register k ∨ (k = 2 ∧ (t = .immediate 1 ∨ t = .immediate 0x10000)) ∨
      t = .allOnes ∨ t = .zero)
    (h : addendAt cpu.catalog.widthOf n k t.addend = .ok b) : t.Becomes n b.operand := by
  rcases regular with rfl | ⟨rfl, rfl | rfl⟩ | rfl | rfl
  · simp only [addendAt, Term.addend] at h
    obtain ⟨r, written, rfl⟩ := Except.map_eq_ok.1 h
    exact .register written
  · simp only [addendAt, Term.addend, if_true] at h
    obtain ⟨v, written, rfl⟩ := Except.map_eq_ok.1 h
    exact becomes_of_immediateAt written
  · have high : (Term.immediate 0x10000).addend = .high := rfl
    simp only [high, addendAt, Except.bind_eq_ok] at h
    obtain ⟨v, written, e⟩ := h
    cases e
    obtain ⟨w, literal⟩ := literal_of_immediateAt written
    exact .immediate literal
  · cases h
    exact .allOnes
  · cases h
    exact .zero

/-- What a spelling with its sources in order or changed places is decoded to. -/
theorem SumSpelling.decoded {s : SumSpelling} (regular : s.Regular) {operation : Operation}
    (h : s.form.decode cpu.catalog.widthOf n = .ok operation) :
    ∃ rd first second, operation = .sum s.kind rd first second ∧
      gprAt cpu.catalog.widthOf n 0 = .ok rd ∧ s.first.Becomes n first.operand ∧
      s.second.Becomes n second.operand := by
  simp only [Form.decode, Except.bind_eq_ok] at h
  obtain ⟨_, -, h⟩ := h
  simp only [form, Form.read, Except.bind_eq_ok] at h
  obtain ⟨rd, written, h⟩ := h
  have plainly : ∀ {k : Nat} {a : Base},
      Base.register <$> gprAt cpu.catalog.widthOf n k = .ok a →
        Term.Becomes n (.register k) a.operand := by
    intro k a left
    cases written : gprAt cpu.catalog.widthOf n k with
    | error e =>
      rw [written] at left
      cases left
    | ok r =>
      rw [written] at left
      cases left
      exact .register written
  -- a register or a base comes first, or the sources have changed places
  rcases regular with ⟨first | first, second⟩ | ⟨first, second⟩
  · simp only [first, Term.register.injEq, reduceCtorEq, decide_false, Bool.false_eq_true, if_false,
      Nat.reduceEqDiff, Except.bind_eq_ok] at h
    obtain ⟨a, left, b, right, e⟩ := h
    cases e
    have place := second.imp_right (Or.imp_left (And.intro (Eq.refl 2)))
    exact ⟨rd, a, b, rfl, written, first ▸ plainly left, becomes_of_addendAt place right⟩
  · simp only [first, reduceCtorEq, decide_false, Bool.false_eq_true, if_false, decide_true,
      if_true, Except.bind_eq_ok] at h
    obtain ⟨a, left, b, right, e⟩ := h
    cases e
    have place := second.imp_right (Or.imp_left (And.intro (Eq.refl 2)))
    exact ⟨rd, a, b, rfl, written, first ▸ becomes_of_baseAt left, becomes_of_addendAt place right⟩
  · simp only [first, reduceCtorEq, decide_false, Bool.false_eq_true, if_false, decide_true,
      if_true, Except.bind_eq_ok] at h
    obtain ⟨a, left, b, right, e⟩ := h
    cases e
    exact ⟨rd, a, b, rfl, written, first ▸ plainly left, becomes_of_addendAt (.inl second) right⟩

/-- What the subtraction of an immediate is decoded to. -/
theorem decoded_immediateSubtraction {operation : Operation}
    (h : Form.subtractConstant.decode cpu.catalog.widthOf n = .ok operation) :
    ∃ rd first second, operation = .sum immediateSubtraction.kind rd first second ∧
      gprAt cpu.catalog.widthOf n 0 = .ok rd ∧
      immediateSubtraction.first.Becomes n first.operand ∧
      immediateSubtraction.second.Becomes n second.operand := by
  simp only [Form.decode, Except.bind_eq_ok] at h
  obtain ⟨_, -, h⟩ := h
  simp only [Form.read, Except.bind_eq_ok] at h
  obtain ⟨rd, written, a, left, v, right, e⟩ := h
  cases e
  obtain ⟨w, literal⟩ := literal_of_immediateAt right
  have negated : Term.Becomes n (.immediate (-1)) (.signed (v * -1) registerWidth) :=
    .immediate literal
  have same : v * -1 = -v := by omega
  rw [same] at negated
  exact ⟨rd, a, .constant (-v), rfl, written, becomes_of_baseAt left, negated⟩

/-- A spelling is registered with its form. -/
theorem registered_of_mem {s : SumSpelling} (mem : s ∈ additions ++ subtractions) :
    (s.mnemonic, s.form) ∈ forms := by
  have listed : (s.mnemonic, s.form) ∈ sumForms := by
    rw [sumForms_eq]
    exact List.mem_append_left _ (List.mem_map.2 ⟨s, mem, rfl⟩)
  simp only [forms, List.mem_append, listed, true_or]

/-- What any spelling is decoded to. -/
theorem decoded_of_mem {s : SumSpelling} (mem : s ∈ sumSpellings) {form : Form}
    (registered : (s.mnemonic, form) ∈ forms) {operation : Operation}
    (h : form.decode cpu.catalog.widthOf n = .ok operation) :
    ∃ rd first second, operation = .sum s.kind rd first second ∧
      gprAt cpu.catalog.widthOf n 0 = .ok rd ∧ s.first.Becomes n first.operand ∧
      s.second.Becomes n second.operand := by
  rcases List.mem_append.1 mem with mem | mem
  · obtain rfl := form_unique registered (registered_of_mem mem)
    exact s.decoded (regular_of_mem s mem) h
  · obtain rfl := List.mem_singleton.1 mem
    have listed : (immediateSubtraction.mnemonic, Form.subtractConstant) ∈ forms := by
      simp only [forms, sumForms_eq, List.mem_append, immediateSubtraction, List.mem_cons, true_or,
        or_true]
    obtain rfl := form_unique registered listed
    exact decoded_immediateSubtraction h

end Operands

/-! ## Runs -/

/-- The carry that a spelling takes in. -/
inductive CarryIn.Denotes (m : Machine) : CarryIn → Nat → Prop
  | clear : Denotes m .clear 0
  | set : Denotes m .set 1
  | flag {c} (value : m.value? carryFlag = some c) : Denotes m .flag c

/-- The numbers that a spelling adds. -/
inductive SumSpelling.Adds (s : SumSpelling) (n : NativeInstruction) (m : Machine) :
    Nat → Nat → Nat → Prop
  | intro {a y c} (first : s.first.Denotes n m a) (second : s.second.Denotes n m y)
    (carry : s.carryIn.Denotes m c) :
    Adds s n m (if s.complemented then 2 ^ 32 - 1 - a else a) y c

/-- The registers that a spelling writes. -/
def SumSpelling.writes (s : SumSpelling) (rd : Gpr) : List String :=
  gprName rd :: (if s.carries then [carryFlag] else []) ++ writtenFlags s.overflow s.record

/-- The signed sum of `x`, `y` and `c` is no 32-bit number. -/
def SumOverflows (x y c : Nat) : Prop :=
  registerWidth.toSigned x + registerWidth.toSigned y + c < -2 ^ 31 ∨
    2 ^ 31 ≤ registerWidth.toSigned x + registerWidth.toSigned y + c

instance (x y c : Nat) : Decidable (SumOverflows x y c) := inferInstanceAs (Decidable (_ ∨ _))

/-- What the run of a spelling does to a machine. -/
structure SumSpelling.Outcome (s : SumSpelling) (rd : Gpr) (x y c : Nat) (m m' : Machine) :
    Prop where
  result : m'.register? (gprName rd) = some ⟨(x + y + c) % 2 ^ 32, .dword, .defined⟩
  carry : s.carries → m'.register? carryFlag = some ⟨(x + y + c) / 2 ^ 32, .byte, .defined⟩
  overflow : s.overflow →
    m'.register? overflowFlag = some ⟨flag (SumOverflows x y c), .byte, .defined⟩ ∧
    ∃ so, m.value? summaryFlag = some so ∧
      m'.register? summaryFlag = some ⟨so ||| flag (SumOverflows x y c), .byte, .defined⟩
  record : s.record → RecordsOrder m' ((x + y + c) % 2 ^ 32)
  others : ∀ name, name ∉ s.writes rd → isTemporary name = false → name ≠ programCounter →
    m'.register? name = m.register? name
  memory : m'.memory = m.memory

/-- The overflow of a sum in the width of a register, with its bounds written out. -/
theorem sumOverflows_iff (x y c : Nat) :
    registerWidth.Overflows x y c ↔ SumOverflows x y c := by
  have half : (registerWidth.signBit : Int) = 2 ^ 31 := by decide
  rw [Width.Overflows, SumOverflows, half]

section Summed

variable {m : Machine} {x y c so : Nat}

/-- A sum leaves alone what its spelling does not write. -/
theorem register?_summed_of_not_mem (processor : m.cpu = cpu) (s : SumSpelling) {rd : Gpr}
    {name : String} (h : name ∉ s.writes rd) :
    (m.summed s.kind rd x y c so).register? name = m.register? name := by
  simp only [SumSpelling.writes, List.cons_append, List.mem_cons, List.mem_append, not_or] at h
  obtain ⟨ne, carry, flags⟩ := h
  have kept : (m.summed s.kind rd x y c so).register? name =
      (m.added s.kind rd x y c).register? name :=
    register?_flagged_of_not_mem ((m.cpu_added ..).trans processor) flags
  refine kept.trans (Machine.register?_carried_of_ne processor ne ?_)
  intro e
  have written : s.carries = true := e
  rwa [written, if_pos rfl, List.mem_singleton] at carry

/-- A register that records no overflow and no order is as the sum and its carry leave it. -/
theorem register?_summed (processor : m.cpu = cpu) (kind : SumKind) (rd : Gpr) {name : String}
    (overflow : name ≠ overflowFlag) (summary : name ≠ summaryFlag)
    (ne : ∀ bit, name ≠ conditionBitName defaultField bit) :
    (m.summed kind rd x y c so).register? name = (m.added kind rd x y c).register? name :=
  Machine.register?_flagged_of_ne ((m.cpu_added ..).trans processor)
    (fun _ => ⟨overflow, summary⟩) fun _ => ne

/-- The sum itself leaves the summary flag alone. -/
theorem value?_added_summary (processor : m.cpu = cpu) (kind : SumKind) (rd : Gpr) :
    (m.added kind rd x y c).value? summaryFlag = m.value? summaryFlag :=
  Machine.value?_carried_summary processor ..

/-- The machine behind a sum is as its spelling says. -/
theorem outcome_summed (processor : m.cpu = cpu) (s : SumSpelling) (rd : Gpr)
    (hx : x < 2 ^ 32) (hy : y < 2 ^ 32) (hc : c ≤ 1)
    (summary : s.overflow ∨ s.record → m.value? summaryFlag = some so ∧ so ≤ 1) :
    s.Outcome rd x y c m (m.summed s.kind rd x y c so) := by
  have processor₁ := (m.cpu_added s.kind rd x y c).trans processor
  have overflow_iff := flag_congr (sumOverflows_iff x y c)
  have small := flag_le_one (registerWidth.Overflows x y c)
  have carry_le : (x + y + c) / registerWidth.modulus ≤ 1 := by
    have le : (x + y + c) / 2 ^ 32 ≤ 1 := by omega
    exact le
  refine ⟨?_, ?_, ?_, ?_, ?_, ?_⟩
  · have ne : ∀ b : StatusBit, gprName rd ≠ b.name := fun b same => b.ne_gprName rd same.symm
    rw [register?_summed processor _ _ (ne .overflow) (ne .summary) (fun bit => ne (.condition bit))]
    refine (Machine.register?_carried_gpr processor ..).trans ?_
    rw [RegisterValue.ofNat, Width.truncate_truncate]
    rfl
  · intro carries
    have ne : ∀ bit, carryFlag ≠ conditionBitName defaultField bit :=
      status_ne_condition (b := .carry) (by simp)
    rw [register?_summed processor _ _ (by decide) (by decide) ne]
    exact Machine.register?_carried_flag processor carries rd _ carry_le
  · intro overflow
    obtain ⟨value, le⟩ := summary (.inl overflow)
    obtain ⟨lost, sticky⟩ := register?_flagged_overflow processor₁ overflow small
      (Nat.lt_of_le_of_lt le (by decide)) s.record (some (registerWidth.truncate (x + y + c)))
    rw [overflow_iff] at lost sticky
    exact ⟨lost, so, value, sticky⟩
  · intro record
    obtain ⟨value, le⟩ := summary (.inr record)
    exact recordsOrder_flagged processor₁ record small
      ((value?_added_summary processor s.kind rd).trans value) le _
  · intro name unwritten _ _
    exact register?_summed_of_not_mem processor s unwritten
  · exact (Machine.memory_flagged ..).trans (Machine.memory_carried ..)

end Summed

/-- The outcome of a sum survives a change of scratch registers. -/
theorem SumSpelling.Outcome.keep {s : SumSpelling} {rd : Gpr} {x y c n : Nat} {m e m' : Machine}
    (h : s.Outcome rd x y c m e) (keeps : e.Keeps n m') (processor : e.cpu = cpu) :
    s.Outcome rd x y c m m' := by
  have status := register?_status_of_keeps keeps processor
  refine ⟨?_, ?_, ?_, ?_, ?_, keeps.memory.trans h.memory⟩
  · rw [register?_of_keeps keeps processor (isTemporary_gprName rd)
      (gprName_ne_programCounter rd), h.result]
  · intro carries
    exact (status .carry).trans (h.carry carries)
  · intro overflow
    obtain ⟨lost, so, value, sticky⟩ := h.overflow overflow
    exact ⟨(status .overflow).trans lost, so, value, (status .summary).trans sticky⟩
  · intro record
    exact (h.record record).keep keeps processor
  · intro name unwritten native ne
    rw [register?_of_keeps keeps processor native ne, h.others name unwritten native ne]

/-- The carry that enters a sum, as its operand holds it. -/
theorem exists_carryIn {m : Machine} (processor : m.cpu = cpu) (carryIn : CarryIn)
    (known : carryIn = .flag → ∃ c ≤ 1, m.value? carryFlag = some c) :
    ∃ c ≤ 1, carryIn.Denotes m c ∧ ∀ n, HoldsCarry m n c carryIn.operand? := by
  cases carryIn with
  | clear => exact ⟨0, Nat.zero_le 1, .clear, fun _ => rfl⟩
  | set =>
    refine ⟨1, Nat.le_refl 1, .set, fun n => ⟨rfl, ?_, Nat.le_refl 1⟩⟩
    exact Machine.holds_integer m n 1 .byte
  | flag =>
    obtain ⟨c, le, value⟩ := known rfl
    exact ⟨c, le, .flag value, fun n => ⟨rfl, holds_status processor .carry value le, le⟩⟩

/--
The run of a lifted sum ends well and leaves in its destination the sum of the numbers that its
spelling prescribes, in its flags the carry, the overflow and the order of the result as far as the
spelling records them, and everything else as it was.
-/
theorem lifted_sum_adds {s : SumSpelling} (mem : s ∈ sumSpellings) {n : NativeInstruction}
    (named : n.mnemonic = s.mnemonic) {p : Program} (lifted : lift [n] = .ok p) {m : Machine}
    (processor : m.cpu = cpu) (limit : m.settings.stepLimit = none)
    (sources : ∀ r, s.first.Reads n r ∨ s.second.Reads n r → ∃ v, m.value? (gprName r) = some v)
    (carry : s.carryIn = .flag → ∃ c ≤ 1, m.value? carryFlag = some c)
    (summary : s.overflow ∨ s.record → ∃ so ≤ 1, m.value? summaryFlag = some so) :
    ∃ rd x y c turns, gprAt cpu.catalog.widthOf n 0 = .ok rd ∧ s.Adds n m x y c ∧
      (m.interpret .silent p turns (.ofNative n.address) ()).progress = .finished ∧
      s.Outcome rd x y c m (m.interpret .silent p turns (.ofNative n.address) ()).machine := by
  obtain ⟨count, operation, ⟨form, registered, decoded⟩, run⟩ := interpret_alone lifted
  obtain ⟨rd, first, second, rfl, written, left, right⟩ :=
    decoded_of_mem mem (named ▸ registered) decoded
  obtain ⟨a, denotes, holds⟩ := left.denotes processor fun r reads => sources r (.inl reads)
  obtain ⟨y, denotes', holds'⟩ := right.denotes processor fun r reads => sources r (.inr reads)
  obtain ⟨c, le, denotes'', holds''⟩ := exists_carryIn processor s.carryIn carry
  obtain ⟨so, known⟩ : ∃ so, s.overflow ∨ s.record → m.value? summaryFlag = some so ∧ so ≤ 1 := by
    by_cases needed : s.overflow ∨ s.record
    · obtain ⟨so, le, value⟩ := summary needed
      exact ⟨so, fun _ => ⟨value, le⟩⟩
    · exact ⟨0, fun needed' => absurd needed' needed⟩
  have ha := (holds 0).lt
  have hy := (holds' 0).lt
  rw [width_base] at ha
  rw [width_source] at hy
  have hx : (if s.complemented then 2 ^ 32 - 1 - a else a) < 2 ^ 32 := by
    have ha : a < 2 ^ 32 := ha
    split <;> omega
  -- the script runs on the machine as the run finds it
  have begun := Machine.keeps_begun (plain_of_cpu processor) count
  have processor' : m.begun.cpu = cpu := processor
  have held : s.kind.overflow = true ∨ s.kind.record = true →
      m.begun.Holds (blank count n).taken StatusBit.summary.operand so := fun needed =>
    holds_status processor' .summary (known needed).1 (known needed).2
  have effect := runs_expandSum processor' s.kind rd ((holds count).keep begun (Nat.le_refl _))
    ((holds' count).keep begun (Nat.le_refl _)) ((holds'' count).keep begun (Nat.le_refl _)) held
  obtain ⟨turns, ends, keeps⟩ := run processor limit effect
  have outcome := (outcome_summed processor' s rd hx hy le known).keep keeps
    ((Machine.cpu_summed ..).trans processor')
  exact ⟨rd, _, y, c, turns, written, ⟨denotes, denotes', denotes''⟩, ends, outcome.result,
    outcome.carry, outcome.overflow, outcome.record, outcome.others, outcome.memory⟩

/-- A subtraction that overflows into its own source. -/
def overflowingDifference : NativeInstruction :=
  ⟨0x100, "subfo.", [.sized .dword (.register "%r3"), .sized .dword (.register "%r3"),
    .sized .dword (.register "%r4")]⟩

/-- A machine with 1 in `%r3` and the least signed number in `%r4`. -/
def beforeDifference : Machine :=
  ((Machine.start {} cpu).setGpr 3 1 |>.setGpr 4 (2 ^ 31)).setStatus .summary 0

/-- The difference is stored over what was subtracted, and its overflow is recorded. -/
theorem overflowingDifference_adds :
    ∃ p, lift [overflowingDifference] = .ok p ∧ ∃ turns,
      let run := beforeDifference.interpret .silent p turns (.ofNative 0x100) ()
      run.progress = .finished ∧
        run.machine.register? (gprName 3) = some ⟨0x7fffffff, .dword, .defined⟩ ∧
        run.machine.register? overflowFlag = some ⟨1, .byte, .defined⟩ := by
  let s : SumSpelling :=
    { subtraction "subf" with mnemonic := "subfo.", overflow := true, record := true }
  have mem : s ∈ additions ++ subtractions := by decide
  have expands : Expands 0 overflowingDifference (.sum s.kind 3 (.register 3) (.register 4)) _ _ :=
    ⟨⟨s.form, registered_of_mem mem, rfl⟩, rfl, rfl⟩
  obtain ⟨p, lifted, -⟩ := expands.lift_alone
  have target : gprAt cpu.catalog.widthOf overflowingDifference 0 = .ok 3 := rfl
  have left : gprAt cpu.catalog.widthOf overflowingDifference 1 = .ok 3 := rfl
  have right : gprAt cpu.catalog.widthOf overflowingDifference 2 = .ok 4 := rfl
  have one : beforeDifference.value? (gprName 3) = some 1 := rfl
  have least : beforeDifference.value? (gprName 4) = some (2 ^ 31) := rfl
  have clear : beforeDifference.value? summaryFlag = some 0 := rfl
  have sources : ∀ r, s.first.Reads overflowingDifference r ∨
      s.second.Reads overflowingDifference r → ∃ v, beforeDifference.value? (gprName r) = some v := by
    intro r found
    rcases found with reads | reads
    · obtain rfl := Except.ok.inj (left.symm.trans reads)
      exact ⟨_, one⟩
    · obtain rfl := Except.ok.inj (right.symm.trans reads)
      exact ⟨_, least⟩
  obtain ⟨rd, x, y, c, turns, written, adds, ends, outcome⟩ :=
    lifted_sum_adds (List.mem_append_left _ mem) rfl lifted (m := beforeDifference) rfl rfl sources
      (fun e => absurd e (by decide)) fun _ => ⟨0, Nat.zero_le 1, clear⟩
  obtain rfl := Except.ok.inj (target.symm.trans written)
  rcases adds with @⟨a, _, _, ⟨written, value⟩, ⟨written', value'⟩, ⟨⟩⟩
  obtain rfl := Except.ok.inj (left.symm.trans written)
  obtain rfl := Except.ok.inj (right.symm.trans written')
  obtain rfl := Option.some.inj (one.symm.trans value)
  obtain rfl := Option.some.inj (least.symm.trans value')
  exact ⟨p, lifted, turns, ends, outcome.result.trans (by decide +kernel),
    (outcome.overflow rfl).1.trans (by decide +kernel)⟩

end PowerPC

end RegisterTransfer

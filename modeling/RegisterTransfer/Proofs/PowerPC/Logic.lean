import RegisterTransfer.Proofs.PowerPC.Deliveries
import RegisterTransfer.Proofs.PowerPC.Terms

/-!
# Bitwise operations

What bitwise operations, moves and sign extensions do to the registers. The machine has `and`, `or`
and `xor` only; every other operation complements a source or the result of one of them.

> `LogicKind.apply_eq`: each operation is its opcode between the complements that it asks for.
> `runs_expandExtend`: the low bits of a register, extended by their sign.
> `lifted_logic_combines`: the run of any lifted bitwise operation, move or extension.
-/

namespace RegisterTransfer.PowerPC

open Script

/-! ## Bits -/

/-- The Boolean function that a bitwise operation is named for, on all bits at once. -/
def LogicKind.apply (kind : LogicKind) (a b : BitVec 32) : BitVec 32 :=
  match kind with
  | .and => a &&& b
  | .or => a ||| b
  | .xor => a ^^^ b
  | .andc => a &&& ~~~b
  | .orc => a ||| ~~~b
  | .nand => ~~~(a &&& b)
  | .nor => ~~~(a ||| b)
  | .eqv => ~~~(a ^^^ b)

/-- The complement if it is wanted. -/
def complementWhen (wanted : Bool) (b : BitVec 32) : BitVec 32 := if wanted then ~~~b else b

/-- The operation of which neither a source nor the result is complemented. -/
def LogicKind.core : LogicKind → LogicKind
  | .and | .andc | .nand => .and
  | .or | .orc | .nor => .or
  | .xor | .eqv => .xor

/-- Each operation is its opcode between the complements that it asks for. -/
theorem LogicKind.apply_eq (kind : LogicKind) (a b : BitVec 32) :
    kind.apply a b = complementWhen kind.complementsResult
      (kind.core.apply a (complementWhen kind.complementsSource b)) := by
  cases kind <;> rfl

/-- Reading low bits as a signed number and encoding it as a register extends them by their sign. -/
theorem ofInt_toSigned_eq_signExtend (w : Width) (b : BitVec 32) :
    registerWidth.ofInt (w.toSigned (w.truncate b.toNat)) =
      ((b.setWidth w.bits).signExtend 32).toNat := by
  have signed : (b.setWidth w.bits).toInt = w.toSigned (w.truncate b.toNat) := by
    rw [Width.toSigned_eq_bmod, Width.truncate, Int.natCast_emod, Int.emod_bmod,
      Width.modulus_eq_two_pow, BitVec.toInt_setWidth]
  rw [BitVec.signExtend, BitVec.toNat_ofInt, signed]
  rfl

/-! ## Spellings -/

/-- An operation that is written with an immediate. -/
inductive ImmediateLogic where
  | and
  | or
  | xor
  deriving DecidableEq, Repr

/-- The same operation of two registers. -/
def ImmediateLogic.kind : ImmediateLogic → LogicKind
  | and => .and
  | or => .or
  | xor => .xor

/-- A 16-bit immediate as a register: extended by zeros, and in the high half if it belongs there. -/
def widened (high : Bool) (i : BitVec 16) : BitVec 32 :=
  if high then i.zeroExtend 32 <<< 16 else i.zeroExtend 32

/-- An immediate is placed in the low or in the high half of a register. -/
theorem toNat_widened (high : Bool) (i : BitVec 16) :
    (widened high i).toNat = if high then i.toNat <<< 16 else i.toNat := by
  have lt := i.isLt
  cases high with
  | false => exact (BitVec.toNat_setWidth ..).trans (Nat.mod_eq_of_lt (by omega))
  | true =>
    have shifted : i.toNat * 2 ^ 16 < 2 ^ 32 := by omega
    show (i.zeroExtend 32 <<< 16).toNat = i.toNat <<< 16
    rw [BitVec.toNat_shiftLeft, BitVec.zeroExtend_eq_setWidth, BitVec.toNat_setWidth,
      Nat.mod_eq_of_lt (show i.toNat < 2 ^ 32 by omega), Nat.shiftLeft_eq, Nat.mod_eq_of_lt shifted]

/-- A bitwise operation, a move or a sign extension. -/
inductive Logic where
  | registers (kind : LogicKind) (record : Bool)
  | immediate (kind : ImmediateLogic) (high : Bool)
  | move (complement record : Bool)
  /-- The sign extension of a byte, or of a half of a register. -/
  | extend (half record : Bool)
  deriving DecidableEq, Repr

namespace Logic

/-- Whether condition field 0 is set; of the operations with an immediate `and` does. -/
def records : Logic → Bool
  | registers _ record | move _ record | extend _ record => record
  | immediate kind _ => kind = .and

/-- The spelling of an operation without its mark. -/
def stem : Logic → String
  | registers .and _ => "and"
  | registers .or _ => "or"
  | registers .xor _ => "xor"
  | registers .andc _ => "andc"
  | registers .orc _ => "orc"
  | registers .nand _ => "nand"
  | registers .nor _ => "nor"
  | registers .eqv _ => "eqv"
  | immediate .and high => if high then "andis" else "andi"
  | immediate .or high => if high then "oris" else "ori"
  | immediate .xor high => if high then "xoris" else "xori"
  | move complement _ => if complement then "not" else "mr"
  | extend half _ => if half then "extsh" else "extsb"

/-- The spelling of an operation. -/
def mnemonic (s : Logic) : String := s.stem ++ if s.records then "." else ""

/-- The width that an extension starts from. -/
def narrow (half : Bool) : Width := if half then .word else .byte

/-- The form that decodes an operation. -/
def form : Logic → Form
  | registers kind record => .logic kind record
  | immediate kind high => .logicConstant kind.kind.opcode high (kind = .and)
  | move complement record => .move complement record
  | extend half record => .extend (narrow half) record

/-- An operation is registered with its form. -/
theorem registered (s : Logic) : (s.mnemonic, s.form) ∈ forms := by
  have listed : (s.mnemonic, s.form) ∈ logicForms := by
    rcases s with ⟨_ | _ | _ | _ | _ | _ | _ | _, _ | _⟩ | ⟨_ | _ | _, _ | _⟩ | ⟨_ | _, _ | _⟩ |
      ⟨_ | _, _ | _⟩ <;> decide
  simp only [forms, List.mem_append, listed, true_or, or_true]

/-- The registers that an operation reads. -/
def Reads (s : Logic) (n : NativeInstruction) (r : Gpr) : Prop :=
  gprAt cpu.catalog.widthOf n 1 = .ok r ∨
    (∃ kind record, s = .registers kind record) ∧ gprAt cpu.catalog.widthOf n 2 = .ok r

/-- What an operation should give, from what is written and what the registers hold modulo `2 ^ 32`. -/
inductive Yields (n : NativeInstruction) (m : Machine) : Logic → BitVec 32 → Prop
  | registers {kind record rs rb u v} (left : gprAt cpu.catalog.widthOf n 1 = .ok rs)
    (right : gprAt cpu.catalog.widthOf n 2 = .ok rb) (first : m.value? (gprName rs) = some u)
    (second : m.value? (gprName rb) = some v) :
    Yields n m (.registers kind record) (kind.apply (.ofNat 32 u) (.ofNat 32 v))
  | immediate {kind high rs u w} {i : BitVec 16} (left : gprAt cpu.catalog.widthOf n 1 = .ok rs)
    (right : operandAt cpu.catalog.widthOf n 2 = .ok (.literal i.toNat w))
    (first : m.value? (gprName rs) = some u) :
    Yields n m (.immediate kind high) (kind.kind.apply (.ofNat 32 u) (widened high i))
  | move {complement record rs u} (left : gprAt cpu.catalog.widthOf n 1 = .ok rs)
    (first : m.value? (gprName rs) = some u) :
    Yields n m (.move complement record) (complementWhen complement (.ofNat 32 u))
  | extend {half record rs u} (left : gprAt cpu.catalog.widthOf n 1 = .ok rs)
    (first : m.value? (gprName rs) = some u) :
    Yields n m (.extend half record)
      (((BitVec.ofNat 32 u).setWidth (if half then 16 else 8)).signExtend 32)

/-- What an operation delivers. -/
def delivery (s : Logic) (ra : Gpr) (r : BitVec 32) : Delivery :=
  { target := ra, result := r.toNat, fits := r.isLt, record := s.records }

end Logic

/-! ## Scripts -/

section Scripts

variable {x : Expansion} {m : Machine} {o : Operand} {a b : BitVec 32} {so : Nat} {ra rs rb : Gpr}

/-- The complement of the script is the complement of bit vectors. -/
theorem runs_complementWhen (plain : m.cpu.Plain) (wanted : Bool) (width : o.width = registerWidth)
    (h : m.Holds x.taken o b.toNat) :
    (complementIf wanted o).Runs x m
      (Settled x m registerWidth (complementWhen wanted b).toNat) := by
  have value : (if wanted then registerWidth.mask - b.toNat else b.toNat) =
      (complementWhen wanted b).toNat := by
    cases wanted with
    | false => rfl
    | true =>
      show registerWidth.mask - b.toNat = (~~~b).toNat
      rw [BitVec.toNat_not]
      rfl
  have complement := runs_complementIf plain wanted h
  rwa [width, value] at complement

/-- The machine's own operations work on all bits at once. -/
theorem runs_core {p : Operand} (plain : m.cpu.Plain) (kind : LogicKind)
    (same : o.width = registerWidth) (same' : p.width = registerWidth)
    (first : m.Holds x.taken o a.toNat) (second : m.Holds x.taken p b.toNat) :
    (binary kind.opcode o p).Runs x m (Computed x m registerWidth (kind.core.apply a b).toNat) := by
  have widths := same.trans same'.symm
  have and := Runs.and plain widths first second
  have or := Runs.or plain widths first second
  have xor := Runs.xor plain widths first second
  rw [same] at and or xor
  rw [← BitVec.toNat_and] at and
  rw [← BitVec.toNat_or] at or
  rw [← BitVec.toNat_xor] at xor
  cases kind with
  | and | andc | nand => exact and
  | or | orc | nor => exact or
  | xor | eqv => exact xor

/-- A bitwise operation of two registers. -/
theorem runs_expandLogic (processor : m.cpu = cpu) (kind : LogicKind) (record : Bool)
    (first : m.Holds x.taken (gprOperand rs) a.toNat)
    (second : m.Holds x.taken (gprOperand rb) b.toNat)
    (summary : record → m.Holds x.taken StatusBit.summary.operand so) :
    (expandLogic kind ra rs rb record).Runs x m fun _ =>
      Leaves x (m.delivered ((Logic.registers kind record).delivery ra (kind.apply a b)) so) := by
  apply (runs_complementWhen (plain_of_cpu processor) kind.complementsSource rfl second).bind
  intro source X₁ m₁ turned
  apply (runs_core turned.plain kind rfl turned.width (turned.toLeaves.holds first)
    turned.holds).bind
  intro combined X₂ m₂ joined
  apply (runs_complementWhen joined.plain kind.complementsResult joined.width joined.holds).bind
  intro result X₃ m₃ settled
  have value := settled.holds
  rw [← kind.apply_eq] at value
  have behind := (turned.toLeaves.trans joined.toLeaves).trans settled.toLeaves
  exact runs_deliver behind processor value ra _ record summary

/-- A bitwise operation of a register and a number. -/
theorem runs_expandLogicConstant (processor : m.cpu = cpu) (kind : ImmediateLogic) (high : Bool)
    (i : BitVec 16) (first : m.Holds x.taken (gprOperand rs) a.toNat)
    (summary : kind = .and → m.Holds x.taken StatusBit.summary.operand so) :
    (expandLogicConstant kind.kind.opcode ra rs (widened high i).toNat (kind = .and)).Runs x m
      fun _ => Leaves x (m.delivered
        ((Logic.immediate kind high).delivery ra (kind.kind.apply a (widened high i))) so) := by
  have second : m.Holds x.taken (.integer (widened high i).toNat registerWidth)
      (widened high i).toNat := by
    have held := Machine.holds_integer m x.taken (widened high i).toNat registerWidth
    have small : (widened high i).toNat < registerWidth.modulus := (widened high i).isLt
    rwa [Width.truncate_of_lt small] at held
  have core : kind.kind.core = kind.kind := by cases kind <;> rfl
  apply (runs_core (plain_of_cpu processor) kind.kind rfl rfl first second).bind
  rw [core]
  intro result X₁ m₁ joined
  exact runs_deliver joined.toLeaves processor joined.holds ra _ (kind = .and)
    fun wanted => summary (of_decide_eq_true wanted)

/-- A move is the complement of a register or the register, delivered. -/
theorem expand_move (complement : Bool) (ra rs : Gpr) (record : Bool) (mnemonic : String)
    (address : Nat) :
    (Operation.move complement ra rs record).expand mnemonic address =
      complementIf complement (gprOperand rs) >>= fun source => deliver source ra record := by
  cases complement <;> rfl

/-- A move, or the complement of a register. -/
theorem runs_move (processor : m.cpu = cpu) (complement record : Bool)
    (held : m.Holds x.taken (gprOperand rs) a.toNat)
    (summary : record → m.Holds x.taken StatusBit.summary.operand so) (mnemonic : String)
    (address : Nat) :
    ((Operation.move complement ra rs record).expand mnemonic address).Runs x m fun _ =>
      Leaves x (m.delivered
        ((Logic.move complement record).delivery ra (complementWhen complement a)) so) := by
  rw [expand_move]
  apply (runs_complementWhen (plain_of_cpu processor) complement rfl held).bind
  intro source X₁ m₁ settled
  exact runs_deliver settled.toLeaves processor settled.holds ra _ record summary

/-- The low bits of a register, extended by their sign. -/
theorem runs_expandExtend (processor : m.cpu = cpu) (half record : Bool)
    (held : m.Holds x.taken (gprOperand rs) a.toNat)
    (summary : record → m.Holds x.taken StatusBit.summary.operand so) :
    (expandExtend (Logic.narrow half) ra rs record).Runs x m fun _ =>
      Leaves x (m.delivered ((Logic.extend half record).delivery ra
        ((a.setWidth (if half then 16 else 8)).signExtend 32)) so) := by
  have bits : (Logic.narrow half).bits = if half then 16 else 8 := by cases half <;> rfl
  apply Runs.computing (plain_of_cpu processor) (.copy held)
  intro low X₁ m₁ cut
  apply (Runs.signExtend cut.plain cut.holds registerWidth).bind
  intro extended X₂ m₂ result
  have value := result.holds
  rw [cut.width, ofInt_toSigned_eq_signExtend, bits] at value
  exact runs_deliver (cut.toLeaves.trans result.toLeaves) processor value ra _ record summary

end Scripts

/-! ## Decoding -/

namespace Logic

variable {n : NativeInstruction} {s : Logic} {operation : Operation} {ra rs : Gpr}

/-- The operation that a bitwise operation is decoded to. -/
inductive Decodes (n : NativeInstruction) (ra rs : Gpr) : Logic → Operation → Prop
  | registers {kind record rb} (right : gprAt cpu.catalog.widthOf n 2 = .ok rb) :
    Decodes n ra rs (.registers kind record) (.logic kind ra rs rb record)
  | immediate {kind high w} {i : BitVec 16}
    (right : operandAt cpu.catalog.widthOf n 2 = .ok (.literal i.toNat w)) :
    Decodes n ra rs (.immediate kind high)
      (.logicConstant kind.kind.opcode ra rs (widened high i).toNat (kind = .and))
  | move {complement record} :
    Decodes n ra rs (.move complement record) (.move complement ra rs record)
  | extend {half record} :
    Decodes n ra rs (.extend half record) (.extend (narrow half) ra rs record)

/-- An accepted immediate is a 16-bit number, and is widened as a register. -/
theorem widened_of_immediateAt {v : Int} (high : Bool)
    (h : immediateAt cpu.catalog.widthOf n 2 unsigned16 = .ok v) :
    ∃ (i : BitVec 16) (w : _), operandAt cpu.catalog.widthOf n 2 = .ok (.literal i.toNat w) ∧
      (if high then v.toNat <<< 16 else v.toNat) = (widened high i).toNat := by
  obtain ⟨w, written⟩ := literal_of_immediateAt h
  obtain ⟨low, top⟩ := inside_of_immediateAt h
  simp only [unsigned16] at low top
  obtain ⟨k, rfl⟩ := Int.eq_ofNat_of_zero_le low
  have value : (BitVec.ofNat 16 k).toNat = k := by
    rw [BitVec.toNat_ofNat, Nat.mod_eq_of_lt (by omega)]
  refine ⟨BitVec.ofNat 16 k, w, ?_, ?_⟩
  · rw [value]
    exact written
  · rw [toNat_widened, value]
    rfl

/-- A bitwise operation that is read has its destination and its first source in front. -/
theorem decoded (h : s.form.decode cpu.catalog.widthOf n = .ok operation) :
    ∃ ra rs, gprAt cpu.catalog.widthOf n 0 = .ok ra ∧ gprAt cpu.catalog.widthOf n 1 = .ok rs ∧
      Decodes n ra rs s operation := by
  simp only [Form.decode, Except.bind_eq_ok] at h
  obtain ⟨_, -, h⟩ := h
  cases s with
  | registers kind record =>
    simp only [form, Form.read, Except.bind_eq_ok] at h
    obtain ⟨ra, target, rs, left, rb, right, e⟩ := h
    cases e
    exact ⟨ra, rs, target, left, .registers right⟩
  | immediate kind high =>
    simp only [form, Form.read, Except.bind_eq_ok] at h
    obtain ⟨ra, target, rs, left, v, right, e⟩ := h
    obtain ⟨i, w, written, value⟩ := widened_of_immediateAt high right
    rw [value] at e
    cases e
    exact ⟨ra, rs, target, left, .immediate written⟩
  | move complement record =>
    simp only [form, Form.read, Except.bind_eq_ok] at h
    obtain ⟨ra, target, rs, left, e⟩ := h
    cases e
    exact ⟨ra, rs, target, left, .move⟩
  | extend half record =>
    simp only [form, Form.read, Except.bind_eq_ok] at h
    obtain ⟨ra, target, rs, left, e⟩ := h
    cases e
    exact ⟨ra, rs, target, left, .extend⟩

/-- Where its sources are defined, the script of an operation delivers what it should. -/
theorem Decodes.runs (h : Decodes n ra rs s operation) {m : Machine} (processor : m.cpu = cpu)
    (left : gprAt cpu.catalog.widthOf n 1 = .ok rs)
    (sources : ∀ r, s.Reads n r → ∃ v, m.value? (gprName r) = some v) :
    ∃ r, s.Yields n m r ∧ ∀ {x : Expansion} {so : Nat},
      (s.records → m.begun.Holds x.taken StatusBit.summary.operand so) →
      ∀ mnemonic address, (operation.expand mnemonic address).Runs x m.begun fun _ =>
        Leaves x (m.begun.delivered (s.delivery ra r) so) := by
  have processor' : m.begun.cpu = cpu := processor
  have held : ∀ {r : Gpr} {v : Nat}, m.value? (gprName r) = some v → ∀ k,
      m.begun.Holds k (gprOperand r) (BitVec.ofNat 32 v).toNat := by
    intro r v value k
    rw [BitVec.toNat_ofNat]
    exact holds_gpr processor' r value
  obtain ⟨u, first⟩ := sources rs (.inl left)
  cases h with
  | registers right =>
    obtain ⟨v, second⟩ := sources _ (.inr ⟨⟨_, _, rfl⟩, right⟩)
    exact ⟨_, .registers left right first second, fun summary _ _ =>
      runs_expandLogic processor' _ _ (held first _) (held second _) summary⟩
  | immediate right =>
    refine ⟨_, .immediate left right first, fun summary _ _ => ?_⟩
    exact runs_expandLogicConstant processor' _ _ _ (held first _)
      fun wanted => summary (decide_eq_true wanted)
  | move =>
    exact ⟨_, .move left first, fun summary _ _ =>
      runs_move processor' _ _ (held first _) summary _ _⟩
  | extend =>
    exact ⟨_, .extend left first, fun summary _ _ =>
      runs_expandExtend processor' _ _ (held first _) summary⟩

end Logic

/-! ## Runs -/

/--
The run of a lifted bitwise operation, move or extension ends well and delivers what its name says of
the low 32 bits of its sources; recording forms also deliver the order of the result, and everything
else is as it was.
-/
theorem lifted_logic_combines (s : Logic) {n : NativeInstruction} (named : n.mnemonic = s.mnemonic)
    {p : Program} (lifted : lift [n] = .ok p) {m : Machine} (processor : m.cpu = cpu)
    (limit : m.settings.stepLimit = none)
    (sources : ∀ r, s.Reads n r → ∃ v, m.value? (gprName r) = some v)
    (summary : s.records → ∃ so, m.value? summaryFlag = some so) :
    ∃ ra r turns, gprAt cpu.catalog.widthOf n 0 = .ok ra ∧ s.Yields n m r ∧
      (m.interpret .silent p turns (.ofNative n.address) ()).progress = .finished ∧
      (s.delivery ra r).Outcome m
        (m.interpret .silent p turns (.ofNative n.address) ()).machine := by
  obtain ⟨count, operation, ⟨form, registered, decoded⟩, run⟩ := interpret_delivers lifted
  obtain rfl := form_unique (named ▸ registered) s.registered
  obtain ⟨ra, rs, target, left, decodes⟩ := Logic.decoded decoded
  obtain ⟨r, yields, script⟩ := decodes.runs processor left sources
  have unlost : ¬ (s.delivery ra r).overflow.isSome = true := nofun
  obtain ⟨turns, ends, outcome⟩ := run processor limit
    (fun needed => summary (needed.resolve_left unlost)) fun so flag =>
      script (fun wanted => flag (.inr wanted)) _ _
  exact ⟨ra, r, turns, target, yields, ends, outcome⟩

/-- The complement of a register, in place. -/
def complementInPlace : NativeInstruction :=
  ⟨0x100, "nor.", [.sized .dword (.register "%r3"), .sized .dword (.register "%r3"),
    .sized .dword (.register "%r3")]⟩

/-- A machine with a number in `%r3` of which only the low 32 bits fit. -/
def beforeComplement : Machine :=
  ((Machine.start {} cpu).setRegister (gprName 3) 0x5FFFFFFF0 .qword .defined).setStatus .summary 0

/-- Bits beyond the register are left out. -/
theorem complementInPlace_combines :
    ∃ p, lift [complementInPlace] = .ok p ∧ ∃ turns,
      let run := beforeComplement.interpret .silent p turns (.ofNative 0x100) ()
      run.progress = .finished ∧
        run.machine.register? (gprName 3) = some ⟨0xF, .dword, .defined⟩ ∧
        run.machine.register? (conditionBitName 0 .gt) = some ⟨1, .byte, .defined⟩ := by
  have expands : Expands 0 complementInPlace (.logic .nor 3 3 3 true) _ _ :=
    ⟨⟨_, (Logic.registers .nor true).registered, rfl⟩, rfl, rfl⟩
  obtain ⟨p, lifted, -⟩ := expands.lift_alone
  have operand : ∀ i < 3, gprAt cpu.catalog.widthOf complementInPlace i = .ok 3 := by decide
  have value : beforeComplement.value? (gprName 3) = some 0x5FFFFFFF0 := rfl
  have clear : beforeComplement.value? summaryFlag = some 0 := rfl
  have sources : ∀ r, (Logic.registers .nor true).Reads complementInPlace r →
      ∃ v, beforeComplement.value? (gprName r) = some v := by
    intro r found
    rcases found with written | ⟨-, written⟩
    · obtain rfl := Except.ok.inj ((operand 1 (by decide)).symm.trans written)
      exact ⟨_, value⟩
    · obtain rfl := Except.ok.inj ((operand 2 (by decide)).symm.trans written)
      exact ⟨_, value⟩
  obtain ⟨ra, r, turns, target, yields, ends, outcome⟩ :=
    lifted_logic_combines (.registers .nor true) rfl lifted (m := beforeComplement) rfl rfl sources
      fun _ => ⟨0, clear⟩
  obtain rfl := Except.ok.inj ((operand 0 (by decide)).symm.trans target)
  cases yields with
  | registers left right first second =>
    obtain rfl := Except.ok.inj ((operand 1 (by decide)).symm.trans left)
    obtain rfl := Except.ok.inj ((operand 2 (by decide)).symm.trans right)
    obtain rfl := Option.some.inj (value.symm.trans first)
    obtain rfl := Option.some.inj (value.symm.trans second)
    exact ⟨p, lifted, turns, ends, outcome.result.trans (by decide +kernel),
      (outcome.record rfl).greater.trans (by decide +kernel)⟩

end RegisterTransfer.PowerPC

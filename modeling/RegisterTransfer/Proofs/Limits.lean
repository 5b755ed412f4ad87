import RegisterTransfer.Proofs.Arithmetic
import RegisterTransfer.Proofs.Independence
import RegisterTransfer.Proofs.SingleAssignment

/-!
# Limits of registers

An interval analysis that looks at greatest values only. Given a limit for some registers, every
instruction has a ceiling: no value that it computes is greater. Where every write keeps to the limit
of its register, every run does.

A temporary is written in one place, so its limit is the ceiling of the instruction that writes it;
these limits exist because temporaries are written before they are read. A temporary keeps to its
limit only once it is written: what it held before is anybody's guess.

> `Machine.outcome_le`: no instruction computes more than its ceiling.
> `SingleAssignment.exists_limits`: temporaries have limits.
> `Program.Tiled.within`: where all codes heed their limits, runs keep to them.
-/

namespace RegisterTransfer

variable {T : String → Option Nat}

/-! ## Ceilings -/

/-- The greatest value of an operand, if the register that it may name keeps to its limit. -/
def Operand.ceiling (T : String → Option Nat) (o : Operand) : Nat :=
  match o.kind with
  | .integer v => o.width.truncate v
  | .register name => min ((T name).getD o.width.mask) o.width.mask
  | .absent | .address _ => 0

/-- The greatest value that an opcode computes from two operands for a destination. -/
def Opcode.ceiling (T : String → Option Nat) (opcode : Opcode) (a b : Operand) (w : Width) : Nat :=
  match opcode with
  | .bisz => 1
  | .str => min (a.ceiling T) w.mask
  | .add => min (a.ceiling T + b.ceiling T) w.mask
  | .and => min (a.ceiling T) (b.ceiling T)
  | .or | .xor => if a.ceiling T ≤ 1 ∧ b.ceiling T ≤ 1 then 1 else w.mask
  | .bsh =>
    match b.kind with
    | .integer v =>
      if b.width.toSigned v < 0 then
        min (shiftValue (a.ceiling T) (b.width.toSigned v)) w.mask
      else
        w.mask
    | _ => w.mask
  | _ => w.mask

/-- The greatest value that an instruction computes. -/
def Instruction.ceiling (T : String → Option Nat) (i : Instruction) : Nat :=
  i.opcode.ceiling T i.op1 i.op2 i.op3.width

namespace Width

/-- A truncated value is at most the mask. -/
theorem truncate_le_mask (w : Width) (v : Nat) : w.truncate v ≤ w.mask := by
  have := w.truncate_lt v
  unfold mask
  omega

theorem truncate_le (w : Width) (v : Nat) : w.truncate v ≤ v := Nat.mod_le _ _

/-- The signed value of a number depends on its low bits only. -/
@[simp] theorem toSigned_truncate (w : Width) (v : Nat) :
    w.toSigned (w.truncate v) = w.toSigned v := by
  simp only [toSigned, truncate_truncate]

end Width

/-- No operand has a ceiling above its own mask. -/
theorem Operand.ceiling_le_mask (o : Operand) : o.ceiling T ≤ o.width.mask := by
  unfold ceiling
  split
  · exact o.width.truncate_le_mask _
  · exact Nat.min_le_right _ _
  · exact Nat.zero_le _
  · exact Nat.zero_le _

/-- A register with a limit. -/
theorem Operand.ceiling_register {name : String} {l : Nat} (limit : T name = some l) (w : Width) :
    (Operand.register name w).ceiling T ≤ l := by
  simp only [ceiling, register, limit, Option.getD_some]
  exact Nat.min_le_left _ _

/-- A shift to the right keeps the order. -/
theorem shiftValue_le {u v : Nat} {d : Int} (right : d < 0) (le : u ≤ v) :
    shiftValue u d ≤ shiftValue v d := by
  unfold shiftValue
  split
  · exact Nat.le_refl _
  · rw [if_neg (by omega), if_neg (by omega), Nat.shiftRight_eq_div_pow, Nat.shiftRight_eq_div_pow]
    exact Nat.div_le_div_right le

namespace Opcode

variable {opcode : Opcode} {a b : Operand} {w : Width}

/-- The ceiling of a right shift by a literal distance. -/
theorem ceiling_shift {k : Nat} (pos : 0 < k) (below : k < 128) {v : Width}
    (fits : k ≤ v.signBit) :
    Opcode.bsh.ceiling T a (.signed (-k) v) w ≤ a.ceiling T / 2 ^ k := by
  have distance : v.toSigned (v.ofInt (-k)) = -k := Width.toSigned_ofInt_neg fits
  simp only [ceiling, Operand.signed, distance]
  rw [if_pos (by omega), shiftValue_neg pos below]
  exact Nat.min_le_left _ _

/-- Flags combine to flags. -/
theorem ceiling_flags (either : opcode = .or ∨ opcode = .xor) (first : a.ceiling T ≤ 1)
    (second : b.ceiling T ≤ 1) : opcode.ceiling T a b w = 1 := by
  rcases either with rfl | rfl <;> exact if_pos ⟨first, second⟩

/-- What combines two sources computes nothing above its ceiling. -/
theorem combine_le (two : opcode.combines) {u v r : Nat} (first : u ≤ a.ceiling T)
    (second : v ≤ b.ceiling T) (literal : ∀ {k}, b.kind = .integer k → v = b.width.truncate k)
    (computed : opcode.combine b.width u v = some r) :
    w.truncate r ≤ opcode.ceiling T a b w := by
  have masked := w.truncate_le_mask r
  -- two flags combine to a flag, and of anything else nothing is said
  have bitwise : ∀ {k}, (u < 2 ^ 1 → v < 2 ^ 1 → k < 2 ^ 1) →
      w.truncate k ≤ if a.ceiling T ≤ 1 ∧ b.ceiling T ≤ 1 then 1 else w.mask := by
    intro k flag
    split
    · next flags =>
      have := flag (by omega) (by omega)
      have := w.truncate_le k
      omega
    · exact w.truncate_le_mask k
  cases opcode with
  | add =>
    cases computed
    refine Nat.le_min.2 ⟨?_, masked⟩
    rw [Width.truncate_oword_truncate]
    have := w.truncate_le (u + v)
    omega
  | and =>
    cases computed
    have below := w.truncate_le (u &&& v)
    exact Nat.le_min.2 ⟨Nat.le_trans below (Nat.le_trans Nat.and_le_left first),
      Nat.le_trans below (Nat.le_trans Nat.and_le_right second)⟩
  | or =>
    cases computed
    exact bitwise Nat.or_lt_two_pow
  | xor =>
    cases computed
    exact bitwise Nat.xor_lt_two_pow
  | bsh =>
    cases computed
    simp only [ceiling]
    split
    · next k kind =>
      rw [literal kind, Width.toSigned_truncate] at masked ⊢
      split
      · next right =>
        exact Nat.le_min.2 ⟨Nat.le_trans (w.truncate_le _) (shiftValue_le right first), masked⟩
      · exact masked
    · exact masked
  | sub | mul | div | mod => exact masked
  | bisz | jcc | ldm | stm | str | nop | undef | unkn | halt => cases two

end Opcode

/-- A ceiling depends on the limits of the sources only. -/
theorem Instruction.ceiling_congr {T T' : String → Option Nat} {i : Instruction}
    (first : ∀ {name}, i.op1.kind = .register name → T' name = T name)
    (second : ∀ {name}, i.op2.kind = .register name → T' name = T name) :
    i.ceiling T' = i.ceiling T := by
  have source : ∀ {o : Operand}, (∀ {name}, o.kind = .register name → T' name = T name) →
      o.ceiling T' = o.ceiling T := by
    intro o same
    unfold Operand.ceiling
    split
    · rfl
    · next name kind => rw [same kind]
    · rfl
    · rfl
  simp only [Instruction.ceiling, Opcode.ceiling, source first, source second]

/-! ## What machines compute -/

/-- A register keeps to its limit, if it is defined and has one. -/
def Machine.Within (m : Machine) (T : String → Option Nat) (name : String) : Prop :=
  ∀ l v, T name = some l → m.value? name = some v → v ≤ l

namespace Machine

variable {m m' : Machine} {i : Instruction}

/-- Whether a register keeps to its limit depends on its contents only. -/
theorem Within.congr {name : String} (h : m.Within T name)
    (same : m'.register? name = m.register? name) : m'.Within T name := by
  intro l v limit value
  rw [value?_congr same] at value
  exact h l v limit value

/-- No operand reads as more than its ceiling. -/
theorem source_le {o : Operand} {place : Address} {v : Nat} (read : m.source place o = .ok v)
    (within : ∀ {name}, o.kind = .register name → m.Within T name) : v ≤ o.ceiling T := by
  unfold source at read
  unfold Operand.ceiling
  cases kind : o.kind with
  | integer k =>
    rw [kind] at read
    cases read
    exact Nat.le_refl _
  | register name =>
    rw [kind] at read
    dsimp only at read ⊢
    split at read
    · next u value =>
      cases read
      refine Nat.le_min.2 ⟨?_, o.width.truncate_le_mask u⟩
      cases limit : T name with
      | none => exact o.width.truncate_le_mask u
      | some l => exact Nat.le_trans (o.width.truncate_le u) (within kind l u limit value)
    · split at read
      · cases read
      · cases read
        exact Nat.zero_le _
  | absent | address t =>
    rw [kind] at read
    cases read

/-- A literal reads as itself. -/
theorem source_integer {o : Operand} {place : Address} {v k : Nat}
    (read : m.source place o = .ok v) (kind : o.kind = .integer k) : v = o.width.truncate k := by
  unfold source at read
  rw [kind] at read
  cases read
  rfl

/-- What is combined are the values of the two sources. -/
theorem sources_of_combine {r : Nat} (found : m.combine i = .ok r) :
    ∃ u v, m.source i.address i.op1 = .ok u ∧ m.source i.address i.op2 = .ok v ∧
      i.opcode.combine i.op2.width u v = some r := by
  simp only [combine, Except.bind_eq_ok] at found
  obtain ⟨-, -, u, first, v, second, found⟩ := found
  split at found
  · next k computed =>
    cases found
    exact ⟨u, v, first, second, computed⟩
  · cases found

/-- No instruction computes more than its ceiling. -/
theorem outcome_le {v : Nat} (found : m.outcome i = .ok (v, m')) (writes : i.opcode.writesRegister)
    (within : ∀ {slot name}, i.opcode.reads slot → (i.operand slot).kind = .register name →
      m.Within T name) : i.op3.width.truncate v ≤ i.ceiling T := by
  have masked := i.op3.width.truncate_le_mask v
  have first : ∀ {u}, m.source i.address i.op1 = .ok u → u ≤ i.op1.ceiling T := fun read =>
    source_le read fun kind => @within .first _ (i.opcode.reads_first writes) kind
  -- the nine operations on two sources have one argument in common
  have combined : i.opcode.combines → i.op3.width.truncate v ≤ i.ceiling T := by
    intro two
    rw [outcome_of_combines two] at found
    obtain ⟨r, combined, same⟩ := ok_of_map found
    cases same
    obtain ⟨u, k, read, read', computed⟩ := sources_of_combine combined
    have second := source_le read' fun kind => @within .second _ two kind
    exact Opcode.combine_le two (first read) second (source_integer read') computed
  cases opcode : i.opcode with
  | add | sub | mul | div | mod | bsh | and | or | xor => exact combined (by rw [opcode]; rfl)
  | bisz =>
    simp only [outcome, opcode] at found
    obtain ⟨u, -, same⟩ := ok_of_map found
    cases same
    refine Nat.le_trans (i.op3.width.truncate_le _) ?_
    simp only [Instruction.ceiling, opcode, Opcode.ceiling]
    split
    · exact Nat.le_refl 1
    · exact Nat.zero_le 1
  | str =>
    simp only [outcome, opcode] at found
    obtain ⟨u, read, same⟩ := ok_of_map found
    cases same
    simp only [Instruction.ceiling, opcode, Opcode.ceiling]
    exact Nat.le_min.2 ⟨Nat.le_trans (i.op3.width.truncate_le _) (first read), masked⟩
  | ldm =>
    simp only [Instruction.ceiling, opcode, Opcode.ceiling]
    exact masked
  | jcc | stm | nop | undef | unkn | halt =>
    rw [opcode] at writes
    cases writes

end Machine

/-! ## Instructions that keep to limits -/

namespace Instruction

/-- Whatever register the instruction writes, its ceiling is within the limit. -/
def Heeds (i : Instruction) (T : String → Option Nat) : Prop :=
  ∀ {name w l}, i.Writes name w → T name = some l → i.ceiling T ≤ l

/-- The temporary that the instruction writes, if any, has the ceiling for its limit. -/
def Settles (i : Instruction) (T : String → Option Nat) : Prop :=
  ∀ {name w}, i.Writes name w → isTemporary name → T name = some (i.ceiling T)

end Instruction

/--
An instruction that heeds the limits leaves registers within them that were so before, and the one
that it writes.
-/
theorem Machine.Executes.within {m m' : Machine} {p : Program} {i : Instruction}
    {result : Except (Fault Address) Flow} (h : m.Executes p i result m') (plain : m.cpu.Plain)
    (reads : ∀ {slot name}, i.opcode.reads slot → (i.operand slot).kind = .register name →
      m.Within T name) (heeds : i.Heeds T) {name : String}
    (known : m.Within T name ∨ (∃ w, i.Writes name w) ∧ ∃ flow, result = .ok flow) :
    m'.Within T name := by
  have idle : ¬ i.opcode.writesRegister → m.Within T name := fun idle =>
    known.resolve_right fun ⟨⟨_, writes⟩, _⟩ => idle writes.1
  cases h with
  -- what fails has written nothing
  | refused | stranded =>
    refine known.resolve_right fun wrote => ?_
    obtain ⟨-, flow, failed⟩ := wrote
    cases failed
  | @wrote other v k writes destination found =>
    obtain ⟨registers, processor⟩ := registers_of_outcome found
    have plain' : k.cpu.Plain := processor ▸ plain
    intro l u limit value
    by_cases same : name = other
    · subst same
      have third : i.op3 = .register name i.op3.width := Operand.eq_register destination
      have written : u = i.op3.width.truncate v := by
        simp only [value?, register?_setRegister plain', if_true] at value
        cases value
        rfl
      rw [written]
      exact Nat.le_trans (outcome_le found writes reads) (heeds ⟨writes, third⟩ limit)
    · have before : m.Within T name := known.resolve_right fun wrote => by
        obtain ⟨⟨w, -, third⟩, -⟩ := wrote
        rw [third] at destination
        cases destination
        exact same rfl
      refine before l u limit (value ▸ value?_congr ?_)
      rw [register?_setRegister plain', if_neg same]
      simp only [register?, registers, processor]
  | stored store => exact idle (by rw [store]; decide)
  -- an undefined register is within any limit
  | @undefined other undefines destination =>
    have before := idle (by rw [undefines]; decide)
    by_cases same : name = other
    · intro l u limit value
      rw [value?, register?_undefineRegister plain, if_pos same] at value
      have gone : (RegisterValue.undefined (m.register? other) i.op3.width).isDefined = false := by
        cases m.register? other <;> rfl
      simp [Option.filter, gone] at value
    · refine before.congr ?_
      rw [register?_undefineRegister plain, if_neg same]
  | passed kind =>
    refine idle ?_
    rcases kind with opcode | opcode | opcode <;> rw [opcode] <;> decide
  | jumped jump => exact idle (by rw [jump]; decide)
  | halted halt => exact idle (by rw [halt]; decide)

/-! ## Limits of temporaries -/

section Temporaries

variable {first count k : Nat} {code : List Instruction} {i : Instruction} {name : String}
  {w : Width}

/-- A limit for what is written at an offset is no matter to the ceilings up to there. -/
theorem SingleAssignment.ceiling_update (h : SingleAssignment first count code)
    (at_k : code[k]? = some i) (temporary : isTemporary name) (writes : i.Writes name w) (l : Nat)
    {j : Nat} {i' : Instruction} (le : j ≤ k) (at_j : code[j]? = some i') :
    i'.ceiling (Function.update T name (some l)) = i'.ceiling T := by
  -- what is written at `k` is read behind `k` only
  have unread : ∀ (slot : Slot) {other}, slot ≠ .third → (i'.operand slot).kind = .register other →
      Function.update T name (some l) other = T other := by
    intro slot other source kind
    refine Function.update_of_ne (fun same => ?_) _ _
    subst same
    rcases h.read_behind at_j (Operand.eq_register kind) temporary with
      ⟨third, -⟩ | ⟨-, before, i'', less, at_before, writes', -⟩
    · exact source third
    · have := h.same_place at_before at_k temporary writes' writes
      omega
  exact Instruction.ceiling_congr (unread .first (by simp)) (unread .second (by simp))

/-- With its ceiling for the limit of what it writes, one more instruction settles the limits. -/
theorem SingleAssignment.settles_update (h : SingleAssignment first count code)
    (at_k : code[k]? = some i) (temporary : isTemporary name) (writes : i.Writes name w)
    (settles : ∀ {j i'}, j < k → code[j]? = some i' → i'.Settles T) {j : Nat} {i' : Instruction}
    (le : j ≤ k) (at_j : code[j]? = some i') :
    i'.Settles (Function.update T name (some (i.ceiling T))) := by
  intro other v writes' temporary'
  rw [h.ceiling_update at_k temporary writes _ le at_j]
  -- a temporary is written once, so that what comes earlier settles another one
  by_cases same : other = name
  · subst same
    have here := h.same_place at_j at_k temporary writes' writes
    subst here
    rw [at_k] at at_j
    cases at_j
    exact Function.update_self ..
  · have earlier : j < k := by
      refine Nat.lt_of_le_of_ne le fun here => ?_
      subst here
      rw [at_k] at at_j
      cases at_j
      exact same (OperandKind.register.inj
        (congrArg Operand.kind (writes'.2.symm.trans writes.2)))
    exact (Function.update_of_ne same ..).trans (settles earlier at_j writes' temporary')

/-- Temporaries have limits: the ceilings of the instructions that write them. -/
theorem SingleAssignment.exists_limits (h : SingleAssignment first count code)
    (base : String → Option Nat) :
    ∃ T : String → Option Nat, (∀ {name}, isTemporary name = false → T name = base name) ∧
      ∀ i ∈ code, i.Settles T := by
  suffices up_to : ∀ k, ∃ T : String → Option Nat,
      (∀ {name}, isTemporary name = false → T name = base name) ∧
      ∀ {j} {i : Instruction}, j < k → code[j]? = some i → i.Settles T by
    obtain ⟨T, native, settles⟩ := up_to code.length
    refine ⟨T, native, fun i mem => ?_⟩
    obtain ⟨j, at_j⟩ := List.getElem?_of_mem mem
    exact settles (List.getElem?_eq_some_iff.1 at_j).1 at_j
  -- the limits are settled from the first instruction to the last
  intro k
  induction k with
  | zero => exact ⟨base, fun _ => rfl, fun before => absurd before (Nat.not_lt_zero _)⟩
  | succ k ih =>
    obtain ⟨T, native, settles⟩ := ih
    by_cases writes : ∃ i name w, code[k]? = some i ∧ isTemporary name ∧ i.Writes name w
    · obtain ⟨i, name, w, at_k, temporary, writes⟩ := writes
      refine ⟨Function.update T name (some (i.ceiling T)), fun {other} native' => ?_,
        fun before at_j =>
          h.settles_update at_k temporary writes settles (Nat.le_of_lt_succ before) at_j⟩
      rw [← native native']
      refine Function.update_of_ne (fun same => ?_) _ _
      rw [same, temporary] at native'
      cases native'
    · refine ⟨T, native, fun {j i'} before at_j {other v} writes' temporary' => ?_⟩
      by_cases last : j = k
      · exact absurd ⟨i', other, v, last ▸ at_j, temporary', writes'⟩ writes
      · exact settles (by omega) at_j writes' temporary'

end Temporaries

/-! ## Runs that keep to limits -/

/-- Limits that extend those of the processor to temporaries, and that some code heeds. -/
structure Limits (base T : String → Option Nat) (code : List Instruction) : Prop where
  native : ∀ {name}, isTemporary name = false → T name = base name
  heeds : ∀ {i}, i ∈ code → i.Heeds T
  dominated : Dominated code

namespace Limits

variable {base : String → Option Nat} {code : List Instruction} {m : Machine}

/-- Limits that are extended to temporaries are the same for the processor's registers. -/
theorem native_within (h : Limits base T code) {name : String} (native : isTemporary name = false) :
    m.Within T name ↔ m.Within base name := by
  unfold Machine.Within
  rw [h.native native]

/-- Whatever an instruction reads keeps to its limit. -/
theorem reads_within (h : Limits base T code)
    (native : ∀ {name}, isTemporary name = false → m.Within base name) {visited : List Nat}
    (written : ∀ {name}, Program.Tiled.Written code visited name → m.Within T name) {k : Nat}
    {i : Instruction} (path : Path code k visited) (at_k : code[k]? = some i) {slot : Slot}
    {name : String} (reads : i.opcode.reads slot) (kind : (i.operand slot).kind = .register name) :
    m.Within T name := by
  cases temporary : isTemporary name with
  | false => exact (h.native_within temporary).2 (native temporary)
  | true =>
    obtain ⟨j, mem, i', at_j, writes⟩ :=
      h.dominated path at_k temporary ⟨slot, reads, Operand.eq_register kind⟩
    exact written ⟨j, mem, i', _, at_j, writes⟩

end Limits

/--
A run whose registers keep to their limits: those of the processor at any time, and temporaries from
where they are written to where control leaves the code.
-/
structure Run.Within {σ : Type} (p : Program) (base : String → Option Nat)
    (L : (String → Option Nat) → List Instruction → Prop) (r : Run σ) : Prop where
  plain : r.machine.cpu.Plain
  counter : base r.machine.cpu.programCounter = none
  native : ∀ {name}, isTemporary name = false → r.machine.Within base name
  inside : ∀ {pc}, r.progress = .running pc → p.contains pc →
    ∃ code visited T, Visit p (fun code => ∃ T, L T code) code visited pc ∧ L T code ∧
      ∀ {name}, Program.Tiled.Written code visited name → r.machine.Within T name

namespace Run.Within

variable {σ : Type} {p : Program} {base : String → Option Nat}
  {L : (String → Option Nat) → List Instruction → Prop} {o : Observer σ} {r : Run σ}

/-- Bringing the program counter up to date changes nothing that has a limit. -/
theorem sync (h : r.Within p base L) (limits : ∀ {T code}, L T code → Limits base T code)
    (native : Nat) :
    (⟨r.machine.syncProgramCounter native, r.watch, r.progress⟩ : Run σ).Within p base L := by
  have synced : ∀ {T : String → Option Nat} {name}, T r.machine.cpu.programCounter = none →
      r.machine.Within T name → (r.machine.syncProgramCounter native).Within T name := by
    intro T name free within
    by_cases counter : name = r.machine.cpu.programCounter
    · intro l v limit
      rw [counter, free] at limit
      cases limit
    · exact within.congr (Machine.register?_syncProgramCounter h.plain counter native)
  refine ⟨h.plain, h.counter, fun native => synced h.counter (h.native native), ?_⟩
  intro pc running there
  obtain ⟨code, visited, T, visit, here, written⟩ := h.inside running there
  have free := ((limits here).native h.plain.programCounter).trans h.counter
  exact ⟨code, visited, T, visit, here, fun known => synced free (written known)⟩

/-- What an instruction leaves keeps to the limits. -/
theorem executed (h : r.Within p base L) (limits : ∀ {T code}, L T code → Limits base T code)
    {pc : Address} {i : Instruction} (running : r.progress = .running pc)
    (found : p.get? pc = some i) {result : Except (Fault Address) Flow} {m : Machine}
    (executes : (r.machine.syncProgramCounter pc.native).Executes p i result m) :
    ∃ code visited T, Visit p (fun code => ∃ T, L T code) code visited pc ∧ L T code ∧
      (∀ {name}, isTemporary name = false → m.Within base name) ∧
      ∀ {name}, Program.Tiled.Written code visited name ∨
        (∃ w, i.Writes name w) ∧ (∃ flow, result = .ok flow) → m.Within T name := by
  have synced := h.sync limits pc.native
  obtain ⟨code, visited, T, visit, here, written⟩ :=
    synced.inside running (SortedMap.contains_iff.2 ⟨i, found⟩)
  have heeded := limits here
  have at_pc : code[pc.offset]? = some i := visit.get?.symm.trans found
  have after : ∀ {name}, ((r.machine.syncProgramCounter pc.native).Within T name ∨
      (∃ w, i.Writes name w) ∧ ∃ flow, result = .ok flow) → m.Within T name :=
    executes.within h.plain
      (heeded.reads_within synced.native written visit.path at_pc)
      (heeded.heeds (List.mem_of_getElem? at_pc))
  refine ⟨code, visited, T, visit, here, fun native => ?_, fun known => after (known.imp_left written)⟩
  have before := (heeded.native_within native).2 (synced.native native)
  exact (heeded.native_within native).1 (after (.inl before))

/-- A turn keeps to the limits if the codes of the program heed them. -/
theorem step (h : r.Within p base L) (tiled : p.Tiled fun code => ∃ T, L T code)
    (limits : ∀ {T code}, L T code → Limits base T code) : (r.step o p).Within p base L := by
  have effect := Run.turns o p r
  generalize turned : r.step o p = r' at effect
  cases effect with
  | ended => exact h
  | off | stopped => exact ⟨h.plain, h.counter, h.native, nofun⟩
  | failed running found executes =>
    obtain ⟨code, visited, T, -, -, native, -⟩ := h.executed limits running found executes
    exact ⟨executes.cpu ▸ h.plain, executes.cpu ▸ h.counter, native, nofun⟩
  | @went pc i flow m w running found executes =>
    obtain ⟨code, visited, T, visit, here, native, written⟩ :=
      h.executed limits running found executes
    have at_pc : code[pc.offset]? = some i := visit.get?.symm.trans found
    have same : (Run.follow p pc m.counted w flow).machine.cpu = r.machine.cpu := by
      rw [← turned]
      exact (Run.step_setup o p r).cpu
    have follows : ∀ {T : String → Option Nat} {name}, m.Within T name →
        (Run.follow p pc m.counted w flow).machine.Within T name :=
      fun within => within.congr (Run.register?_follow ..)
    refine ⟨same ▸ h.plain, same ▸ h.counter, fun native' => follows (native native'),
      fun {pc'} next there => ?_⟩
    -- control stays in the code, and what was written with it, or enters a code anew
    rcases tiled.onward visit running (by rw [turned]; exact next) with ⟨-, along⟩ | ⟨code', anew⟩
    · refine ⟨code, pc.offset :: visited, T, along, here, fun {name} known => follows (written ?_)⟩
      obtain ⟨j, mem, i', w, at_j, writes⟩ := known
      rcases List.mem_cons.1 mem with rfl | mem
      · rw [at_pc] at at_j
        cases at_j
        exact .inr ⟨⟨w, writes⟩, flow, rfl⟩
      · exact .inl ⟨j, mem, i', w, at_j, writes⟩
    · obtain ⟨T', here'⟩ := anew.tile
      refine ⟨code', [], T', anew, here', fun known => ?_⟩
      obtain ⟨j, mem, -⟩ := known
      cases mem

end Run.Within

/-- Where all codes heed their limits, runs keep to them. -/
theorem Program.Tiled.within {σ : Type} {p : Program} {base : String → Option Nat}
    {L : (String → Option Nat) → List Instruction → Prop} {o : Observer σ} {r : Run σ}
    {native : Nat} (tiled : p.Tiled fun code => ∃ T, L T code)
    (limits : ∀ {T code}, L T code → Limits base T code) (plain : r.machine.cpu.Plain)
    (counter : base r.machine.cpu.programCounter = none)
    (start : r.progress = .running (.ofNative native))
    (within : ∀ {name}, isTemporary name = false → r.machine.Within base name) (n : Nat) :
    (Run.advance o p n r).Within p base L := by
  induction n with
  | zero =>
    refine ⟨plain, counter, within, fun {pc} running there => ?_⟩
    have e : r.progress = .running pc := running
    rw [start] at e
    cases e
    obtain ⟨code, visit⟩ := tiled.enter native there
    obtain ⟨T, here⟩ := visit.tile
    refine ⟨code, [], T, visit, here, fun known => ?_⟩
    obtain ⟨j, mem, -⟩ := known
    cases mem
  | succ n ih =>
    rw [← Run.step_advance]
    exact ih.step tiled limits

end RegisterTransfer

import RegisterTransfer.PowerPC.Lifter
import RegisterTransfer.Proofs.Blocks
import RegisterTransfer.Proofs.PowerPC.Lockstep
import RegisterTransfer.Proofs.TwinJourneys

/-!
# Lifted instructions

What comes out of the lifter, instruction by instruction: the operation that was decoded, the
expansion its script wrote, and the code the expansion was finished to. The number of temporaries
taken before changes nothing but the names of temporaries.

> `Expands.shift`: what is lifted inside a block is lifted by itself too, and the journeys through
> both expansions are twins.
> `laid_of_lift`: a lifted program is made of the codes of its block.
-/

namespace RegisterTransfer.PowerPC

open Script

/-! ## Decoding -/

/-- Whether the opcode of a bitwise operation with a number is bitwise. -/
def Form.Bitwise : Form → Prop
  | .logicConstant opcode .. => opcode = .and ∨ opcode = .or ∨ opcode = .xor
  | _ => True

instance : DecidablePred Form.Bitwise := fun form => by
  cases form <;> unfold Form.Bitwise <;> infer_instance

theorem bitwise_of_mem_forms : ∀ e ∈ forms, e.2.Bitwise := by decide +kernel

/-- What a bitwise form reads is bitwise. -/
theorem Operation.bitwise_of_read {widthOf : String → Option Width} {n : NativeInstruction}
    {field : ConditionField} {first : Nat} {form : Form} {operation : Operation}
    (bitwise : form.Bitwise) (h : form.read widthOf n field first = .ok operation) :
    operation.Bitwise := by
  -- only logic with a constant has an opcode to be read, and the form fixes it
  cases form with
  | logicConstant opcode high record =>
    simp only [Form.read, Except.bind_eq_ok] at h
    obtain ⟨ra, -, rs, -, v, -, e⟩ := h
    cases e
    exact bitwise
  | loadConstant high =>
    simp only [Form.read, Except.bind_eq_ok] at h
    obtain ⟨rd, -, h⟩ := h
    split at h
    all_goals
      simp only [Except.bind_eq_ok] at h
      obtain ⟨v, -, e⟩ := h
      cases e
      trivial
  | branchThrough | nop =>
    cases h
    trivial
  | sum =>
    simp only [Form.read, Except.bind_eq_ok] at h
    obtain ⟨rd, -, h⟩ := h
    split at h
    all_goals
      simp only [Except.bind_eq_ok] at h
      obtain ⟨a, -, b, -, e⟩ := h
      cases e
      trivial
  | _ =>
    simp only [Form.read, Except.bind_eq_ok] at h
    first
    | obtain ⟨_, -, e⟩ := h
      cases e
      trivial
    | obtain ⟨_, -, _, -, e⟩ := h
      cases e
      trivial
    | obtain ⟨_, -, _, -, _, -, e⟩ := h
      cases e
      trivial

theorem Operation.bitwise_of_decode {widthOf : String → Option Width} {n : NativeInstruction}
    {form : Form} {operation : Operation} (bitwise : form.Bitwise)
    (h : form.decode widthOf n = .ok operation) : operation.Bitwise := by
  simp only [Form.decode, Except.bind_eq_ok] at h
  obtain ⟨_, -, h⟩ := h
  exact bitwise_of_read bitwise h

/-! ## Expansions of instructions -/

theorem widthOf_some (c : Cpu) (count : Nat) :
    (⟨some c, count⟩ : Environment).widthOf = c.catalog.widthOf := rfl

/-- The expansion of an instruction before anything is written. -/
def blank (count : Nat) (n : NativeInstruction) : Expansion :=
  ⟨⟨some cpu, count⟩, n.address, some n.text, [], []⟩

/-- What an instruction is lifted to when `count` temporaries are taken. -/
structure Expands (count : Nat) (n : NativeInstruction) (operation : Operation) (X : Expansion)
    (code : List Instruction) : Prop where
  decoded : ∃ form, (n.mnemonic, form) ∈ forms ∧ form.decode cpu.catalog.widthOf n = .ok operation
  ran : (operation.expand n.mnemonic n.address).run (blank count n) = (.ok (), X)
  finished : X.finish = .ok code

/-- Every translator of the processor is the script of one of its forms. -/
theorem get?_registry {mnemonic : String} {t : Translator} (h : registry.get? mnemonic = some t) :
    ∃ form, (mnemonic, form) ∈ forms ∧ t = .ofScript form.script := by
  obtain ⟨⟨name, form⟩, mem, e⟩ := List.mem_map.1 (SortedMap.mem_of_get?_ofList h)
  cases e
  exact ⟨form, mem, rfl⟩

/-- The bytes of a text as one number, which is quicker to compare than the text. -/
def mnemonicCode (text : String) : Nat :=
  text.toByteArray.data.toList.foldl (fun code byte => code * 256 + byte.toNat) 0

/-- No two mnemonics have the same code, so no two are the same text. -/
theorem nodup_codes : ((forms.map (·.1)).map mnemonicCode).Nodup := by decide +kernel

/-- Mnemonics are registered once. -/
theorem nodup_mnemonics : (forms.map (·.1)).Nodup := .of_map _ nodup_codes

/-- The entries of the registry. -/
def entries : List (String × Translator) :=
  forms.map fun (mnemonic, form) => (mnemonic, .ofScript form.script)

/-- No mnemonic is registered twice. -/
theorem nodup_entries : (entries.map (·.1)).Nodup := by
  have same : entries.map (·.1) = forms.map (·.1) := by
    rw [entries, List.map_map]
    exact List.map_congr_left fun ⟨_, _⟩ _ => rfl
  exact same ▸ nodup_mnemonics

/-- Every form is found under its mnemonic. -/
theorem registry_get? {mnemonic : String} {form : Form} (h : (mnemonic, form) ∈ forms) :
    registry.get? mnemonic = some (.ofScript form.script) := by
  have mem : (mnemonic, Translator.ofScript form.script) ∈ entries :=
    List.mem_map.2 ⟨(mnemonic, form), h, rfl⟩
  exact SortedMap.get?_ofList_of_mem nodup_entries mem

/-- A translation collects what the script of the form has written. -/
theorem translate_script (form : Form) (count : Nat) (n : NativeInstruction) :
    (Translator.ofScript form.script).translate ⟨some cpu, count⟩ n =
      Expansion.collect ((form.script cpu.catalog.widthOf n).run (blank count n)) := by
  rw [← widthOf_some cpu count]
  rfl

/-- The temporaries that an expansion took stay taken. -/
theorem Expands.translate {count : Nat} {n : NativeInstruction} {operation : Operation}
    {X : Expansion} {code : List Instruction} (h : Expands count n operation X code) :
    registry.translate ⟨some cpu, count⟩ n = (.ok code, X.environment) := by
  obtain ⟨⟨form, mem, decoded⟩, ran, finished⟩ := h
  rw [Registry.translate, registry_get? mem]
  dsimp only
  rw [translate_script, Form.script, decoded]
  dsimp only
  rw [ran, Expansion.collect, finished]

/-- An instruction is lifted by decoding it and finishing the expansion of its operation. -/
theorem translate_eq_ok_iff {count : Nat} {n : NativeInstruction} {code : List Instruction} :
    (registry.translate ⟨some cpu, count⟩ n).1 = .ok code ↔
      ∃ operation X, Expands count n operation X code := by
  constructor
  · intro h
    rw [Registry.translate] at h
    cases registered : registry.get? n.mnemonic with
    | none =>
      rw [registered] at h
      cases h
    | some t =>
      obtain ⟨form, mem, rfl⟩ := get?_registry registered
      rw [registered] at h
      dsimp only at h
      rw [translate_script, Form.script] at h
      cases decoded : form.decode cpu.catalog.widthOf n with
      | error e =>
        rw [decoded] at h
        cases h
      | ok operation =>
        rw [decoded] at h
        dsimp only at h
        cases ran : (operation.expand n.mnemonic n.address).run (blank count n) with
        | mk result X =>
          rw [ran] at h
          cases result with
          | error e => cases h
          | ok _ => exact ⟨operation, X, ⟨form, mem, decoded⟩, ran, h⟩
  · intro found
    obtain ⟨operation, X, expands⟩ := found
    rw [expands.translate]

/-! ## What does not depend on the temporaries taken before -/

/-- The scope at the start of an expansion. -/
def opening (count : Nat) : Scope := ⟨count, [], [], 0⟩

/-- Expansions of instructions at one address, before anything is written. -/
theorem describes_blanks (count d : Nat) {n n' : NativeInstruction} (same : n'.address = n.address) :
    (opening count).Describes d (blank count n) (blank (count + d) n') where
  count := rfl
  count' := rfl
  size := rfl
  size' := rfl
  native := same
  length := rfl
  labels := rfl
  targets := rfl
  unbound h := by simp [opening] at h
  old mem := by simp [opening] at mem

theorem describes_blank (count d : Nat) (n : NativeInstruction) :
    (opening count).Describes d (blank count n) (blank (count + d) n) :=
  describes_blanks count d rfl

/-- One instruction has the meaning of another, at the same address. -/
structure Respells (n n' : NativeInstruction) (operation : Operation) : Prop where
  address : n'.address = n.address
  decoded : ∃ form, (n.mnemonic, form) ∈ forms ∧
    form.decode cpu.catalog.widthOf n = .ok operation
  script : operation.expand n'.mnemonic n'.address = operation.expand n.mnemonic n.address

namespace Expands

variable {count d : Nat} {n : NativeInstruction} {operation : Operation} {X : Expansion}
  {code : List Instruction}

/-- The script of a decoded operation keeps the discipline, however many temporaries are taken. -/
theorem lockstep (h : Expands count n operation X code) (taken d : Nat) :
    Lockstep operation.Divides d (fun _ _ Γ => 0 < Γ.size) (opening taken)
      (operation.expand n.mnemonic n.address) (operation.expand n.mnemonic n.address) := by
  obtain ⟨form, mem, decoded⟩ := h.decoded
  have closed : (opening taken).labels = [] := rfl
  exact Operation.lockstep (Operation.bitwise_of_decode (bitwise_of_mem_forms _ mem) decoded)
    closed _ _

/-- An expansion is orderly, like every script that is in lockstep with itself. -/
theorem orderly (h : Expands count n operation X code) :
    (operation.expand n.mnemonic n.address).Orderly (blank count n) :=
  ((h.lockstep count 0).orderly (describes_blank count 0 n)).1

theorem native (h : Expands count n operation X code) : X.native = n.address := by
  have grows : (blank count n).Grows X := by simpa only [h.ran] using h.orderly.grows
  exact grows.native

/-- The journey through the whole expansion. -/
def journey (count : Nat) (n : NativeInstruction) (operation : Operation) (X : Expansion)
    (m : Machine) : Journey :=
  X.conclude ((operation.expand n.mnemonic n.address).walk (blank count n) (.start m))

theorem journey_setup (count : Nat) (n : NativeInstruction) (operation : Operation)
    (X : Expansion) (m : Machine) : m.SameSetup (journey count n operation X m).machine :=
  (walk_setup _ _ (.start m)).trans (X.conclude_setup _)

/-- With fewer temporaries taken, what has the same meaning is lifted in the same way. -/
theorem respell {n' : NativeInstruction} {X' : Expansion} {code' : List Instruction}
    (h : Expands (count + d) n' operation X' code') (other : Respells n n' operation) :
    ∃ X code, Expands count n operation X code ∧ code.length = code'.length ∧ 0 < X.size ∧
      ∀ {m m' : Machine}, m.SameNative m' → m.cpu.Plain →
        ∃ Γ, (journey count n operation X m).Twins operation.Divides d Γ
          (journey (count + d) n' operation X' m') := by
  have ran' := other.script ▸ h.ran
  have lockstep := other.script ▸ h.lockstep count d
  rcases lockstep.agree (describes_blanks count d other.address) with
    ⟨e, -, error⟩ | ⟨_, _, Γ, X, X'', ran, ran'', written, desc, twins⟩
  · rw [ran'] at error
    cases error
  rw [ran'] at ran''
  cases ran''
  have finished : ∃ code, X.finish = .ok code := by
    rw [Expansion.finish_isOk_iff, ← desc.targets, ← desc.labels, ← Expansion.finish_isOk_iff]
    exact ⟨code', h.finished⟩
  obtain ⟨code, finished⟩ := finished
  have size : X'.size = X.size := by rw [desc.size, desc.size']
  refine ⟨X, code, ⟨other.decoded, ran, finished⟩, ?_, desc.size ▸ written,
    fun {m m'} same plain => ?_⟩
  · rw [(Expansion.finish_eq_ok finished).1, (Expansion.finish_eq_ok h.finished).1,
      X.length_completed, X'.length_completed, desc.labels, size]
  · have start : (Journey.start m).Twins operation.Divides d (opening count) (.start m') :=
      Journey.twins_going ⟨same, plain, fun mem => by simp [opening] at mem⟩
    rw [journey, journey, other.script]
    exact ⟨_, desc.conclude (twins start)⟩

/-- With fewer temporaries taken, the same instruction is lifted in the same way. -/
theorem shift {X' : Expansion} {code' : List Instruction}
    (h : Expands (count + d) n operation X' code') :
    ∃ X code, Expands count n operation X code ∧ code.length = code'.length ∧ 0 < X.size ∧
      ∀ {m m' : Machine}, m.SameNative m' → m.cpu.Plain →
        ∃ Γ, (journey count n operation X m).Twins operation.Divides d Γ
          (journey (count + d) n operation X' m') :=
  h.respell ⟨rfl, h.decoded, rfl⟩

/-- A journey meets no halt, and no fault but reads of undefined registers and divisions. -/
theorem journey_mild (h : Expands count n operation X code) {m : Machine} (plain : m.cpu.Plain) :
    (journey count n operation X m).stance ≠ .halted ∧
      ∀ {f}, (journey count n operation X m).stance = .failed f →
        f.Mild m.settings operation.Divides := by
  have h' : Expands (0 + count) n operation X code := by rwa [Nat.zero_add]
  obtain ⟨X₀, code₀, -, -, -, twins⟩ := h'.shift
  obtain ⟨Γ, twins⟩ := twins (.refl m) plain
  rw [Nat.zero_add] at twins
  refine ⟨twins.stance ▸ twins.alive, fun failed => ?_⟩
  have mild := twins.mild (twins.stance.symm.trans failed)
  rwa [(journey_setup 0 n operation X₀ m).settings] at mild

/-- With more temporaries taken, the instruction is lifted too. -/
theorem raise (h : Expands count n operation X code) (d : Nat) :
    ∃ X' code', Expands (count + d) n operation X' code' := by
  rcases (h.lockstep count d).agree (describes_blank count d n) with
    ⟨e, error, -⟩ | ⟨_, _, Γ, X'', X', ran, ran', -, desc, -⟩
  · rw [h.ran] at error
    cases error
  rw [h.ran] at ran
  cases ran
  have finished : ∃ code, X'.finish = .ok code := by
    rw [Expansion.finish_isOk_iff, desc.targets, desc.labels, ← Expansion.finish_isOk_iff]
    exact ⟨code, h.finished⟩
  obtain ⟨code', finished⟩ := finished
  exact ⟨X', code', h.decoded, ran', finished⟩

/-- Placed code takes the run to where the journey ends. -/
theorem nativeStep (h : Expands count n operation X code) {p : Program}
    (placed : Placed p n.address code) (grounded : p.Grounded) {m : Machine}
    (limit : m.settings.stepLimit = none) :
    Run.NativeStep p ⟨m, (), .running (.ofNative n.address)⟩
      ((journey count n operation X m).settle p ⟨n.address, code.length - 1⟩) :=
  Script.nativeStep rfl rfl h.orderly h.ran h.finished placed grounded limit

/-- The code of an instruction is numbered from zero on, without gaps. -/
theorem consecutive (h : Expands count n operation X code) (written : 0 < X.size) :
    Consecutive n.address code :=
  h.native ▸ Expansion.consecutive_of_finish h.finished written

/-- Every instruction is lifted to code. -/
theorem written (h : Expands count n operation X code) : 0 < X.size := by
  have h' : Expands (count + 0) n operation X code := h
  obtain ⟨Y, code', hY, -, written, -⟩ := h'.shift
  have same : ((), X) = ((), Y) := by
    have := h.ran.symm.trans hY.ran
    injection this with _ e
    rw [e]
  cases same
  exact written

end Expands

/-! ## Lifted programs -/

/-- A program that is made of the codes of a block. -/
structure Laid (block : List NativeInstruction) (p : Program) : Prop where
  grounded : p.Grounded
  placed : ∀ n ∈ block, ∃ count operation X code,
    Expands count n operation X code ∧ Placed p n.address code
  covered : ∀ {a}, p.contains a → ∃ n ∈ block, n.address = a.native

/-- A script changes nothing in the environment but the number of temporaries. -/
theorem cpu_run {α : Type} (s : Script α) (x : Expansion) :
    (s.run x).2.environment.cpu = x.environment.cpu := by
  induction s generalizing x with
  | done | fail => rfl
  | allocate _ _ ih | create _ ih => exact ih _ _
  | write _ _ _ _ _ ih | attach _ _ ih | leave _ _ _ ih => exact ih _

/-- Translating leaves the processor of the environment as it is. -/
theorem keeps_registry : registry.Keeps := by
  intro e n
  rw [Registry.translate]
  cases registered : registry.get? n.mnemonic with
  | none => rfl
  | some t =>
    obtain ⟨form, -, rfl⟩ := get?_registry registered
    show (Expansion.collect ((form.script e.widthOf n).run _)).2.cpu = e.cpu
    have kept := cpu_run (form.script e.widthOf n) ⟨e, n.address, some n.text, [], []⟩
    cases ran : (form.script e.widthOf n).run ⟨e, n.address, some n.text, [], []⟩ with
    | mk result X =>
      rw [ran] at kept
      cases result with
      | error error => exact kept
      | ok _ => exact kept

/-- A lifted program is made of the codes of its block. -/
theorem laid_of_lift {block : List NativeInstruction} {p : Program} (h : lift block = .ok p) :
    Laid block p := by
  rw [lift] at h
  cases lifted : (registry.translateBlock environment block).1 with
  | error e =>
    rw [lifted] at h
    cases h
  | ok all =>
    rw [lifted] at h
    dsimp only at h
    obtain ⟨codes, rfl, each⟩ := Registry.translateBlock_eq_ok keeps_registry lifted
    have assembled : Program.ofList codes.flatten = .ok p := by
      cases result : Program.ofList codes.flatten with
      | error e =>
        rw [result] at h
        cases h
      | ok q =>
        rw [result] at h
        cases h
        rfl
    -- every instruction has a code, and every code comes from an instruction
    have onward : ∀ n ∈ block, ∃ code ∈ codes, ∃ count operation X,
        Expands count n operation X code := by
      intro n mem
      obtain ⟨code, mem, count, lifted⟩ := exists_mem_of_forall₂ each n mem
      exact ⟨code, mem, count, translate_eq_ok_iff.1 lifted⟩
    have back : ∀ code ∈ codes, ∃ n ∈ block, ∃ count operation X,
        Expands count n operation X code := by
      intro code mem
      obtain ⟨n, mem, count, lifted⟩ := exists_mem_of_forall₂ each.flip code mem
      exact ⟨n, mem, count, translate_eq_ok_iff.1 lifted⟩
    have consecutive : ∀ code ∈ codes, ∃ native, Consecutive native code := by
      intro code mem
      obtain ⟨n, -, count, operation, X, h⟩ := back code mem
      exact ⟨n.address, h.consecutive h.written⟩
    refine ⟨grounded_of_flatten assembled consecutive, ?_, ?_⟩
    · intro n mem
      obtain ⟨code, mem, count, operation, X, h⟩ := onward n mem
      exact ⟨count, operation, X, code, h,
        (h.consecutive h.written).placed assembled consecutive mem⟩
    · intro a there
      obtain ⟨code, mem, at_a⟩ := contains_of_flatten assembled consecutive there
      obtain ⟨n, mem', count, operation, X, h⟩ := back code mem
      refine ⟨n, mem', ?_⟩
      obtain ⟨i, hi, address⟩ := at_a.head
      rw [← (h.consecutive h.written).mem_address hi, address]
      rfl

/-- Instructions that can be lifted one by one can be lifted one after the other. -/
theorem translateAll_isOk {block : List NativeInstruction}
    (each : ∀ n ∈ block, ∃ operation X code, Expands 0 n operation X code) (s : Session)
    (known : s.environment.cpu = some cpu) :
    ∃ s', s.translateAll registry block = (.ok (), s') := by
  induction block generalizing s with
  | nil => exact ⟨s, rfl⟩
  | cons n rest ih =>
    obtain ⟨operation, X, code, alone⟩ := each n (List.mem_cons_self ..)
    obtain ⟨X, code, expands⟩ := alone.raise s.environment.temporaries
    rw [Nat.zero_add] at expands
    have environment : s.environment = ⟨some cpu, s.environment.temporaries⟩ := by rw [← known]
    have translated : (registry.translate s.environment n).1 = .ok code := by
      rw [environment]
      exact translate_eq_ok_iff.2 ⟨operation, X, expands⟩
    have kept := keeps_registry s.environment n
    rw [Session.translateAll, Session.translate]
    cases lifted : registry.translate s.environment n with
    | mk result e =>
      rw [lifted] at translated kept
      cases translated
      exact ih (fun n mem => each n (List.mem_cons_of_mem _ mem)) _ (kept.trans known)

/-- A block is lifted if its instructions are, one by one, and have different addresses. -/
theorem lift_isOk {block : List NativeInstruction}
    (each : ∀ n ∈ block, ∃ operation X code, Expands 0 n operation X code)
    (apart : (block.map (·.address)).Nodup) : ∃ p, lift block = .ok p := by
  obtain ⟨s, ran⟩ := translateAll_isOk each ⟨environment, []⟩ rfl
  have translated : (registry.translateBlock environment block).1 = .ok s.output := by
    rw [Registry.translateBlock, ran]
  obtain ⟨codes, output, lifted⟩ := Registry.translateBlock_eq_ok keeps_registry translated
  have consecutive : List.Forall₂ (fun n code => Consecutive n.address code) block codes := by
    refine lifted.imp fun n code found => ?_
    obtain ⟨count, h⟩ := found
    obtain ⟨operation, X, expands⟩ := translate_eq_ok_iff.1 h
    exact expands.consecutive expands.written
  obtain ⟨p, assembled⟩ := Program.ofList_isOk (nodup_of_consecutive consecutive apart)
  refine ⟨p, ?_⟩
  rw [lift, translated]
  dsimp only
  rw [output, assembled]
  rfl

end RegisterTransfer.PowerPC

import RegisterTransfer.Proofs.ForwardCode
import RegisterTransfer.Proofs.PowerPC.Footprints
import RegisterTransfer.Proofs.PowerPC.Temporaries

/-!
# Lifted instructions are forward code

Whatever the environment it is lifted in, an instruction of the PowerPC becomes forward code. The
only operations whose expansions jump to labels are divisions, and their scripts, like all others,
are orderly; the only ones that jump out are branches, and these do so last. It takes no look at the
offsets to which labels are bound, which depend on the flags that a division sets.

> `exists_expansion`: what is lifted is a finished expansion of an operation.
> `Operation.departsLast`: a jump out of the expansion of an operation comes last.
> `expansions_flow_forward`: lifted instructions are forward code, and runs are soon out of it.
-/

namespace RegisterTransfer.PowerPC

open Script

/-! ## Jumps out of expansions -/

/-- Where it only matters that control stays, any operand will do. -/
theorem common_any : Operand.Common fun _ => True := ⟨trivial, fun _ => trivial, fun _ _ => trivial⟩

/-- A script whose operands are confined does not leave its expansion. -/
theorem stays_of_confined {α : Type} {O : Operand → Prop} {Q : α → Prop} {s : Script α}
    (h : s.Each (·.Confined O) Q) : s.Each (¬ ·.Departs) Q :=
  h.mono Draft.Confined.stays id

theorem stays_copy (source destination : Operand) :
    (copy source destination).Each (¬ ·.Departs) fun _ => True :=
  stays_of_confined (confined_copy common_any trivial trivial)

theorem departsLast_leaveTo (condition destination : Operand) :
    (leaveTo condition destination).DepartsLast :=
  ⟨fun _ => ⟨(), rfl⟩, trivial⟩

namespace Operation

variable {operation : Operation}

/-- A branch saves its link, if any, before it leaves. -/
theorem departsLast_branch (link : Bool) (target : Nat) (mnemonic : String) (address : Nat) :
    ((branch link target).expand mnemonic address).DepartsLast := by
  cases link with
  | false => exact departsLast_leaveTo _ _
  | true => exact (stays_copy _ _).departsLast_bind fun _ => departsLast_leaveTo _ _

/-- A branch through a register leaves behind the saving of its link. -/
theorem departsLast_branchThrough (address : Nat) (register : BranchRegister) (link : Bool) :
    (expandBranchThrough address register link).DepartsLast := by
  cases link with
  | false => exact departsLast_leaveTo _ _
  | true =>
    intro k
    exact ⟨nofun, (stays_copy _ _).departsLast_bind fun _ => departsLast_leaveTo _ _⟩

theorem departsLast_branchIf (condition : Condition) (field : ConditionField) (target : Nat) :
    (expandBranchIf condition field target).DepartsLast :=
  (stays_of_confined (tame_flagNotIf (ordinary_condition field condition.test.1))).departsLast_bind
    fun _ => departsLast_leaveTo _ _

/-- A counted branch has written the counter when it leaves. -/
theorem departsLast_branchCounted (target : Nat) : (expandBranchCounted target).DepartsLast := by
  have counted : (binary .sub BranchRegister.count.operand (.integer 1 registerWidth)).Each
      (¬ ·.Departs) fun _ => True :=
    stays_of_confined (confined_binary common_any (by decide) trivial trivial)
  have tested : ∀ count, (isNonzero count).Each (¬ ·.Departs) fun _ => True := fun _ =>
    stays_of_confined (confined_isNonzero common_any trivial)
  exact counted.departsLast_bind fun {count} _ => (stays_copy _ _).departsLast_bind fun _ =>
    (tested count).departsLast_bind fun _ => departsLast_leaveTo _ _

/-- A jump out of the expansion of an operation comes last. -/
theorem departsLast (bitwise : operation.Bitwise) (mnemonic : String) (address : Nat) :
    (operation.expand mnemonic address).DepartsLast := by
  by_cases stays : operation.branches = false
  · have inside := (operation.footprint bitwise mnemonic address).mono
      (fun touched => touched.stays stays) id
    exact inside.departsLast
  · cases operation with
    | branch link target => exact departsLast_branch link target mnemonic address
    | branchThrough register link => exact departsLast_branchThrough address register link
    | branchIf condition field target => exact departsLast_branchIf condition field target
    | branchCounted target => exact departsLast_branchCounted target
    | _ => exact absurd rfl stays

end Operation

/-! ## What is lifted in any environment -/

variable {e : Environment} {n : NativeInstruction} {code : List Instruction}

/-- What is lifted is the finished expansion of the operation that the form of the mnemonic reads. -/
theorem exists_expansion (h : (registry.translate e n).1 = .ok code) :
    ∃ (form : Form) (operation : Operation) (X : Expansion), (n.mnemonic, form) ∈ forms ∧
      form.decode e.widthOf n = .ok operation ∧
      (operation.expand n.mnemonic n.address).run (.opened e n) = (.ok (), X) ∧
      X.finish = .ok code ∧ (registry.translate e n).2 = X.environment := by
  cases registered : registry.get? n.mnemonic with
  | none =>
    rw [Registry.translate, registered] at h
    cases h
  | some t =>
    obtain ⟨form, mem, rfl⟩ := get?_registry registered
    have translated : registry.translate e n =
        Expansion.collect ((form.script e.widthOf n).run (.opened e n)) := by
      rw [Registry.translate, registered]
      rfl
    rw [translated, Form.script] at h ⊢
    cases decoded : form.decode e.widthOf n with
    | error error =>
      rw [decoded] at h
      cases h
    | ok operation =>
      rw [decoded] at h
      dsimp only at h ⊢
      cases ran : (operation.expand n.mnemonic n.address).run (.opened e n) with
      | mk result X =>
        rw [ran] at h
        cases result with
        | error error => cases h
        | ok _ => exact ⟨form, operation, X, mem, decoded, ran, h, rfl⟩

theorem describes_opened (e : Environment) (n : NativeInstruction) :
    (opening e.temporaries).Describes 0 (.opened e n) (.opened e n) where
  count := rfl
  count' := rfl
  size := rfl
  size' := rfl
  native := rfl
  length := rfl
  labels := rfl
  targets := rfl
  unbound h := by simp [opening] at h
  old mem := by simp [opening] at mem

/-- Lifted instructions are forward code, and not nothing. -/
theorem forwardCode_of_translate (h : (registry.translate e n).1 = .ok code) :
    ForwardCode n.address code ∧ Consecutive n.address code := by
  obtain ⟨form, operation, X, mem, decoded, ran, fin, -⟩ := exists_expansion h
  have bitwise := Operation.bitwise_of_decode (bitwise_of_mem_forms _ mem) decoded
  have desc := describes_opened e n
  have closed : (opening e.temporaries).labels = [] := rfl
  have lockstep := Operation.lockstep (d := 0) bitwise closed n.mnemonic n.address
  have orderly := (lockstep.orderly desc).1
  have departs := Operation.departsLast bitwise n.mnemonic n.address
  have native : X.native = n.address := by
    have grows := orderly.grows
    rw [ran] at grows
    exact grows.native
  have written : 0 < X.size := by
    rcases lockstep.agree desc with ⟨error, gives, -⟩ | ⟨_, _, Γ, Y, Y', ran', -, written, desc', -⟩
    · rw [ran] at gives
      cases gives
    · rw [ran] at ran'
      cases ran'
      exact desc'.size ▸ written
  have going := lockstep.going desc (fun _ mem => by cases mem) ran
  rw [← native]
  exact ⟨.of_run rfl rfl orderly departs going ran fin,
    Expansion.consecutive_of_finish fin written⟩

/--
In whatever environment an instruction is lifted, every jump in its code that names an offset goes
to a later instruction of the code, and every other jump is the last one. So in every program that a
block is lifted to, and for every run, whatever its machine, its settings and its observer: once it
is at the start of an instruction of the block, it is out of the code of that instruction within as
many turns as the code has instructions, by an error, by falling off its end, or by a jump of its
last instruction to a native address.
-/
theorem expansions_flow_forward :
    (∀ {e : Environment} {n : NativeInstruction} {code : List Instruction},
      (registry.translate e n).1 = .ok code → ForwardCode n.address code) ∧
    ∀ {e : Environment} {block : List NativeInstruction} {out : List Instruction} {p : Program},
      (registry.translateBlock e block).1 = .ok out → Program.ofList out = .ok p →
        ∀ n ∈ block, ∃ count code, (registry.translate ⟨e.cpu, count⟩ n).1 = .ok code ∧
          Placed p n.address code ∧
          ∀ {σ : Type} (o : Observer σ) (r : Run σ),
            r.progress = .running (.ofNative n.address) →
              ∃ turns < code.length, r.Crosses o p n.address code turns := by
  refine ⟨fun lifted => (forwardCode_of_translate lifted).1, ?_⟩
  intro e block out p translated assembled n mem
  obtain ⟨codes, rfl, lifts⟩ := Registry.translateBlock_eq_ok keeps_registry translated
  have forward : ∀ {n code}, registry.Lifts e.cpu n code →
      ForwardCode n.address code ∧ Consecutive n.address code := by
    intro n code lifted
    obtain ⟨count, lifted⟩ := lifted
    exact forwardCode_of_translate lifted
  have consecutive : ∀ code ∈ codes, ∃ native, Consecutive native code := by
    intro code mem
    obtain ⟨n, -, lifted⟩ := exists_mem_of_forall₂ lifts.flip code mem
    exact ⟨n.address, (forward lifted).2⟩
  obtain ⟨code, mem, count, lifted⟩ := exists_mem_of_forall₂ lifts n mem
  obtain ⟨flows, here⟩ := forward ⟨count, lifted⟩
  have placed := here.placed assembled consecutive mem
  exact ⟨count, code, lifted, placed, fun o r start =>
    flows.crosses placed (grounded_of_flatten assembled consecutive) start⟩

/-- A division with a sign that sets all the flags it can set. -/
def recordedDivision : NativeInstruction :=
  ⟨0x100, "divwo.", [.sized .dword (.register "%r3"), .sized .dword (.register "%r4"),
    .sized .dword (.register "%r5")]⟩

/--
Its code jumps to where the quotient is undefined, and from before that to the `nop` at its end; a
run from its start is soon out of it.
-/
theorem recordedDivision_flows_forward :
    ∃ out p, (registry.translateBlock environment [recordedDivision]).1 = .ok out ∧
      Program.ofList out = .ok p ∧ ForwardCode 0x100 out ∧
      out[7]?.map (·.op3.kind) = some (.address ⟨0x100, 33⟩) ∧
      out[32]?.map (·.op3.kind) = some (.address ⟨0x100, 40⟩) ∧
      ∃ code, Placed p 0x100 code ∧ ∃ turns < code.length,
        (Run.begin .silent (.ofNative 0x100) (.start {} cpu) ()).Crosses .silent p 0x100 code turns := by
  have divides : Expands 0 recordedDivision (.divide true 3 4 5 true true) _ _ :=
    ⟨⟨.divide true true true, by
      simp [forms, productForms, overflowing, recording, recordedDivision], rfl⟩, rfl, rfl⟩
  have alone := congrArg Prod.fst divides.translate
  have translated := (registry.translateBlock_singleton environment recordedDivision).trans alone
  obtain ⟨p, assembled⟩ := Program.ofList_isOk (divides.consecutive divides.written).nodup
  obtain ⟨flows, crosses⟩ := expansions_flow_forward
  obtain ⟨count, code, -, placed, crossing⟩ :=
    crosses translated assembled recordedDivision (List.mem_cons_self ..)
  exact ⟨_, p, translated, assembled, flows alone, rfl, rfl, code, placed, crossing .silent _ rfl⟩

end RegisterTransfer.PowerPC

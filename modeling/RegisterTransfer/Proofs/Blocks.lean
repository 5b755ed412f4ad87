import Mathlib.Data.List.Forall2
import Mathlib.Data.List.Nodup
import Mathlib.Data.List.Pairwise
import RegisterTransfer.Lifting.Registry
import RegisterTransfer.Proofs.Placement

/-!
# Lifted blocks

The output of a block is the codes of its instructions one after the other. Once it is assembled,
which takes different addresses throughout, each code sits in the program where its native
instruction is, and there is nothing else.

> `Session.translateAll_eq_ok`: the output of a block is made of the codes of its instructions.
> `Consecutive.placed`: in the assembled program every code is placed.
-/

namespace RegisterTransfer

/-! ## Sequences that succeed -/

/-- A sequence succeeds if its first part does, and the rest does on its result. -/
theorem Except.bind_eq_ok {ε α β : Type} {x : Except ε α} {f : α → Except ε β} {b : β} :
    x >>= f = .ok b ↔ ∃ a, x = .ok a ∧ f a = .ok b := by
  cases x with
  | error e => simp [bind, Except.bind]
  | ok a => simp [bind, Except.bind]

/-- A mapped result comes from a result. -/
theorem Except.map_eq_ok {ε α β : Type} {x : Except ε α} {f : α → β} {b : β} :
    f <$> x = .ok b ↔ ∃ a, x = .ok a ∧ f a = b := by
  cases x with
  | error => constructor <;> nofun
  | ok a => simp [Functor.map, Except.map]

/-- Every element of the first list has its counterpart in the second. -/
theorem exists_mem_of_forall₂ {α β : Type} {R : α → β → Prop} {l : List α} {l' : List β}
    (h : List.Forall₂ R l l') : ∀ a ∈ l, ∃ b ∈ l', R a b := by
  induction h with
  | nil => simp
  | cons related _ ih =>
    intro a mem
    rcases List.mem_cons.1 mem with rfl | mem
    · exact ⟨_, List.mem_cons_self .., related⟩
    · obtain ⟨b, mem, related⟩ := ih a mem
      exact ⟨b, List.mem_cons_of_mem _ mem, related⟩

/-! ## The output of a block -/

namespace Registry

/-- The code of a native instruction when some number of temporaries is already taken. -/
def Lifts (r : Registry) (cpu : Option Cpu) (n : NativeInstruction) (code : List Instruction) :
    Prop :=
  ∃ count, (r.translate ⟨cpu, count⟩ n).1 = .ok code

/-- Translating changes nothing in an environment but the number of temporaries. -/
def Keeps (r : Registry) : Prop := ∀ e n, (r.translate e n).2.cpu = e.cpu

end Registry

/-- The output of a block is made of the codes of its instructions. -/
theorem Session.translateAll_eq_ok {r : Registry} (keeps : r.Keeps) {block : List NativeInstruction}
    {s s' : Session} (h : s.translateAll r block = (.ok (), s')) :
    ∃ codes : List (List Instruction), s'.output = s.output ++ codes.flatten ∧
      List.Forall₂ (r.Lifts s.environment.cpu) block codes := by
  induction block generalizing s with
  | nil =>
    cases h
    exact ⟨[], by simp, .nil⟩
  | cons n rest ih =>
    have kept := keeps s.environment n
    rw [translateAll, translate] at h
    cases lifted : r.translate s.environment n with
    | mk result e =>
      rw [lifted] at h kept
      cases result with
      | error error => cases h
      | ok code =>
        obtain ⟨codes, output, all⟩ := ih h
        refine ⟨code :: codes, by simp [output], .cons ⟨s.environment.temporaries, ?_⟩ ?_⟩
        · exact congrArg Prod.fst lifted
        · rw [← show e.cpu = s.environment.cpu from kept]
          exact all

/-- An environment goes through a block with its number of temporaries only. -/
theorem Registry.translateBlock_eq_ok {r : Registry} (keeps : r.Keeps) {e : Environment}
    {block : List NativeInstruction} {code : List Instruction}
    (h : (r.translateBlock e block).1 = .ok code) :
    ∃ codes : List (List Instruction), code = codes.flatten ∧
      List.Forall₂ (r.Lifts e.cpu) block codes := by
  unfold translateBlock at h
  cases ran : Session.translateAll ⟨e, []⟩ r block with
  | mk result s =>
    rw [ran] at h
    cases result with
    | error error => cases h
    | ok _ =>
      cases h
      obtain ⟨codes, output, all⟩ := Session.translateAll_eq_ok keeps ran
      exact ⟨codes, by simpa using output, all⟩

/-- A block of one instruction is that instruction. -/
theorem Registry.translateBlock_singleton (r : Registry) (e : Environment)
    (n : NativeInstruction) : (r.translateBlock e [n]).1 = (r.translate e n).1 := by
  rw [translateBlock, Session.translateAll, Session.translate]
  cases r.translate e n with
  | mk result e' => cases result <;> rfl

/-! ## Codes in the assembled program -/

/-- Code at consecutive offsets of a native address, from zero on. -/
structure Consecutive (native : Nat) (code : List Instruction) : Prop where
  nonempty : code ≠ []
  address : ∀ {k : Nat} {i : Instruction}, code[k]? = some i → i.address = ⟨native, k⟩

namespace Consecutive

variable {native : Nat} {code : List Instruction} {codes : List (List Instruction)} {p : Program}

/-- The first instruction is at offset zero. -/
theorem head (h : Consecutive native code) : ∃ i ∈ code, i.address = .ofNative native := by
  cases code with
  | nil => exact absurd rfl h.nonempty
  | cons i rest => exact ⟨i, List.mem_cons_self .., h.address (k := 0) rfl⟩

/-- All instructions of the code of one native instruction share its address. -/
theorem mem_address (h : Consecutive native code) {i : Instruction} (mem : i ∈ code) :
    i.address.native = native := by
  obtain ⟨k, hk⟩ := List.getElem?_of_mem mem
  rw [h.address hk]

/-- Its addresses are different. -/
theorem nodup (h : Consecutive native code) : (code.map (·.address)).Nodup := by
  rw [List.nodup_iff_injective_get]
  intro i j same
  have hi : i.1 < code.length := by simpa using i.2
  have hj : j.1 < code.length := by simpa using j.2
  have left := h.address (List.getElem?_eq_getElem hi)
  have right := h.address (List.getElem?_eq_getElem hj)
  simp only [List.get_eq_getElem, List.getElem_map, left, right] at same
  injection same with _ same
  exact Fin.ext same

/-- Two codes of one assembled program that begin at the same place are one. -/
theorem eq_of_native {other : List Instruction} (assembled : Program.ofList codes.flatten = .ok p)
    (h : Consecutive native code) (h' : Consecutive native other) (mem : code ∈ codes)
    (mem' : other ∈ codes) : code = other := by
  by_cases same : code = other
  · exact same
  exfalso
  obtain ⟨apart, -⟩ := Program.ofList_eq_ok assembled
  rw [List.map_flatten, List.nodup_flatten] at apart
  have disjoint := List.pairwise_map.1 apart.2
  have symm : Std.Symm fun a b : List Instruction =>
      List.Disjoint (a.map (·.address)) (b.map (·.address)) :=
    ⟨fun _ _ h => List.disjoint_symm h⟩
  have clash := disjoint.forall mem mem' same
  obtain ⟨i, hi, at_i⟩ := h.head
  obtain ⟨j, hj, at_j⟩ := h'.head
  refine clash (List.mem_map.2 ⟨i, hi, at_i⟩) (List.mem_map.2 ⟨j, hj, at_j⟩)

/-- In the assembled program every code is placed. -/
theorem placed (h : Consecutive native code) (assembled : Program.ofList codes.flatten = .ok p)
    (all : ∀ code ∈ codes, ∃ native, Consecutive native code) (mem : code ∈ codes) :
    Placed p native code := by
  obtain ⟨-, found⟩ := Program.ofList_eq_ok assembled
  refine ⟨h.nonempty, fun k => ?_⟩
  cases at_k : code[k]? with
  | some i =>
    exact (found _ _).2 ⟨List.mem_flatten.2 ⟨code, mem, List.mem_of_getElem? at_k⟩, h.address at_k⟩
  | none =>
    cases got : p.get? ⟨native, k⟩ with
    | none => rfl
    | some j =>
      -- whatever else is there would belong to another code at the same place
      obtain ⟨inside, address⟩ := (found _ _).1 got
      obtain ⟨other, mem', hj⟩ := List.mem_flatten.1 inside
      obtain ⟨native', h'⟩ := all other mem'
      have same : native' = native := by rw [← h'.mem_address hj, address]
      subst same
      have one := eq_of_native assembled h h' mem mem'
      subst one
      obtain ⟨l, hl⟩ := List.getElem?_of_mem hj
      have : (⟨native', l⟩ : Address) = ⟨native', k⟩ := by rw [← h.address hl, address]
      cases this
      rw [at_k] at hl
      cases hl

end Consecutive

section Assembled

variable {codes : List (List Instruction)} {p : Program}

/-- Whatever is in an assembled program belongs to one of the codes. -/
theorem contains_of_flatten (assembled : Program.ofList codes.flatten = .ok p)
    (all : ∀ code ∈ codes, ∃ native, Consecutive native code) {a : Address} (h : p.contains a) :
    ∃ code ∈ codes, Consecutive a.native code := by
  obtain ⟨-, found⟩ := Program.ofList_eq_ok assembled
  obtain ⟨i, got⟩ := SortedMap.contains_iff.1 h
  obtain ⟨inside, address⟩ := (found _ _).1 got
  obtain ⟨code, mem, hi⟩ := List.mem_flatten.1 inside
  obtain ⟨native, consecutive⟩ := all code mem
  refine ⟨code, mem, ?_⟩
  rwa [← address, consecutive.mem_address hi]

/-- Where anything of a code is, its beginning is. -/
theorem grounded_of_flatten (assembled : Program.ofList codes.flatten = .ok p)
    (all : ∀ code ∈ codes, ∃ native, Consecutive native code) : p.Grounded := by
  intro a h
  obtain ⟨code, mem, consecutive⟩ := contains_of_flatten assembled all h
  exact (consecutive.placed assembled all mem).contains_iff.2
    (List.length_pos_iff.2 consecutive.nonempty)

end Assembled

section Places

variable {α : Type} {native : α → Nat} {places : List α} {codes : List (List Instruction)}

/-- Codes at different places have different addresses throughout. -/
theorem nodup_of_consecutive
    (each : List.Forall₂ (fun n code => Consecutive (native n) code) places codes)
    (apart : (places.map native).Nodup) : (codes.flatten.map (·.address)).Nodup := by
  induction each with
  | nil => exact .nil
  | @cons n code places codes first rest ih =>
    obtain ⟨fresh, apart⟩ := List.nodup_cons.1 apart
    rw [List.flatten_cons, List.map_append]
    refine List.Nodup.append first.nodup (ih apart) fun a left right => fresh ?_
    obtain ⟨i, hi, rfl⟩ := List.mem_map.1 left
    obtain ⟨j, hj, same⟩ := List.mem_map.1 right
    obtain ⟨other, mem, inside⟩ := List.mem_flatten.1 hj
    obtain ⟨n', mem', consecutive⟩ := exists_mem_of_forall₂ rest.flip other mem
    have address : native n' = native n := by
      have same : j.address = i.address := same
      rw [← Consecutive.mem_address consecutive inside, same, first.mem_address hi]
    exact List.mem_map.2 ⟨n', mem', address⟩

/-- Codes are not assembled if one comes to the place of an earlier one: its first instruction is
to blame. -/
theorem ofList_of_repeated {n : α} {code : List Instruction}
    (each : List.Forall₂ (fun n code => Consecutive (native n) code) places codes)
    (apart : (places.map native).Nodup) (taken : native n ∈ places.map native)
    (here : Consecutive (native n) code) (after : List Instruction) :
    Program.ofList (codes.flatten ++ (code ++ after)) =
      .error (.duplicateAddress (.ofNative (native n))) := by
  obtain ⟨m, mem, same⟩ := List.mem_map.1 taken
  obtain ⟨other, mem', there⟩ := exists_mem_of_forall₂ each m mem
  obtain ⟨j, inside, at_j⟩ := there.head
  cases code with
  | nil => exact absurd rfl here.nonempty
  | cons i rest =>
    have at_i : i.address = .ofNative (native n) := here.address (k := 0) rfl
    have occupied : i.address ∈ codes.flatten.map (·.address) :=
      List.mem_map.2 ⟨j, List.mem_flatten.2 ⟨other, mem', inside⟩, by rw [at_j, at_i, same]⟩
    rw [List.cons_append, Program.ofList_eq_error (nodup_of_consecutive each apart) occupied, at_i]

end Places

/-! ## Codes of expansions -/

namespace Expansion

variable {x X : Expansion} {code : List Instruction}

/-- A draft is laid out at its own offset from the native address. -/
theorem address_of_place {offset : Nat} {draft : Draft} {i : Instruction}
    (h : X.place offset draft = .ok i) : i.address = ⟨X.native, offset⟩ := by
  cases draft with
  | plain opcode op1 op2 op3 =>
    cases h
    rfl
  | jump condition label =>
    obtain ⟨t, -, rfl⟩ := place_jump_eq_ok h
    rfl

/-- A finished expansion, if anything was written, is code at consecutive offsets. -/
theorem consecutive_of_finish (h : X.finish = .ok code) (written : 0 < X.size) :
    Consecutive X.native code := by
  obtain ⟨length, each⟩ := finish_eq_ok h
  have long : X.size ≤ X.completed.length := by
    rw [length_completed]
    split <;> omega
  constructor
  · intro empty
    rw [empty, List.length_nil] at length
    omega
  · intro k i at_k
    have inside : k < X.completed.length := length ▸ (List.getElem?_eq_some_iff.1 at_k).1
    obtain ⟨j, comment, laid, at_k'⟩ := each (List.getElem?_eq_getElem inside)
    rw [at_k] at at_k'
    cases at_k'
    have address : j.address = ⟨X.native, k⟩ := address_of_place laid
    exact address

end Expansion

end RegisterTransfer

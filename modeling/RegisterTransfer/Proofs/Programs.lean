import RegisterTransfer.Proofs.ForwardPrograms

/-!
# Programs and their order

A program has three views: what is found at an address, its instructions in address order, and the
chain of next addresses that control falls along. All three are of the instructions that were
accepted when the program was put together, one by one (`Program.offer`) or from a list; in which
order they came does not matter, as long as none comes to an address that is taken.

> `Program.toList_offers`: the instructions of a program are those that were accepted.
> `Program.get?_offers`: of the instructions for one address that is the first.
> `Program.ofList_eq_ok_iff`: when a list makes a program, and which.
> `Program.iterate_next?`: the chain of next addresses is the list of instructions.
> `programs_keep_the_accepted`: the views together.
-/

namespace RegisterTransfer

/-- Either a function tells the elements of a list apart, or there is a first that it does not. -/
theorem nodup_or_first {α β : Type} (f : α → β) (l : List α) :
    (l.map f).Nodup ∨
      ∃ before a after, l = before ++ a :: after ∧ (before.map f).Nodup ∧
        f a ∈ before.map f := by
  induction l using List.reverseRecOn with
  | nil => exact .inl .nil
  | append_singleton l a ih =>
    rcases ih with apart | ⟨before, b, after, rfl, apart, taken⟩
    · by_cases taken : f a ∈ l.map f
      · exact .inr ⟨l, a, [], rfl, apart, taken⟩
      · left
        rw [List.map_append, List.map_singleton]
        exact List.Nodup.append apart (List.nodup_singleton _)
          (List.disjoint_singleton.2 taken)
    · exact .inr ⟨before, b, after ++ [a], by simp, apart, taken⟩

namespace Program

variable {p q : Program} {a b : Address} {i : Instruction} {l l' : List Instruction}

/-- Programs are the same if the same instructions are found in them. -/
theorem ext_get? (same : ∀ a, p.get? a = q.get? a) : p = q := by
  have code : p.code = q.code := SortedMap.ext_get? same
  cases p
  cases q
  cases code
  rfl

/-! ## Insertions one after the other -/

/-- The program after an insertion, which may be refused. -/
def offer (p : Program) (i : Instruction) : Program :=
  match p.insert i with
  | .ok q => q
  | .error _ => p

/-- Those of some instructions, offered one after the other, that are not refused. -/
def accepted (p : Program) : List Instruction → List Instruction
  | [] => []
  | i :: rest =>
    match p.insert i with
    | .ok q => i :: q.accepted rest
    | .error _ => p.accepted rest

theorem offer_eq_self {e : AssemblyError Address} (refused : p.insert i = .error e) :
    p.offer i = p := by
  rw [offer, refused]

/-- An instruction is accepted only where there is none. -/
theorem get?_eq_none_of_insert (inserted : p.insert i = .ok q) : p.get? i.address = none := by
  refine get?_eq_none_iff.2 fun taken => ?_
  rw [insert_eq_error_iff.2 ⟨taken, rfl⟩] at inserted
  cases inserted

/-- Only at a free address does an insertion change anything. -/
theorem get?_offer (p : Program) (i : Instruction) (a : Address) :
    (p.offer i).get? a = (p.get? a).or (if i.address = a then some i else none) := by
  cases inserted : p.insert i with
  | error e =>
    rw [offer_eq_self inserted]
    obtain ⟨taken, -⟩ := insert_eq_error_iff.1 inserted
    by_cases here : i.address = a
    · obtain ⟨j, there⟩ := SortedMap.contains_iff.1 taken
      have found : p.get? a = some j := here ▸ there
      rw [found]
      rfl
    · rw [if_neg here, Option.or_none]
  | ok q =>
    have free := get?_eq_none_of_insert inserted
    have changed := get?_of_insert_eq_ok inserted a
    rw [offer, inserted]
    show q.get? a = _
    rw [changed]
    by_cases here : i.address = a
    · subst here
      rw [if_pos rfl, if_pos rfl, free]
      rfl
    · rw [if_neg (Ne.symm here), if_neg here, Option.or_none]

/-- After any insertions the first instruction for an address is found there. -/
theorem get?_offers (p : Program) (l : List Instruction) (a : Address) :
    (l.foldl offer p).get? a = (p.get? a).or (l.find? fun i => i.address = a) := by
  induction l generalizing p with
  | nil => rw [List.foldl_nil, List.find?_nil, Option.or_none]
  | cons i rest ih =>
    rw [List.foldl_cons, ih, get?_offer, Option.or_assoc, List.find?_cons]
    by_cases here : i.address = a <;> simp [here]

/-- What is accepted is added to the instructions there are. -/
theorem toList_of_insert_eq_ok (inserted : p.insert i = .ok q) : q.toList.Perm (i :: p.toList) := by
  have changed := get?_of_insert_eq_ok inserted
  have free := get?_eq_none_of_insert inserted
  have fresh : i ∉ p.toList := by
    intro mem
    rw [mem_toList_iff, free] at mem
    cases mem
  refine (List.perm_ext_iff_of_nodup q.toList_increasing.nodup
    (List.nodup_cons.2 ⟨fresh, p.toList_increasing.nodup⟩)).2 fun j => ?_
  rw [mem_toList_iff, changed, List.mem_cons, mem_toList_iff]
  by_cases here : j.address = i.address
  · rw [if_pos here, here, free]
    simp [eq_comm]
  · have other : j ≠ i := fun same => here (same ▸ rfl)
    rw [if_neg here]
    simp [other]

/-- The instructions of a program are those that were accepted. -/
theorem toList_offers (p : Program) (l : List Instruction) :
    (l.foldl offer p).toList.Perm (p.accepted l ++ p.toList) := by
  induction l generalizing p with
  | nil => exact .refl _
  | cons i rest ih =>
    rw [List.foldl_cons, accepted, offer]
    cases inserted : p.insert i with
    | error e => exact ih p
    | ok q =>
      have more : (q.accepted rest ++ q.toList).Perm (q.accepted rest ++ i :: p.toList) :=
        (toList_of_insert_eq_ok inserted).append_left _
      exact (ih q).trans (more.trans List.perm_middle)

/-! ## Lists -/

/-- A program that was made of a list is what offering its instructions leads to. -/
theorem eq_offers_of_foldlM (made : l.foldlM insert p = .ok q) : q = l.foldl offer p := by
  induction l generalizing p with
  | nil =>
    cases made
    rfl
  | cons i rest ih =>
    rw [List.foldlM_cons] at made
    cases inserted : p.insert i with
    | error e =>
      rw [inserted] at made
      cases made
    | ok r =>
      rw [inserted] at made
      rw [List.foldl_cons, offer, inserted]
      exact ih made

/-- A list makes a program if its addresses differ, the one that insertion one by one makes. -/
theorem ofList_eq_ok_iff :
    ofList l = .ok p ↔ (l.map (·.address)).Nodup ∧ p = l.foldl offer ∅ := by
  constructor
  · intro made
    exact ⟨(ofList_eq_ok made).1, eq_offers_of_foldlM made⟩
  · rintro ⟨apart, rfl⟩
    obtain ⟨q, made⟩ := ofList_isOk apart
    rw [made, eq_offers_of_foldlM made]

/-- In whatever order instructions come, the program is the same. -/
theorem ofList_eq_ok_of_perm (perm : l.Perm l') (made : ofList l = .ok p) : ofList l' = .ok p := by
  obtain ⟨apart, found⟩ := ofList_eq_ok made
  obtain ⟨q, made'⟩ := ofList_isOk ((perm.map (·.address)).nodup apart)
  obtain ⟨-, found'⟩ := ofList_eq_ok made'
  have same : q = p := by
    refine ext_get? fun a => Option.ext fun i => ?_
    rw [found', found, perm.mem_iff]
  rw [made', same]

/-- If a list makes no program, the first instruction at the address of an earlier one is to
blame. -/
theorem ofList_eq_error_iff {e : AssemblyError Address} :
    ofList l = .error e ↔
      ∃ before i after, l = before ++ i :: after ∧ (before.map (·.address)).Nodup ∧
        i.address ∈ before.map (·.address) ∧ e = .duplicateAddress i.address := by
  constructor
  · intro failed
    rcases nodup_or_first Instruction.address l with apart | ⟨before, i, after, rfl, apart, taken⟩
    · rw [ofList_eq_ok_iff.2 ⟨apart, rfl⟩] at failed
      cases failed
    · rw [ofList_eq_error apart taken] at failed
      cases failed
      exact ⟨before, i, after, rfl, apart, taken, rfl⟩
  · rintro ⟨before, i, after, rfl, apart, taken, rfl⟩
    exact ofList_eq_error apart taken

/-! ## The chain of next addresses -/

/-- One instruction stands before another in the program if it does in the list. -/
theorem before_getElem_iff {k n : Nat} (hk : k < p.toList.length) (hn : n < p.toList.length) :
    p.toList[k].Before p.toList[n] ↔ k < n := by
  have increasing := List.pairwise_iff_getElem.1 p.toList_increasing
  constructor
  · intro before
    by_contra notAfter
    rcases Nat.lt_or_eq_of_le (Nat.le_of_not_lt notAfter) with after | same
    · exact Instruction.Before.irrefl _ (Trans.trans before (increasing n k hn hk after))
    · subst same
      exact Instruction.Before.irrefl _ before
  · exact increasing k n hk hn

/-- The addresses of a program are those of the instructions it lists. -/
theorem contains_iff_getElem :
    p.contains a ↔ ∃ k, ∃ hk : k < p.toList.length, p.toList[k].address = a := by
  constructor
  · intro there
    obtain ⟨i, found⟩ := SortedMap.contains_iff.1 there
    have here : i.address = a := p.keyed found
    obtain ⟨k, hk, at_k⟩ := List.getElem_of_mem (mem_toList_iff.2 (here.symm ▸ found))
    exact ⟨k, hk, at_k ▸ here⟩
  · rintro ⟨k, hk, rfl⟩
    exact SortedMap.contains_iff.2 ⟨_, mem_toList_iff.1 (List.getElem_mem hk)⟩

/-- Behind an instruction comes the next one of the list. -/
theorem next?_getElem {k : Nat} (hk : k < p.toList.length) :
    p.next? p.toList[k].address = p.toList[k + 1]?.map (·.address) := by
  by_cases more : k + 1 < p.toList.length
  · -- nothing of the list stands between two neighbours
    rw [List.getElem?_eq_getElem more]
    refine next?_eq_some_iff.2 ⟨contains_iff_getElem.2 ⟨k + 1, more, rfl⟩,
      (before_getElem_iff hk more).2 (Nat.lt_succ_self k), fun there above => ?_⟩
    obtain ⟨n, hn, rfl⟩ := contains_iff_getElem.1 there
    have later : k < n := (before_getElem_iff hk hn).1 above
    rcases Nat.eq_or_lt_of_le later with same | beyond
    · subst same
      exact .inl rfl
    · exact .inr ((before_getElem_iff more hn).2 beyond)
  · rw [List.getElem?_eq_none (Nat.le_of_not_lt more)]
    refine next?_eq_none_iff.2 fun b there above => ?_
    obtain ⟨n, hn, rfl⟩ := contains_iff_getElem.1 there
    have later : k < n := (before_getElem_iff hk hn).1 above
    omega

/-- The first address is that of the first instruction listed. -/
theorem first?_eq (p : Program) : p.first? = p.toList[0]?.map (·.address) := by
  rw [first?, SortedMap.first?, SortedMap.keys, toList, SortedMap.values, List.head?_eq_getElem?,
    List.getElem?_map, List.getElem?_map]
  cases first : p.code.toList[0]? with
  | none => rfl
  | some e =>
    obtain ⟨a, i⟩ := e
    have found := SortedMap.mem_toList_iff.1 (List.mem_of_getElem? first)
    exact congrArg some (p.keyed found).symm

/-- Following next addresses from the first one on lists the instructions, and then there is none. -/
theorem iterate_next? (p : Program) (k : Nat) :
    (fun a => a.bind p.next?)^[k] p.first? = p.toList[k]?.map (·.address) := by
  induction k with
  | zero => exact p.first?_eq
  | succ k ih =>
    rw [Function.iterate_succ_apply', ih]
    by_cases hk : k < p.toList.length
    · rw [List.getElem?_eq_getElem hk]
      exact next?_getElem hk
    · rw [List.getElem?_eq_none (by omega), List.getElem?_eq_none (by omega)]
      rfl

end Program

/--
Whatever instructions are offered to a program one by one, it holds those that were accepted, which
is the first for each address. The next one is refused exactly if its address is taken; it is named,
and the program stays. The same instructions as a list make that program, in any order, or if an
address comes again, the first that does is named. Following next addresses from the first address
lists the addresses of the program in increasing order, as its list of instructions does, and the
next address of any address at all is the least of the program above it.
-/
theorem programs_keep_the_accepted (calls : List Instruction) :
    let p := calls.foldl Program.offer ∅
    p.toList.Perm (Program.accepted ∅ calls) ∧
      (∀ a, p.get? a = calls.find? fun i => i.address = a) ∧
      (∀ i, (∀ e, p.insert i = .error e ↔ p.contains i.address ∧ e = .duplicateAddress i.address) ∧
        (p.contains i.address → p.offer i = p) ∧
        ∀ q, p.insert i = .ok q → p.offer i = q ∧ q.toList.Perm (i :: p.toList)) ∧
      (∀ q, Program.ofList calls = .ok q ↔ (calls.map (·.address)).Nodup ∧ q = p) ∧
      (∀ calls' q, calls.Perm calls' → Program.ofList calls = .ok q →
        Program.ofList calls' = .ok q) ∧
      (∀ e, Program.ofList calls = .error e ↔
        ∃ before i after, calls = before ++ i :: after ∧ (before.map (·.address)).Nodup ∧
          i.address ∈ before.map (·.address) ∧ e = .duplicateAddress i.address) ∧
      (∀ k, (fun a => a.bind p.next?)^[k] p.first? = p.toList[k]?.map (·.address)) ∧
      (p.toList.map (·.address)).Pairwise
        (fun a b => a.native < b.native ∨ a.native = b.native ∧ a.offset < b.offset) ∧
      (∀ a, a ∈ p.toList.map (·.address) ↔ p.contains a) ∧
      ∀ a, (∀ b, p.next? a = some b ↔ p.Above a b) ∧ (p.next? a = none ↔ p.Last a) := by
  intro p
  refine ⟨?_, fun a => ?_, fun i => ⟨fun e => Program.insert_eq_error_iff, ?_, ?_⟩,
    fun q => Program.ofList_eq_ok_iff, fun calls' q => Program.ofList_eq_ok_of_perm,
    fun e => Program.ofList_eq_error_iff, p.iterate_next?, ?_, fun a => ?_,
    fun a => ⟨fun b => Program.next?_eq_some_iff, Program.next?_eq_none_iff⟩⟩
  · have all := Program.toList_offers ∅ calls
    rwa [show (∅ : Program).toList = [] from rfl, List.append_nil] at all
  · exact (Program.get?_offers ∅ calls a).trans Option.none_or
  · intro taken
    exact Program.offer_eq_self (Program.insert_eq_error_iff.2 ⟨taken, rfl⟩)
  · intro q inserted
    rw [Program.offer, inserted]
    exact ⟨rfl, Program.toList_of_insert_eq_ok inserted⟩
  · refine List.pairwise_map.2 (p.toList_increasing.imp fun before => ?_)
    exact Address.compare_eq_lt_iff.1 before
  · rw [Program.contains_iff_getElem, List.mem_map]
    constructor
    · rintro ⟨i, mem, rfl⟩
      obtain ⟨k, hk, at_k⟩ := List.getElem_of_mem mem
      exact ⟨k, hk, at_k ▸ rfl⟩
    · rintro ⟨k, hk, rfl⟩
      exact ⟨_, List.getElem_mem hk, rfl⟩

end RegisterTransfer

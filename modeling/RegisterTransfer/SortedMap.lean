/-!
# Finite maps in key order

A `SortedMap κ υ` is a list of entries whose keys strictly increase. Programs, register files,
memories and catalogs are all such maps: a later answer lists them in key order, and a program's
fallthrough edge is the least key above a given one.

The view of a map is its look-up function `get?`. The main statements say what each operation does
to that view, and that nothing else matters:

> `get?_insert`: an insertion changes the answer at its own key only.
> `ext_get?`: two maps with equal look-ups are equal.
> `next?_eq_some_iff`: `next? k` is the least key above `k`.
-/

namespace RegisterTransfer

universe u v

/-- A finite map, kept as a list of entries with strictly increasing keys. -/
structure SortedMap (κ : Type u) (υ : Type v) [Ord κ] where
  /-- The entries in key order. -/
  toList : List (κ × υ)
  increasing : toList.Pairwise fun a b => compare a.1 b.1 = .lt

namespace SortedMap

variable {κ : Type u} {υ : Type v} [Ord κ]

private theorem not_lt_self [Std.TransOrd κ] {k : κ} (h : compare k k = .lt) : False := by
  rw [show compare k k = .eq from Std.ReflCmp.compare_self] at h
  cases h

/-! ## Operations on entry lists -/

/-- The value stored under `k` in a list of entries. -/
def lookup (k : κ) : List (κ × υ) → Option υ
  | [] => none
  | (k', v) :: rest => if compare k k' = .eq then some v else lookup k rest

/-- Places `(k, v)` among entries in key order, replacing an entry with the same key. -/
def place (k : κ) (v : υ) : List (κ × υ) → List (κ × υ)
  | [] => [(k, v)]
  | (k', v') :: rest =>
    match compare k k' with
    | .lt => (k, v) :: (k', v') :: rest
    | .eq => (k, v) :: rest
    | .gt => (k', v') :: place k v rest

/-- An entry of a list into which one was placed is that one or was there before. -/
theorem mem_place {k : κ} {v : υ} {e : κ × υ} {l : List (κ × υ)} (h : e ∈ place k v l) :
    e = (k, v) ∨ e ∈ l := by
  induction l with
  | nil => exact .inl (by simpa [place] using h)
  | cons hd tl ih =>
    rw [place] at h
    split at h
    · exact (List.mem_cons.1 h).imp id id
    · exact (List.mem_cons.1 h).imp id (List.mem_cons_of_mem _)
    · rcases List.mem_cons.1 h with h | h
      · exact .inr (h ▸ List.mem_cons_self)
      · exact (ih h).imp id (List.mem_cons_of_mem _)

/-- Placing an entry leaves the keys in increasing order. -/
theorem place_increasing [Std.TransOrd κ] (k : κ) (v : υ) {l : List (κ × υ)}
    (h : l.Pairwise fun a b => compare a.1 b.1 = .lt) :
    (place k v l).Pairwise fun a b => compare a.1 b.1 = .lt := by
  induction l with
  | nil => simp [place]
  | cons hd tl ih =>
    obtain ⟨k', v'⟩ := hd
    have hd_lt := (List.pairwise_cons.1 h).1
    rw [place]
    split
    · next hc =>
      refine h.cons fun e he => ?_
      rcases List.mem_cons.1 he with rfl | he
      · exact hc
      · exact Std.TransCmp.lt_trans hc (hd_lt e he)
    · next hc =>
      refine h.of_cons.cons fun e he => ?_
      exact (Std.TransCmp.congr_left hc).trans (hd_lt e he)
    · next hc =>
      refine (ih h.of_cons).cons fun e he => ?_
      rcases mem_place he with rfl | he
      · exact Std.OrientedCmp.gt_iff_lt.1 hc
      · exact hd_lt e he

/--
A look-up behind a placement finds the value placed under its key, and else what it found before.
-/
theorem lookup_place [Std.TransOrd κ] (k q : κ) (v : υ) (l : List (κ × υ)) :
    lookup q (place k v l) = if compare q k = .eq then some v else lookup q l := by
  induction l with
  | nil => simp [place, lookup]
  | cons hd tl ih =>
    obtain ⟨k', v'⟩ := hd
    rw [place]
    split
    · simp [lookup]
    · next hc => simp only [lookup, ← Std.TransCmp.congr_right hc]; split <;> rfl
    · next hc =>
      simp only [lookup, ih]
      split
      · next hq =>
        rw [if_neg]
        rw [Std.TransCmp.congr_left hq]
        have : compare k' k = .lt := Std.OrientedCmp.gt_iff_lt.1 hc
        simp [this]
      · rfl

/-- Nothing is found under a key that is below all the others. -/
theorem lookup_eq_none_of_lt [Std.TransOrd κ] {k : κ} {l : List (κ × υ)}
    (h : ∀ e ∈ l, compare k e.1 = .lt) : lookup k l = none := by
  induction l with
  | nil => rfl
  | cons hd tl ih =>
    have hlt := h hd List.mem_cons_self
    rw [lookup, if_neg (by simp [hlt]), ih fun e he => h e (List.mem_cons_of_mem _ he)]

/-! ## Operations on maps -/

/-- The map without entries. -/
def empty : SortedMap κ υ := ⟨[], .nil⟩

instance : EmptyCollection (SortedMap κ υ) := ⟨empty⟩

instance : Inhabited (SortedMap κ υ) := ⟨empty⟩

instance [DecidableEq κ] [DecidableEq υ] : DecidableEq (SortedMap κ υ) := fun a b =>
  if h : a.toList = b.toList then
    .isTrue (by cases a; cases b; cases h; rfl)
  else
    .isFalse fun e => h (e ▸ rfl)

/-- The value stored under `k`. -/
def get? (m : SortedMap κ υ) (k : κ) : Option υ := lookup k m.toList

/-- Whether something is stored under `k`. -/
def contains (m : SortedMap κ υ) (k : κ) : Bool := (m.get? k).isSome

/-- Stores `v` under `k`, replacing what was there. -/
def insert [Std.TransOrd κ] (m : SortedMap κ υ) (k : κ) (v : υ) : SortedMap κ υ :=
  ⟨place k v m.toList, place_increasing k v m.increasing⟩

/-- Stores the entries of a list one after the other, so a later entry replaces an earlier one. -/
def ofList [Std.TransOrd κ] (entries : List (κ × υ)) : SortedMap κ υ :=
  entries.foldl (fun m e => m.insert e.1 e.2) ∅

/-- The number of entries. -/
def size (m : SortedMap κ υ) : Nat := m.toList.length

/-- Whether nothing is stored. -/
def isEmpty (m : SortedMap κ υ) : Bool := m.toList.isEmpty

/-- The keys, least first. -/
def keys (m : SortedMap κ υ) : List κ := m.toList.map (·.1)

/-- The values, in the order of their keys. -/
def values (m : SortedMap κ υ) : List υ := m.toList.map (·.2)

/-- The least key. -/
def first? (m : SortedMap κ υ) : Option κ := m.keys.head?

/-- The least key above `k`, which need not be a key itself. -/
def next? (m : SortedMap κ υ) (k : κ) : Option κ := m.keys.find? fun k' => compare k k' == .lt

/-! ## The view -/

@[simp] theorem get?_empty (k : κ) : (∅ : SortedMap κ υ).get? k = none := rfl

/--
An insertion is seen by every key that compares equal to its own, whether or not the keys are the
same.
-/
theorem get?_insert_compare [Std.TransOrd κ] (m : SortedMap κ υ) (k q : κ) (v : υ) :
    (m.insert k v).get? q = if compare q k = .eq then some v else m.get? q :=
  lookup_place k q v m.toList

/-- An insertion changes the answer at its own key only. -/
theorem get?_insert [Std.TransOrd κ] [Std.LawfulEqOrd κ] [DecidableEq κ] (m : SortedMap κ υ)
    (k q : κ) (v : υ) : (m.insert k v).get? q = if q = k then some v else m.get? q := by
  simp only [get?_insert_compare, Std.LawfulEqCmp.compare_eq_iff_eq]

@[simp] theorem get?_insert_self [Std.TransOrd κ] (m : SortedMap κ υ) (k : κ) (v : υ) :
    (m.insert k v).get? k = some v := by
  rw [get?_insert_compare, if_pos Std.ReflCmp.compare_self]

theorem get?_insert_of_ne [Std.TransOrd κ] [Std.LawfulEqOrd κ] {q k : κ} (m : SortedMap κ υ)
    (v : υ) (h : q ≠ k) : (m.insert k v).get? q = m.get? q := by
  rw [get?_insert_compare, if_neg]
  exact fun e => h (Std.LawfulEqCmp.eq_of_compare e)

/-- Storing entries under other keys changes no answer. -/
theorem get?_foldl_insert_of_not_mem [Std.TransOrd κ] [Std.LawfulEqOrd κ] {k : κ} :
    ∀ {entries : List (κ × υ)} {m : SortedMap κ υ}, k ∉ entries.map (·.1) →
      (entries.foldl (fun m e => m.insert e.1 e.2) m).get? k = m.get? k
  | [], _, _ => rfl
  | e :: rest, m, h => by
    have ne : k ≠ e.1 := fun same => h (by simp [same])
    have apart : k ∉ rest.map (·.1) := fun mem => h (List.mem_cons_of_mem _ mem)
    rw [List.foldl_cons, get?_foldl_insert_of_not_mem apart, get?_insert_of_ne m _ ne]

/-- Among entries with different keys, every entry is found. -/
theorem get?_ofList_of_mem [Std.TransOrd κ] [Std.LawfulEqOrd κ] {entries : List (κ × υ)} {k : κ}
    {v : υ} (apart : (entries.map (·.1)).Nodup) (mem : (k, v) ∈ entries) :
    (ofList entries).get? k = some v := by
  suffices found : ∀ m : SortedMap κ υ,
      (entries.foldl (fun m e => m.insert e.1 e.2) m).get? k = some v from found ∅
  induction entries with
  | nil => cases mem
  | cons e rest ih =>
    intro m
    obtain ⟨fresh, apart⟩ := List.nodup_cons.1 apart
    rw [List.foldl_cons]
    rcases List.mem_cons.1 mem with rfl | mem
    · rw [get?_foldl_insert_of_not_mem fresh, get?_insert_self]
    · exact ih apart mem _

/-- What is found was stored. -/
theorem mem_of_get?_ofList [Std.TransOrd κ] [Std.LawfulEqOrd κ] [DecidableEq κ]
    {entries : List (κ × υ)} {k : κ} {v : υ} (h : (ofList entries).get? k = some v) :
    (k, v) ∈ entries := by
  suffices stored : ∀ m : SortedMap κ υ,
      (entries.foldl (fun m e => m.insert e.1 e.2) m).get? k = some v →
        (k, v) ∈ entries ∨ m.get? k = some v by
    rcases stored ∅ h with mem | none
    · exact mem
    · simp at none
  clear h
  induction entries with
  | nil => exact fun _ h => .inr h
  | cons e rest ih =>
    intro m h
    rcases ih (m.insert e.1 e.2) h with mem | before
    · exact .inl (List.mem_cons_of_mem _ mem)
    · rw [get?_insert] at before
      split at before
      · next same =>
        cases before
        exact .inl (same ▸ List.mem_cons_self ..)
      · exact .inr before

theorem contains_iff {m : SortedMap κ υ} {k : κ} : m.contains k ↔ ∃ v, m.get? k = some v :=
  Option.isSome_iff_exists

/-- Where the keys are increasing, a look-up finds every entry of the list and no other. -/
theorem lookup_eq_some_iff [Std.TransOrd κ] [Std.LawfulEqOrd κ] {l : List (κ × υ)}
    (h : l.Pairwise fun a b => compare a.1 b.1 = .lt) {k : κ} {v : υ} :
    lookup k l = some v ↔ (k, v) ∈ l := by
  induction l with
  | nil => simp [lookup]
  | cons hd tl ih =>
    obtain ⟨k', v'⟩ := hd
    have hd_lt := (List.pairwise_cons.1 h).1
    rw [lookup, List.mem_cons]
    split
    · next hc =>
      obtain rfl := Std.LawfulEqCmp.eq_of_compare hc
      constructor
      · rintro ⟨rfl⟩; exact .inl rfl
      · rintro (e | e)
        · cases e; rfl
        · exact (not_lt_self (k := k) (hd_lt (k, v) e)).elim
    · next hc =>
      rw [ih h.of_cons]
      constructor
      · exact .inr
      · rintro (e | e)
        · cases e; exact absurd Std.ReflCmp.compare_self hc
        · exact e

/-- The entries are the pairs that look-ups answer. -/
theorem mem_toList_iff [Std.TransOrd κ] [Std.LawfulEqOrd κ] {m : SortedMap κ υ} {k : κ} {v : υ} :
    (k, v) ∈ m.toList ↔ m.get? k = some v :=
  (lookup_eq_some_iff m.increasing).symm

theorem mem_keys_iff [Std.TransOrd κ] [Std.LawfulEqOrd κ] {m : SortedMap κ υ} {k : κ} :
    k ∈ m.keys ↔ m.contains k := by
  simp [keys, contains_iff, mem_toList_iff]

/-- Two lists with increasing keys are the same if every look-up in them comes out alike. -/
private theorem eq_of_lookup_eq [Std.TransOrd κ] [Std.LawfulEqOrd κ] :
    ∀ {a b : List (κ × υ)}, (a.Pairwise fun x y => compare x.1 y.1 = .lt) →
      (b.Pairwise fun x y => compare x.1 y.1 = .lt) → (∀ k, lookup k a = lookup k b) → a = b
  | [], [], _, _, _ => rfl
  | [], (k, v) :: b, _, _, h => by
    have := h k
    rw [lookup, lookup, if_pos Std.ReflCmp.compare_self] at this
    cases this
  | (k, v) :: a, [], _, _, h => by
    have := h k
    rw [lookup, lookup, if_pos Std.ReflCmp.compare_self] at this
    cases this
  | (k, v) :: a, (k', v') :: b, ha, hb, h => by
    have below {x : κ} {y : υ} {l : List (κ × υ)}
        (hl : ((x, y) :: l).Pairwise fun p q => compare p.1 q.1 = .lt) {q : κ}
        (hq : compare q x = .lt) : lookup q ((x, y) :: l) = none :=
      lookup_eq_none_of_lt fun e he => by
        rcases List.mem_cons.1 he with rfl | he
        · exact hq
        · exact Std.TransCmp.lt_trans hq (List.rel_of_pairwise_cons hl he)
    -- the lesser of the two first keys is found in one list only, unless they are equal
    cases hc : compare k k' with
    | lt =>
      have := h k
      rw [lookup, if_pos Std.ReflCmp.compare_self, below hb hc] at this
      cases this
    | gt =>
      have := h k'
      rw [below ha (Std.OrientedCmp.gt_iff_lt.1 hc), lookup,
        if_pos Std.ReflCmp.compare_self] at this
      cases this
    | eq =>
      obtain rfl := Std.LawfulEqCmp.eq_of_compare hc
      have hv := h k
      rw [lookup, lookup, if_pos Std.ReflCmp.compare_self, if_pos Std.ReflCmp.compare_self] at hv
      cases hv
      refine congrArg _ (eq_of_lookup_eq ha.of_cons hb.of_cons fun q => ?_)
      by_cases hq : compare q k = .eq
      · obtain rfl := Std.LawfulEqCmp.eq_of_compare hq
        rw [lookup_eq_none_of_lt fun e he => List.rel_of_pairwise_cons ha he,
          lookup_eq_none_of_lt fun e he => List.rel_of_pairwise_cons hb he]
      · have := h q
        rwa [lookup, lookup, if_neg hq, if_neg hq] at this

/-- Two maps with equal look-ups are equal. -/
theorem ext_get? [Std.TransOrd κ] [Std.LawfulEqOrd κ] {a b : SortedMap κ υ}
    (h : ∀ k, a.get? k = b.get? k) : a = b := by
  obtain ⟨la, ha⟩ := a
  obtain ⟨lb, hb⟩ := b
  have : la = lb := eq_of_lookup_eq ha hb h
  subst this
  rfl

/-- In an increasing list the first key above `k` is the least one above it. -/
private theorem find?_least [Std.TransOrd κ] {l : List κ}
    (h : l.Pairwise fun a b => compare a b = .lt) {k q : κ} :
    (l.find? fun k' => compare k k' == .lt) = some q ↔
      q ∈ l ∧ compare k q = .lt ∧ ∀ r ∈ l, compare k r = .lt → r = q ∨ compare q r = .lt := by
  induction l with
  | nil => simp
  | cons hd tl ih =>
    have hd_lt := (List.pairwise_cons.1 h).1
    by_cases hc : compare k hd = .lt
    · rw [List.find?_cons_of_pos (by simp [hc])]
      constructor
      · rintro ⟨rfl⟩
        exact ⟨List.mem_cons_self, hc, fun r hr _ =>
          (List.mem_cons.1 hr).imp id (hd_lt r)⟩
      · rintro ⟨hq, _, hmin⟩
        rcases hmin hd List.mem_cons_self hc with e | e
        · exact congrArg _ e
        · rcases List.mem_cons.1 hq with rfl | hq
          · rfl
          · exact (not_lt_self (Std.TransCmp.lt_trans e (hd_lt q hq))).elim
    · rw [List.find?_cons_of_neg (by simp [hc]), ih h.of_cons]
      constructor
      · rintro ⟨hq, hk, hmin⟩
        exact ⟨List.mem_cons_of_mem _ hq, hk, fun r hr hr' =>
          (List.mem_cons.1 hr).elim (fun e => absurd (e ▸ hr') hc) fun hr => hmin r hr hr'⟩
      · rintro ⟨hq, hk, hmin⟩
        refine ⟨(List.mem_cons.1 hq).resolve_left ?_, hk, fun r hr hr' =>
          hmin r (List.mem_cons_of_mem _ hr) hr'⟩
        rintro rfl
        exact hc hk

theorem keys_increasing (m : SortedMap κ υ) : m.keys.Pairwise fun a b => compare a b = .lt :=
  List.pairwise_map.2 m.increasing

/-- `next? k` is the least key above `k`. -/
theorem next?_eq_some_iff [Std.TransOrd κ] [Std.LawfulEqOrd κ] {m : SortedMap κ υ} {k q : κ} :
    m.next? k = some q ↔ m.contains q ∧ compare k q = .lt ∧
      ∀ r, m.contains r → compare k r = .lt → r = q ∨ compare q r = .lt := by
  simp only [next?, find?_least m.keys_increasing, mem_keys_iff]

/-- There is no `next? k` exactly if no key is above `k`. -/
theorem next?_eq_none_iff [Std.TransOrd κ] [Std.LawfulEqOrd κ] {m : SortedMap κ υ} {k : κ} :
    m.next? k = none ↔ ∀ r, m.contains r → compare k r ≠ .lt := by
  simp [next?, mem_keys_iff]

end SortedMap

end RegisterTransfer

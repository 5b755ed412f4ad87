import RegisterTransfer.Text.Number

/-!
# Instruction addresses

An instruction of the intermediate representation sits at the native address it was lifted from
plus its index inside that native instruction's expansion. Addresses are ordered by the pair, which
is also program order.
-/

namespace RegisterTransfer

/-- A native address and an index into the expansion of the instruction there. -/
structure Address where
  native : Nat
  offset : Nat
  deriving DecidableEq, Repr, Inhabited

namespace Address

/-- The first instruction of a native instruction's expansion. -/
def ofNative (native : Nat) : Address := ⟨native, 0⟩

/-- Program order: by native address, then by offset. -/
instance : Ord Address := ⟨compareLex (compareOn native) (compareOn offset)⟩

instance : Std.TransOrd Address :=
  inferInstanceAs (Std.TransCmp (compareLex (compareOn native) (compareOn offset)))

instance : Std.LawfulEqOrd Address where
  eq_of_compare {a b} h := by
    obtain ⟨hn, ho⟩ := compareLex_eq_eq.1 h
    cases a
    cases b
    exact congr (congrArg mk (Std.LawfulEqCmp.eq_of_compare hn))
      (Std.LawfulEqCmp.eq_of_compare ho)

theorem compare_eq_lt_iff {a b : Address} :
    compare a b = .lt ↔ a.native < b.native ∨ a.native = b.native ∧ a.offset < b.offset := by
  show compareLex (compareOn native) (compareOn offset) a b = .lt ↔ _
  simp only [compareLex, compareOn, Ordering.then_eq_lt, Nat.compare_eq_lt, Nat.compare_eq_eq]

/-- The native address in hexadecimal, a point, and the offset in at least two digits. -/
def text (a : Address) : String :=
  Text.hexadecimal a.native ++ "." ++ Text.hexPair a.offset

instance : ToString Address := ⟨text⟩

end Address

end RegisterTransfer

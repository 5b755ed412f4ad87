import RegisterTransfer.Machine.Run

/-!
# Boundaries of a run

A run is at a boundary when it is over or at the start of an expansion. A native step takes it from
one boundary to the next, in at least one turn.

> `Reaches.unique`: there is one next boundary.
> `Reaches.advance_of_atBoundary`: no boundary is missed.
-/

namespace RegisterTransfer

namespace Run

/-- The run is over, or control is at the start of an expansion. -/
def AtBoundary (r : Run Unit) : Prop :=
  r.isOver ∨ ∃ native, r.progress = .running (.ofNative native)

/-- The first boundary that a run comes to, the present state included. -/
inductive Reaches (p : Program) : Run Unit → Run Unit → Prop
  | here {r} (boundary : r.AtBoundary) : Reaches p r r
  | turn {r r'} (inside : ¬ r.AtBoundary) (rest : Reaches p (r.step .silent p) r') :
    Reaches p r r'

/-- At least one turn, and then as many as it takes to come to a boundary. -/
def NativeStep (p : Program) (r r' : Run Unit) : Prop := Reaches p (r.step .silent p) r'

/-- The first boundary from an offset on, where the first offset itself does not count. -/
def Onward (p : Program) (offset : Nat) (r r' : Run Unit) : Prop :=
  if offset = 0 then NativeStep p r r' else Reaches p r r'

/-- What is reached is a boundary. -/
theorem Reaches.atBoundary {p : Program} {r r' : Run Unit} (h : Reaches p r r') :
    r'.AtBoundary := by
  induction h with
  | here boundary => exact boundary
  | turn _ _ ih => exact ih

/-- The first boundary is reached after some number of turns. -/
theorem Reaches.advance {p : Program} {r r' : Run Unit} (h : Reaches p r r') :
    ∃ n, advance .silent p n r = r' := by
  induction h with
  | here => exact ⟨0, rfl⟩
  | turn _ _ ih =>
    obtain ⟨n, hn⟩ := ih
    exact ⟨n + 1, by rw [advance_succ, hn]⟩

/-- Every boundary is the first one or comes after it. -/
theorem Reaches.advance_of_atBoundary {p : Program} {r r' : Run Unit} (h : Reaches p r r')
    {turns : Nat} (boundary : (Run.advance .silent p turns r).AtBoundary) :
    ∃ k ≤ turns, Run.advance .silent p turns r = Run.advance .silent p k r' := by
  induction h generalizing turns with
  | here => exact ⟨turns, Nat.le_refl _, rfl⟩
  | turn inside _ ih =>
    cases turns with
    | zero => exact absurd boundary inside
    | succ turns =>
      rw [advance_succ] at boundary ⊢
      obtain ⟨k, le, same⟩ := ih boundary
      exact ⟨k, Nat.le_succ_of_le le, same⟩

/-- There is only one first boundary. -/
theorem Reaches.unique {p : Program} {r a b : Run Unit} (ha : Reaches p r a)
    (hb : Reaches p r b) : a = b := by
  induction ha with
  | here boundary =>
    cases hb with
    | here => rfl
    | turn inside => exact absurd boundary inside
  | turn inside _ ih =>
    cases hb with
    | here boundary => exact absurd boundary inside
    | turn _ rest => exact ih rest

/-- A run that stands at an offset above zero is inside an expansion. -/
theorem not_atBoundary {m : Machine} {native offset : Nat} (h : 0 < offset) :
    ¬ (⟨m, (), .running ⟨native, offset⟩⟩ : Run Unit).AtBoundary := by
  intro found
  rcases found with ended | ⟨a, e⟩
  · cases ended
  · injection e with e
    injection e with _ zero
    omega

/-- From inside an expansion, the boundary that comes next is the first one from the offset on. -/
theorem onward_of_reaches {p : Program} {offset : Nat} {r r' : Run Unit} (pos : 0 < offset)
    (h : Reaches p r r') : Onward p offset r r' := by
  rw [Onward, if_neg (by omega)]
  exact h

/-- From inside an expansion, the first boundary from the offset on is the one that comes next. -/
theorem reaches_of_onward {p : Program} {offset : Nat} {r r' : Run Unit} (pos : 0 < offset)
    (h : Onward p offset r r') : Reaches p r r' := by
  rwa [Onward, if_neg (by omega)] at h

/-- A turn from inside an expansion, or from its start. -/
theorem onward_of_step {p : Program} {m : Machine} {native offset : Nat} {r' : Run Unit}
    (h : Reaches p ((⟨m, (), .running ⟨native, offset⟩⟩ : Run Unit).step .silent p) r') :
    Onward p offset ⟨m, (), .running ⟨native, offset⟩⟩ r' := by
  unfold Onward
  split
  · exact h
  · next ne => exact .turn (not_atBoundary (by omega)) h

end Run

end RegisterTransfer

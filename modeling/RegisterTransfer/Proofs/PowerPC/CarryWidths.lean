import RegisterTransfer.Proofs.PowerPC.Additions
import RegisterTransfer.Proofs.WidthRule

/-!
# Widths of additions

An addition is refused before it writes anything if its addends differ in width or leave no wider
width for the carry. What it writes otherwise keeps the width rule, as long as the carry that goes in
is no wider than the sum it goes into. A wider carry is accepted all the same, and the second
instruction fails.

> `Script.fits_addWithCarry`: the widths in the code of an addition fit together.
> `Expansion.Fills.progress_of_wideCarry`: the run of an addition with a carry that is too wide.
> `emitted_additions_clash_by_carry`: what becomes of an addition of operands of any widths.
> `wideByteCarry_clashes`: an addition that is accepted and does not run.
-/

namespace RegisterTransfer

/-! ## Additions that keep the width rule -/

namespace Script

variable {a b c : Operand} {wide : Width} {carryIn : Option Operand} {opcode : Opcode}

/-- A binary operation fits if its operands do and the result is as wide as the first. -/
theorem fits_binary (h : opcode.Fits a.width b.width a.width) :
    (binary opcode a b).Each Draft.Fits (·.width = a.width) :=
  fun _ => ⟨h, rfl⟩

/-! A shift may have operands of any widths. -/

theorem fits_signBit (a : Operand) : (signBit a).Each Draft.Fits fun _ => True :=
  fun _ => ⟨trivial, trivial⟩

/-- A carry is shifted out of the sum, and a shift takes operands of any width. -/
theorem fits_carryOut (w wide : Width) (sum : Operand) :
    (carryOut w wide sum).Each Draft.Fits fun _ => True :=
  fun _ => ⟨trivial, trivial⟩

theorem fits_optionally {s : Script Operand} (wanted : Bool)
    (h : s.Each Draft.Fits fun _ => True) :
    (optionally wanted s).Each Draft.Fits fun _ => True := by
  unfold optionally
  split
  · rw [map_eq_pure_bind]
    exact h.bind fun _ => trivial
  · trivial

/-- A wide sum fits as long as the carry that goes in is not wider than it. -/
theorem fits_wideSum (wider : a.width.wider? = some wide) (same : b.width = a.width)
    (within : ∀ c, carryIn = some c → c.width ≤ wide) :
    (wideSum wide a b carryIn).Each Draft.Fits (·.width = wide) := by
  have fits : Opcode.add.Fits a.width b.width wide := Width.not_wider_lt_max wider same
  intro k
  cases carryIn with
  | none => exact ⟨fits, rfl⟩
  | some c => exact ⟨fits, fun k' => ⟨Width.not_lt_max_of_le (within c rfl), rfl⟩⟩

/-- Signs are compared at the one width that all three operands have. -/
theorem fits_overflowOut {r : Operand} (same : b.width = a.width) (same' : r.width = a.width) :
    (overflowOut a b r).Each Draft.Fits fun _ => True := by
  have left : Opcode.xor.Fits a.width r.width a.width := same'.symm
  have right : Opcode.xor.Fits b.width r.width b.width := same.trans same'.symm
  refine (fits_binary left).bind fun {l} width => (fits_binary right).bind fun {r'} width' => ?_
  have both : Opcode.and.Fits l.width r'.width l.width := by
    show l.width = r'.width
    rw [width, width', same]
  exact (fits_binary both).bind fun _ => fits_signBit _

/-- The widths in the code of an addition fit together, if its carry is no wider than the sum. -/
theorem fits_addWithCarry (flags : AdditionFlags) (wider : a.width.wider? = some wide)
    (same : b.width = a.width) (within : ∀ c, carryIn = some c → c.width ≤ wide) :
    (addWithCarry a b carryIn flags).Each Draft.Fits fun _ => True := by
  unfold addWithCarry
  rw [if_pos same, wider]
  refine (fits_wideSum wider same within).bind fun {sum} width k => ⟨width, ?_⟩
  have overflow : (overflowOut a b (.register (temporaryName k) a.width)).Each Draft.Fits _ :=
    fits_overflowOut same rfl
  refine (fits_optionally flags.carry (fits_carryOut a.width wide sum)).bind fun _ => ?_
  exact (fits_optionally flags.overflow overflow).bind fun _ => trivial

/-- Nothing is written and no temporary taken for addends that do not go together. -/
theorem addWithCarry_refuses (unfit : ¬ (b.width = a.width ∧ a.width ≠ .oword))
    (carryIn : Option Operand) (flags : AdditionFlags) (x : Expansion) :
    ∃ reason, (addWithCarry a b carryIn flags).run x = (.error (.malformedOperand reason), x) := by
  unfold addWithCarry
  by_cases same : b.width = a.width
  · have greatest : a.width = .oword := by_contra fun narrow => unfit ⟨same, narrow⟩
    have none_wider : a.width.wider? = none := by
      rw [greatest]
      rfl
    rw [if_pos same, none_wider]
    exact ⟨_, rfl⟩
  · rw [if_neg same]
    exact ⟨_, rfl⟩

/-! ## Additions that break it -/

/-- The code of an addition with a carry begins with two sums, of the addends and with the carry. -/
theorem addWithCarry_begins {flags : AdditionFlags} {x X : Expansion} {r : Addition}
    (wider : a.width.wider? = some wide) (same : b.width = a.width)
    (ran : (addWithCarry a b (some c) flags).run x = (.ok r, X)) :
    let sum : Operand := .register (temporaryName x.taken) wide
    X.drafts[x.size]? = some (.plain .add a b sum) ∧
      X.drafts[x.size + 1]? =
        some (.plain .add sum c (.register (temporaryName (x.taken + 1)) wide)) := by
  intro sum
  have calculates := Calculates.addWithCarry wider same (some c) flags
  unfold addWithCarry at ran calculates
  rw [if_pos same, wider] at ran calculates
  -- both sums are written before anything else, and what is written stays
  let y : Expansion := ((x.temporary wide).2.emit .add a b sum).temporary wide |>.2.emit .add sum c
    (.register (temporaryName (x.taken + 1)) wide)
  have behind : y.Extends X :=
    (((calculates.2 x.taken).2.2).2 (x.taken + 1)).2.2.extends_of_run ran
  have drafts : y.drafts = x.drafts ++ [.plain .add a b sum,
      .plain .add sum c (.register (temporaryName (x.taken + 1)) wide)] :=
    List.append_assoc x.drafts [_] [_]
  refine ⟨behind.draft ?_, behind.draft ?_⟩
  · rw [drafts, Expansion.size, List.getElem?_append_right (Nat.le_refl _), Nat.sub_self]
    rfl
  · rw [drafts, Expansion.size, List.getElem?_append_right (Nat.le_add_right _ 1),
      Nat.add_sub_cancel_left]
    rfl

end Script

namespace Expansion.Fills

variable {x X : Expansion} {a b c : Operand} {wide : Width} {m : Machine} {u v : Nat} {p : Program}

/-- The sum of the addends is written, and behind it the run fails. -/
theorem progress_of_wideCarry {flags : Script.AdditionFlags} {r : Script.Addition}
    (fills : X.Fills x.size p) (wider : a.width.wider? = some wide) (same : b.width = a.width)
    (ran : (Script.addWithCarry a b (some c) flags).run x = (.ok r, X)) (beyond : wide < c.width)
    (left : (m.syncProgramCounter x.native).Reads a u)
    (right : (m.syncProgramCounter x.native).Reads b v)
    (allowed : ∀ l, m.settings.stepLimit = some l → 2 ≤ l) {turns : Nat} (enough : 2 ≤ turns) :
    (m.interpret .silent p turns x.here ()).progress =
      .failed (.widthClash ⟨x.native, x.size + 1⟩ (.narrowDestination .add wide c.width)) := by
  obtain ⟨draft, draft'⟩ := Script.addWithCarry_begins wider same ran
  have native : X.native = x.native :=
    ((Script.Calculates.addWithCarry wider same (some c) flags).extends_of_run ran).native
  rw [← native] at left right ⊢
  have fits : Opcode.add.Fits a.width b.width wide := Width.not_wider_lt_max wider same
  -- nothing that is read depends on the counters
  have reads : ∀ {o w}, (m.syncProgramCounter X.native).Reads o w →
      (m.begun.syncProgramCounter X.native).Reads o w := by
    intro o w h
    have read : (m.syncProgramCounter X.native).source x.here o = .ok w :=
      Machine.source_eq_ok_iff.2 h
    have again : (m.begun.syncProgramCounter X.native).source x.here o = .ok w := read
    exact Machine.source_eq_ok_iff.1 again
  obtain ⟨m₁, settings, executed, turned⟩ := fills.turn_of_reads (m := m.begun) (Nat.le_refl _)
    draft rfl fits (reads left) (reads right) rfl fun l limit =>
      Nat.lt_of_lt_of_le Nat.two_pos (allowed l limit)
  have inside : x.size + 1 < X.size := (List.getElem?_eq_some_iff.1 draft').1
  rw [Expansion.progressAt, if_pos inside] at turned
  have failed := fills.turn_of_clashes (m := m₁) (Nat.le_add_right _ 1) draft' rfl
    (.narrow (.inl rfl) (.inr beyond)) fun l limit => by
      rw [executed]
      exact allowed l (settings ▸ limit)
  have widest : max wide c.width = c.width := if_pos beyond
  have start : (⟨X.native, x.size⟩ : Address) = x.here := by rw [native]; rfl
  rw [start] at turned
  obtain ⟨more, rfl⟩ := Nat.exists_eq_add_of_le enough
  rw [Machine.interpret, Run.conclude_silent, Run.advance_add]
  have second : (Run.advance .silent p 2 (Run.begin .silent x.here m ())).progress =
      .failed (.widthClash ⟨X.native, x.size + 1⟩ (.narrowDestination .add wide c.width)) := by
    rw [Run.advance_succ, Run.advance_succ]
    show ((Run.turn .silent p x.here m.begun ()).step .silent p).progress = _
    rw [turned]
    exact widest ▸ failed
  rw [Run.advance_of_isOver (by rw [Run.isOver, second])]
  exact second

end Expansion.Fills

/--
What becomes of an addition of two operands of any widths, with any carry. If the addends differ in
width or have the greatest one, it is refused, and nothing is written and no temporary taken. Else
it writes a program. If there is no carry, or one that is no wider than the sum it goes into, no run
of this program fails by the width rule. If the carry is wider, every run that can read the addends
and may make two steps fails by the width rule at the second instruction.
-/
theorem emitted_additions_clash_by_carry (a b : Operand) (carryIn : Option Operand)
    (flags : Script.AdditionFlags) (x : Expansion) :
    (¬ (b.width = a.width ∧ a.width ≠ .oword) ∧ ∃ reason,
      (Script.addWithCarry a b carryIn flags).run x = (.error (.malformedOperand reason), x)) ∨
    ∃ wide r X p, b.width = a.width ∧ a.width.wider? = some wide ∧
      (Script.addWithCarry a b carryIn flags).run x = (.ok r, X) ∧
      (x.drafts = [] → x.labels = [] → X.finish = .ok (x.codeBehind X)) ∧
      Program.ofList (x.codeBehind X) = .ok p ∧
      ((∀ c, carryIn = some c → c.width ≤ wide) →
        ∀ (m : Machine) turns, ¬ (m.interpret .silent p turns x.here ()).Clashes) ∧
      ∀ c, carryIn = some c → wide < c.width → ∀ (m : Machine) u v turns,
        (m.syncProgramCounter x.native).Reads a u → (m.syncProgramCounter x.native).Reads b v →
          (∀ l, m.settings.stepLimit = some l → 2 ≤ l) → 2 ≤ turns →
            (m.interpret .silent p turns x.here ()).progress =
              .failed (.widthClash ⟨x.native, x.size + 1⟩
                (.narrowDestination .add wide c.width)) := by
  by_cases fit : b.width = a.width ∧ a.width ≠ .oword
  · obtain ⟨same, narrow⟩ := fit
    obtain ⟨wide, wider⟩ := Width.exists_wider narrow
    have calculates := Script.Calculates.addWithCarry wider same carryIn flags
    obtain ⟨r, X, ran, behind⟩ := calculates.ends x
    obtain ⟨p, made, fills⟩ := x.exists_fills X
    refine .inr ⟨wide, r, X, p, same, wider, ran, Expansion.finish_eq_ok_of_blank behind, made,
      fun within => ?_, ?_⟩
    · have fits := Script.fits_addWithCarry flags wider same within
      exact fun m turns => (fits.keepsWidths ran made).not_clashes_interpret m turns x.here
    · rintro c rfl beyond m u v turns left right allowed enough
      exact fills.progress_of_wideCarry wider same ran beyond left right allowed enough
  · exact .inl ⟨fit, Script.addWithCarry_refuses fit carryIn flags x⟩

namespace PowerPC

/-- Words can be added with a carry of four bytes, which is the width of the sum, but not of eight. -/
theorem wordCarries_clash_by_width :
    (∃ r X p, (Script.addWithCarry (.integer 1 .word) (.integer 2 .word)
        (some (.integer 1 .dword)) ⟨true, true⟩).run ownAddress = (.ok r, X) ∧
      Program.ofList (ownAddress.codeBehind X) = .ok p ∧
      ∀ turns, ¬ ((Machine.start {} cpu).interpret .silent p turns ownAddress.here ()).Clashes) ∧
    ∃ r X p, (Script.addWithCarry (.integer 1 .word) (.integer 2 .word)
        (some (.integer 1 .qword)) ⟨true, true⟩).run ownAddress = (.ok r, X) ∧
      Program.ofList (ownAddress.codeBehind X) = .ok p ∧
      ((Machine.start {} cpu).interpret .silent p 2 ownAddress.here ()).Clashes := by
  have unlimited : (Machine.start {} cpu).settings.stepLimit = none := rfl
  constructor
  · rcases emitted_additions_clash_by_carry (.integer 1 .word) (.integer 2 .word)
      (some (.integer 1 .dword)) ⟨true, true⟩ ownAddress with
      ⟨unfit, -⟩ | ⟨wide, r, X, p, -, wider, ran, -, made, never, -⟩
    · exact absurd ⟨rfl, nofun⟩ unfit
    · cases wider
      refine ⟨r, X, p, ran, made, never ?_ _⟩
      rintro c ⟨⟩
      exact Nat.le_refl _
  · rcases emitted_additions_clash_by_carry (.integer 1 .word) (.integer 2 .word)
      (some (.integer 1 .qword)) ⟨true, true⟩ ownAddress with
      ⟨unfit, -⟩ | ⟨wide, r, X, p, -, wider, ran, -, made, -, always⟩
    · exact absurd ⟨rfl, nofun⟩ unfit
    · cases wider
      have beyond : Width.dword < Width.qword := by decide
      exact ⟨r, X, p, ran, made, _, _, always _ rfl beyond _ _ _ 2 (.integer 1 .word)
        (.integer 2 .word) (by simp [unlimited]) (Nat.le_refl 2)⟩

/-- Two bytes can be added with a carry of four bytes, but the sum they go into has two. -/
theorem wideByteCarry_clashes :
    ∃ r X p, (Script.addWithCarry (.integer 1 .byte) (.integer 2 .byte)
        (some (.integer 1 .dword)) ⟨false, false⟩).run ownAddress = (.ok r, X) ∧
      X.finish = .ok (ownAddress.codeBehind X) ∧
      Program.ofList (ownAddress.codeBehind X) = .ok p ∧
      ((Machine.start {} cpu).interpret .silent p 2 ownAddress.here ()).progress =
        .failed (.widthClash ⟨0x40, 1⟩ (.narrowDestination .add .word .dword)) := by
  have calculates := Script.Calculates.addWithCarry (a := .integer 1 .byte) (b := .integer 2 .byte)
    rfl rfl (some (.integer 1 .dword)) ⟨false, false⟩
  obtain ⟨r, X, ran, behind⟩ := calculates.ends ownAddress
  obtain ⟨p, made, fills⟩ := ownAddress.exists_fills X
  have beyond : Width.word < Width.dword := by decide
  have unlimited : (Machine.start {} cpu).settings.stepLimit = none := rfl
  refine ⟨r, X, p, ran, Expansion.finish_eq_ok_of_blank behind rfl rfl, made, ?_⟩
  exact fills.progress_of_wideCarry (a := .integer 1 .byte) (b := .integer 2 .byte) rfl rfl ran
    beyond (.integer 1 .byte) (.integer 2 .byte) (by simp [unlimited]) (Nat.le_refl 2)

end PowerPC

end RegisterTransfer

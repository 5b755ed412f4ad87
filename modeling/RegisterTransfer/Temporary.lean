import RegisterTransfer.Text.Number

/-!
# Temporary registers

A lifter keeps intermediate results in temporaries `t0`, `t1`, and so on, each allocated once. They
share the register file with the registers of the processor and are told apart by name.
-/

namespace RegisterTransfer

/-- The name of the `n`-th temporary. -/
def temporaryName (n : Nat) : String := "t" ++ Nat.repr n

/-- Whether a register name is that of a temporary: `t` and at least one digit. -/
def isTemporary (name : String) : Bool :=
  match name.toList with
  | 't' :: digits => (Text.digits? digits).isSome
  | _ => false

end RegisterTransfer

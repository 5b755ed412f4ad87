import RegisterTransfer.Lifting.Registry
import RegisterTransfer.PowerPC.Decoding
import RegisterTransfer.PowerPC.Expansion
import RegisterTransfer.Problem

/-!
# The PowerPC lifter

Lifts native instructions by decoding them and expanding the operations. A program is lifted as one
block, so that all its temporaries are different, and then assembled; whatever cannot be lifted is
reported before any address that occurs twice.
-/

namespace RegisterTransfer.PowerPC

/-- The script of an instruction whose mnemonic has the given form. -/
def Form.script (form : Form) (widthOf : String → Option Width) (n : NativeInstruction) :
    Script Unit :=
  match form.decode widthOf n with
  | .ok operation => operation.expand n.mnemonic n.address
  | .error e => .fail e

/-- The translators of all mnemonics. -/
def registry : Registry :=
  .ofList (forms.map fun (mnemonic, form) => (mnemonic, .ofScript form.script))

/-- An environment that knows the registers, with no temporaries allocated. -/
def environment : Environment := { cpu := some cpu }

/-- Lifts native instructions to a program. -/
def lift (block : List NativeInstruction) : Except (Problem Address) Program :=
  match (registry.translateBlock environment block).1 with
  | .error e => .error (.lifting e)
  | .ok code => (Program.ofList code).mapError .assembly

end RegisterTransfer.PowerPC

import RegisterTransfer.SortedMap
import RegisterTransfer.Width

/-!
# Sparse memories

A memory of as many bytes as there are 64-bit addresses, of which only those that an access touched
are stored. A byte that was never written reads as zero; reading it stores that zero, so
`Memory.size` counts every byte that was ever read or written. Accesses wrap around at the end of
the address space.

> `peek_touch`, `peek_poke`: what a touched and a written byte read as.
-/

namespace RegisterTransfer

/-- The order of the bytes of a number in memory. -/
inductive ByteOrder where
  /-- Most significant byte first. -/
  | big
  /-- Least significant byte first. -/
  | little
  deriving DecidableEq, Repr, Inhabited

/-- The number that a run of bytes stands for. -/
def ByteOrder.decode : ByteOrder → List UInt8 → Nat
  | big, bytes => bytes.foldl (fun n b => n * 256 + b.toNat) 0
  | little, bytes => bytes.foldr (fun b n => n * 256 + b.toNat) 0

/-- The low `count` bytes of a number, in memory order. -/
def ByteOrder.encode (order : ByteOrder) (count value : Nat) : List UInt8 :=
  let littleFirst := (List.range count).map fun i => UInt8.ofNat (value >>> (8 * i))
  match order with
  | big => littleFirst.reverse
  | little => littleFirst

/-- The bytes touched so far, by address. -/
structure Memory where
  bytes : SortedMap Nat UInt8
  order : ByteOrder
  deriving DecidableEq

namespace Memory

/-- A memory that no access has touched. -/
def empty (order : ByteOrder) : Memory := ⟨∅, order⟩

/-- The byte at an address if it was touched. -/
def peek (m : Memory) (a : Nat) : Option UInt8 := m.bytes.get? a

/-- The number of bytes touched. -/
def size (m : Memory) : Nat := m.bytes.size

/-- The touched bytes in address order. -/
def toList (m : Memory) : List (Nat × UInt8) := m.bytes.toList

/-- The addresses of an access, in memory order. -/
def window (a : Nat) (w : Width) : List Nat :=
  (List.range w.bytes).map fun i => Width.qword.truncate (a + i)

/-- Stores a byte. -/
def poke (m : Memory) (a : Nat) (b : UInt8) : Memory := { m with bytes := m.bytes.insert a b }

/-- Stores a zero where nothing is stored yet. -/
def touch (m : Memory) (a : Nat) : Memory := if m.bytes.contains a then m else m.poke a 0

/-- A stored byte is read back, and no other byte changes. -/
theorem peek_poke (m : Memory) (a x : Nat) (b : UInt8) :
    (m.poke a b).peek x = if x = a then some b else m.peek x :=
  SortedMap.get?_insert _ _ _ _

/-- Touching a byte stores a zero if nothing is stored and changes nothing else. -/
theorem peek_touch (m : Memory) (a x : Nat) :
    (m.touch a).peek x = if x = a then some ((m.peek a).getD 0) else m.peek x := by
  unfold touch
  split
  · next h =>
    obtain ⟨b, hb⟩ := SortedMap.contains_iff.1 h
    split
    · next e => subst e; simp [peek, hb]
    · rfl
  · next h =>
    have none_there : m.peek a = none := by
      cases hp : m.peek a with
      | none => rfl
      | some b => exact absurd (SortedMap.contains_iff.2 ⟨b, hp⟩) h
    rw [peek_poke, none_there]
    rfl

/-- The number at an address. -/
def load (m : Memory) (a : Nat) (w : Width) : Nat :=
  m.order.decode ((window a w).map fun x => (m.peek x).getD 0)

/-- Reads the number at an address, which touches its bytes. -/
def read (m : Memory) (a : Nat) (w : Width) : Nat × Memory :=
  (m.load a w, (window a w).foldl touch m)

/-- Writes the low bytes of a number at an address. -/
def write (m : Memory) (a value : Nat) (w : Width) : Memory :=
  ((window a w).zip (m.order.encode w.bytes value)).foldl (fun m e => m.poke e.1 e.2) m

@[simp] theorem order_touch (m : Memory) (a : Nat) : (m.touch a).order = m.order := by
  unfold touch
  split <;> rfl

@[simp] theorem order_foldl_touch (addresses : List Nat) (m : Memory) :
    (addresses.foldl touch m).order = m.order := by
  induction addresses generalizing m with
  | nil => rfl
  | cons a rest ih => rw [List.foldl_cons, ih, order_touch]

end Memory

end RegisterTransfer

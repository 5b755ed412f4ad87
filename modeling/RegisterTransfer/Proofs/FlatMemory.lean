import Mathlib.Algebra.BigOperators.Intervals
import Mathlib.Algebra.BigOperators.Ring.Finset
import Mathlib.Data.Finset.Card
import Mathlib.Data.List.Nodup
import Mathlib.Tactic.Ring
import RegisterTransfer.Memory

/-!
# Flat memories

A sparse memory behaves as an array of all 2^64 bytes, which are zero at first. The number at an
address is a sum of bytes times powers of 256, and a store replaces the bytes in its range;
addresses wrap around, so a range is what lies less than so many bytes above its first address.

`Tracks m f T` says that the sparse memory `m` holds the bytes of the array `f`, and that `T` are
the addresses touched so far. Every access keeps it, and it leaves no choice for `m`:

> `Tracks.perform`: an access answers what the array answers, and touches its range.
> `Tracks.unique`: the array and the touched addresses determine the sparse memory.
> `memory_is_flat`: any sequence of accesses, with what follows for two accesses in a row.
> `Memory.peek_read`, `Memory.write_of_le`: the bytes behind an access that does not wrap around.
-/

namespace RegisterTransfer

/-! ## Bytes of a number -/

/-- A number of a width is as many digits to base 256 as the width has bytes. -/
theorem Width.modulus_eq_pow_bytes (w : Width) : w.modulus = 256 ^ w.bytes := by
  cases w <;> rfl

namespace ByteOrder

/-- The significance of the byte at an index among `count` bytes: the power of 256 it stands for. -/
def rank (order : ByteOrder) (count index : Nat) : Nat :=
  match order with
  | big => count - 1 - index
  | little => index

/-- Reading bytes from the last to the first weighs the first one least. -/
theorem foldr_bytes (byte : Nat → UInt8) (count start : Nat) :
    ((List.range count).map byte).foldr (fun b n => n * 256 + b.toNat) start =
      (∑ i ∈ Finset.range count, (byte i).toNat * 256 ^ i) + start * 256 ^ count := by
  induction count generalizing start with
  | zero => simp
  | succ count ih =>
    rw [List.range_succ, List.map_append, List.foldr_append, ih, Finset.sum_range_succ, pow_succ]
    simp only [List.map_cons, List.map_nil, List.foldr_cons, List.foldr_nil]
    ring

/-- Reading bytes from the first to the last weighs the first one most. -/
theorem foldl_bytes (byte : Nat → UInt8) (count : Nat) :
    ((List.range count).map byte).foldl (fun n b => n * 256 + b.toNat) 0 =
      ∑ i ∈ Finset.range count, (byte i).toNat * 256 ^ (count - 1 - i) := by
  induction count with
  | zero => simp
  | succ count ih =>
    rw [List.range_succ, List.map_append, List.foldl_append, ih, Finset.sum_range_succ]
    simp only [List.map_cons, List.map_nil, List.foldl_cons, List.foldl_nil, Finset.sum_mul]
    congr 1
    · refine Finset.sum_congr rfl fun i mem => ?_
      have below := Finset.mem_range.1 mem
      rw [mul_assoc, ← pow_succ]
      congr 2
      omega
    · simp

/-- Decoding weighs every byte by its significance. -/
theorem decode_eq_sum (order : ByteOrder) (byte : Nat → UInt8) (count : Nat) :
    order.decode ((List.range count).map byte) =
      ∑ i ∈ Finset.range count, (byte i).toNat * 256 ^ order.rank count i := by
  cases order with
  | big => exact foldl_bytes byte count
  | little => simp [decode, foldr_bytes, rank]

/-- Encoding takes the byte of every significance. -/
theorem encode_eq_map (order : ByteOrder) (count value : Nat) :
    order.encode count value =
      (List.range count).map fun i => UInt8.ofNat (value / 256 ^ order.rank count i) := by
  have shifted : ∀ k, value >>> (8 * k) = value / 256 ^ k := fun k => by
    rw [Nat.shiftRight_eq_div_pow, pow_mul]
    rfl
  cases order with
  | little => simp only [encode, rank, shifted]
  | big =>
    simp only [encode, rank, shifted]
    refine List.ext_getElem (by simp) fun i _ _ => ?_
    simp [List.getElem_reverse]

/-- The low bytes of a number, weighed by their significance, are the number's low part. -/
theorem sum_digits (value count : Nat) :
    ∑ i ∈ Finset.range count, (value / 256 ^ i % 256) * 256 ^ i = value % 256 ^ count := by
  induction count with
  | zero => simp [Nat.mod_one]
  | succ count ih => rw [Finset.sum_range_succ, ih, Nat.mod_pow_succ, mul_comm (256 ^ count)]

/-- Either order reads back the low bytes of a number. -/
theorem sum_ranked_digits (order : ByteOrder) (value count : Nat) :
    ∑ i ∈ Finset.range count,
        (value / 256 ^ order.rank count i % 256) * 256 ^ order.rank count i =
      value % 256 ^ count := by
  rw [← sum_digits]
  cases order with
  | little => rfl
  | big => exact Finset.sum_range_reflect (fun i => value / 256 ^ i % 256 * 256 ^ i) count

/-- A run of bytes stands for a number of as many bytes. -/
theorem decode_lt (order : ByteOrder) (bytes : List UInt8) :
    order.decode bytes < 256 ^ bytes.length := by
  have low : ∀ bytes : List UInt8,
      bytes.foldr (fun b n => n * 256 + b.toNat) 0 < 256 ^ bytes.length := by
    intro bytes
    induction bytes with
    | nil => exact Nat.one_pos
    | cons b rest ih =>
      have byte : b.toNat < 256 := b.toNat_lt
      rw [List.foldr_cons, List.length_cons, pow_succ]
      omega
  cases order with
  | big =>
    rw [decode, ← List.foldr_reverse, ← List.length_reverse]
    exact low bytes.reverse
  | little => exact low bytes

theorem rank_lt (order : ByteOrder) {count index : Nat} (h : index < count) :
    order.rank count index < count := by
  cases order with
  | big =>
    simp only [rank]
    omega
  | little => exact h

/-- Only the low bytes of a number are encoded. -/
theorem encode_mod (order : ByteOrder) (count value : Nat) :
    order.encode count (value % 256 ^ count) = order.encode count value := by
  rw [encode_eq_map, encode_eq_map]
  refine List.map_congr_left fun i mem => ?_
  have below := order.rank_lt (List.mem_range.1 mem)
  obtain ⟨above, split⟩ := Nat.exists_eq_add_of_lt below
  have digit : value % 256 ^ count / 256 ^ order.rank count i % 256 =
      value / 256 ^ order.rank count i % 256 := by
    have whole : 256 ^ count = 256 ^ order.rank count i * 256 ^ (above + 1) := by
      rw [← pow_add]
      congr 1
    rw [whole, Nat.mod_mul_right_div_self, Nat.mod_mod_of_dvd]
    exact Dvd.intro_left _ (pow_succ 256 above).symm
  rw [← UInt8.toNat_inj, UInt8.toNat_ofNat', UInt8.toNat_ofNat']
  exact digit

end ByteOrder

/-! ## The array of all bytes -/

/-- An address of 64 bits: sums of addresses wrap around. -/
abbrev FlatAddress := BitVec 64

/-- The addresses of an access: fewer than its number of bytes above the first one. -/
def FlatAddress.range (a : FlatAddress) (w : Width) : Finset FlatAddress :=
  (Finset.range w.bytes).image fun i => a + BitVec.ofNat 64 i

/-- A byte for every address. -/
abbrev FlatMemory := FlatAddress → UInt8

namespace FlatMemory

/-- All bytes are zero. -/
def zero : FlatMemory := fun _ => 0

/-- The number at an address, its bytes weighed by their significance. -/
def number (f : FlatMemory) (order : ByteOrder) (a : FlatAddress) (w : Width) : Nat :=
  ∑ i ∈ Finset.range w.bytes, (f (a + BitVec.ofNat 64 i)).toNat * 256 ^ order.rank w.bytes i

/-- Replaces the bytes in the range of an access by the low bytes of a number. -/
def store (f : FlatMemory) (order : ByteOrder) (a : FlatAddress) (value : Nat) (w : Width) :
    FlatMemory := fun x =>
  let index := (x - a).toNat
  if index < w.bytes then UInt8.ofNat (value / 256 ^ order.rank w.bytes index) else f x

end FlatMemory

namespace FlatAddress

variable {a x : FlatAddress} {w : Width} {i : Nat}

/--
Within an access the distance from its start is the index of the byte, also across the end of
memory.
-/
theorem toNat_sub_start (h : i < w.bytes) : (a + BitVec.ofNat 64 i - a).toNat = i := by
  have small : w.bytes ≤ 16 := by cases w <;> decide
  rw [BitVec.add_comm, BitVec.add_sub_cancel, BitVec.toNat_ofNat]
  exact Nat.mod_eq_of_lt (by omega)

/-- An address is in a range if it is fewer bytes above the first one than there are. -/
theorem mem_range_iff : x ∈ a.range w ↔ (x - a).toNat < w.bytes := by
  simp only [range, Finset.mem_image, Finset.mem_range]
  constructor
  · intro found
    obtain ⟨i, below, rfl⟩ := found
    rwa [toNat_sub_start below]
  · intro below
    refine ⟨(x - a).toNat, below, ?_⟩
    rw [BitVec.ofNat_toNat, BitVec.setWidth_eq, BitVec.add_comm, BitVec.sub_add_cancel]

/-- Address arithmetic wraps around at the end of memory. -/
theorem truncate_add (a : FlatAddress) (i : Nat) :
    Width.qword.truncate (a.toNat + i) = (a + BitVec.ofNat 64 i).toNat := by
  rw [BitVec.toNat_add, BitVec.toNat_ofNat, Nat.add_mod_mod]
  rfl

end FlatAddress

namespace FlatMemory

variable {f : FlatMemory} {order : ByteOrder} {a b x : FlatAddress} {value : Nat} {w v : Width}

theorem store_of_not_mem (h : x ∉ a.range w) : f.store order a value w x = f x :=
  if_neg fun below => h (FlatAddress.mem_range_iff.2 below)

/-- The bytes of a store are those of the number, in memory order. -/
theorem store_start {i : Nat} (h : i < w.bytes) :
    f.store order a value w (a + BitVec.ofNat 64 i) =
      UInt8.ofNat (value / 256 ^ order.rank w.bytes i) := by
  simp only [store, FlatAddress.toNat_sub_start h, if_pos h]

/-- A number is read from the bytes in its range. -/
theorem number_congr {g : FlatMemory} (h : ∀ x ∈ a.range w, f x = g x) :
    f.number order a w = g.number order a w := by
  refine Finset.sum_congr rfl fun i below => ?_
  rw [h _ (Finset.mem_image_of_mem _ below)]

/-- A number reads back as its low part. -/
theorem number_store : (f.store order a value w).number order a w = w.truncate value := by
  rw [Width.truncate, w.modulus_eq_pow_bytes, ← ByteOrder.sum_ranked_digits order]
  refine Finset.sum_congr rfl fun i below => ?_
  rw [store_start (Finset.mem_range.1 below), UInt8.toNat_ofNat']

/-- Stores in disjoint ranges may change places. -/
theorem store_comm {value' : Nat} (apart : Disjoint (a.range w) (b.range v)) :
    (f.store order a value w).store order b value' v =
      (f.store order b value' v).store order a value w := by
  funext x
  by_cases inside : x ∈ a.range w
  · have outside : x ∉ b.range v := Finset.disjoint_left.1 apart inside
    rw [store_of_not_mem outside]
    simp only [store, if_pos (FlatAddress.mem_range_iff.1 inside)]
  · rw [store_of_not_mem inside]
    simp only [store, if_neg (mt FlatAddress.mem_range_iff.2 inside)]

end FlatMemory

/-! ## Accesses -/

/-- An access to a memory. -/
inductive Access where
  | read (a : FlatAddress) (w : Width)
  | write (a : FlatAddress) (value : Nat) (w : Width)
  deriving DecidableEq, Repr

/-- The addresses that an access touches. -/
def Access.range : Access → Finset FlatAddress
  | read a w => a.range w
  | write a _ w => a.range w

/-- The addresses that some accesses touch. -/
def touched (accesses : List Access) : Finset FlatAddress :=
  accesses.foldr (fun access others => access.range ∪ others) ∅

/-- What a sparse memory answers to an access, if that is a read, and the memory behind it. -/
def Memory.perform (m : Memory) : Access → Option Nat × Memory
  | .read a w => ((m.read a.toNat w).1, (m.read a.toNat w).2)
  | .write a value w => (none, m.write a.toNat value w)

/-- The answers to a sequence of accesses, and the memory behind it. -/
def Memory.performAll (m : Memory) : List Access → List (Option Nat) × Memory
  | [] => ([], m)
  | access :: rest =>
    let (answer, m) := m.perform access
    let (answers, m) := m.performAll rest
    (answer :: answers, m)

namespace FlatMemory

/-- What the array of all bytes answers to an access, if that is a read, and the array behind it. -/
def perform (f : FlatMemory) (order : ByteOrder) : Access → Option Nat × FlatMemory
  | .read a w => (f.number order a w, f)
  | .write a value w => (none, f.store order a value w)

/-- The answers to a sequence of accesses, and the array behind it. -/
def performAll (f : FlatMemory) (order : ByteOrder) : List Access → List (Option Nat) × FlatMemory
  | [] => ([], f)
  | access :: rest =>
    let (answer, f) := f.perform order access
    let (answers, f) := f.performAll order rest
    (answer :: answers, f)

variable {f : FlatMemory} {order : ByteOrder} {x y : Access}

/-- An access changes no byte outside its range. -/
theorem perform_of_not_mem {a : FlatAddress} (h : a ∉ x.range) : (f.perform order x).2 a = f a := by
  cases x with
  | read => rfl
  | write a value w => exact store_of_not_mem h

/-- An access does not change the answer to one in a disjoint range. -/
theorem answer_perform (apart : Disjoint x.range y.range) :
    ((f.perform order x).2.perform order y).1 = (f.perform order y).1 := by
  cases y with
  | write => rfl
  | read b v =>
    refine congrArg some (number_congr fun a inside => perform_of_not_mem ?_)
    exact Finset.disjoint_right.1 apart inside

/-- Accesses in disjoint ranges may change places. -/
theorem perform_comm (apart : Disjoint x.range y.range) :
    ((f.perform order x).2.perform order y).2 = ((f.perform order y).2.perform order x).2 := by
  cases x with
  | read => rfl
  | write a value w =>
    cases y with
    | read => rfl
    | write b value' v => exact store_comm apart

end FlatMemory

/-! ## Sparse memories -/

namespace Memory

/-- The addresses of an access, as addresses of 64 bits. -/
theorem window_eq (a : FlatAddress) (w : Width) :
    window a.toNat w = (List.range w.bytes).map fun i => (a + BitVec.ofNat 64 i).toNat := by
  simp only [window, FlatAddress.truncate_add]

/-- Bytes stored at different places are found there, and all else is as it was. -/
theorem peek_foldl_poke (m : Memory) (place : Nat → Nat) (byte : Nat → UInt8) {count : Nat}
    (apart : ∀ i < count, ∀ j < count, place i = place j → i = j) :
    let after := ((List.range count).map fun i => (place i, byte i)).foldl
      (fun m e => m.poke e.1 e.2) m
    after.order = m.order ∧ (∀ i < count, after.peek (place i) = some (byte i)) ∧
      ∀ x, (∀ i < count, x ≠ place i) → after.peek x = m.peek x := by
  induction count with
  | zero => exact ⟨rfl, nofun, fun _ _ => rfl⟩
  | succ count ih =>
    obtain ⟨order, stored, kept⟩ := ih fun i hi j hj => apart i (by omega) j (by omega)
    simp only [List.range_succ, List.map_append, List.foldl_append, List.map_cons, List.map_nil,
      List.foldl_cons, List.foldl_nil]
    refine ⟨order, fun i below => ?_, fun x other => ?_⟩
    · rw [peek_poke]
      split
      · next same => rw [apart i below count (by omega) same]
      · next ne =>
        have ne : i ≠ count := fun e => ne (congrArg place e)
        exact stored i (by omega)
    · rw [peek_poke, if_neg (other count (by omega))]
      exact kept x fun i below => other i (by omega)

/-- A byte that some of the addresses are read at is stored then. -/
theorem peek_foldl_touch (addresses : List Nat) (m : Memory) (x : Nat) :
    (addresses.foldl touch m).peek x =
      if x ∈ addresses then some ((m.peek x).getD 0) else m.peek x := by
  induction addresses generalizing m with
  | nil => simp
  | cons a rest ih =>
    rw [List.foldl_cons, ih, peek_touch]
    by_cases here : x = a
    · subst here
      simp
    · simp [here]

/-! ### Accesses that do not wrap around -/

/-- The number in the bytes from an address on, weighed by their significance. -/
def numberAt (m : Memory) (a : Nat) (w : Width) : Nat :=
  ∑ i ∈ Finset.range w.bytes, ((m.peek (a + i)).getD 0).toNat * 256 ^ m.order.rank w.bytes i

section Inside

variable {m : Memory} {a x : Nat} {w : Width}

/-- An access that ends in time touches addresses one after the other. -/
theorem window_of_le (room : a + w.bytes ≤ 2 ^ 64) :
    window a w = (List.range w.bytes).map (a + ·) := by
  refine List.map_congr_left fun i mem => ?_
  have below := List.mem_range.1 mem
  exact Nat.mod_eq_of_lt (show a + i < 2 ^ 64 by omega)

/-- A number that was loaded fits the width it was loaded at. -/
theorem truncate_load (m : Memory) (a : Nat) (w : Width) :
    w.truncate (m.load a w) = m.load a w := by
  apply Width.truncate_of_lt
  have below := m.order.decode_lt ((window a w).map fun x => (m.peek x).getD 0)
  rwa [List.length_map, window, List.length_map, List.length_range, ← w.modulus_eq_pow_bytes]
    at below

/-- What is loaded before the end of memory is the number in the bytes there. -/
theorem load_of_le (room : a + w.bytes ≤ 2 ^ 64) : m.load a w = m.numberAt a w := by
  rw [load, window_of_le room, List.map_map]
  exact ByteOrder.decode_eq_sum m.order (fun i => (m.peek (a + i)).getD 0) w.bytes

/-- A read stores zeros where nothing is stored yet. -/
theorem peek_read (room : a + w.bytes ≤ 2 ^ 64) (x : Nat) :
    (m.read a w).2.peek x =
      if a ≤ x ∧ x < a + w.bytes then some ((m.peek x).getD 0) else m.peek x := by
  have inside : x ∈ window a w ↔ a ≤ x ∧ x < a + w.bytes := by
    rw [window_of_le room, List.mem_map]
    constructor
    · intro found
      obtain ⟨i, mem, rfl⟩ := found
      have below := List.mem_range.1 mem
      omega
    · intro between
      exact ⟨x - a, List.mem_range.2 (by omega), by omega⟩
  rw [read, peek_foldl_touch]
  simp only [inside]

/-- A write stores the low bytes of a number. -/
theorem write_of_le (room : a + w.bytes ≤ 2 ^ 64) (value : Nat) :
    (m.write a value w).order = m.order ∧ ∀ x, (m.write a value w).peek x =
      if a ≤ x ∧ x < a + w.bytes then
        some (UInt8.ofNat (value / 256 ^ m.order.rank w.bytes (x - a)))
      else m.peek x := by
  have written : m.write a value w = ((List.range w.bytes).map fun i =>
      (a + i, UInt8.ofNat (value / 256 ^ m.order.rank w.bytes i))).foldl
        (fun m e => m.poke e.1 e.2) m := by
    rw [write, window_of_le room, ByteOrder.encode_eq_map, List.zip_map']
  have apart : ∀ i < w.bytes, ∀ j < w.bytes, a + i = a + j → i = j :=
    fun i _ j _ => Nat.add_left_cancel
  obtain ⟨order, stored, kept⟩ := m.peek_foldl_poke (a + ·)
    (fun i => UInt8.ofNat (value / 256 ^ m.order.rank w.bytes i)) apart
  rw [← written] at order stored kept
  refine ⟨order, fun x => ?_⟩
  split
  · next between =>
    have at_index := stored (x - a) (by omega)
    rwa [Nat.add_sub_cancel' between.1] at at_index
  · next outside => exact kept x fun i below => by omega

/-- Only the low bytes of a number are written. -/
theorem write_truncate (value : Nat) : m.write a (w.truncate value) w = m.write a value w := by
  rw [write, write, Width.truncate, w.modulus_eq_pow_bytes, ByteOrder.encode_mod]

end Inside

/-- A memory is determined by its byte order and its bytes. -/
theorem ext_peek {m m' : Memory} (order : m.order = m'.order) (h : ∀ a, m.peek a = m'.peek a) :
    m = m' := by
  cases m
  cases m'
  cases order
  exact congrArg (Memory.mk · _) (SortedMap.ext_get? h)

end Memory

/-! ## Sparse memories that hold the bytes of an array -/

/-- The sparse memory `m` holds the bytes of `f`, and `T` are the addresses touched so far. -/
structure Tracks (order : ByteOrder) (m : Memory) (f : FlatMemory) (T : Finset FlatAddress) :
    Prop where
  order : m.order = order
  peek : ∀ a : FlatAddress, m.peek a.toNat = if a ∈ T then some (f a) else none
  inside : ∀ {a b}, m.peek a = some b → a < 2 ^ 64
  blank : ∀ {a}, a ∉ T → f a = 0

namespace Tracks

variable {order : ByteOrder} {m m' : Memory} {f : FlatMemory} {T : Finset FlatAddress}

/-- An empty memory tracks zeros, and nothing is touched. -/
theorem start (order : ByteOrder) : Tracks order (.empty order) .zero ∅ where
  order := rfl
  peek _ := rfl
  inside h := by cases h
  blank _ := rfl

/-- A byte that is not stored reads as the zero that the array has there. -/
theorem getD_peek (h : Tracks order m f T) (a : FlatAddress) : (m.peek a.toNat).getD 0 = f a := by
  rw [h.peek]
  split
  · rfl
  · next absent => exact (h.blank absent).symm

/-- What is loaded is the number in the array. -/
theorem load (h : Tracks order m f T) (a : FlatAddress) (w : Width) :
    m.load a.toNat w = f.number order a w := by
  rw [Memory.load, Memory.window_eq, List.map_map, h.order]
  simp only [Function.comp_def, h.getD_peek]
  exact ByteOrder.decode_eq_sum order (fun i => f (a + BitVec.ofNat 64 i)) w.bytes

/-- A read touches its range. -/
theorem read (h : Tracks order m f T) (a : FlatAddress) (w : Width) :
    Tracks order (m.read a.toNat w).2 f (T ∪ a.range w) := by
  have found : ∀ x, x ∈ Memory.window a.toNat w ↔ ∃ y ∈ a.range w, y.toNat = x := by
    intro x
    simp [Memory.window_eq, FlatAddress.range]
  refine ⟨?_, fun x => ?_, fun {x b} there => ?_, fun outside => h.blank fun inside => ?_⟩
  · rw [Memory.read, Memory.order_foldl_touch, h.order]
  · have here : x.toNat ∈ Memory.window a.toNat w ↔ x ∈ a.range w := by
      rw [found]
      constructor
      · intro found
        obtain ⟨y, mem, same⟩ := found
        rwa [← BitVec.eq_of_toNat_eq same]
      · intro mem
        exact ⟨x, mem, rfl⟩
    rw [Memory.read, Memory.peek_foldl_touch, h.getD_peek, h.peek]
    simp only [here, Finset.mem_union]
    by_cases old : x ∈ T <;> by_cases new : x ∈ a.range w <;> simp [old, new]
  · rw [Memory.read, Memory.peek_foldl_touch] at there
    split at there
    · next mem =>
      obtain ⟨y, -, rfl⟩ := (found x).1 mem
      exact y.isLt
    · exact h.inside there
  · exact outside (Finset.mem_union_left _ inside)

/-- A write stores and touches its range. -/
theorem write (h : Tracks order m f T) (a : FlatAddress) (value : Nat) (w : Width) :
    Tracks order (m.write a.toNat value w) (f.store order a value w) (T ∪ a.range w) := by
  -- the range is shorter than the address space, so it does not meet itself
  have apart : ∀ i < w.bytes, ∀ j < w.bytes,
      (a + BitVec.ofNat 64 i).toNat = (a + BitVec.ofNat 64 j).toNat → i = j := by
    intro i hi j hj same
    rw [← FlatAddress.toNat_sub_start (a := a) hi, BitVec.eq_of_toNat_eq same,
      FlatAddress.toNat_sub_start hj]
  have written : m.write a.toNat value w = ((List.range w.bytes).map fun i =>
      ((a + BitVec.ofNat 64 i).toNat, UInt8.ofNat (value / 256 ^ order.rank w.bytes i))).foldl
        (fun m e => m.poke e.1 e.2) m := by
    rw [Memory.write, Memory.window_eq, ByteOrder.encode_eq_map, List.zip_map', h.order]
  obtain ⟨same, stored, kept⟩ := m.peek_foldl_poke _
    (fun i => UInt8.ofNat (value / 256 ^ order.rank w.bytes i)) apart
  rw [← written] at same stored kept
  -- a number that is no address of the range, or no address at all, keeps its byte
  have outside : ∀ {x : Nat}, (∀ y ∈ a.range w, y.toNat ≠ x) →
      (m.write a.toNat value w).peek x = m.peek x := by
    intro x other
    refine kept x fun i below e => other _ (Finset.mem_image_of_mem _ ?_) e.symm
    exact Finset.mem_range.2 below
  refine ⟨same.trans h.order, fun x => ?_, fun {x b} there => ?_, fun {x} untouched => ?_⟩
  · by_cases new : x ∈ a.range w
    · obtain ⟨i, below, rfl⟩ := Finset.mem_image.1 new
      have below := Finset.mem_range.1 below
      rw [stored i below, FlatMemory.store_start below, if_pos (Finset.mem_union_right _ new)]
    · have elsewhere : ∀ y ∈ a.range w, y.toNat ≠ x.toNat := fun y mem same =>
        new (BitVec.eq_of_toNat_eq same ▸ mem)
      rw [outside elsewhere, h.peek, FlatMemory.store_of_not_mem new]
      simp [new]
  · by_cases range : ∃ y ∈ a.range w, y.toNat = x
    · obtain ⟨y, -, rfl⟩ := range
      exact y.isLt
    · rw [outside fun y mem e => range ⟨y, mem, e⟩] at there
      exact h.inside there
  · rw [FlatMemory.store_of_not_mem fun new => untouched (Finset.mem_union_right _ new)]
    exact h.blank fun old => untouched (Finset.mem_union_left _ old)

/-- An access answers what the array answers, and touches its range. -/
theorem perform (h : Tracks order m f T) (access : Access) :
    (m.perform access).1 = (f.perform order access).1 ∧
      Tracks order (m.perform access).2 (f.perform order access).2 (T ∪ access.range) := by
  cases access with
  | read a w => exact ⟨congrArg some (h.load a w), h.read a w⟩
  | write a value w => exact ⟨rfl, h.write a value w⟩

/-- Accesses answer what the array answers, and touch their ranges. -/
theorem performAll (h : Tracks order m f T) (accesses : List Access) :
    (m.performAll accesses).1 = (f.performAll order accesses).1 ∧
      Tracks order (m.performAll accesses).2 (f.performAll order accesses).2
        (T ∪ touched accesses) := by
  induction accesses generalizing m f T with
  | nil => exact ⟨rfl, (Finset.union_empty T).symm ▸ h⟩
  | cons access rest ih =>
    obtain ⟨answer, after⟩ := h.perform access
    obtain ⟨answers, last⟩ := ih after
    refine ⟨?_, ?_⟩
    · simp only [Memory.performAll, FlatMemory.performAll, answer, answers]
    · rw [Finset.union_assoc] at last
      exact last

/-- The array and the touched addresses determine the sparse memory. -/
theorem unique (h : Tracks order m f T) (h' : Tracks order m' f T) : m = m' := by
  refine Memory.ext_peek (h.order.trans h'.order.symm) fun a => ?_
  by_cases inside : a < 2 ^ 64
  · have same : (BitVec.ofNat 64 a).toNat = a := by
      rw [BitVec.toNat_ofNat, Nat.mod_eq_of_lt inside]
    rw [← same, h.peek, h'.peek]
  · have nothing : ∀ {m : Memory}, (∀ {b}, m.peek a = some b → a < 2 ^ 64) → m.peek a = none :=
      fun bounded => Option.eq_none_iff_forall_ne_some.2 fun _ there => inside (bounded there)
    rw [nothing h.inside, nothing h'.inside]

/-- There are as many bytes as addresses were touched. -/
theorem size (h : Tracks order m f T) : m.size = T.card := by
  have found : ∀ a, a ∈ m.bytes.keys ↔ ∃ b, m.peek a = some b := fun a => by
    rw [SortedMap.mem_keys_iff, SortedMap.contains_iff]
    rfl
  -- the keys are the addresses that were touched, each of them once
  have distinct : m.bytes.keys.Nodup := m.bytes.keys_increasing.imp fun {a b} less same => by
    rw [same, Nat.compare_eq_lt] at less
    omega
  have keys : m.bytes.keys.toFinset = T.image BitVec.toNat := by
    ext a
    rw [List.mem_toFinset, found, Finset.mem_image]
    constructor
    · intro there
      obtain ⟨b, there⟩ := there
      have same : (BitVec.ofNat 64 a).toNat = a := by
        rw [BitVec.toNat_ofNat, Nat.mod_eq_of_lt (h.inside there)]
      refine ⟨BitVec.ofNat 64 a, ?_, same⟩
      rw [← same, h.peek] at there
      split at there
      · next mem => exact mem
      · cases there
    · intro mem
      obtain ⟨x, mem, rfl⟩ := mem
      exact ⟨f x, by rw [h.peek, if_pos mem]⟩
  calc m.size = m.bytes.keys.length := by simp [Memory.size, SortedMap.size, SortedMap.keys]
    _ = m.bytes.keys.toFinset.card := (List.toFinset_card_of_nodup distinct).symm
    _ = T.card := by
      rw [keys, Finset.card_image_of_injective _ fun _ _ => BitVec.eq_of_toNat_eq]

end Tracks

/--
Any sequence of accesses to a memory that nothing has touched: every read answers the number that
the array of all bytes has there, the memory counts the addresses in the ranges of the accesses, and
it holds the bytes of the array at just these addresses. Thereafter a number that is written reads
back as its low part, and accesses in disjoint ranges change neither each other's answers nor, by
their order, the memory.
-/
theorem memory_is_flat (order : ByteOrder) (accesses : List Access) :
    let (answers, m) := (Memory.empty order).performAll accesses
    let (flatAnswers, f) := FlatMemory.zero.performAll order accesses
    answers = flatAnswers ∧ m.size = (touched accesses).card ∧
      (∀ a : FlatAddress, m.peek a.toNat = if a ∈ touched accesses then some (f a) else none) ∧
      (∀ (a : FlatAddress) (value : Nat) (w : Width),
        ((m.write a.toNat value w).read a.toNat w).1 = w.truncate value) ∧
      ∀ {x y : Access}, Disjoint x.range y.range →
        ((m.perform x).2.perform y).1 = (m.perform y).1 ∧
          ((m.perform x).2.perform y).2 = ((m.perform y).2.perform x).2 := by
  obtain ⟨answers, tracks⟩ := (Tracks.start order).performAll accesses
  rw [Finset.empty_union] at tracks
  refine ⟨answers, tracks.size, tracks.peek, fun a value w => ?_, fun {x y} apart => ⟨?_, ?_⟩⟩
  · exact ((tracks.write a value w).load a w).trans FlatMemory.number_store
  · rw [((tracks.perform x).2.perform y).1, (tracks.perform y).1, FlatMemory.answer_perform apart]
  · have first := ((tracks.perform x).2.perform y).2
    have second := ((tracks.perform y).2.perform x).2
    rw [FlatMemory.perform_comm apart, Finset.union_right_comm] at first
    exact first.unique second

end RegisterTransfer

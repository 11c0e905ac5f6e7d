import Mathlib.Data.List.Basic
import Mathlib.Algebra.Group.Nat.Basic

/-!
# Go runtime behaviour used by the model

A Go call returns, panics, or, when a loop over a wrapping `uint64` counter never meets
its exit test, runs forever; `Exec` records which. Go's `uint64` is Lean's `UInt64`.
The lemmas at the end move its order and its wrapping successor to `Nat`, so that the
arithmetic of the later modules is closed by `omega`.
-/

namespace Rollmint

/-- The outcome of a Go call: a returned value, a panic with its message, or no return. -/
inductive Exec (α : Type) where
  | ret (a : α)
  | panic (msg : String)
  | diverge
  deriving DecidableEq, Repr

namespace Exec

variable {α β : Type}

def bind : Exec α → (α → Exec β) → Exec β
  | ret a, f => f a
  | panic msg, _ => panic msg
  | diverge, _ => diverge

instance : Monad Exec where
  pure := ret
  bind := bind

@[simp] theorem pure_eq (a : α) : (pure a : Exec α) = ret a := rfl

@[simp] theorem ret_bind (a : α) (f : α → Exec β) : (ret a >>= f) = f a := rfl

@[simp] theorem panic_bind (msg : String) (f : α → Exec β) :
    (panic msg >>= f) = panic msg := rfl

@[simp] theorem map_ret (f : α → β) (a : α) : (f <$> ret a : Exec β) = ret (f a) := rfl

@[simp] theorem map_panic (f : α → β) (msg : String) :
    (f <$> panic msg : Exec β) = panic msg := rfl

end Exec

/-- The message of Go's index-out-of-range runtime panic. -/
def indexOutOfRange (i len : Nat) : String :=
  "runtime error: index out of range [" ++ toString i ++ "] with length " ++ toString len

/-- Reading `xs[i]` of a Go slice. -/
def sliceGet {α : Type} (xs : List α) (i : Nat) : Exec α :=
  match xs[i]? with
  | some a => .ret a
  | none => .panic (indexOutOfRange i xs.length)

/-- Assigning `xs[i] = v` to a Go slice of length `xs.length`. -/
def sliceSet {α : Type} (xs : List α) (i : Nat) (v : α) : Exec (List α) :=
  if i < xs.length then .ret (xs.set i v) else .panic (indexOutOfRange i xs.length)

theorem sliceGet_of_lt {α : Type} {xs : List α} {i : Nat} (h : i < xs.length) :
    sliceGet xs i = .ret (xs.get ⟨i, h⟩) := by
  simp [sliceGet, List.getElem?_eq_getElem h]

theorem sliceGet_of_le {α : Type} {xs : List α} {i : Nat} (h : xs.length ≤ i) :
    sliceGet xs i = .panic (indexOutOfRange i xs.length) := by
  simp [sliceGet, List.getElem?_eq_none h]

theorem sliceSet_of_le {α : Type} {xs : List α} {i : Nat} (v : α) (h : xs.length ≤ i) :
    sliceSet xs i v = .panic (indexOutOfRange i xs.length) := by
  simp [sliceSet, Nat.not_lt.mpr h]

/-- `maxAlloc` of the runtime on 64-bit Linux: `1 << heapAddrBits`, with 48 address bits. -/
def maxAlloc : Nat := 2 ^ 48

/-- The message of `panicmakeslicecap`. -/
def capOutOfRange : String := "runtime error: makeslice: cap out of range"

/-- The check `makeslice` makes for `make([]T, 0, c)` with elements of `size` bytes: it panics
when the slice would need more than `maxAlloc` bytes (a `uint64` capacity of `2^63` or more,
negative as an `int`, is among these). The allocation after the check, which can still run
out of memory, is not modelled. -/
def makeSlice (size c : Nat) : Exec Unit :=
  if size * c ≤ maxAlloc then .ret () else .panic capOutOfRange

theorem makeSlice_of_le {size c : Nat} (h : size * c ≤ maxAlloc) : makeSlice size c = .ret () :=
  if_pos h

theorem makeSlice_of_lt {size c : Nat} (h : maxAlloc < size * c) :
    makeSlice size c = .panic capOutOfRange :=
  if_neg (Nat.not_le.mpr h)

/-! ## `uint64` arithmetic -/

/-- Go's `math.MaxUint64`. -/
def maxUint64 : Nat := 2 ^ 64 - 1

theorem uint64_le_iff {a b : UInt64} : a ≤ b ↔ a.toNat ≤ b.toNat := Iff.rfl

theorem uint64_lt_iff {a b : UInt64} : a < b ↔ a.toNat < b.toNat := Iff.rfl

theorem uint64_eq_iff {a b : UInt64} : a = b ↔ a.toNat = b.toNat :=
  ⟨congrArg _, UInt64.toNat.inj⟩

theorem uint64_toNat_le (a : UInt64) : a.toNat ≤ maxUint64 := by
  have := a.toNat_lt_size
  simp only [maxUint64, UInt64.size] at *
  omega

theorem uint64_toNat_add (a b : UInt64) : (a + b).toNat = (a.toNat + b.toNat) % 2 ^ 64 :=
  BitVec.toNat_add ..

@[simp] theorem uint64_toNat_one : (1 : UInt64).toNat = 1 := rfl

theorem uint64_toNat_add_one (a : UInt64) :
    (a + 1).toNat = if a.toNat = maxUint64 then 0 else a.toNat + 1 := by
  have := uint64_toNat_le a
  rw [uint64_toNat_add, uint64_toNat_one]
  split <;> simp only [maxUint64] at * <;> omega

theorem uint64_toNat_ofNat (n : Nat) : (UInt64.ofNat n).toNat = n % 2 ^ 64 :=
  BitVec.toNat_ofNat ..

theorem uint64_ofNat_toNat (v : UInt64) : UInt64.ofNat v.toNat = v := by
  have := uint64_toNat_le v
  simp only [maxUint64] at this
  exact uint64_eq_iff.mpr (by rw [uint64_toNat_ofNat]; omega)

/-! ## `encoding/binary` -/

def littleEndianValue (b : List UInt8) : Nat :=
  b.foldr (fun x acc => x.toNat + 256 * acc) 0

/-- `binary.LittleEndian.Uint64(b)`: the first eight bytes, least significant first. Go reads
`b[7]` before anything else and panics on a shorter slice. -/
def littleEndianUint64 (b : List UInt8) : Exec UInt64 :=
  if 8 ≤ b.length then .ret (UInt64.ofNat (littleEndianValue (b.take 8)))
  else .panic (indexOutOfRange 7 b.length)

/-- `binary.LittleEndian.PutUint64(b, v)`: byte `i` is `byte(v >> (8*i))`. -/
def putUint64 (v : UInt64) : List UInt8 :=
  (List.range 8).map fun i => UInt8.ofNat (v.toNat / 256 ^ i)

@[simp] theorem length_putUint64 (v : UInt64) : (putUint64 v).length = 8 := by
  simp [putUint64]

theorem littleEndianValue_putUint64 (v : UInt64) : littleEndianValue (putUint64 v) = v.toNat := by
  have hv := uint64_toNat_le v
  simp only [maxUint64] at hv
  simp [putUint64, littleEndianValue, List.range_succ, UInt8.toNat, UInt8.ofNat,
    BitVec.toNat_ofNat]
  omega

theorem littleEndianUint64_of_take {b : List UInt8} {v : UInt64} (h : b.take 8 = putUint64 v) :
    littleEndianUint64 b = .ret v := by
  have hlen : 8 ≤ b.length := by
    have := congrArg List.length h
    simp only [List.length_take, length_putUint64] at this
    omega
  rw [littleEndianUint64, if_pos hlen, h, littleEndianValue_putUint64, uint64_ofNat_toNat]

end Rollmint

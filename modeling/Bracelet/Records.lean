import Mathlib.Tactic

/-!
# Words and records

Fixed-width data as bytes.  `leBytes` and `ofLE` are the little-endian encoding of
a number in a given count of bytes; a `RecordFormat` is a fixed-width encoding
together with its round trip, and `RecordFormat.read` is the reader loop that
consumes whole records until fewer bytes than one record are left.
-/
namespace Bracelet

/-! ## Little-endian words -/

/-- The low `k` bytes of `x`, least significant first. -/
def leBytes : Nat → Nat → List UInt8
  | 0, _ => []
  | k + 1, x => UInt8.ofNat x :: leBytes k (x / 256)

/-- The number whose bytes, least significant first, are given. -/
def ofLE : List UInt8 → Nat
  | [] => 0
  | b :: bs => b.toNat + 256 * ofLE bs

@[simp] theorem length_leBytes (k x : Nat) : (leBytes k x).length = k := by
  induction k generalizing x with
  | zero => rfl
  | succ k ih => simp [leBytes, ih]

@[simp] theorem ofLE_leBytes (k x : Nat) : ofLE (leBytes k x) = x % 256 ^ k := by
  induction k generalizing x with
  | zero => simp [leBytes, ofLE, Nat.mod_one]
  | succ k ih =>
    rw [leBytes, ofLE, ih, pow_succ', Nat.mod_mul]
    simp

/-! ## Records -/

/-- A fixed-width encoding that can be read back. -/
structure RecordFormat (α : Type) where
  size : Nat
  pack : α → List UInt8
  unpack : List UInt8 → α
  size_pos : 0 < size
  length_pack : ∀ a, (pack a).length = size
  unpack_pack : ∀ a, unpack (pack a) = a

namespace RecordFormat
variable {α : Type} (F : RecordFormat α)

/-- Reading whole records from the front until a read comes up short. -/
def read (file : List UInt8) : List α :=
  if file.length < F.size then []
  else F.unpack (file.take F.size) :: read (file.drop F.size)
termination_by file.length
decreasing_by
  have := F.size_pos
  simp only [List.length_drop]
  omega

theorem read_short {file : List UInt8} (h : file.length < F.size) : F.read file = [] := by
  rw [read, if_pos h]

theorem read_pack_append (a : α) (file : List UInt8) :
    F.read (F.pack a ++ file) = a :: F.read file := by
  have hlen := F.length_pack a
  rw [read, if_neg (by simp [hlen]), List.take_left' hlen, List.drop_left' hlen, F.unpack_pack]

/-- **A file of records is read back.** -/
@[simp] theorem read_flatMap_pack (as : List α) : F.read (as.flatMap F.pack) = as := by
  induction as with
  | nil => exact F.read_short F.size_pos
  | cons a as ih => rw [List.flatMap_cons, read_pack_append, ih]

end RecordFormat
end Bracelet

/-
Oxiscale/BigEndian.lean

Numbers as bytes, the most significant first.
-/
import Mathlib.Algebra.Group.Nat.Defs
import Mathlib.Data.List.Induction
import Mathlib.Data.Nat.Notation

namespace BigEndian

/-- The `width` lowest bytes of a number. -/
def bytes : ℕ → ℕ → List UInt8
  | 0, _ => []
  | width + 1, n => bytes width (n / 256) ++ [UInt8.ofNat (n % 256)]

/-- The number some bytes stand for. -/
def value (l : List UInt8) : ℕ := l.foldl (fun n b => n * 256 + b.toNat) 0

variable {l : List UInt8} {width n : ℕ}

@[simp] theorem length_bytes : (bytes width n).length = width := by
  induction width generalizing n with
  | zero => rfl
  | succ width ih => rw [bytes, List.length_append, ih, List.length_singleton]

theorem value_snoc {b : UInt8} : value (l ++ [b]) = value l * 256 + b.toNat := by
  rw [value, List.foldl_append]
  rfl

/-- What fits in the bytes. -/
theorem value_lt : value l < 256 ^ l.length := by
  induction l using List.reverseRecOn with
  | nil => exact Nat.one_pos
  | append_singleton l b ih =>
      have hb := b.toNat_lt
      rw [value_snoc, List.length_append, List.length_singleton, Nat.pow_succ]
      omega

/-- The bytes keep the number as far as they can. -/
theorem value_bytes : value (bytes width n) = n % 256 ^ width := by
  induction width generalizing n with
  | zero => exact (Nat.mod_one n).symm
  | succ width ih =>
      have hb : (UInt8.ofNat (n % 256)).toNat = n % 256 :=
        UInt8.toNat_ofNat_of_lt' (Nat.mod_lt _ (by decide))
      rw [bytes, value_snoc, ih, hb, Nat.pow_succ, Nat.mul_comm (256 ^ width), Nat.mod_mul]
      omega

/-- **Bytes are the bytes of their value.** -/
theorem bytes_value : bytes l.length (value l) = l := by
  induction l using List.reverseRecOn with
  | nil => rfl
  | append_singleton l b ih =>
      have hb := b.toNat_lt
      rw [List.length_append, List.length_singleton, bytes, value_snoc,
        show (value l * 256 + b.toNat) / 256 = value l by omega,
        show (value l * 256 + b.toNat) % 256 = b.toNat by omega, ih, UInt8.ofNat_toNat]

end BigEndian

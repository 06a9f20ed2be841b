/-
Oxiscale/Poll.lean

What the byte stream of the `noise` crate is written against: `Poll`, the
`bytes::Buf` of a received chunk, `tokio::io::ReadBuf`, and inner streams.

An inner `Stream` is known by its answers only, so it is the list of the
answers it is going to give.  A call can then fail to return in two ways
(`Halt`): it panics, or it polls the stream after the last answer.
-/
import Oxiscale.Bytes
import Oxiscale.Types

namespace Oxiscale

/-! ### Calls that may not return -/

inductive Poll (α : Type)
  | pending
  | ready (a : α)

/-- Why a call has not returned. -/
inductive Halt
  | panic
  | starved
deriving DecidableEq

abbrev Checked := Except Halt

/-- `unwrap` and `expect`. -/
def unwrap {α : Type} : Option α → Checked α
  | none => .error .panic
  | some a => .ok a

/-- `bytes[i]`. -/
def index (bytes : Bytes) (i : ℕ) : Checked UInt8 := unwrap bytes[i]?

/-- `&bytes[start..stop]`. -/
def slice (bytes : Bytes) (start stop : ℕ) : Checked Bytes :=
  if start ≤ stop ∧ stop ≤ bytes.length then .ok ((bytes.take stop).drop start)
  else .error .panic

/-- `&bytes[..len]`. -/
def sliceTo (bytes : Bytes) (len : ℕ) : Checked Bytes := slice bytes 0 len

/-! ### Chunks -/

/-- The `Buf` contract.  `content` is what is left to read; `chunk` shows a
piece of it, which need not be all. -/
class Buf (B : Type) where
  remaining : B → ℕ
  chunk : B → Bytes
  advance : ℕ → B → Checked B
  content : B → Bytes
  remaining_eq : ∀ b, remaining b = (content b).length
  chunk_prefix : ∀ b, chunk b <+: content b
  chunk_ne_nil : ∀ b, 0 < remaining b → chunk b ≠ []
  advance_ok : ∀ n b, n ≤ remaining b →
    ∃ b', advance n b = .ok b' ∧ content b' = (content b).drop n

/-- `BytesMut`: one contiguous piece. -/
instance : Buf Bytes where
  remaining := List.length
  chunk := id
  advance n bytes := if n ≤ bytes.length then .ok (bytes.drop n) else .error .panic
  content := id
  remaining_eq _ := rfl
  chunk_prefix bytes := List.prefix_refl bytes
  chunk_ne_nil _ := List.ne_nil_of_length_pos
  advance_ok n bytes h := ⟨bytes.drop n, if_pos h, rfl⟩

/-! ### Read buffers -/

/-- What has been filled in and how much still fits. -/
structure ReadBuf where
  filled : Bytes
  remaining : ℕ

/-- `put_slice` panics on more than fits. -/
def ReadBuf.putSlice (buf : ReadBuf) (bytes : Bytes) : Checked ReadBuf :=
  if bytes.length ≤ buf.remaining then .ok ⟨buf.filled ++ bytes, buf.remaining - bytes.length⟩
  else .error .panic

/-! ### Inner streams -/

/-- What `poll_next` may return. -/
abbrev Answer (B E : Type) := Poll (Option (Except E B))

/-- `E: Into<std::io::Error>`. -/
class IntoIoError (E : Type) where
  into : E → IoError

instance : IntoIoError IoError := ⟨id⟩

end Oxiscale

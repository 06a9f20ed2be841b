/-
Oxiscale/Reader.lean

Callers of the read side of `FramedIo`, in any order of their calls.

A caller reads with `poll_read`, or looks at a slice with `poll_fill_buf` and
takes bytes off it with `consume`.  `Reader` keeps what is left of the slice
that was handed out last, and `Within` is the caller's part: a direct
`consume` does not go beyond it.  The slice is then always the front of what
is unread (`Held`), in every order of calls, and this is what the unwraps and
the slicing of the source rest on.

The loop of `poll_fill_buf` ends with the first answer that is not an empty
chunk (`toTake`), so only the inner stream can keep it going
(`read_side_safe`).
-/
import Mathlib.Data.List.TakeWhile
import Oxiscale.Framed
import Oxiscale.Runs

namespace Oxiscale

/-! ### Callers -/

inductive ReadCall
  | pollRead (buf : ReadBuf)
  | pollFillBuf
  | consume (amt : ℕ)

/-- The read side, and what was not consumed of the slice that `poll_fill_buf`
has handed out last. -/
structure Reader (B E : Type) where
  io : FramedIo (List (Answer B E)) B
  slice : Bytes

/-- The slice that a `poll_fill_buf` returns, if it returns one. -/
def handedOut : Poll (Except IoError Bytes) → Bytes
  | .ready (.ok slice) => slice
  | _ => []

namespace Reader

def start {B E : Type} (answers : List (Answer B E)) : Reader B E := ⟨.new answers, []⟩

/-- A direct `consume` takes no more than is left of the slice. -/
def Within {B E : Type} (s : Reader B E) : ReadCall → Prop
  | .consume amt => amt ≤ s.slice.length
  | _ => True

variable {B E : Type} [Buf B] [IntoIoError E]

/-- A call.  What `poll_read` fills in is consumed as well. -/
def step (s : Reader B E) : ReadCall → Checked (Reader B E)
  | .pollRead buf => do
    let (_, buf', io) ← s.io.pollRead buf
    return ⟨io, s.slice.drop (buf'.filled.length - buf.filled.length)⟩
  | .pollFillBuf => do
    let (r, io) ← s.io.pollFillBuf
    return ⟨io, handedOut r⟩
  | .consume amt => do
    let io ← s.io.consume amt
    return ⟨io, s.slice.drop amt⟩

/-- The state after a call that returns. -/
def returned (s : Reader B E) (c : ReadCall) : Option (Reader B E) := (s.step c).toOption

end Reader

/-! ### How many answers a fill takes -/

section Polling

variable {B E : Type} [Buf B] [IntoIoError E]

def isEmptyChunk : Answer B E → Bool
  | .ready (some (.ok chunk)) => Buf.remaining chunk = 0
  | _ => false

namespace FramedIo

/-- None while there are unread bytes, and otherwise one more than there are
empty chunks in front. -/
def toTake (io : FramedIo (List (Answer B E)) B) : ℕ :=
  if io.unread ≠ [] then 0 else (io.inner.takeWhile isEmptyChunk).length + 1

variable {io : FramedIo (List (Answer B E)) B}

omit [IntoIoError E] in
theorem isEmptyChunk_iff {a : Answer B E} : isEmptyChunk a = true ↔ EmptyChunk a := by
  rcases a with _ | _ | e | chunk <;> simp [isEmptyChunk, EmptyChunk]

omit [IntoIoError E] in
/-- The first answer that is not an empty chunk is the last one taken. -/
theorem toTake_of_unread_eq_nil {empties rest : List (Answer B E)} {a : Answer B E}
    (hunread : io.unread = []) (hinner : io.inner = empties ++ a :: rest)
    (hempties : ∀ e ∈ empties, EmptyChunk e) (ha : ¬ EmptyChunk a) :
    io.toTake = empties.length + 1 := by
  have hpos : ∀ e ∈ empties, isEmptyChunk e = true :=
    fun e he => isEmptyChunk_iff.mpr (hempties e he)
  have hneg : ¬ isEmptyChunk a = true := fun h => ha (isEmptyChunk_iff.mp h)
  rw [toTake, if_neg (not_not.mpr hunread), hinner, List.takeWhile_append_of_pos hpos,
    List.takeWhile_cons_of_neg hneg, List.append_nil]

/-- **Filling.**  A fill that returns has taken `toTake` answers. -/
theorem inner_pollFillBuf {r : Poll (Except IoError Bytes)}
    {io' : FramedIo (List (Answer B E)) B} (h : pollFillBuf io = .ok (r, io')) :
    io.toTake ≤ io.inner.length ∧ io'.inner = io.inner.drop io.toTake := by
  rcases fillLoop_takes h with ⟨hchunk, rfl, -⟩ | ⟨hchunk, empties, a, hinner, hempties, ha⟩
  · have hnone : io.toTake = 0 := if_pos (unread_ne_nil_iff.mpr hchunk)
    rw [hnone]
    exact ⟨Nat.zero_le _, rfl⟩
  · rw [toTake_of_unread_eq_nil (unread_eq_nil hchunk) hinner hempties ha, hinner]
    constructor
    · rw [List.length_append, List.length_cons]
      omega
    · rw [← List.drop_drop, List.drop_left]
      rfl

/-- A fill returns as soon as there are that many answers. -/
theorem pollFillBuf_returns (h : io.toTake ≤ io.inner.length) :
    ∃ r io', pollFillBuf io = .ok (r, io') := by
  rcases pollFillBuf_spec io with ⟨r, io', hfill, -⟩ | ⟨hfill, -⟩
  · exact ⟨r, io', hfill⟩
  · -- every answer is an empty chunk, so one is missing
    obtain ⟨hchunk, hempties⟩ := emptyChunk_of_starved hfill
    have hall : io.inner.takeWhile isEmptyChunk = io.inner :=
      List.takeWhile_eq_self_iff.mpr fun a ha => isEmptyChunk_iff.mpr (hempties a ha)
    have hunread : io.unread = [] := unread_eq_nil hchunk
    rw [toTake, if_neg (not_not.mpr hunread), hall] at h
    omega

/-- A read takes off the unread bytes what it fills in. -/
theorem unread_pollRead {buf buf' : ReadBuf} {r : Poll (Except IoError Unit)}
    {io' : FramedIo (List (Answer B E)) B} (hunread : io.unread ≠ [])
    (h : pollRead buf io = .ok (r, buf', io')) :
    io'.unread = io.unread.drop (buf'.filled.length - buf.filled.length) := by
  rcases Nat.eq_zero_or_pos buf.remaining with hzero | hpos
  · cases (pollRead_zero hzero).symm.trans h
    rw [Nat.sub_self]
    rfl
  · obtain ⟨chunk, hchunk, -, hfill⟩ := fillLoop_of_hasChunk (unread_ne_nil_iff.mp hunread)
    obtain ⟨io'', hread, -, hrest⟩ := pollRead_of_chunk hpos hfill hchunk
    cases hread.symm.trans h
    rw [hrest, List.length_append, Nat.add_sub_cancel_left, List.length_take,
      Nat.min_eq_left (min_le_left _ _)]

end FramedIo

end Polling

/-! ### The invariant -/

namespace Reader

variable {B E : Type} [Buf B] [IntoIoError E] {s t : Reader B E} {c : ReadCall}

/-- What is left of the slice is in front of the unread bytes. -/
def Held (s : Reader B E) : Prop := s.slice <+: s.io.unread

omit [IntoIoError E] in
theorem Held.start (answers : List (Answer B E)) : (start answers).Held := List.nil_prefix

/-- A read leaves nothing handed out. -/
theorem Held.pollRead (h : s.Held) (buf : ReadBuf) :
    (∃ t, s.step (.pollRead buf) = .ok t ∧ t.Held) ∨ s.step (.pollRead buf) = .error .starved := by
  rcases FramedIo.pollRead_spec buf s.io with ⟨r, buf', io', hread, -⟩ | ⟨hread, -⟩
  · refine Or.inl ⟨⟨io', _⟩, by rw [step, hread]; rfl, ?_⟩
    show s.slice.drop (buf'.filled.length - buf.filled.length) <+: io'.unread
    by_cases hslice : s.slice = []
    · rw [hslice, List.drop_nil]
      exact List.nil_prefix
    · -- with a slice there are unread bytes, and the read starts with them
      have hunread : s.io.unread ≠ [] := fun hnil => hslice (List.prefix_nil.mp (hnil ▸ h))
      rw [FramedIo.unread_pollRead hunread hread]
      exact h.drop _
  · exact Or.inr (by rw [step, hread]; rfl)

theorem Held.pollFillBuf (s : Reader B E) :
    (∃ t, s.step .pollFillBuf = .ok t ∧ t.Held) ∨ s.step .pollFillBuf = .error .starved := by
  rcases FramedIo.pollFillBuf_spec s.io with ⟨r, io', hfill, hfills⟩ | ⟨hfill, -⟩
  · refine Or.inl ⟨⟨io', handedOut r⟩, by rw [step, hfill]; rfl, ?_⟩
    show handedOut r <+: io'.unread
    cases hfills with
    | @chunk _ chunk h hpos hahead =>
        rw [FramedIo.unread, h]
        exact Buf.chunk_prefix chunk
    | _ => exact List.nil_prefix
  · exact Or.inr (by rw [step, hfill]; rfl)

omit [IntoIoError E] in
/-- Within the slice the retained chunk is there, and long enough. -/
theorem Held.exists_consume (h : s.Held) {amt : ℕ} (hamt : amt ≤ s.slice.length) :
    ∃ io', s.io.consume amt = .ok io' ∧ io'.unread = s.io.unread.drop amt := by
  have hle : amt ≤ s.io.unread.length := hamt.trans h.length_le
  rcases hchunk : s.io.chunk with - | chunk
  · have hunread : s.io.unread = [] := by rw [FramedIo.unread, hchunk]
    obtain rfl : amt = 0 := by simpa [hunread] using hle
    exact ⟨s.io, rfl, rfl⟩
  · have hunread : s.io.unread = Buf.content chunk := by rw [FramedIo.unread, hchunk]
    rw [hunread, ← Buf.remaining_eq] at hle
    obtain ⟨io', hconsume, -, hrest⟩ := FramedIo.consume_spec hchunk hle
    exact ⟨io', hconsume, hrest⟩

/-- A part of the slice may be discarded. -/
theorem Held.consume (h : s.Held) {amt : ℕ} (hamt : amt ≤ s.slice.length) :
    ∃ t, s.step (.consume amt) = .ok t ∧ t.Held := by
  obtain ⟨io', hconsume, hunread⟩ := h.exists_consume hamt
  refine ⟨⟨io', s.slice.drop amt⟩, by rw [step, hconsume]; rfl, ?_⟩
  show s.slice.drop amt <+: io'.unread
  rw [hunread]
  exact h.drop amt

/-- **Step.**  A call within the slice returns and keeps it in front, or polls
past the last answer. -/
theorem Held.step (h : s.Held) (hc : s.Within c) :
    (∃ t, s.step c = .ok t ∧ t.Held) ∨ s.step c = .error .starved := by
  cases c with
  | pollRead buf => exact h.pollRead buf
  | pollFillBuf => exact Held.pollFillBuf s
  | consume amt => exact Or.inl (h.consume hc)

theorem Held.returned (h : s.Held) (hc : s.Within c) (ht : s.returned c = some t) : t.Held := by
  rcases h.step hc with ⟨t', hstep, ht'⟩ | hstep
  · rw [Reader.returned, hstep] at ht
    obtain rfl := Option.some.inj ht
    exact ht'
  · rw [Reader.returned, hstep] at ht
    cases ht

end Reader

/-! ### Every sequence of calls -/

section Safety

variable {B E : Type} [Buf B] [IntoIoError E]

/-- **The read side cannot panic or spin on its own state.**  Wherever calls
within the slice have led, the next one does not panic, and a `poll_fill_buf`
(also the one inside of `poll_read`) returns with `toTake` answers taken.  It
goes on only while there are fewer, which are then all empty chunks. -/
theorem read_side_safe (answers : List (Answer B E)) (calls : List ReadCall) (s : Reader B E)
    (hwithin : Runs.Guarded Reader.returned Reader.Within (.start answers) calls)
    (hrun : Runs.exec Reader.returned (.start answers) calls = some s) :
    (∀ c, s.Within c → s.step c ≠ .error .panic) ∧
    (s.io.toTake ≤ s.io.inner.length → ∃ r io', s.io.pollFillBuf = .ok (r, io') ∧
      io'.inner = s.io.inner.drop s.io.toTake) ∧
    (s.io.inner.length < s.io.toTake → s.io.pollFillBuf = .error .starved ∧
      ∀ a ∈ s.io.inner, FramedIo.EmptyChunk a) := by
  have hheld : s.Held :=
    Runs.exec_invariant (fun _ _ _ h hc ht => h.returned hc ht) (.start answers) hwithin hrun
  refine ⟨fun c hc hpanic => ?_, fun hle => ?_, fun hlt => ?_⟩
  · rcases hheld.step hc with ⟨t, hstep, -⟩ | hstep
    · cases hstep.symm.trans hpanic
    · cases hstep.symm.trans hpanic
  · obtain ⟨r, io', hfill⟩ := FramedIo.pollFillBuf_returns hle
    exact ⟨r, io', hfill, (FramedIo.inner_pollFillBuf hfill).2⟩
  · rcases FramedIo.pollFillBuf_spec s.io with ⟨r, io', hfill, -⟩ | ⟨hfill, -⟩
    · exact absurd (FramedIo.inner_pollFillBuf hfill).1 (Nat.not_le.mpr hlt)
    · exact ⟨hfill, (FramedIo.emptyChunk_of_starved hfill).2⟩

end Safety

/-- A chunk behind an empty one, taken by all three calls. -/
theorem read_side_safe_one_chunk :
    let s : Reader Bytes IoError := ⟨⟨[.pending], some []⟩, []⟩
    (∀ c, s.Within c → s.step c ≠ .error .panic) ∧
    (s.io.toTake ≤ s.io.inner.length → ∃ r io', s.io.pollFillBuf = .ok (r, io') ∧
      io'.inner = s.io.inner.drop s.io.toTake) ∧
    (s.io.inner.length < s.io.toTake → s.io.pollFillBuf = .error .starved ∧
      ∀ a ∈ s.io.inner, FramedIo.EmptyChunk a) := by
  intro s
  refine read_side_safe [.ready (some (.ok [])), .ready (some (.ok [1, 2, 3])), .pending]
    [.pollFillBuf, .consume 1, .pollRead ⟨[], 1⟩, .consume 1] s ?_ rfl
  exact .cons trivial rfl (.cons (show 1 ≤ 3 by decide) rfl
    (.cons trivial rfl (.cons (show 1 ≤ 1 by decide) rfl trivial)))

end Oxiscale

/-
Oxiscale/Framed.lean

The read side of `FramedIo` (`noise/src/framed_io.rs`): a stream of chunks
read as a stream of bytes.

`poll_fill_buf` polls the inner stream until it has a chunk that is not
empty, and `poll_read` copies from that chunk and keeps what did not fit.
Everything a reader has still to observe is `ahead`: the unread part of the
retained chunk, and then the answers of the inner stream with `Pending` and
empty chunks erased.  Filling and reading take from the front of it
(`pollFillBuf_spec`, `pollRead_spec`), so what a reader has observed and what
is ahead of it always make up the inner stream (`reads_faithful`).
-/
import Oxiscale.Poll

namespace Oxiscale

/-! ### The source -/

/-- The stream, and the chunk that is partly read. -/
structure FramedIo (T B : Type) where
  inner : T
  chunk : Option B

namespace FramedIo

def new {T B : Type} (inner : T) : FramedIo T B := ⟨inner, none⟩

variable {T B E : Type} [Buf B]

/-- Do we have a chunk and is it non-empty? -/
def hasChunk (io : FramedIo T B) : Bool :=
  match io.chunk with
  | some chunk => 0 < Buf.remaining chunk
  | none => false

/-- Discard what has been read from the chunk. -/
def consume (amt : ℕ) (io : FramedIo T B) : Checked (FramedIo T B) :=
  if 0 < amt then do
    let chunk ← unwrap io.chunk
    let chunk ← Buf.advance amt chunk
    return { io with chunk := some chunk }
  else return io

variable [IntoIoError E]

/-- The loop of `poll_fill_buf`, for the retained chunk and the inner stream. -/
def fillLoop (chunk : Option B) (inner : List (Answer B E)) :
    Checked (Poll (Except IoError Bytes) × FramedIo (List (Answer B E)) B) :=
  if (FramedIo.mk inner chunk).hasChunk then do
    let buf ← unwrap chunk
    return (.ready (.ok (Buf.chunk buf)), ⟨inner, chunk⟩)
  else
    match inner with
    | [] => .error .starved
    | .ready (some (.ok chunk)) :: inner => fillLoop (some chunk) inner
    | .ready (some (.error e)) :: inner =>
      return (.ready (.error (IntoIoError.into e)), ⟨inner, chunk⟩)
    | .ready none :: inner => return (.ready (.ok []), ⟨inner, chunk⟩)
    | .pending :: inner => return (.pending, ⟨inner, chunk⟩)

def pollFillBuf (io : FramedIo (List (Answer B E)) B) :
    Checked (Poll (Except IoError Bytes) × FramedIo (List (Answer B E)) B) :=
  fillLoop io.chunk io.inner

def pollRead (buf : ReadBuf) (io : FramedIo (List (Answer B E)) B) :
    Checked (Poll (Except IoError Unit) × ReadBuf × FramedIo (List (Answer B E)) B) :=
  if buf.remaining = 0 then return (.ready (.ok ()), buf, io)
  else do
    let (r, io) ← pollFillBuf io
    match r with
    | .ready (.ok innerBuf) =>
      let len := min innerBuf.length buf.remaining
      let bytes ← sliceTo innerBuf len
      let buf ← buf.putSlice bytes
      let io ← consume len io
      return (.ready (.ok ()), buf, io)
    | .ready (.error e) => return (.ready (.error e), buf, io)
    | .pending => return (.pending, buf, io)

end FramedIo

/-! ### What is ahead of a reader -/

/-- What a reader observes: a byte, an error, or the end of the stream. -/
inductive Observed
  | byte (b : UInt8)
  | error (e : IoError)
  | eof

section Ahead

variable {B E : Type} [Buf B] [IntoIoError E]

/-- What an answer is to a reader. -/
def Observed.ofAnswer : Answer B E → List Observed
  | .pending => []
  | .ready none => [.eof]
  | .ready (some (.error e)) => [.error (IntoIoError.into e)]
  | .ready (some (.ok chunk)) => (Buf.content chunk).map .byte

namespace FramedIo

/-- The bytes of the retained chunk that were not read. -/
def unread {T : Type} (io : FramedIo T B) : Bytes :=
  match io.chunk with
  | some chunk => Buf.content chunk
  | none => []

/-- What is retained, and then what the answers bring. -/
def ahead (io : FramedIo (List (Answer B E)) B) : List Observed :=
  io.unread.map .byte ++ io.inner.flatMap Observed.ofAnswer

variable {io : FramedIo (List (Answer B E)) B}

omit [IntoIoError E] in
/-- There is a chunk and something is left of it. -/
theorem hasChunk_iff : io.hasChunk = true ↔
    ∃ chunk, io.chunk = some chunk ∧ 0 < Buf.remaining chunk := by
  unfold hasChunk
  rcases io.chunk with - | chunk <;> simp

omit [IntoIoError E] in
theorem unread_eq_nil (h : io.hasChunk = false) : io.unread = [] := by
  obtain ⟨inner, chunk⟩ := io
  rcases chunk with - | chunk
  · rfl
  · simpa [hasChunk, unread, Buf.remaining_eq] using h

omit [IntoIoError E] in
/-- A chunk at hand is one with unread bytes. -/
theorem unread_ne_nil_iff : io.unread ≠ [] ↔ io.hasChunk = true := by
  constructor
  · intro h
    by_contra hnot
    exact h (unread_eq_nil (Bool.not_eq_true _ ▸ hnot))
  · intro h
    obtain ⟨chunk, hchunk, hpos⟩ := hasChunk_iff.mp h
    rw [unread, hchunk]
    exact List.ne_nil_of_length_pos (Buf.remaining_eq chunk ▸ hpos)

/-! ### One call -/

/-- What filling has taken from what was ahead. -/
inductive Fills (io : FramedIo (List (Answer B E)) B) :
    Poll (Except IoError Bytes) → FramedIo (List (Answer B E)) B → Prop
  | chunk {next : FramedIo (List (Answer B E)) B} {chunk : B} (h : next.chunk = some chunk)
      (hpos : 0 < Buf.remaining chunk) (hahead : io.ahead = next.ahead) :
      Fills io (.ready (.ok (Buf.chunk chunk))) next
  | eof {next : FramedIo (List (Answer B E)) B} (hahead : io.ahead = .eof :: next.ahead) :
      Fills io (.ready (.ok [])) next
  | error {next : FramedIo (List (Answer B E)) B} {e : IoError}
      (hahead : io.ahead = .error e :: next.ahead) : Fills io (.ready (.error e)) next
  | pending {next : FramedIo (List (Answer B E)) B} (hahead : io.ahead = next.ahead) :
      Fills io .pending next

/-- Only what was ahead matters. -/
theorem Fills.congr {io' next : FramedIo (List (Answer B E)) B} {r : Poll (Except IoError Bytes)}
    (h : Fills io r next) (hahead : io'.ahead = io.ahead) : Fills io' r next := by
  cases h with
  | chunk h hpos hfills => exact .chunk h hpos (hahead.trans hfills)
  | eof hfills => exact .eof (hahead.trans hfills)
  | error hfills => exact .error (hahead.trans hfills)
  | pending hfills => exact .pending (hahead.trans hfills)

/-- A chunk with bytes left is handed out as it is. -/
theorem fillLoop_of_hasChunk {chunk : Option B} {inner : List (Answer B E)}
    (h : (FramedIo.mk inner chunk).hasChunk = true) :
    ∃ buf, chunk = some buf ∧ 0 < Buf.remaining buf ∧
      fillLoop chunk inner = .ok (.ready (.ok (Buf.chunk buf)), ⟨inner, chunk⟩) := by
  obtain ⟨buf, rfl, hpos⟩ := hasChunk_iff.mp h
  refine ⟨buf, rfl, hpos, ?_⟩
  rw [fillLoop.eq_def, if_pos h]
  rfl

/-- Without a chunk the next answer decides. -/
theorem fillLoop_of_not_hasChunk {chunk : Option B} {a : Answer B E} {inner : List (Answer B E)}
    (h : (FramedIo.mk (a :: inner) chunk).hasChunk = false) :
    fillLoop chunk (a :: inner) =
      match a with
      | .ready (some (.ok buf)) => fillLoop (some buf) inner
      | .ready (some (.error e)) => .ok (.ready (.error (IntoIoError.into e)), ⟨inner, chunk⟩)
      | .ready none => .ok (.ready (.ok []), ⟨inner, chunk⟩)
      | .pending => .ok (.pending, ⟨inner, chunk⟩) := by
  rw [fillLoop.eq_def, if_neg (by simp [h])]
  rcases a with _ | _ | e | buf <;> rfl

/-- A chunk that is used up is nothing to a reader. -/
theorem ahead_cons {chunk : Option B} {a : Answer B E} {inner : List (Answer B E)}
    (h : (FramedIo.mk (a :: inner) chunk).hasChunk = false) :
    ahead ⟨a :: inner, chunk⟩ = Observed.ofAnswer a ++ ahead ⟨inner, chunk⟩ := by
  have hunread : (FramedIo.mk inner chunk).unread = [] := unread_eq_nil h
  have hunread' : (FramedIo.mk (a :: inner) chunk).unread = [] := unread_eq_nil h
  rw [ahead, ahead, hunread, hunread', List.flatMap_cons]
  rfl

/-- A chunk without bytes. -/
def EmptyChunk (a : Answer B E) : Prop :=
  ∃ chunk, a = .ready (some (.ok chunk)) ∧ Buf.remaining chunk = 0

/-- Everything the loop can do: use the chunk that is there, go past the last
answer over empty chunks, or stop at the first answer that is none. -/
theorem fillLoop_cases (chunk : Option B) (inner : List (Answer B E)) :
    ((FramedIo.mk inner chunk).hasChunk = true ∧ ∃ buf, chunk = some buf ∧
      0 < Buf.remaining buf ∧
      fillLoop chunk inner = .ok (.ready (.ok (Buf.chunk buf)), ⟨inner, chunk⟩)) ∨
    ((FramedIo.mk inner chunk).hasChunk = false ∧ (∀ a ∈ inner, EmptyChunk a) ∧
      fillLoop chunk inner = .error .starved) ∨
    ((FramedIo.mk inner chunk).hasChunk = false ∧ ∃ empties a r io',
      inner = empties ++ a :: io'.inner ∧ (∀ e ∈ empties, EmptyChunk e) ∧ ¬ EmptyChunk a ∧
      fillLoop chunk inner = .ok (r, io') ∧ Fills ⟨inner, chunk⟩ r io') := by
  -- only a chunk without bytes goes round the loop, with one answer less
  induction inner generalizing chunk with
  | nil =>
      rcases hc : (FramedIo.mk ([] : List (Answer B E)) chunk).hasChunk with - | -
      · refine Or.inr (Or.inl ⟨rfl, List.forall_mem_nil _, ?_⟩)
        rw [fillLoop.eq_def, if_neg (by simp [hc])]
      · exact Or.inl ⟨rfl, fillLoop_of_hasChunk hc⟩
  | cons a inner ih =>
      rcases hc : (FramedIo.mk (a :: inner) chunk).hasChunk with - | -
      · have hahead := ahead_cons (a := a) hc
        refine Or.inr ?_
        rw [fillLoop_of_not_hasChunk hc]
        rcases a with _ | _ | e | buf
        · exact Or.inr ⟨rfl, [], _, _, ⟨inner, chunk⟩, rfl, List.forall_mem_nil _,
            (fun ⟨_, h, _⟩ => by cases h), rfl, .pending hahead⟩
        · exact Or.inr ⟨rfl, [], _, _, ⟨inner, chunk⟩, rfl, List.forall_mem_nil _,
            (fun ⟨_, h, _⟩ => by cases h), rfl, .eof hahead⟩
        · exact Or.inr ⟨rfl, [], _, _, ⟨inner, chunk⟩, rfl, List.forall_mem_nil _,
            (fun ⟨_, h, _⟩ => by cases h), rfl, .error hahead⟩
        · -- the new chunk takes the place of the one that is used up
          have hnext : ahead ⟨.ready (some (.ok buf)) :: inner, chunk⟩ =
              ahead ⟨inner, some buf⟩ := by
            have hunread : (FramedIo.mk inner chunk).unread = [] := unread_eq_nil hc
            rw [hahead, ahead, hunread]
            rfl
          have hempty : (FramedIo.mk inner (some buf)).hasChunk = false →
              EmptyChunk (.ready (some (.ok buf)) : Answer B E) :=
            fun h => ⟨buf, rfl, by simpa [hasChunk] using h⟩
          rcases ih (some buf) with ⟨-, buf', hbuf, hpos, hloop⟩ | ⟨hnone, hempties, hloop⟩ |
            ⟨hnone, empties, a, r, io', rfl, hempties, ha, hloop, hfills⟩
          · obtain rfl := Option.some.inj hbuf
            refine Or.inr ⟨rfl, [], _, _, _, rfl, List.forall_mem_nil _, ?_, hloop,
              .chunk rfl hpos hnext⟩
            rintro ⟨_, hsame, hzero⟩
            cases hsame
            exact Nat.ne_of_gt hpos hzero
          · exact Or.inl ⟨rfl, List.forall_mem_cons.mpr ⟨hempty hnone, hempties⟩, hloop⟩
          · exact Or.inr ⟨rfl, _ :: empties, a, r, io', rfl,
              List.forall_mem_cons.mpr ⟨hempty hnone, hempties⟩, ha, hloop, hfills.congr hnext⟩
      · exact Or.inl ⟨rfl, fillLoop_of_hasChunk hc⟩

theorem ahead_of_emptyChunks {chunk : Option B} {inner : List (Answer B E)}
    (hc : (FramedIo.mk inner chunk).hasChunk = false) (h : ∀ a ∈ inner, EmptyChunk a) :
    ahead ⟨inner, chunk⟩ = [] := by
  rw [ahead, unread_eq_nil hc, List.map_nil, List.nil_append, List.flatMap_eq_nil_iff]
  intro a ha
  obtain ⟨buf, rfl, hzero⟩ := h a ha
  rw [Buf.remaining_eq, List.length_eq_zero_iff] at hzero
  rw [Observed.ofAnswer, hzero, List.map_nil]

/-- **Filling.**  The loop ends with the first thing that is ahead, or at the
end of the answers. -/
theorem fillLoop_spec (chunk : Option B) (inner : List (Answer B E)) :
    (∃ r io', fillLoop chunk inner = .ok (r, io') ∧ Fills ⟨inner, chunk⟩ r io') ∨
    (fillLoop chunk inner = .error .starved ∧ ahead ⟨inner, chunk⟩ = []) := by
  rcases fillLoop_cases chunk inner with ⟨-, buf, rfl, hpos, hloop⟩ | ⟨hnone, hempties, hloop⟩ |
    ⟨-, -, -, r, io', -, -, -, hloop, hfills⟩
  · exact Or.inl ⟨_, _, hloop, .chunk rfl hpos rfl⟩
  · exact Or.inr ⟨hloop, ahead_of_emptyChunks hnone hempties⟩
  · exact Or.inl ⟨r, io', hloop, hfills⟩

/-- **Filling.**  It never panics, and polls in vain only when nothing is
ahead. -/
theorem pollFillBuf_spec (io : FramedIo (List (Answer B E)) B) :
    (∃ r io', pollFillBuf io = .ok (r, io') ∧ Fills io r io') ∨
    (pollFillBuf io = .error .starved ∧ io.ahead = []) :=
  fillLoop_spec io.chunk io.inner

omit [IntoIoError E] in
/-- Discarding takes from the front of what is unread. -/
theorem consume_spec {chunk : B} {n : ℕ} (h : io.chunk = some chunk)
    (hn : n ≤ Buf.remaining chunk) :
    ∃ io', consume n io = .ok io' ∧ io'.inner = io.inner ∧ io'.unread = io.unread.drop n := by
  have hunread : io.unread = Buf.content chunk := by rw [unread, h]
  -- `consume(0)` does not touch the chunk
  rcases Nat.eq_zero_or_pos n with rfl | hpos
  · exact ⟨io, rfl, rfl, rfl⟩
  · obtain ⟨rest, hadv, hrest⟩ := Buf.advance_ok n chunk hn
    refine ⟨⟨io.inner, some rest⟩, ?_, rfl, ?_⟩
    · rw [consume, if_pos hpos, h]
      show Except.bind (Buf.advance n chunk) _ = _
      rw [hadv]
      rfl
    · rw [hunread, ← hrest]
      rfl

/-! #### How often the inner stream is polled -/

/-- Filling takes nothing while there is a chunk, and otherwise one answer and
the empty chunks before it. -/
theorem fillLoop_takes {chunk : Option B} {inner : List (Answer B E)}
    {r : Poll (Except IoError Bytes)} {io' : FramedIo (List (Answer B E)) B}
    (h : fillLoop chunk inner = .ok (r, io')) :
    ((FramedIo.mk inner chunk).hasChunk = true ∧ io' = ⟨inner, chunk⟩ ∧
      ∃ bytes, r = .ready (.ok bytes)) ∨
    ((FramedIo.mk inner chunk).hasChunk = false ∧ ∃ empties a, inner = empties ++ a :: io'.inner ∧
      (∀ e ∈ empties, EmptyChunk e) ∧ ¬ EmptyChunk a) := by
  rcases fillLoop_cases chunk inner with ⟨hchunk, buf, -, -, hloop⟩ | ⟨-, -, hloop⟩ |
    ⟨hnone, empties, a, r', io'', hinner, hempties, ha, hloop, -⟩
  · cases hloop.symm.trans h
    exact Or.inl ⟨hchunk, rfl, _, rfl⟩
  · cases hloop.symm.trans h
  · cases hloop.symm.trans h
    exact Or.inr ⟨hnone, empties, a, hinner, hempties, ha⟩

/-- Filling goes past the last answer only over empty chunks. -/
theorem emptyChunk_of_starved {chunk : Option B} {inner : List (Answer B E)}
    (h : fillLoop chunk inner = .error .starved) :
    (FramedIo.mk inner chunk).hasChunk = false ∧ ∀ a ∈ inner, EmptyChunk a := by
  rcases fillLoop_cases chunk inner with ⟨-, buf, -, -, hloop⟩ | ⟨hnone, hempties, -⟩ |
    ⟨-, -, -, r, io', -, -, -, hloop, -⟩
  · cases hloop.symm.trans h
  · exact ⟨hnone, hempties⟩
  · cases hloop.symm.trans h

/-- Answers are taken away, and `Pending` takes one at least. -/
def Takes {α : Type} (io : FramedIo (List (Answer B E)) B) (r : Poll α)
    (io' : FramedIo (List (Answer B E)) B) : Prop :=
  io'.inner.length ≤ io.inner.length ∧ (r = .pending → io'.inner.length < io.inner.length)

/-- Filling takes answers only where nothing is retained. -/
theorem pollFillBuf_takes {r : Poll (Except IoError Bytes)} {io' : FramedIo (List (Answer B E)) B}
    (h : pollFillBuf io = .ok (r, io')) : io.Takes r io' := by
  rcases fillLoop_takes h with ⟨-, rfl, bytes, rfl⟩ | ⟨-, empties, a, hinner, -⟩
  · exact ⟨le_refl _, fun h => by cases h⟩
  · have hlen := congrArg List.length hinner
    rw [List.length_append, List.length_cons] at hlen
    exact ⟨by omega, fun _ => by omega⟩

end FramedIo

/-! ### One read -/

/-- A call of `poll_read`. -/
structure Reading where
  before : ReadBuf
  result : Poll (Except IoError Unit)
  after : ReadBuf

namespace Reading

/-- What the call has filled in. -/
def bytes (r : Reading) : Bytes := r.after.filled.drop r.before.filled.length

/-- The call is to be made again. -/
def isPending (r : Reading) : Bool :=
  match r.result with
  | .pending => true
  | .ready _ => false

/-- Nothing filled into a buffer with space is the end of the stream. -/
def observed (r : Reading) : List Observed :=
  r.bytes.map .byte ++
    match r.result with
    | .ready (.ok ()) => if r.bytes = [] ∧ 0 < r.before.remaining then [.eof] else []
    | .ready (.error e) => [.error e]
    | .pending => []

/-- The filled part has grown by what fits. -/
structure Fits (r : Reading) : Prop where
  filled : r.after.filled = r.before.filled ++ r.bytes
  bytes_le : r.bytes.length ≤ r.before.remaining
  remaining : r.after.remaining = r.before.remaining - r.bytes.length

theorem bytes_mk {before : ReadBuf} {result : Poll (Except IoError Unit)} {bytes : Bytes} {n : ℕ} :
    (mk before result ⟨before.filled ++ bytes, n⟩).bytes = bytes :=
  List.drop_left

theorem fits_mk {before : ReadBuf} {result : Poll (Except IoError Unit)} {bytes : Bytes}
    (h : bytes.length ≤ before.remaining) :
    (mk before result ⟨before.filled ++ bytes, before.remaining - bytes.length⟩).Fits where
  filled := by rw [bytes_mk]
  bytes_le := by rwa [bytes_mk]
  remaining := by rw [bytes_mk]

theorem fits_self {before : ReadBuf} {result : Poll (Except IoError Unit)} :
    (mk before result before).Fits ∧ (mk before result before).bytes = [] := by
  have hbytes : (mk before result before).bytes = [] := List.drop_length
  refine ⟨⟨?_, ?_, ?_⟩, hbytes⟩
  all_goals rw [hbytes]
  · exact (List.append_nil _).symm
  · exact Nat.zero_le _
  · rfl

end Reading

namespace FramedIo

variable {io : FramedIo (List (Answer B E)) B}

/-- A buffer without space is left alone, and so is the stream. -/
theorem pollRead_zero {buf : ReadBuf} (h : buf.remaining = 0) :
    pollRead buf io = .ok (.ready (.ok ()), buf, io) :=
  if_pos h

/-- What was handed out is copied as far as it fits. -/
theorem pollRead_of_fill {buf : ReadBuf} {innerBuf : Bytes}
    {io' io'' : FramedIo (List (Answer B E)) B} (hpos : 0 < buf.remaining)
    (hfill : pollFillBuf io = .ok (.ready (.ok innerBuf), io'))
    (hconsume : consume (min innerBuf.length buf.remaining) io' = .ok io'') :
    pollRead buf io = .ok (.ready (.ok ()),
      ⟨buf.filled ++ innerBuf.take (min innerBuf.length buf.remaining),
        buf.remaining - (innerBuf.take (min innerBuf.length buf.remaining)).length⟩, io'') := by
  have hslice : sliceTo innerBuf (min innerBuf.length buf.remaining) =
      .ok (innerBuf.take (min innerBuf.length buf.remaining)) :=
    if_pos ⟨Nat.zero_le _, min_le_left _ _⟩
  have hput : buf.putSlice (innerBuf.take (min innerBuf.length buf.remaining)) =
      .ok ⟨buf.filled ++ innerBuf.take (min innerBuf.length buf.remaining),
        buf.remaining - (innerBuf.take (min innerBuf.length buf.remaining)).length⟩ :=
    if_pos ((List.length_take_le _ _).trans (min_le_right _ _))
  rw [pollRead, if_neg (Nat.ne_of_gt hpos), hfill]
  show Except.bind (sliceTo innerBuf _) _ = _
  rw [hslice]
  show Except.bind (buf.putSlice _) _ = _
  rw [hput]
  show Except.bind (consume _ io') _ = _
  rw [hconsume]
  rfl

/-- A read from the retained chunk keeps what did not fit. -/
theorem pollRead_of_chunk {buf : ReadBuf} {chunk : B} {io' : FramedIo (List (Answer B E)) B}
    (hpos : 0 < buf.remaining)
    (hfill : pollFillBuf io = .ok (.ready (.ok (Buf.chunk chunk)), io'))
    (h : io'.chunk = some chunk) :
    ∃ io'', pollRead buf io = .ok (.ready (.ok ()),
        ⟨buf.filled ++ (Buf.chunk chunk).take (min (Buf.chunk chunk).length buf.remaining),
          buf.remaining -
            ((Buf.chunk chunk).take (min (Buf.chunk chunk).length buf.remaining)).length⟩, io'') ∧
      io''.inner = io'.inner ∧
      io''.unread = io'.unread.drop (min (Buf.chunk chunk).length buf.remaining) := by
  have hlen : min (Buf.chunk chunk).length buf.remaining ≤ Buf.remaining chunk := by
    rw [Buf.remaining_eq]
    exact (min_le_left _ _).trans (Buf.chunk_prefix chunk).length_le
  obtain ⟨io'', hconsume, hinner, hunread⟩ := consume_spec h hlen
  exact ⟨io'', pollRead_of_fill hpos hfill hconsume, hinner, hunread⟩

/-- **Reading.**  What a call observes is what was in front, and a call that
does not succeed fills nothing. -/
theorem pollRead_spec (buf : ReadBuf) (io : FramedIo (List (Answer B E)) B) :
    (∃ r buf' io', pollRead buf io = .ok (r, buf', io') ∧ (Reading.mk buf r buf').Fits ∧
      io.ahead = (Reading.mk buf r buf').observed ++ io'.ahead ∧ io.Takes r io' ∧
      (r ≠ .ready (.ok ()) → buf' = buf)) ∨
    (pollRead buf io = .error .starved ∧ io.ahead = []) := by
  -- a buffer without space is left alone before anything is polled
  rcases Nat.eq_zero_or_pos buf.remaining with hzero | hpos
  · refine Or.inl ⟨_, _, _, pollRead_zero hzero, Reading.fits_self.1, ?_, ⟨le_refl _, ?_⟩,
      fun _ => rfl⟩
    · simp [Reading.observed, Reading.fits_self.2, hzero]
    · intro h
      cases h
  · rcases pollFillBuf_spec io with ⟨r, io', hfill, hfills⟩ | ⟨hfill, hnil⟩
    · obtain ⟨hle, hlt⟩ := pollFillBuf_takes hfill
      cases hfills with
      | @chunk _ chunk h hchunk hahead =>
          have hmin : min (Buf.chunk chunk).length buf.remaining ≤ (Buf.chunk chunk).length :=
            min_le_left _ _
          obtain ⟨rest, hcontent⟩ := Buf.chunk_prefix chunk
          obtain ⟨io'', hread, hinner, hunread⟩ := pollRead_of_chunk hpos hfill h
          refine Or.inl ⟨_, _, io'', hread,
            Reading.fits_mk ((List.length_take_le _ _).trans (min_le_right _ _)), ?_,
            ⟨hinner ▸ hle, fun h => by cases h⟩, fun h => absurd rfl h⟩
          have hsome : (Buf.chunk chunk).take (min (Buf.chunk chunk).length buf.remaining) ≠ [] := by
            have hne := List.length_pos_of_ne_nil (Buf.chunk_ne_nil chunk hchunk)
            rw [← List.length_pos_iff, List.length_take]
            omega
          -- the retained chunk is what was copied and what is kept
          have hsplit : io'.unread = (Buf.chunk chunk).take
              (min (Buf.chunk chunk).length buf.remaining) ++ io''.unread := by
            have hcontent' : io'.unread = Buf.content chunk := by rw [unread, h]
            rw [hunread, hcontent', ← hcontent, List.drop_append_of_le_length hmin, ← List.append_assoc,
              List.take_append_drop]
          rw [hahead, Reading.observed, Reading.bytes_mk]
          simp only [hsome, false_and, if_false, List.append_nil]
          rw [ahead, ahead, hsplit, hinner, List.map_append, List.append_assoc]
      | eof hahead =>
          refine Or.inl ⟨_, _, io', pollRead_of_fill hpos hfill rfl,
            Reading.fits_mk (Nat.zero_le _), ?_, ⟨hle, fun h => by cases h⟩, fun h => absurd rfl h⟩
          rw [hahead, Reading.observed, Reading.bytes_mk]
          simp [hpos]
      | @error _ e hahead =>
          refine Or.inl ⟨.ready (.error e), buf, io', ?_, Reading.fits_self.1, ?_,
            ⟨hle, fun h => by cases h⟩, fun _ => rfl⟩
          · rw [pollRead, if_neg (Nat.ne_of_gt hpos), hfill]
            rfl
          · rw [hahead, Reading.observed, Reading.fits_self.2]
            rfl
      | pending hahead =>
          refine Or.inl ⟨.pending, buf, io', ?_, Reading.fits_self.1, ?_, ⟨hle, fun _ => hlt rfl⟩,
            fun _ => rfl⟩
          · rw [pollRead, if_neg (Nat.ne_of_gt hpos), hfill]
            rfl
          · rw [hahead, Reading.observed, Reading.fits_self.2]
            rfl
    · refine Or.inr ⟨?_, hnil⟩
      rw [pollRead, if_neg (Nat.ne_of_gt hpos), hfill]
      rfl

/-! ### Every sequence of reads -/

/-- Read into one buffer after another, up to a call that does not return. -/
def reads (io : FramedIo (List (Answer B E)) B) :
    List ReadBuf → List Reading × FramedIo (List (Answer B E)) B
  | [] => ([], io)
  | buf :: bufs =>
    match pollRead buf io with
    | .error _ => ([], io)
    | .ok (r, buf', io') =>
      let (readings, last) := reads io' bufs
      (⟨buf, r, buf'⟩ :: readings, last)

/-- **Run lemma.** -/
theorem reads_spec (io : FramedIo (List (Answer B E)) B) (bufs : List ReadBuf) :
    io.ahead = (reads io bufs).1.flatMap Reading.observed ++ (reads io bufs).2.ahead ∧
    (∀ r ∈ (reads io bufs).1, r.Fits) ∧
    ((reads io bufs).1.map Reading.before = bufs ∨ (reads io bufs).2.ahead = []) := by
  induction bufs generalizing io with
  | nil => exact ⟨rfl, List.forall_mem_nil _, Or.inl rfl⟩
  | cons buf bufs ih =>
      rcases pollRead_spec buf io with ⟨r, buf', io', hread, hfits, hahead, -⟩ | ⟨hread, hnil⟩
      · obtain ⟨hrest, hall, hstop⟩ := ih io'
        simp only [reads, hread]
        refine ⟨?_, ?_, ?_⟩
        · rw [hahead, hrest, List.flatMap_cons, List.append_assoc]
        · exact List.forall_mem_cons.mpr ⟨hfits, hall⟩
        · exact hstop.imp (congrArg (buf :: ·)) id
      · simp only [reads, hread]
        exact ⟨rfl, List.forall_mem_nil _, Or.inr hnil⟩

omit [Buf B] [IntoIoError E] in
/-- A read that is `Pending` has an answer less before it afterwards. -/
theorem Takes.length_le {r : Poll (Except IoError Unit)}
    {io' : FramedIo (List (Answer B E)) B} (h : io.Takes r io') (buf buf' : ReadBuf) :
    (Reading.mk buf r buf').isPending.toNat + io'.inner.length ≤ io.inner.length := by
  obtain ⟨hle, hlt⟩ := h
  cases r with
  | pending =>
      show 1 + io'.inner.length ≤ io.inner.length
      have := hlt rfl
      omega
  | ready a =>
      show 0 + io'.inner.length ≤ io.inner.length
      omega

/-- **Progress.**  Every `Pending` read has taken an answer of its own. -/
theorem reads_pending_le (io : FramedIo (List (Answer B E)) B) (bufs : List ReadBuf) :
    (reads io bufs).1.countP Reading.isPending + (reads io bufs).2.inner.length ≤
      io.inner.length := by
  induction bufs generalizing io with
  | nil => exact (Nat.zero_add _).le
  | cons buf bufs ih =>
      rcases pollRead_spec buf io with ⟨r, buf', io', hread, -, -, htakes, -⟩ | ⟨hread, -⟩
      · have hone := htakes.length_le buf buf'
        have hrest := ih io'
        simp only [reads, hread]
        rw [List.countP_cons]
        cases hpending : (Reading.mk buf r buf').isPending with
        | false =>
            rw [hpending, Bool.toNat_false] at hone
            rw [if_neg Bool.false_ne_true]
            omega
        | true =>
            rw [hpending, Bool.toNat_true] at hone
            rw [if_pos rfl]
            omega
      · simp only [reads, hread]
        exact (Nat.zero_add _).le

/-- **`FramedIo` delivers the inner stream faithfully.**  What the reads
observe, followed by what is still ahead, is the answer sequence with
`Pending` and empty chunks erased; the reads stop early only when nothing is
ahead, and each `Pending` one has taken an answer, so that reading goes on as
long as there are answers.  No read fills more than fits, and one into a
buffer without space leaves the stream alone. -/
theorem reads_faithful (answers : List (Answer B E)) (bufs : List ReadBuf) :
    (reads (new answers) bufs).1.flatMap Reading.observed ++ (reads (new answers) bufs).2.ahead =
      answers.flatMap Observed.ofAnswer ∧
    (∀ r ∈ (reads (new answers) bufs).1, r.Fits) ∧
    ((reads (new answers) bufs).1.map Reading.before = bufs ∨
      (reads (new answers) bufs).2.ahead = []) ∧
    (reads (new answers) bufs).1.countP Reading.isPending +
      (reads (new answers) bufs).2.inner.length ≤ answers.length ∧
    ∀ (io : FramedIo (List (Answer B E)) B) (filled : Bytes),
      pollRead ⟨filled, 0⟩ io = .ok (.ready (.ok ()), ⟨filled, 0⟩, io) := by
  obtain ⟨hahead, hfits, hstop⟩ := reads_spec (new answers) bufs
  exact ⟨hahead.symm, hfits, hstop, reads_pending_le _ bufs, fun _ _ => pollRead_zero rfl⟩

/-- An empty chunk and an error between two chunks, read two bytes at a time. -/
example :
    let answers : List (Answer Bytes IoError) := [.ready (some (.ok [1, 2, 3])), .pending,
      .ready (some (.ok [])), .ready (some (.error .notFound)), .ready (some (.ok [4])), .ready none]
    (reads (new answers) (List.replicate 6 ⟨[], 2⟩)).1.map Reading.observed =
      [[.byte 1, .byte 2], [.byte 3], [], [.error .notFound], [.byte 4], [.eof]] := rfl

end FramedIo

end Ahead

end Oxiscale

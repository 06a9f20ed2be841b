/-
Oxiscale/Pipe.lean

Two endpoints of the noise channel as a byte pipe.

The write side of `FramedIo` hands each buffer to an inner `Sink` as one
message.  `FrameSink` is what such a sink is assumed to do: it turns an
accepted message into frames, and nothing else emits any.  `Pipe` joins a
writer to a reader through the frames in flight: any number of them may
arrive during a read, `Pending` may be answered at any time, and `None` only
after the writer was shut down and everything has arrived (`deliver`).

In every interleaving of calls on the two sides the bytes that were read, the
unread part of the reader's chunk and the frames in flight make up the
accepted buffers (`Piped`), so nothing is lost, repeated or reordered
(`pipe_reliable`).
-/
import Oxiscale.Framed
import Oxiscale.Runs

namespace Oxiscale

/-! ### The source: writing -/

/-- The write side of an inner stream. -/
class Sink (T : Type) (E : outParam Type) where
  pollReady : T → Poll (Except E Unit) × T
  startSend : Bytes → T → Except E Unit × T
  pollFlush : T → Poll (Except E Unit) × T
  pollClose : T → Poll (Except E Unit) × T

namespace FramedIo

variable {T B E : Type} [Sink T E] [IntoIoError E]

/-- `map_err(Into::into)`. -/
def mapErr {α : Type} : Poll (Except E α) → Poll (Except IoError α)
  | .pending => .pending
  | .ready (.ok a) => .ready (.ok a)
  | .ready (.error e) => .ready (.error (IntoIoError.into e))

/-- A write that is accepted is accepted whole. -/
def pollWrite (buf : Bytes) (io : FramedIo T B) : Poll (Except IoError ℕ) × FramedIo T B :=
  match Sink.pollReady io.inner with
  | (.pending, inner) => (.pending, { io with inner := inner })
  | (.ready (.error e), inner) => (.ready (.error (IntoIoError.into e)), { io with inner := inner })
  | (.ready (.ok ()), inner) =>
    match Sink.startSend buf inner with
    | (.ok (), inner) => (.ready (.ok buf.length), { io with inner := inner })
    | (.error e, inner) => (.ready (.error (IntoIoError.into e)), { io with inner := inner })

def pollFlush (io : FramedIo T B) : Poll (Except IoError Unit) × FramedIo T B :=
  let (r, inner) := Sink.pollFlush io.inner
  (mapErr r, { io with inner := inner })

def pollShutdown (io : FramedIo T B) : Poll (Except IoError Unit) × FramedIo T B :=
  let (r, inner) := Sink.pollClose io.inner
  (mapErr r, { io with inner := inner })

end FramedIo

/-! ### Sinks that send frames -/

/-- `frames` are the payloads of the frames sent so far. -/
class FrameSink (T : Type) (E : outParam Type) extends Sink T E where
  frames : T → List Bytes
  frames_pollReady : ∀ t, frames (pollReady t).2 = frames t
  startSend_ok : ∀ buf t, (startSend buf t).1 = .ok () →
    ∃ sent, frames (startSend buf t).2 = frames t ++ sent ∧ sent.flatten = buf
  startSend_error : ∀ buf t e, (startSend buf t).1 = .error e →
    frames (startSend buf t).2 = frames t
  frames_pollFlush : ∀ t, frames (pollFlush t).2 = frames t
  frames_pollClose : ∀ t, frames (pollClose t).2 = frames t

section Writing

variable {T B E : Type} [FrameSink T E] [IntoIoError E]

/-- **Writing.**  A message is accepted whole and sent, or nothing is sent. -/
theorem pollWrite_spec (buf : Bytes) (io : FramedIo T B) :
    ((io.pollWrite buf).1 = .ready (.ok buf.length) ∧
      ∃ sent, FrameSink.frames (io.pollWrite buf).2.inner = FrameSink.frames io.inner ++ sent ∧
        sent.flatten = buf) ∨
    (((io.pollWrite buf).1 = .pending ∨ ∃ e, (io.pollWrite buf).1 = .ready (.error e)) ∧
      FrameSink.frames (io.pollWrite buf).2.inner = FrameSink.frames io.inner) := by
  have hready := FrameSink.frames_pollReady io.inner
  unfold FramedIo.pollWrite
  -- nothing is sent unless the sink is ready, and then the message is sent whole
  rcases h : Sink.pollReady io.inner with ⟨_ | (e | u), inner⟩
  · rw [h] at hready
    exact Or.inr ⟨Or.inl rfl, hready⟩
  · rw [h] at hready
    exact Or.inr ⟨Or.inr ⟨_, rfl⟩, hready⟩
  · rw [h] at hready
    rcases hsend : Sink.startSend buf inner with ⟨e | u, inner'⟩
    · have herror := FrameSink.startSend_error buf inner e (by rw [hsend])
      rw [hsend] at herror
      simp only [hsend]
      exact Or.inr ⟨Or.inr ⟨_, rfl⟩, herror.trans hready⟩
    · obtain ⟨sent, hframes, hflat⟩ := FrameSink.startSend_ok buf inner (by rw [hsend])
      rw [hsend] at hframes
      simp only [hsend]
      exact Or.inl ⟨trivial, sent, by rw [hframes, hready], hflat⟩

end Writing

/-! ### Delivery -/

section Delivery

variable {B E : Type} [Buf B]

/-- The frames still in flight after the reader's stream has given some
answers; `none` where it can not have given them. -/
def deliver (closed : Bool) : List Bytes → List (Answer B E) → Option (List Bytes)
  | frames, [] => some frames
  | frames, .pending :: answers => deliver closed frames answers
  | [], .ready none :: answers => if closed then deliver closed [] answers else none
  | frame :: frames, .ready (some (.ok chunk)) :: answers =>
    if Buf.content chunk = frame then deliver closed frames answers else none
  | _, _ => none

variable {closed : Bool} {frames left : List Bytes} {answers : List (Answer B E)}

theorem deliver_suffix (h : deliver closed frames answers = some left) : left <:+ frames := by
  induction answers generalizing frames with
  | nil =>
      obtain rfl := Option.some.inj h
      exact List.suffix_refl _
  | cons a answers ih =>
      rcases a with _ | _ | e | chunk
      · exact ih h
      · rcases frames with - | ⟨frame, frames⟩
        · simp only [deliver] at h
          split at h
          · exact ih h
          · cases h
        · cases h
      · cases frames <;> cases h
      · rcases frames with - | ⟨frame, frames⟩
        · cases h
        · simp only [deliver] at h
          split at h
          · exact (ih h).trans (List.suffix_cons _ _)
          · cases h

variable [IntoIoError E]

/-- What arrives is the front of what was in flight, and the end only behind
all of it. -/
theorem deliver_spec (h : deliver closed frames answers = some left) :
    ∃ bytes n, answers.flatMap Observed.ofAnswer =
        bytes.map .byte ++ List.replicate n .eof ∧
      bytes ++ left.flatten = frames.flatten ∧ (0 < n → closed = true ∧ left = []) := by
  induction answers generalizing frames with
  | nil =>
      obtain rfl := Option.some.inj h
      exact ⟨[], 0, rfl, rfl, fun h => absurd h (lt_irrefl 0)⟩
  | cons a answers ih =>
      rcases a with _ | _ | e | chunk
      · exact ih h
      · rcases frames with - | ⟨frame, frames⟩
        · simp only [deliver] at h
          split at h
          · -- the end of the stream, with nothing in flight
            rename_i hclosed
            obtain rfl : left = [] := List.suffix_nil.mp (deliver_suffix h)
            obtain ⟨bytes, n, hbytes, hflat, -⟩ := ih h
            obtain rfl : bytes = [] := by simpa using hflat
            exact ⟨[], n + 1, by rw [List.flatMap_cons, hbytes]; rfl, rfl, fun _ => ⟨hclosed, rfl⟩⟩
          · cases h
        · cases h
      · cases frames <;> cases h
      · rcases frames with - | ⟨frame, frames⟩
        · cases h
        · simp only [deliver] at h
          split at h
          · rename_i hchunk
            obtain ⟨bytes, n, hbytes, hflat, hend⟩ := ih h
            refine ⟨frame ++ bytes, n, ?_, ?_, hend⟩
            · rw [List.flatMap_cons, hbytes, Observed.ofAnswer, hchunk, List.map_append,
                List.append_assoc]
            · rw [List.append_assoc, hflat, List.flatten_cons]
          · cases h

end Delivery

/-! ### The pipe -/

/-- A call of `poll_write` and the frames it has sent. -/
structure Writing where
  buf : Bytes
  result : Poll (Except IoError ℕ)
  sent : List Bytes

/-- What an accepted buffer is, and nothing for any other. -/
def Writing.accepted (w : Writing) : Bytes :=
  match w.result with
  | .ready (.ok _) => w.buf
  | _ => []

/-- What a call returns about a buffer is what it has sent of it. -/
structure Writing.Whole (w : Writing) : Prop where
  accepted : ∀ n, w.result = .ready (.ok n) → n = w.buf.length ∧ w.sent.flatten = w.buf
  pending : w.result = .pending → w.sent = []
  failed : ∀ e, w.result = .ready (.error e) → w.sent = []

/-- What whole writes have sent is what was accepted. -/
theorem Writing.Whole.flatten_sent {w : Writing} (h : w.Whole) : w.sent.flatten = w.accepted := by
  unfold Writing.accepted
  rcases hr : w.result with _ | (e | n)
  · rw [h.pending hr]
    rfl
  · rw [h.failed e hr]
    rfl
  · exact (h.accepted n hr).2

/-- The end of the stream was reported. -/
structure Reading.Ended (r : Reading) : Prop where
  result : r.result = .ready (.ok ())
  bytes : r.bytes = []
  space : 0 < r.before.remaining

/-- An element of a longer list is the new one or an old one. -/
theorem split_snoc {α : Type} {l prior later : List α} {a b : α}
    (h : l ++ [a] = prior ++ b :: later) :
    (prior = l ∧ b = a) ∨ ∃ later', l = prior ++ b :: later' := by
  rcases List.eq_nil_or_concat later with rfl | ⟨later', c, rfl⟩
  · obtain ⟨hl, ha⟩ := List.append_inj' h rfl
    exact Or.inl ⟨hl.symm, (List.singleton_inj.mp ha).symm⟩
  · rw [List.concat_eq_append, ← List.cons_append, ← List.append_assoc] at h
    exact Or.inr ⟨later', (List.append_inj' h rfl).1⟩

/-- The bytes among what was observed. -/
def Observed.toByte : Observed → Option UInt8
  | .byte b => some b
  | _ => none

theorem filterMap_bytes (l : Bytes) : (l.map Observed.byte).filterMap Observed.toByte = l := by
  rw [List.filterMap_map]
  exact List.filterMap_some

theorem filterMap_eofs (n : ℕ) :
    (List.replicate n Observed.eof).filterMap Observed.toByte = [] := by
  rw [List.filterMap_eq_nil_iff]
  intro o ho
  rw [List.eq_of_mem_replicate ho]
  rfl

theorem Reading.filterMap_observed (r : Reading) :
    r.observed.filterMap Observed.toByte = r.bytes := by
  unfold Reading.observed
  rw [List.filterMap_append, filterMap_bytes]
  rcases r.result with _ | (e | u)
  · exact List.append_nil _
  · exact List.append_nil _
  · dsimp only
    split <;> exact List.append_nil _

theorem Reading.Ended.observed {r : Reading} (h : r.Ended) : r.observed = [.eof] := by
  rw [Reading.observed, h.bytes, h.result]
  simp [h.space]

/-- A call that observes the front of bytes and an end of stream takes bytes
off the front, and the end only if there are none. -/
theorem Reading.bytes_of_observed {r : Reading} {bytes rest : Bytes} {n : ℕ}
    (h : bytes.map Observed.byte ++ List.replicate n .eof = r.observed ++ rest.map .byte) :
    bytes = r.bytes ++ rest ∧ (r.Ended → bytes = [] ∧ 0 < n) := by
  constructor
  · have hbytes := congrArg (List.filterMap Observed.toByte) h
    rwa [List.filterMap_append, List.filterMap_append, filterMap_bytes, filterMap_eofs,
      filterMap_bytes, Reading.filterMap_observed, List.append_nil] at hbytes
  · intro hended
    rw [hended.observed, List.singleton_append] at h
    rcases bytes with - | ⟨b, bytes⟩
    · rcases n with - | n
      · cases h
      · exact ⟨rfl, Nat.succ_pos n⟩
    · cases h

/-- A writing and a reading endpoint, the frames in flight, whether the writer
was shut down, and the calls so far. -/
structure Pipe (T B B' E' : Type) where
  writer : FramedIo T B
  reader : FramedIo (List (Answer B' E')) B'
  inFlight : List Bytes
  closed : Bool
  writings : List Writing
  readings : List Reading

/-- A call on one of the sides.  A read comes with the answers that the inner
stream gives to it. -/
inductive PipeStep (B' E' : Type)
  | write (buf : Bytes)
  | flush
  | shutdown
  | read (buf : ReadBuf) (answers : List (Answer B' E'))

section Pipe

variable {T B B' E E' : Type} [FrameSink T E] [IntoIoError E] [Buf B'] [IntoIoError E']

namespace Pipe

def start (inner : T) : Pipe T B B' E' :=
  ⟨.new inner, .new [], [], false, [], []⟩

/-- Nothing is written after the shutdown, and a read polls as often as it is
answered. -/
def step (p : Pipe T B B' E') : PipeStep B' E' → Option (Pipe T B B' E')
  | .write buf =>
    if p.closed then none
    else
      let (r, writer) := p.writer.pollWrite buf
      let sent := (FrameSink.frames writer.inner).drop (FrameSink.frames p.writer.inner).length
      some { p with
        writer := writer
        inFlight := p.inFlight ++ sent
        writings := p.writings ++ [⟨buf, r, sent⟩] }
  | .flush => some { p with writer := p.writer.pollFlush.2 }
  | .shutdown => some { p with writer := p.writer.pollShutdown.2, closed := true }
  | .read buf answers =>
    match deliver p.closed p.inFlight answers with
    | none => none
    | some left =>
      match FramedIo.pollRead buf { p.reader with inner := answers } with
      | .error _ => none
      | .ok (r, buf', reader) =>
        if reader.inner.isEmpty then
          some { p with
            reader := reader
            inFlight := left
            readings := p.readings ++ [⟨buf, r, buf'⟩] }
        else none

def accepted (p : Pipe T B B' E') : Bytes := p.writings.flatMap Writing.accepted

def got (p : Pipe T B B' E') : Bytes := p.readings.flatMap Reading.bytes

/-! #### The invariant -/

/-- What was read, what is unread and what is in flight make up what was
accepted. -/
structure Piped (p : Pipe T B B' E') : Prop where
  conserved : p.got ++ (p.reader.unread ++ p.inFlight.flatten) = p.accepted
  whole : ∀ w ∈ p.writings, w.Whole
  fits : ∀ r ∈ p.readings, r.Fits
  ended : ∀ prior r later, p.readings = prior ++ r :: later → r.Ended →
    p.closed = true ∧ prior.flatMap Reading.bytes = p.accepted

variable {p q : Pipe T B B' E'}

omit [FrameSink T E] [IntoIoError E] [IntoIoError E'] in
theorem Piped.start (inner : T) : Piped (start inner : Pipe T B B' E') where
  conserved := rfl
  whole := List.forall_mem_nil _
  fits := List.forall_mem_nil _
  ended prior r later h := by
    cases prior <;> cases h

/-- A write adds what it accepts to what is under way. -/
theorem Piped.write (h : Piped p) (buf : Bytes) (hstep : p.step (.write buf) = some q) :
    Piped q := by
  simp only [Pipe.step] at hstep
  split at hstep
  · cases hstep
  · rename_i hopen
    obtain rfl := Option.some.inj hstep
    -- the stream is cut at the frames that were there before
    have hwhole : (Writing.mk buf (p.writer.pollWrite buf).1
        ((FrameSink.frames (p.writer.pollWrite buf).2.inner).drop
          (FrameSink.frames p.writer.inner).length)).Whole := by
      rcases pollWrite_spec buf p.writer with ⟨hok, sent, hframes, hflat⟩ | ⟨hnot, hframes⟩
      · rw [hok, hframes, List.drop_left]
        refine ⟨fun n hn => ?_, fun hn => ?_, fun e hn => ?_⟩
        · cases hn
          exact ⟨rfl, hflat⟩
        · cases hn
        · cases hn
      · rw [hframes, List.drop_length]
        refine ⟨fun n hn => ?_, fun _ => rfl, fun _ _ => rfl⟩
        rcases hnot with hnot | ⟨e, hnot⟩ <;> cases hnot.symm.trans hn
    refine ⟨?_, ?_, h.fits, ?_⟩
    · show p.got ++ (p.reader.unread ++ (p.inFlight ++ _).flatten) = List.flatMap _ (_ ++ [_])
      rw [List.flatten_append, List.flatMap_append, List.flatMap_singleton, ← hwhole.flatten_sent]
      show _ = p.accepted ++ _
      rw [← h.conserved]
      simp only [List.append_assoc]
    · intro w hw
      rcases List.mem_append.mp hw with hw | hw
      · exact h.whole w hw
      · obtain rfl := List.mem_singleton.mp hw
        exact hwhole
    · -- the stream has not ended, since the writer is open
      intro prior r later hsplit hended
      exact absurd (h.ended prior r later hsplit hended).1 hopen

/-- A read takes what it fills in from the front of it. -/
theorem Piped.read (h : Piped p) (buf : ReadBuf) (answers : List (Answer B' E'))
    (hstep : p.step (.read buf answers) = some q) : Piped q := by
  simp only [Pipe.step] at hstep
  split at hstep
  · cases hstep
  · rename_i left hdeliver
    split at hstep
    · cases hstep
    · rename_i r buf' reader hread
      split at hstep
      · rename_i hinner
        obtain rfl := Option.some.inj hstep
        obtain ⟨bytes, n, hbytes, hflat, hend⟩ := deliver_spec hdeliver
        rcases FramedIo.pollRead_spec buf { p.reader with inner := answers } with
          ⟨r', buf'', reader', hread', hfits, hahead, -⟩ | ⟨hread', -⟩
        · cases hread.symm.trans hread'
          -- the chunk kept from before and what arrives, against what is read and kept
          have hobserved : (p.reader.unread ++ bytes).map Observed.byte ++
              List.replicate n Observed.eof = (Reading.mk buf r buf').observed ++
              reader.unread.map .byte := by
            have hahead' : p.reader.unread.map Observed.byte ++
                answers.flatMap Observed.ofAnswer = (Reading.mk buf r buf').observed ++
                (reader.unread.map .byte ++ reader.inner.flatMap Observed.ofAnswer) := hahead
            rw [List.isEmpty_iff.mp hinner, List.flatMap_nil, List.append_nil, hbytes] at hahead'
            rw [List.map_append, List.append_assoc, hahead']
          obtain ⟨htake, hnone⟩ := Reading.bytes_of_observed hobserved
          have hconserved : p.got ++ (Reading.mk buf r buf').bytes ++
              (reader.unread ++ left.flatten) = p.accepted := by
            rw [← h.conserved, ← hflat]
            simp only [List.append_assoc]
            rw [← List.append_assoc p.reader.unread, htake]
            simp only [List.append_assoc]
          refine ⟨?_, h.whole, ?_, ?_⟩
          · show List.flatMap _ (_ ++ [_]) ++ _ = _
            rw [List.flatMap_append, List.flatMap_singleton]
            exact hconserved
          · intro s hs
            rcases List.mem_append.mp hs with hs | hs
            · exact h.fits s hs
            · obtain rfl := List.mem_singleton.mp hs
              exact hfits
          · intro prior s later hsplit hended
            rcases split_snoc hsplit with ⟨rfl, rfl⟩ | ⟨later', hsplit'⟩
            · -- this read reports the end: nothing was unread, nothing is left
              obtain ⟨hnil, hpos⟩ := hnone hended
              obtain ⟨hclosed, rfl⟩ := hend hpos
              refine ⟨hclosed, ?_⟩
              show p.got = p.accepted
              rw [← h.conserved, ← hflat, ← List.append_assoc p.reader.unread, hnil]
              exact (List.append_nil _).symm
            · exact h.ended prior s later' hsplit' hended
        · cases hread.symm.trans hread'
      · cases hstep

/-- **Step.** -/
theorem Piped.next (h : Piped p) {x : PipeStep B' E'} (hstep : p.step x = some q) : Piped q := by
  cases x with
  | write buf => exact h.write buf hstep
  | flush =>
      obtain rfl := Option.some.inj hstep
      exact ⟨h.conserved, h.whole, h.fits, h.ended⟩
  | shutdown =>
      obtain rfl := Option.some.inj hstep
      exact ⟨h.conserved, h.whole, h.fits, fun prior r later hsplit hended =>
        ⟨rfl, (h.ended prior r later hsplit hended).2⟩⟩
  | read buf answers => exact h.read buf answers hstep

end Pipe

/-- **Two endpoints form a reliable byte pipe.**  In every interleaving, what
was read is a prefix of the buffers that were accepted, each of them whole; a
write that is pending or fails sends nothing; and a read that fills nothing
into a buffer with space comes after the shutdown, when everything accepted
has been read. -/
theorem pipe_reliable (inner : T) (xs : List (PipeStep B' E')) (p : Pipe T B B' E')
    (hrun : Runs.exec Pipe.step (Pipe.start inner) xs = some p) :
    p.got <+: p.accepted ∧
    (∀ w ∈ p.writings, w.Whole) ∧
    (∀ r ∈ p.readings, r.Fits) ∧
    ∀ prior r later, p.readings = prior ++ r :: later → r.Ended →
      p.closed = true ∧ prior.flatMap Reading.bytes = p.accepted := by
  have hall : Runs.Guarded Pipe.step (fun _ _ => True)
      (Pipe.start inner : Pipe T B B' E') xs := .of_forall fun _ _ => trivial
  have hpiped : p.Piped :=
    Runs.exec_invariant (P := Pipe.Piped) (fun _ _ _ h _ hstep => h.next hstep) (.start inner)
      hall hrun
  exact ⟨⟨_, hpiped.conserved⟩, hpiped.whole, hpiped.fits, hpiped.ended⟩

end Pipe

/-- A sink that is busy for some polls and sends a message as one frame. -/
structure Outbox where
  busy : ℕ
  sent : List Bytes

instance : FrameSink Outbox IoError where
  pollReady t :=
    match t.busy with
    | 0 => (.ready (.ok ()), t)
    | n + 1 => (.pending, { t with busy := n })
  startSend buf t := (.ok (), { t with sent := t.sent ++ [buf] })
  pollFlush t := (.ready (.ok ()), t)
  pollClose t := (.ready (.ok ()), t)
  frames := Outbox.sent
  frames_pollReady t := by
    obtain ⟨busy, sent⟩ := t
    cases busy <;> rfl
  startSend_ok buf t _ := ⟨[buf], rfl, List.append_nil buf⟩
  startSend_error buf t e h := by cases h
  frames_pollFlush _ := rfl
  frames_pollClose _ := rfl

/-- A message, written again after `Pending`, and read in pieces up to the
end. -/
theorem pipe_reliable_one_message :
    ∃ p : Pipe Outbox Bytes Bytes IoError, Runs.exec Pipe.step (Pipe.start ⟨1, []⟩)
        [.write [1, 2], .write [1, 2], .read ⟨[], 1⟩ [.ready (some (.ok [1, 2]))],
          .shutdown, .read ⟨[], 4⟩ [], .read ⟨[], 4⟩ [.ready none]] = some p ∧
      (p.got <+: p.accepted ∧
      (∀ w ∈ p.writings, w.Whole) ∧
      (∀ r ∈ p.readings, r.Fits) ∧
      ∀ prior r later, p.readings = prior ++ r :: later → r.Ended →
        p.closed = true ∧ prior.flatMap Reading.bytes = p.accepted) := by
  obtain ⟨p, hrun⟩ : ∃ p : Pipe Outbox Bytes Bytes IoError,
      Runs.exec Pipe.step (Pipe.start ⟨1, []⟩)
        [.write [1, 2], .write [1, 2], .read ⟨[], 1⟩ [.ready (some (.ok [1, 2]))],
          .shutdown, .read ⟨[], 4⟩ [], .read ⟨[], 4⟩ [.ready none]] = some p := ⟨_, rfl⟩
  exact ⟨p, hrun, pipe_reliable _ _ p hrun⟩

end Oxiscale

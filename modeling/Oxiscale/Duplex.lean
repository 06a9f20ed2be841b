/-
Oxiscale/Duplex.lean

Both directions of a tunnel.

The `FramedIo` of the source is one type, not a reader and a writer: its inner
object is a `Stream` and a `Sink` at once, and both halves of a connection poll
it, in any order.  `Framed.lean` knows the inner stream as the list of its
answers.  Here the object is any `Transport`; a fill polls it and goes on with
what it has become, and is still the fill of `Framed.lean` on the answers it
has taken (`pollFillBuf_taken`).

`Tunnel` has such an object at both ends.  A direction of it is a pipe whose
writer may have other things done to it (`view`): every move is a move of the
one pipe, and at most changes the writer of the other (`advances_of_step`).  So
both directions are reliable in every interleaving (`tunnel_reliable`).
-/
import Oxiscale.Pipe

namespace Oxiscale

/-! ### An object that is read and written -/

/-- Polling the stream sends no frame. -/
class Transport (T : Type) (B E : outParam Type) extends FrameSink T E where
  pollNext : T → Answer B E × T
  frames_pollNext : ∀ t, frames (pollNext t).2 = frames t

namespace FramedIo

section Source

variable {T B E : Type} [Buf B] [Transport T B E] [IntoIoError E]

/-- The loop of `poll_fill_buf`, for at most `fuel` polls. -/
def fillFrom (fuel : ℕ) (io : FramedIo T B) :
    Checked (Poll (Except IoError Bytes) × FramedIo T B) :=
  if io.hasChunk then do
    let buf ← unwrap io.chunk
    return (.ready (.ok (Buf.chunk buf)), io)
  else
    match fuel with
    | 0 => .error .starved
    | fuel + 1 =>
      match Transport.pollNext io.inner with
      | (.ready (some (.ok chunk)), inner) => fillFrom fuel ⟨inner, some chunk⟩
      | (.ready (some (.error e)), inner) =>
        return (.ready (.error (IntoIoError.into e)), ⟨inner, io.chunk⟩)
      | (.ready none, inner) => return (.ready (.ok []), ⟨inner, io.chunk⟩)
      | (.pending, inner) => return (.pending, ⟨inner, io.chunk⟩)

/-- `poll_read`, over a stream that is polled as it goes. -/
def pollReadFrom (fuel : ℕ) (buf : ReadBuf) (io : FramedIo T B) :
    Checked (Poll (Except IoError Unit) × ReadBuf × FramedIo T B) :=
  if buf.remaining = 0 then return (.ready (.ok ()), buf, io)
  else do
    let (r, io) ← fillFrom fuel io
    match r with
    | .ready (.ok innerBuf) =>
      let len := min innerBuf.length buf.remaining
      let bytes ← sliceTo innerBuf len
      let buf ← buf.putSlice bytes
      let io ← consume len io
      return (.ready (.ok ()), buf, io)
    | .ready (.error e) => return (.ready (.error e), buf, io)
    | .pending => return (.pending, buf, io)

end Source

/-! ### The answers a fill has taken -/

section Taken

variable {T B E : Type} [Buf B] [Transport T B E]

/-- What the polls of the loop are answered. -/
def taken (fuel : ℕ) (io : FramedIo T B) : List (Answer B E) :=
  if io.hasChunk then []
  else
    match fuel with
    | 0 => []
    | fuel + 1 =>
      match Transport.pollNext io.inner with
      | (.ready (some (.ok chunk)), inner) =>
        .ready (some (.ok chunk)) :: taken fuel ⟨inner, some chunk⟩
      | (a, _) => [a]

/-- A read that has no room does not poll. -/
def takenBy (fuel : ℕ) (buf : ReadBuf) (io : FramedIo T B) : List (Answer B E) :=
  if buf.remaining = 0 then [] else taken fuel io

/-- With the inner object replaced by a stream that has nothing more to say. -/
def drained {E : Type} (io : FramedIo T B) : FramedIo (List (Answer B E)) B := ⟨[], io.chunk⟩

variable [IntoIoError E] {io io' : FramedIo T B} {fuel : ℕ}

/-- A chunk with bytes left is handed out before the stream is polled. -/
theorem fillFrom_of_hasChunk (h : io.hasChunk = true) (fuel : ℕ) :
    ∃ chunk, io.chunk = some chunk ∧
      fillFrom fuel io = .ok (.ready (.ok (Buf.chunk chunk)), io) := by
  have hsome : (FramedIo.mk ([] : List (Answer B E)) io.chunk).hasChunk = true := h
  obtain ⟨chunk, hchunk, -⟩ := fillLoop_of_hasChunk hsome
  refine ⟨chunk, hchunk, ?_⟩
  rw [fillFrom.eq_def, if_pos h, hchunk]
  rfl

theorem pollFillBuf_taken_of_hasChunk (h : io.hasChunk = true) (fuel : ℕ) :
    pollFillBuf ⟨taken fuel io, io.chunk⟩ =
      (fillFrom fuel io).map fun (r, io) => (r, io.drained) := by
  have hsome : (FramedIo.mk ([] : List (Answer B E)) io.chunk).hasChunk = true := h
  obtain ⟨chunk, hchunk, -, hfill⟩ := fillLoop_of_hasChunk hsome
  obtain ⟨chunk', hchunk', hfrom⟩ := fillFrom_of_hasChunk h fuel
  obtain rfl := Option.some.inj (hchunk.symm.trans hchunk')
  have htaken : taken fuel io = [] := by rw [taken.eq_def, if_pos h]
  rw [htaken, hfrom]
  exact hfill

/-- A fill of the object is the fill of the answers it takes, and takes all of
them. -/
theorem pollFillBuf_taken (fuel : ℕ) (io : FramedIo T B) :
    pollFillBuf ⟨taken fuel io, io.chunk⟩ =
      (fillFrom fuel io).map fun (r, io) => (r, io.drained) := by
  -- only a chunk without bytes goes round the loop, with one poll less
  induction fuel generalizing io with
  | zero =>
      rcases hc : io.hasChunk with - | -
      · have hnone : (FramedIo.mk ([] : List (Answer B E)) io.chunk).hasChunk = false := hc
        have htaken : taken 0 io = [] := by
          rw [taken.eq_def, hc]
          rfl
        rw [htaken, pollFillBuf, fillLoop.eq_def, hnone, fillFrom.eq_def, hc]
        rfl
      · exact pollFillBuf_taken_of_hasChunk hc _
  | succ fuel ih =>
      rcases hc : io.hasChunk with - | -
      · rw [taken.eq_def, fillFrom.eq_def, hc, if_neg Bool.false_ne_true, if_neg Bool.false_ne_true]
        dsimp only
        rcases Transport.pollNext io.inner with ⟨_ | _ | e | chunk, inner⟩
        · exact fillLoop_of_not_hasChunk hc
        · exact fillLoop_of_not_hasChunk hc
        · exact fillLoop_of_not_hasChunk hc
        · exact (fillLoop_of_not_hasChunk hc).trans (ih ⟨inner, some chunk⟩)
      · exact pollFillBuf_taken_of_hasChunk hc _

omit [Transport T B E] [IntoIoError E] in
/-- Only the chunk is looked at. -/
theorem consume_drained (amt : ℕ) (io : FramedIo T B) :
    consume amt (io.drained : FramedIo (List (Answer B E)) B) = (consume amt io).map drained := by
  obtain ⟨inner, chunk⟩ := io
  unfold consume
  split
  · rcases chunk with - | chunk
    · rfl
    · rcases h : Buf.advance amt chunk with e | chunk'
      · simp only [drained, unwrap, bind, Except.bind, h, Except.map]
      · simp only [drained, unwrap, bind, Except.bind, h, Except.map, pure, Except.pure]
  · rfl

/-- A read of the object is the read of the answers it takes. -/
theorem pollRead_takenBy (fuel : ℕ) (buf : ReadBuf) (io : FramedIo T B) :
    pollRead buf ⟨takenBy fuel buf io, io.chunk⟩ =
      (pollReadFrom fuel buf io).map fun (r, buf, io) => (r, buf, io.drained) := by
  by_cases hroom : buf.remaining = 0
  · rw [pollRead, if_pos hroom, pollReadFrom, if_pos hroom, takenBy, if_pos hroom]
    rfl
  · rw [pollRead, if_neg hroom, pollReadFrom, if_neg hroom, takenBy, if_neg hroom,
      pollFillBuf_taken]
    rcases fillFrom fuel io with h | ⟨_ | e | innerBuf, io'⟩
    · rfl
    · rfl
    · rfl
    · simp only [Except.map, bind, Except.bind]
      rcases sliceTo innerBuf (min innerBuf.length buf.remaining) with h | bytes
      · rfl
      · dsimp only
        rcases buf.putSlice bytes with h | buf'
        · rfl
        · dsimp only
          rw [consume_drained]
          rcases consume (min innerBuf.length buf.remaining) io' with h | io''
          · rfl
          · rfl

/-! ### What reading and writing leave alone -/

/-- Reading writes nothing. -/
theorem frames_fillFrom {r : Poll (Except IoError Bytes)} (h : fillFrom fuel io = .ok (r, io')) :
    FrameSink.frames io'.inner = FrameSink.frames io.inner := by
  induction fuel generalizing io with
  | zero =>
      rcases hc : io.hasChunk with - | -
      · rw [fillFrom.eq_def, hc] at h
        cases h
      · obtain ⟨chunk, -, hfrom⟩ := fillFrom_of_hasChunk hc 0
        cases hfrom.symm.trans h
        rfl
  | succ fuel ih =>
      rcases hc : io.hasChunk with - | -
      · have hpoll := Transport.frames_pollNext io.inner
        rw [fillFrom.eq_def, hc, if_neg Bool.false_ne_true] at h
        dsimp only at h
        rcases hnext : Transport.pollNext io.inner with ⟨_ | _ | e | chunk, inner⟩
        · rw [hnext] at h hpoll
          cases h
          exact hpoll
        · rw [hnext] at h hpoll
          cases h
          exact hpoll
        · rw [hnext] at h hpoll
          cases h
          exact hpoll
        · rw [hnext] at h hpoll
          exact (ih h).trans hpoll
      · obtain ⟨chunk, -, hfrom⟩ := fillFrom_of_hasChunk hc (fuel + 1)
        cases hfrom.symm.trans h
        rfl

omit [Transport T B E] [IntoIoError E] in
theorem inner_consume {amt : ℕ} (h : consume amt io = .ok io') : io'.inner = io.inner := by
  unfold consume at h
  split at h
  · rcases hchunk : unwrap io.chunk with e | chunk
    · rw [hchunk] at h
      cases h
    · rcases hadvance : Buf.advance amt chunk with e | chunk'
      · simp only [hchunk, bind, Except.bind, hadvance] at h
        cases h
      · simp only [hchunk, bind, Except.bind, hadvance] at h
        cases h
        rfl
  · cases h
    rfl

/-- Reading sends nothing. -/
theorem frames_pollReadFrom {buf buf' : ReadBuf} {r : Poll (Except IoError Unit)}
    (h : pollReadFrom fuel buf io = .ok (r, buf', io')) :
    FrameSink.frames io'.inner = FrameSink.frames io.inner := by
  unfold pollReadFrom at h
  split at h
  · cases h
    rfl
  · rcases hfill : fillFrom fuel io with e | ⟨_ | e | innerBuf, io₁⟩
    · rw [hfill] at h
      cases h
    · rw [hfill] at h
      cases h
      exact frames_fillFrom hfill
    · rw [hfill] at h
      cases h
      exact frames_fillFrom hfill
    · simp only [hfill, bind, Except.bind] at h
      split at h
      · cases h
      · split at h
        · cases h
        · split at h
          · cases h
          · rename_i hconsume
            cases h
            rw [inner_consume hconsume]
            exact frames_fillFrom hfill

end Taken

section Write

variable {T B E : Type} [FrameSink T E] [IntoIoError E] (io : FramedIo T B)

/-- Writing keeps what was not read. -/
theorem chunk_pollWrite (buf : Bytes) : (io.pollWrite buf).2.chunk = io.chunk := by
  unfold pollWrite
  rcases Sink.pollReady io.inner with ⟨_ | (e | u), inner⟩
  · rfl
  · rfl
  · dsimp only
    rcases Sink.startSend buf inner with ⟨e | u, inner'⟩ <;> rfl

/-- Writing appends to the frames. -/
theorem frames_pollWrite (buf : Bytes) :
    FrameSink.frames io.inner <+: FrameSink.frames (io.pollWrite buf).2.inner := by
  rcases pollWrite_spec buf io with ⟨-, sent, hframes, -⟩ | ⟨-, hframes⟩
  · exact ⟨sent, hframes.symm⟩
  · rw [hframes]

end Write

end FramedIo

/-! ### The tunnel -/

inductive Side
  | server
  | client
deriving DecidableEq

namespace Side

def other : Side → Side
  | .server => .client
  | .client => .server

@[simp] theorem other_other (d : Side) : d.other.other = d := by cases d <;> rfl

@[simp] theorem other_ne (d : Side) : d.other ≠ d := by cases d <;> decide

@[simp] theorem ne_other (d : Side) : d ≠ d.other := (other_ne d).symm

theorem eq_or_other (d d' : Side) : d = d' ∨ d = d'.other := by
  cases d <;> cases d' <;> simp [other]

end Side

/-- An object at each end.  The frames in flight, the shutdown and the calls of
`poll_write` are those of the side that sends; the calls of `poll_read` those
of the side that reads. -/
structure Tunnel (T B : Side → Type) where
  io : (d : Side) → FramedIo (T d) (B d)
  inFlight : Side → List Bytes
  closed : Side → Bool
  writings : Side → List Writing
  readings : Side → List Reading

namespace Tunnel

/-- A read polls at most `fuel` times. -/
inductive Call
  | write (buf : Bytes)
  | flush
  | shutdown
  | read (buf : ReadBuf) (fuel : ℕ)

section Tunnel

variable {T B E : Side → Type} [∀ d, Buf (B d)] [∀ d, Transport (T d) (B d) (E d)]
  [∀ d, IntoIoError (E d)]

def start (inner : (d : Side) → T d) : Tunnel T B :=
  ⟨fun d => .new (inner d), fun _ => [], fun _ => false, fun _ => [], fun _ => []⟩

/-- A call at one end.  Nothing is written after the shutdown, and a read takes
what was in flight. -/
def step (s : Tunnel T B) : Side × Call → Option (Tunnel T B)
  | (d, .write buf) =>
    if s.closed d then none
    else
      let (r, io) := (s.io d).pollWrite buf
      let sent := (FrameSink.frames io.inner).drop (FrameSink.frames (s.io d).inner).length
      some { s with
        io := Function.update s.io d io
        inFlight := Function.update s.inFlight d (s.inFlight d ++ sent)
        writings := Function.update s.writings d (s.writings d ++ [⟨buf, r, sent⟩]) }
  | (d, .flush) => some { s with io := Function.update s.io d (s.io d).pollFlush.2 }
  | (d, .shutdown) =>
    some { s with
      io := Function.update s.io d (s.io d).pollShutdown.2
      closed := Function.update s.closed d true }
  | (d, .read buf fuel) =>
    match deliver (s.closed d.other) (s.inFlight d.other) ((s.io d).takenBy fuel buf) with
    | none => none
    | some left =>
      match (s.io d).pollReadFrom fuel buf with
      | .error _ => none
      | .ok (r, buf', io) =>
        some { s with
          io := Function.update s.io d io
          inFlight := Function.update s.inFlight d.other left
          readings := Function.update s.readings d (s.readings d ++ [⟨buf, r, buf'⟩]) }

/-! #### A direction as a pipe -/

variable (E) in
/-- From the side to the other one. -/
def view (d : Side) (s : Tunnel T B) : Pipe (T d) (B d) (B d.other) (E d.other) :=
  ⟨s.io d, (s.io d.other).drained, s.inFlight d, s.closed d, s.writings d, s.readings d.other⟩

/-- A move of the pipe, or anything that is done to its writer. -/
def Advances {T B B' E E' : Type} [FrameSink T E] [IntoIoError E] [Buf B'] [IntoIoError E']
    (p q : Pipe T B B' E') : Prop :=
  (∃ x, p.step x = some q) ∨ ∃ writer, q = { p with writer := writer }

variable {s t : Tunnel T B} {d : Side} {call : Call}

/-- A call at the sending side. -/
theorem advances_sender (h : s.step (d, call) = some t) :
    Advances (s.view E d) (t.view E d) := by
  cases call with
  | write buf =>
      simp only [step] at h
      split at h
      · cases h
      · rename_i hopen
        obtain rfl := Option.some.inj h
        refine Or.inl ⟨.write buf, ?_⟩
        simp [Pipe.step, view, hopen]
  | flush =>
      obtain rfl := Option.some.inj h
      refine Or.inl ⟨.flush, ?_⟩
      simp [Pipe.step, view]
  | shutdown =>
      obtain rfl := Option.some.inj h
      refine Or.inl ⟨.shutdown, ?_⟩
      simp [Pipe.step, view]
  | read buf fuel =>
      simp only [step] at h
      split at h
      · cases h
      · split at h
        · cases h
        · rename_i io' _
          obtain rfl := Option.some.inj h
          refine Or.inr ⟨io', ?_⟩
          simp [view]

/-- A call at the receiving side. -/
theorem advances_receiver (h : s.step (d.other, call) = some t) :
    Advances (s.view E d) (t.view E d) := by
  cases call with
  | write buf =>
      simp only [step] at h
      split at h
      · cases h
      · obtain rfl := Option.some.inj h
        refine Or.inr ⟨s.io d, ?_⟩
        simp [view, FramedIo.drained, FramedIo.chunk_pollWrite]
  | flush =>
      obtain rfl := Option.some.inj h
      refine Or.inr ⟨s.io d, ?_⟩
      simp [view, FramedIo.drained, FramedIo.pollFlush]
  | shutdown =>
      obtain rfl := Option.some.inj h
      refine Or.inr ⟨s.io d, ?_⟩
      simp [view, FramedIo.drained, FramedIo.pollShutdown]
  | read buf fuel =>
      simp only [step, Side.other_other] at h
      split at h
      · cases h
      · rename_i left hdeliver
        split at h
        · cases h
        · rename_i r buf' io' hread
          obtain rfl := Option.some.inj h
          have hpoll := FramedIo.pollRead_takenBy fuel buf (s.io d.other)
          rw [hread] at hpoll
          refine Or.inl ⟨.read buf ((s.io d.other).takenBy fuel buf), ?_⟩
          simp [Pipe.step, view, FramedIo.drained, hdeliver, hpoll, Except.map]

/-- **Step.**  A call at either end advances both directions. -/
theorem advances_of_step {x : Side × Call} (h : s.step x = some t) (d : Side) :
    Advances (s.view E d) (t.view E d) := by
  obtain ⟨d', call⟩ := x
  rcases Side.eq_or_other d' d with rfl | rfl
  · exact advances_sender h
  · exact advances_receiver h

/-- The invariant of a pipe does not look at the state of the writer. -/
theorem piped_of_advances {T B B' E E' : Type} [FrameSink T E] [IntoIoError E] [Buf B']
    [IntoIoError E'] {p q : Pipe T B B' E'} (h : p.Piped) (hadv : Advances p q) : q.Piped := by
  rcases hadv with ⟨x, hstep⟩ | ⟨writer, rfl⟩
  · exact h.next hstep
  · exact ⟨h.conserved, h.whole, h.fits, h.ended⟩

/-! #### What is on the wire -/

/-- The frames of a side are those of its writes, and nothing else. -/
def Sent (inner : (d : Side) → T d) (s : Tunnel T B) : Prop :=
  ∀ d, FrameSink.frames (s.io d).inner =
    FrameSink.frames (inner d) ++ (s.writings d).flatMap Writing.sent

omit [∀ d, Buf (B d)] [∀ d, IntoIoError (E d)] in
theorem frames_update {d' : Side} {io : FramedIo (T d) (B d)}
    (h : FrameSink.frames io.inner = FrameSink.frames (s.io d).inner) :
    FrameSink.frames (Function.update s.io d io d').inner = FrameSink.frames (s.io d').inner := by
  rcases eq_or_ne d' d with rfl | hne
  · rw [Function.update_self, h]
  · rw [Function.update_of_ne hne]

theorem Sent.next {inner : (d : Side) → T d} (h : Sent inner s) {x : Side × Call}
    (hstep : s.step x = some t) : Sent inner t := by
  obtain ⟨d, call⟩ := x
  intro d'
  cases call with
  | write buf =>
      simp only [step] at hstep
      split at hstep
      · cases hstep
      · obtain rfl := Option.some.inj hstep
        rcases eq_or_ne d' d with rfl | hne
        · obtain ⟨sent, hsent⟩ := FramedIo.frames_pollWrite (s.io d') buf
          simp only [Function.update_self]
          rw [List.flatMap_append, List.flatMap_singleton, ← List.append_assoc, ← h d', ← hsent,
            List.drop_left]
        · simp only [Function.update_of_ne hne]
          exact h d'
  | flush =>
      obtain rfl := Option.some.inj hstep
      exact (frames_update (FrameSink.frames_pollFlush _)).trans (h d')
  | shutdown =>
      obtain rfl := Option.some.inj hstep
      exact (frames_update (FrameSink.frames_pollClose _)).trans (h d')
  | read buf fuel =>
      simp only [step] at hstep
      split at hstep
      · cases hstep
      · split at hstep
        · cases hstep
        · rename_i hread
          obtain rfl := Option.some.inj hstep
          exact (frames_update (FramedIo.frames_pollReadFrom hread)).trans (h d')

/-- What a side has written, as far as it was accepted. -/
def accepted (s : Tunnel T B) (d : Side) : Bytes := (s.writings d).flatMap Writing.accepted

/-- What a side has read. -/
def got (s : Tunnel T B) (d : Side) : Bytes := (s.readings d).flatMap Reading.bytes

/-- **A tunnel is reliable in both directions.**  However the calls at its two
ends interleave, on objects that are read and written at once: what the other
side has read, has kept and is still to come is what this side was told that it
has written, each buffer whole; nothing but its writes sends frames; and a read
reports the end after the shutdown, when everything has been read. -/
theorem tunnel_reliable (inner : (d : Side) → T d) (xs : List (Side × Call)) (s : Tunnel T B)
    (hrun : Runs.exec step (start inner) xs = some s) (d : Side) :
    s.got d.other ++ ((s.io d.other).unread ++ (s.inFlight d).flatten) = s.accepted d ∧
    FrameSink.frames (s.io d).inner =
      FrameSink.frames (inner d) ++ (s.writings d).flatMap Writing.sent ∧
    (∀ w ∈ s.writings d, w.Whole) ∧
    (∀ r ∈ s.readings d.other, r.Fits) ∧
    ∀ prior r later, s.readings d.other = prior ++ r :: later → r.Ended →
      s.closed d = true ∧ prior.flatMap Reading.bytes = s.accepted d := by
  have hok : Runs.Guarded step (fun _ _ => True) (start inner : Tunnel T B) xs :=
    .of_forall fun _ _ => trivial
  have hstart : (∀ d, ((start inner : Tunnel T B).view E d).Piped) ∧ Sent inner (start inner) :=
    ⟨fun d => .start (inner d), fun d => (List.append_nil _).symm⟩
  obtain ⟨hpiped, hsent⟩ := Runs.exec_invariant
    (P := fun s : Tunnel T B => (∀ d, (s.view E d).Piped) ∧ Sent inner s)
    (fun s x t h _ hstep =>
      ⟨fun d => piped_of_advances (h.1 d) (advances_of_step hstep d), h.2.next hstep⟩)
    hstart hok hrun
  exact ⟨(hpiped d).conserved, hsent d, (hpiped d).whole, (hpiped d).fits, (hpiped d).ended⟩

end Tunnel

end Tunnel

/-- A stream that gives the answers it has, beside a sink that takes
everything. -/
structure Line where
  incoming : List (Answer Bytes IoError)
  sent : List Bytes

instance : Transport Line Bytes IoError where
  pollReady t := (.ready (.ok ()), t)
  startSend buf t := (.ok (), { t with sent := t.sent ++ [buf] })
  pollFlush t := (.ready (.ok ()), t)
  pollClose t := (.ready (.ok ()), t)
  frames := Line.sent
  frames_pollReady _ := rfl
  startSend_ok buf _ _ := ⟨[buf], rfl, List.append_nil buf⟩
  startSend_error _ _ _ h := by cases h
  frames_pollFlush _ := rfl
  frames_pollClose _ := rfl
  pollNext t :=
    match t.incoming with
    | [] => (.pending, t)
    | a :: answers => (a, { t with incoming := answers })
  frames_pollNext t := by
    obtain ⟨incoming, sent⟩ := t
    cases incoming <;> rfl

/-- The client reads the first byte of a message, and answers before it reads
the second. -/
theorem tunnel_reliable_both_ways :
    ∃ s : Tunnel (fun _ => Line) (fun _ => Bytes), Runs.exec Tunnel.step
        (Tunnel.start fun
          | .server => ⟨[.ready (some (.ok [3]))], []⟩
          | .client => ⟨[.ready (some (.ok [1, 2]))], []⟩)
        [(.server, .write [1, 2]), (.client, .read ⟨[], 1⟩ 1), (.client, .write [3]),
          (.server, .read ⟨[], 4⟩ 1)] = some s ∧
      ∀ d, s.got d.other ++ ((s.io d.other).unread ++ (s.inFlight d).flatten) = s.accepted d := by
  obtain ⟨s, hrun⟩ : ∃ s : Tunnel (fun _ => Line) (fun _ => Bytes), Runs.exec Tunnel.step
        (Tunnel.start fun
          | .server => ⟨[.ready (some (.ok [3]))], []⟩
          | .client => ⟨[.ready (some (.ok [1, 2]))], []⟩)
        [(.server, .write [1, 2]), (.client, .read ⟨[], 1⟩ 1), (.client, .write [3]),
          (.server, .read ⟨[], 4⟩ 1)] = some s := ⟨_, rfl⟩
  exact ⟨s, hrun, fun d => (Tunnel.tunnel_reliable _ _ s hrun d).1⟩

end Oxiscale

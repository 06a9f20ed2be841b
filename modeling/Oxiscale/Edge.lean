/-
Oxiscale/Edge.lean

The connections of a server, from the first request to the tunnel.

Any number of connections share one server.  A connection speaks HTTP/1.1
until a request is answered by 101; a task then waits for the upgrade, runs
the handshake and writes EarlyNoise, and from there on the connection carries
HTTP/2 requests inside noise.  `step` is one move of one connection; what the
peers send, when an upgrade or a socket fails and when connections end is not
the server's choice, so it is part of the labels.

`log` is no part of the program: it is what a connection has been through.  In
every run the log of every connection tells the same story (`Story`), whoever
the peers are: ordinary exchanges, then at most one 101, then at most one
tunnel, which the initiation of that very request has authenticated, and
requests inside noise only there.
-/
import Oxiscale.Server

namespace Oxiscale.Edge

section Edge

variable [Base64Standard] [Ik] [MachineKeys] {C D S E : Type} [DecidableEq C] [AsyncWrite S]
  [FrameSink (S × Ik.Session) E] [IntoIoError E]

/-! ### Connections -/

/-- Where a connection is. -/
inductive Conn (S : Type) [Ik]
  | http
  | upgrading (initB64 : String)
  | tunnel (accepted : Accepted S)
  | ended

/-- What a connection has been through. -/
inductive Event (S : Type) [Ik]
  | exchanged (req : Request) (resp : Response)
  | opened (io : S) (accepted : Accepted S)
  | handled (req : Request) (resp : Response)
  | failed (e : ServerError)

structure Server (C S : Type) [Ik] where
  conn : C → Conn S
  log : C → List (Event S)

/-- A move of one connection.  The upgrade may fail, and then there is no
socket. -/
inductive Label (C S : Type) [Ik]
  | request (c : C) (req : Request)
  | upgrade (c : C) (io : Option S) (challenge : Ik.PublicKey) (polls flushes : ℕ)
  | machine (c : C) (req : Request)
  | http2 (c : C) (result : Except String Unit)
  | close (c : C)

namespace Server

omit [Base64Standard] [MachineKeys] [DecidableEq C] [AsyncWrite S] [FrameSink (S × Ik.Session) E]
  [IntoIoError E] in
/-- Before the first request. -/
def start : Server C S := ⟨fun _ => .http, fun _ => []⟩

def put (c : C) (conn : Conn S) (es : List (Event S)) (s : Server C S) : Server C S :=
  ⟨Function.update s.conn c conn, Function.update s.log c (s.log c ++ es)⟩

section Put

variable {c c' : C} {conn : Conn S} {es : List (Event S)} {s : Server C S}

omit [Base64Standard] [MachineKeys] [AsyncWrite S] [FrameSink (S × Ik.Session) E]
  [IntoIoError E]

@[simp] theorem put_conn_self : (s.put c conn es).conn c = conn := Function.update_self _ _ _

@[simp] theorem put_log_self : (s.put c conn es).log c = s.log c ++ es := Function.update_self _ _ _

/-- Other connections stay where they are. -/
theorem put_conn_of_ne (h : c' ≠ c) : (s.put c conn es).conn c' = s.conn c' :=
  Function.update_of_ne h _ _

theorem put_log_of_ne (h : c' ≠ c) : (s.put c conn es).log c' = s.log c' :=
  Function.update_of_ne h _ _

end Put

end Server

/-- One move.  It is `none` where the connection is not at that point. -/
def step (state : ServerState D) (s : Server C S) : Label C S → Option (Server C S)
  | .request c req =>
    match s.conn c with
    | .http =>
      match router state req with
      | (resp, none) => some (s.put c .http [.exchanged req resp])
      | (resp, some initB64) => some (s.put c (.upgrading initB64) [.exchanged req resp])
    | _ => none
  | .upgrade c io challenge polls flushes =>
    match s.conn c with
    | .upgrading initB64 =>
      match io with
      | none => some (s.put c .ended [])
      | some io =>
        match openTunnel io state.serverKey initB64 challenge polls flushes with
        | .ok (some (.ok accepted)) => some (s.put c (.tunnel accepted) [.opened io accepted])
        | .ok (some (.error e)) => some (s.put c .ended [.failed e])
        | _ => none
    | _ => none
  | .machine c req =>
    match s.conn c with
    | .tunnel accepted => some (s.put c (.tunnel accepted) [.handled req (handleMachine req)])
    | _ => none
  | .http2 c result =>
    match s.conn c with
    | .tunnel _ =>
      match result with
      | .ok () => some (s.put c .ended [])
      | .error text => some (s.put c .ended [.failed (.http2 text)])
    | _ => none
  | .close c =>
    match s.conn c with
    | .http => some (s.put c .ended [])
    | _ => none

/-! ### What a move does to its connection -/

/-- Everything a move can do: where the connection was, where it is then, and
what it has been through. -/
inductive Moves (state : ServerState D) : Conn S → Conn S → List (Event S) → Prop
  | exchange {req} (h : (router state req).1.status ≠ 101) :
      Moves state .http .http [.exchanged req (router state req).1]
  | upgrade {req initB64} (h : Upgrades req initB64) :
      Moves state .http (.upgrading initB64) [.exchanged req (router state req).1]
  | lost {initB64} : Moves state (.upgrading initB64) .ended []
  | refused {initB64 e} : Moves state (.upgrading initB64) .ended [.failed (.noise e)]
  | opened {initB64 io challenge accepted}
      (h : Opened io state.serverKey initB64 challenge accepted) :
      Moves state (.upgrading initB64) (.tunnel accepted) [.opened io accepted]
  | handled {accepted req} :
      Moves state (.tunnel accepted) (.tunnel accepted) [.handled req (handleMachine req)]
  | finished {accepted} : Moves state (.tunnel accepted) .ended []
  | failed {accepted text} : Moves state (.tunnel accepted) .ended [.failed (.http2 text)]
  | closed : Moves state .http .ended []

variable {state : ServerState D} {s t : Server C S} {x : Label C S} {c : C} {conn conn' : Conn S}
  {log es : List (Event S)}

theorem moves_of_step (h : step state s x = some t) :
    ∃ c conn es, t = s.put c conn es ∧ Moves state (s.conn c) conn es := by
  cases x with
  | request c req =>
      simp only [step] at h
      split at h
      · rename_i hconn
        refine ⟨c, ?_⟩
        rw [hconn]
        rcases router_cases state req with ⟨hstatus, hnone, -⟩ | ⟨initB64, hreq, hrouter⟩
        · have hrouter : router state req = ((router state req).1, none) := by rw [← hnone]
          rw [hrouter] at h
          exact ⟨_, _, (Option.some.inj h).symm, .exchange hstatus⟩
        · have hresp : (router state req).1 = switchingProtocols := by rw [hrouter]
          rw [hrouter] at h
          exact ⟨_, _, (Option.some.inj h).symm, hresp ▸ .upgrade hreq⟩
      · cases h
  | upgrade c io challenge polls flushes =>
      simp only [step] at h
      split at h
      · rename_i initB64 hconn
        split at h
        · obtain rfl := Option.some.inj h
          exact ⟨c, _, _, rfl, hconn ▸ .lost⟩
        · rename_i io
          rcases openTunnel_cases io state.serverKey initB64 challenge polls flushes with
            ⟨e, hopen⟩ | hopen | ⟨accepted, hopened, hopen⟩
          · rw [hopen] at h
            obtain rfl := Option.some.inj h
            exact ⟨c, _, _, rfl, hconn ▸ .refused⟩
          · rw [hopen] at h
            cases h
          · rw [hopen] at h
            obtain rfl := Option.some.inj h
            exact ⟨c, _, _, rfl, hconn ▸ .opened hopened⟩
      · cases h
  | machine c req =>
      simp only [step] at h
      split at h
      · rename_i hconn
        obtain rfl := Option.some.inj h
        refine ⟨c, _, _, rfl, ?_⟩
        rw [hconn]
        exact .handled
      · cases h
  | http2 c result =>
      simp only [step] at h
      split at h
      · rename_i hconn
        split at h
        · obtain rfl := Option.some.inj h
          exact ⟨c, _, _, rfl, hconn ▸ .finished⟩
        · obtain rfl := Option.some.inj h
          exact ⟨c, _, _, rfl, hconn ▸ .failed⟩
      · cases h
  | close c =>
      simp only [step] at h
      split at h
      · rename_i hconn
        obtain rfl := Option.some.inj h
        exact ⟨c, _, _, rfl, hconn ▸ .closed⟩
      · cases h

theorem step_exchange {req : Request} (hconn : s.conn c = .http)
    (h : (router state req).2 = none) : step state s (.request c req) =
      some (s.put c .http [.exchanged req (router state req).1]) := by
  rw [step, hconn]
  rcases hrouter : router state req with ⟨resp, - | initB64⟩
  · rfl
  · rw [hrouter] at h
    cases h

/-- A request for a tunnel is answered with the switch of protocols. -/
theorem step_upgrades {req : Request} {initB64 : String} (hconn : s.conn c = .http)
    (h : Upgrades req initB64) : step state s (.request c req) =
      some (s.put c (.upgrading initB64) [.exchanged req switchingProtocols]) := by
  rw [step, hconn]
  simp only [router_of_upgrades state h]

theorem step_opened {initB64 : String} {io : S} {challenge : Ik.PublicKey} {polls flushes : ℕ}
    {accepted : Accepted S} (hconn : s.conn c = .upgrading initB64)
    (h : openTunnel io state.serverKey initB64 challenge polls flushes = .ok (some (.ok accepted))) :
    step state s (.upgrade c (some io) challenge polls flushes) =
      some (s.put c (.tunnel accepted) [.opened io accepted]) := by
  rw [step, hconn]
  simp only [h]

/-- In a tunnel every request is handled. -/
theorem step_handled {accepted : Accepted S} (hconn : s.conn c = .tunnel accepted)
    (req : Request) : step state s (.machine c req) =
      some (s.put c (.tunnel accepted) [.handled req (handleMachine req)]) := by
  rw [step, hconn]

/-! ### The story of a connection -/

/-- A request that was answered, and left the connection as it was. -/
def Plain (state : ServerState D) (e : Event S) : Prop :=
  ∃ req, e = .exchanged req (router state req).1 ∧ (router state req).1.status ≠ 101

/-- Requests inside noise. -/
def served (reqs : List Request) : List (Event S) :=
  reqs.map fun req => .handled req (handleMachine req)

/-- What may follow the plain exchanges, and where the connection then is. -/
inductive Tail (state : ServerState D) : Conn S → List (Event S) → Prop
  | http : Tail state .http []
  | closed : Tail state .ended []
  | upgrading {req initB64} (h : Upgrades req initB64) :
      Tail state (.upgrading initB64) [.exchanged req (router state req).1]
  | lost {req initB64} (h : Upgrades req initB64) :
      Tail state .ended [.exchanged req (router state req).1]
  | refused {req initB64 e} (h : Upgrades req initB64) :
      Tail state .ended [.exchanged req (router state req).1, .failed (.noise e)]
  | tunnel {req initB64 io challenge accepted} (h : Upgrades req initB64)
      (hopened : Opened io state.serverKey initB64 challenge accepted) (reqs : List Request) :
      Tail state (.tunnel accepted)
        (.exchanged req (router state req).1 :: .opened io accepted :: served reqs)
  | finished {req initB64 io challenge accepted ending} (h : Upgrades req initB64)
      (hopened : Opened io state.serverKey initB64 challenge accepted) (reqs : List Request)
      (hending : ending = [] ∨ ∃ text, ending = [.failed (.http2 text)]) :
      Tail state .ended
        (.exchanged req (router state req).1 :: .opened io accepted :: served reqs ++ ending)

/-- **The story of a connection.**  Plain exchanges; then, if the connection
got that far, one 101, the tunnel that its request opened, and the requests
inside it. -/
def Story (state : ServerState D) (conn : Conn S) (log : List (Event S)) : Prop :=
  ∃ plain tail, log = plain ++ tail ∧ (∀ e ∈ plain, Plain state e) ∧ Tail state conn tail

omit [DecidableEq C] in
/-- The story goes on behind the plain exchanges. -/
theorem Story.append (h : Story state conn log)
    (htail : ∀ tail, Tail state conn tail → Tail state conn' (tail ++ es)) :
    Story state conn' (log ++ es) := by
  obtain ⟨plain, tail, rfl, hplain, ht⟩ := h
  exact ⟨plain, tail ++ es, List.append_assoc _ _ _, hplain, htail tail ht⟩

omit [DecidableEq C] in
theorem Story.exchange (h : Story state .http log) (req : Request)
    (hstatus : (router state req).1.status ≠ 101) :
    Story state (.http : Conn S) (log ++ [.exchanged req (router state req).1]) := by
  obtain ⟨plain, tail, rfl, hplain, ht⟩ := h
  obtain ⟨⟩ := ht
  refine ⟨plain ++ [.exchanged req (router state req).1], [], by simp, ?_, .http⟩
  intro e he
  rcases List.mem_append.mp he with he | he
  · exact hplain e he
  · obtain rfl := List.mem_singleton.mp he
    exact ⟨req, rfl, hstatus⟩

omit [DecidableEq C] in
/-- **Step.**  A move continues the story of its connection. -/
theorem Story.moves (h : Story state conn log) (hmoves : Moves state conn conn' es) :
    Story state conn' (log ++ es) := by
  cases hmoves with
  | exchange hstatus => exact h.exchange _ hstatus
  | upgrade hreq =>
      refine h.append fun tail ht => ?_
      obtain ⟨⟩ := ht
      exact .upgrading hreq
  | lost =>
      refine h.append fun tail ht => ?_
      cases ht with
      | upgrading hreq => exact .lost hreq
  | refused =>
      refine h.append fun tail ht => ?_
      cases ht with
      | upgrading hreq => exact .refused hreq
  | opened hopened =>
      refine h.append fun tail ht => ?_
      cases ht with
      | upgrading hreq => exact .tunnel hreq hopened []
  | @handled accepted req =>
      refine h.append fun tail ht => ?_
      cases ht with
      | tunnel hreq hopened reqs =>
          have hserved : served reqs ++ [.handled req (handleMachine req)] =
              (served (reqs ++ [req]) : List (Event S)) := by
            rw [served, served, List.map_append]
            rfl
          rw [List.cons_append, List.cons_append, hserved]
          exact .tunnel hreq hopened (reqs ++ [req])
  | finished =>
      refine h.append fun tail ht => ?_
      cases ht with
      | tunnel hreq hopened reqs => exact .finished hreq hopened reqs (Or.inl rfl)
  | failed =>
      refine h.append fun tail ht => ?_
      cases ht with
      | tunnel hreq hopened reqs => exact .finished hreq hopened reqs (Or.inr ⟨_, rfl⟩)
  | closed =>
      refine h.append fun tail ht => ?_
      obtain ⟨⟩ := ht
      exact .closed

/-- **Step.**  A move continues the story of its connection, and leaves the
others as they are. -/
theorem Story.next (h : ∀ c, Story state (s.conn c) (s.log c)) (hstep : step state s x = some t)
    (c : C) : Story state (t.conn c) (t.log c) := by
  obtain ⟨c', conn, es, rfl, hmoves⟩ := moves_of_step hstep
  rcases eq_or_ne c c' with rfl | hne
  · rw [Server.put_conn_self, Server.put_log_self]
    exact (h c).moves hmoves
  · rw [Server.put_conn_of_ne hne, Server.put_log_of_ne hne]
    exact h c

/-- **Every tunnel is authenticated.**  In every run, whoever the peers are,
the log of every connection is plain exchanges, then at most one 101, then at
most one tunnel, with the requests handled inside it; and behind an open
tunnel stands, in the header of the request that was answered by 101, an
initiation that the peer has built for this server under a supported
version. -/
theorem tunnels_authenticated (state : ServerState D) (xs : List (Label C S)) (s : Server C S)
    (hrun : Runs.exec (step state) .start xs = some s) (c : C) :
    Story state (s.conn c) (s.log c) := by
  have hok : Runs.Guarded (step state) (fun _ _ => True) (.start : Server C S) xs :=
    .of_forall fun _ _ => trivial
  have hstart : ∀ c, Story state ((.start : Server C S).conn c) ((.start : Server C S).log c) :=
    fun _ => ⟨[], [], rfl, List.forall_mem_nil _, .http⟩
  exact Runs.exec_invariant
    (P := fun s : Server C S => ∀ c, Story state (s.conn c) (s.log c))
    (fun s x t h _ hstep => Story.next h hstep) hstart hok hrun c

/-! ### What a client reads -/

section Client

variable {T B B' E' : Type} [FrameSink T E] [Buf B'] [IntoIoError E'] [ChallengeText]

omit [Base64Standard] [Ik] [MachineKeys] [DecidableEq C] [AsyncWrite S]
  [FrameSink (S × Ik.Session) E] [IntoIoError E]

/-- Whatever is written after what was sent between two states of the stream,
and however it is cut and arrives, a client that reads in any sizes gets the
frame, in a bounded number of reads, and is left in front of what follows. -/
def Delivers (B' E' : Type) [Buf B'] [IntoIoError E'] (stream stream' : FramedIo T B)
    (frame : EarlyNoise) : Prop :=
  ∀ (rest : Bytes) (frames : List Bytes) (closed : Bool) (answers : List (Answer B' E'))
    (sizes : List ℕ), frames.flatten = (sentSince stream stream').flatten ++ rest →
    deliver closed frames answers = some [] →
    (readEarlyNoise sizes (.new answers) = .ok none ∧
      sizes.length < 9 + frame.toVec.length + answers.length) ∨
    ∃ client n, readEarlyNoise sizes (.new answers) =
        .ok (some (.ok (frame, frame.toVec.length), client)) ∧
      client.ahead = rest.map .byte ++ List.replicate n .eof

/-- A frame that was written is what the client of the tunnel reads first. -/
theorem delivers_of_write [IntoIoError E] {frame : EarlyNoise} {polls flushes : ℕ}
    {stream stream' : FramedIo T B}
    (hwrite : writeEarlyNoise polls flushes stream frame = some (.ok (), stream')) :
    Delivers B' E' stream stream' frame := by
  intro rest frames closed answers sizes hcut hdeliver
  obtain ⟨bytes, n, hbytes, hflat, -⟩ := deliver_spec hdeliver
  rw [List.flatten_nil, List.append_nil, hcut, writeEarlyNoise_spec hwrite] at hflat
  have hahead : (FramedIo.new answers : FramedIo (List (Answer B' E')) B').ahead =
      frame.buffer.map .byte ++ (rest.map .byte ++ List.replicate n .eof) := by
    show answers.flatMap Observed.ofAnswer = _
    rw [hbytes, hflat, List.map_append, List.append_assoc]
  exact (readEarlyNoise_spec sizes hahead).imp_right fun ⟨client, hread, htail⟩ =>
    ⟨client, n, hread, htail⟩

end Client

end Edge

/-! ### One client -/

/-- The request a client sends with an initiation. -/
def upgradeRequest (raw : Bytes) : Request where
  method := .post
  path := "/ts2021"
  headers := [("host", intoBytes "localhost"), ("upgrade", intoBytes upgradeTs2021),
    ("x-tailscale-handshake", intoBytes (String.ofList (Base64Standard.encode raw)))]

/-- What the client sends is a request for a tunnel. -/
theorem upgrades_upgradeRequest (raw : Bytes) :
    Upgrades (upgradeRequest raw) (String.ofList (Base64Standard.encode raw)) :=
  ⟨rfl, rfl, ⟨_, rfl, intoBytes_ne_nil (by decide)⟩, ⟨_, rfl, toStr_encode raw⟩⟩

/-- A request is refused, the next one opens a tunnel, and a third one is
handled in it. -/
theorem tunnels_authenticated_three_requests :
    letI := Ik.oneInitiation
    letI := MachineKeys.oneInitiation
    let state : ServerState Unit := ⟨MachineKeyPair.oneInitiation, ()⟩
    ∃ accepted, ∃ s : Server Unit Wire, Runs.exec (step state) .start
        [.request () ⟨.get, "/ts2021", []⟩,
          .request () (upgradeRequest (initiation 113 (List.replicate 96 9))),
          .upgrade () (some ⟨[], []⟩) (5 : UInt8) 1 1,
          .machine () ⟨.post, "/machine/map", []⟩] = some s ∧
      s.conn () = .tunnel accepted ∧ Story state (s.conn ()) (s.log ()) := by
  let _ := Ik.oneInitiation
  let _ := MachineKeys.oneInitiation
  intro state
  have hwell : Wellformed 113 (List.replicate 96 9) := ⟨by decide, List.length_replicate⟩
  have hbuilt : Ik.Built (7 : UInt8) state.serverKey.publicKey (prologueFor 113)
      (List.replicate 96 9) := ⟨rfl, rfl, rfl, rfl⟩
  generalize List.replicate 96 (9 : UInt8) = payload at hwell hbuilt
  obtain ⟨accepted, hopen⟩ := openTunnel_wire hwell hbuilt (decoded_encode _) ⟨[], []⟩ (5 : UInt8)
  obtain ⟨s, hrun, hconn⟩ : ∃ s : Server Unit Wire, Runs.exec (step state) .start
        [.request () ⟨.get, "/ts2021", []⟩, .request () (upgradeRequest (initiation 113 payload)),
          .upgrade () (some ⟨[], []⟩) (5 : UInt8) 1 1,
          .machine () ⟨.post, "/machine/map", []⟩] = some s ∧ s.conn () = .tunnel accepted :=
    ⟨_, Runs.exec_cons_some.mpr ⟨_, step_exchange rfl rfl,
      Runs.exec_cons_some.mpr ⟨_, step_upgrades Server.put_conn_self (upgrades_upgradeRequest _),
      Runs.exec_cons_some.mpr ⟨_, step_opened Server.put_conn_self hopen,
      Runs.exec_cons_some.mpr ⟨_, step_handled Server.put_conn_self _, rfl⟩⟩⟩⟩,
      Server.put_conn_self⟩
  exact ⟨accepted, s, hrun, hconn, tunnels_authenticated state _ s hrun ()⟩

/-! ### An honest client -/

section Honest

variable [Ik] [MachineKeys] [ChallengeText] {C D S E : Type} [DecidableEq C] [AsyncWrite S]
  [FrameSink (S × Ik.Session) E] [IntoIoError E]

/-- **An honest client connects.**  It asks for `/key`, builds an initiation
for the key it is told and posts it to `/ts2021`.  The connection then
switches protocols, and unless the socket fails, the peer of the tunnel is
this client with its version, one response frame was written, and the client
reads the challenge and is left in front of the first HTTP/2 byte. -/
theorem honest_client_connects (B' E' : Type) [Buf B'] [IntoIoError E'] (state : ServerState D)
    (s : Server C S) (c : C) (keyReq req : Request) (learned : OverTLSPublicKeyResponse)
    (k : Ik.PublicKey)
    (capver : UInt16) (payload : Bytes) (hconn : s.conn c = .http)
    (hkeyReq : keyReq.method = .get ∧ keyReq.path = "/key")
    (hlearned : OverTLSPublicKeyResponse.fromSlice (router state keyReq).1.body = some learned)
    (hwell : Wellformed capver payload)
    (hbuilt : Ik.Built k learned.publicKey (prologueFor capver) payload)
    (hreq : req.method = .post ∧ req.path = "/ts2021")
    (hupgrade : req.headers.get "upgrade" = some (intoBytes upgradeTs2021))
    (hhandshake : req.headers.get "x-tailscale-handshake" =
      some (intoBytes (String.ofList (Base64Standard.encode (initiation capver payload))))) :
    ∃ t, step state s (.request c req) = some t ∧
      t.conn c = .upgrading (String.ofList (Base64Standard.encode (initiation capver payload))) ∧
      t.log c = s.log c ++ [.exchanged req switchingProtocols] ∧
      ∀ io challenge polls flushes u,
        step state t (.upgrade c (some io) challenge polls flushes) = some u →
        (u.conn c = .ended ∧ ∃ e, u.log c = t.log c ++ [.failed (.noise (.io e))]) ∨
        ∃ accepted, u.conn c = .tunnel accepted ∧ accepted.peerMachineKey = k ∧
          accepted.capabilityVersion = capver ∧
          ∃ socket session frame, IsResponse frame ∧
            AsyncWrite.written socket = AsyncWrite.written io ++ frame ∧
            Delivers B' E' (.new (socket, session)) accepted.stream ⟨challengeKey challenge⟩ := by
  obtain ⟨raw, hraw⟩ : ∃ raw, raw = initiation capver payload := ⟨_, rfl⟩
  rw [← hraw] at hhandshake
  have hupgrades : Upgrades req (String.ofList (Base64Standard.encode raw)) :=
    ⟨hreq.1, hreq.2, ⟨_, hupgrade, intoBytes_ne_nil (by decide)⟩,
      ⟨_, hhandshake, toStr_encode raw⟩⟩
  -- the key it was told is the server's
  have hlearn : learned = .new state.serverKey.publicKey :=
    Option.some.inj (hlearned.symm.trans (learns_key hkeyReq.1 hkeyReq.2))
  rw [hlearn] at hbuilt
  refine ⟨s.put c (.upgrading (String.ofList (Base64Standard.encode raw)))
    [.exchanged req switchingProtocols], ?_, hraw ▸ Server.put_conn_self, Server.put_log_self, ?_⟩
  · exact step_upgrades hconn hupgrades
  · intro io challenge polls flushes u hstep
    simp only [step, Server.put_conn_self] at hstep
    have hdecoded := decoded_encode raw
    rw [hraw] at hdecoded hstep
    rcases openTunnel_honest hwell hbuilt hdecoded io challenge polls flushes with
      hnone | ⟨e, herr⟩ | ⟨accepted, hopened, hpeer, hver, hok⟩
    · rw [hnone] at hstep
      cases hstep
    · rw [herr] at hstep
      obtain rfl := Option.some.inj hstep
      exact Or.inl ⟨Server.put_conn_self, e, Server.put_log_self⟩
    · rw [hok] at hstep
      obtain rfl := Option.some.inj hstep
      obtain ⟨socket, session, frame, polls', flushes', hframe, hwritten, hwrite⟩ := hopened.wire
      exact Or.inr ⟨accepted, Server.put_conn_self, hpeer, hver, socket, session, frame, hframe,
        hwritten, delivers_of_write hwrite⟩

end Honest

/-- The one initiation, sent over a wire that takes everything. -/
theorem honest_client_connects_one_initiation :
    letI := Ik.oneInitiation
    letI := MachineKeys.oneInitiation
    let state : ServerState Unit := ⟨MachineKeyPair.oneInitiation, ()⟩
    ∃ t u : Server Unit Wire, ∃ accepted socket session,
      step state .start
        (.request () (upgradeRequest (initiation 113 (List.replicate 96 9)))) = some t ∧
      step state t (.upgrade () (some ⟨[], []⟩) (5 : UInt8) 1 1) = some u ∧
      u.conn () = .tunnel accepted ∧ accepted.peerMachineKey = (7 : UInt8) ∧
      accepted.capabilityVersion = 113 ∧
      Delivers Bytes IoError (.new (socket, session)) accepted.stream
        ⟨challengeKey (5 : UInt8)⟩ := by
  let _ := Ik.oneInitiation
  let _ := MachineKeys.oneInitiation
  intro state
  have hwell : Wellformed 113 (List.replicate 96 9) := ⟨by decide, List.length_replicate⟩
  have hbuilt : Ik.Built (7 : UInt8) state.serverKey.publicKey (prologueFor 113)
      (List.replicate 96 9) := ⟨rfl, rfl, rfl, rfl⟩
  generalize List.replicate 96 (9 : UInt8) = payload at hwell hbuilt
  obtain ⟨t, hrequest, hupgrading, -, hall⟩ := honest_client_connects Bytes IoError state
    (.start : Server Unit Wire) () ⟨.get, "/key", []⟩ (upgradeRequest (initiation 113 payload))
    (.new state.serverKey.publicKey) (7 : UInt8) 113 payload rfl ⟨rfl, rfl⟩ (learns_key rfl rfl)
    hwell hbuilt ⟨rfl, rfl⟩ rfl rfl
  obtain ⟨accepted, hopen⟩ := openTunnel_wire hwell hbuilt (decoded_encode _) ⟨[], []⟩ (5 : UInt8)
  have hopened : step state t (.upgrade () (some ⟨[], []⟩) (5 : UInt8) 1 1) = some _ :=
    step_opened hupgrading hopen
  rcases hall _ _ _ _ _ hopened with ⟨hended, -⟩ |
    ⟨_, hconn, hpeer, hver, socket, session, _, -, -, hdelivers⟩
  · cases Server.put_conn_self.symm.trans hended
  · exact ⟨_, _, _, socket, session, hrequest, hopened, hconn, hpeer, hver, hdelivers⟩

end Oxiscale.Edge

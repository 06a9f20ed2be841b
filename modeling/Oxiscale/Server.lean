/-
Oxiscale/Server.lean

The HTTP edge (`control-core/src/server/mod.rs`) and the handle around it
(`control-api/src/server.rs`).

`GET /key` advertises the public key of the server, and `POST /ts2021`
switches the connection to the noise handshake; `router` says for every
request what is answered and, where a task is spawned, the header value it
is given.  That task is `openTunnel` up to the HTTP/2 server, which is another
crate's; `handleMachine` is what that server calls.

HTTP is read and written by other crates too.  A request is here what they
hand to the router, with its header names in lower case and the query taken
off the path.
-/
import Oxiscale.Accept
import Oxiscale.EarlyNoise

namespace Oxiscale

/-! ### Keys -/

def machinePrefix : List Char := ['m', 'k', 'e', 'y', ':']

/-- `MachinePublicKey` of `ts_keys`: its 32 bytes, the zero key, and the parser
of the text form. -/
class MachineKeys [Ik] where
  toBytes : Ik.PublicKey → Bytes
  length_toBytes : ∀ key, (toBytes key).length = 32
  zero : Ik.PublicKey
  toBytes_zero : toBytes zero = List.replicate 32 0
  fromStr : String → Option Ik.PublicKey
  fromStr_text : ∀ key, fromStr (String.ofList (machinePrefix ++ hex (toBytes key))) = some key

/-- `Display`. -/
def machineText [Ik] [MachineKeys] (key : Ik.PublicKey) : String :=
  String.ofList (machinePrefix ++ hex (MachineKeys.toBytes key))

/-- `ChallengePublicKey::from` of the bytes of a public key. -/
def challengeKey [Ik] [MachineKeys] (key : Ik.PublicKey) : ChallengePublicKey :=
  ⟨MachineKeys.toBytes key, MachineKeys.length_toBytes key⟩

/-- The long-lived static identity of a server. -/
structure MachineKeyPair [Ik] where
  privateKey : Ik.PrivateKey
  publicKey : Ik.PublicKey
  public_eq : publicKey = Ik.pub privateKey

/-! ### Requests and responses -/

/-- What the router tells apart. -/
inductive Method
  | get
  | head
  | post
  | other (name : String)
deriving DecidableEq

/-- Names are in lower case; a name may stand more than once. -/
abbrev HeaderMap := List (String × Bytes)

/-- The first value. -/
def HeaderMap.get (name : String) (headers : HeaderMap) : Option Bytes :=
  (headers.find? fun h => h.1 = name).map Prod.snd

/-- Visible ASCII, blanks and tabs. -/
def visible (b : UInt8) : Bool := (32 ≤ b && b < 127) || b = 9

/-- `HeaderValue::to_str`. -/
def toStr (value : Bytes) : Option String := if value.all visible then fromUtf8 value else none

theorem intoBytes_ne_nil {s : String} (h : s ≠ "") : intoBytes s ≠ [] :=
  fun hnil => h (intoBytes_inj (hnil.trans rfl))

theorem visible_of_graphic {b : UInt8} (hle : 32 ≤ b) (hlt : b < 127) : visible b = true := by
  simp [visible, hle, hlt]

/-- Graphic ASCII text passes as a header value. -/
theorem toStr_intoBytes {cs : List Char} (h : ∀ c ∈ cs, 32 ≤ c.toNat ∧ c.toNat < 127) :
    toStr (intoBytes (String.ofList cs)) = some (String.ofList cs) := by
  have hvisible : (intoBytes (String.ofList cs)).all visible = true := by
    rw [intoBytes_ofList, List.all_flatMap, List.all_eq_true]
    intro c hc
    rw [List.all_eq_true]
    obtain ⟨hlow, hhigh⟩ := h c hc
    have hv : c.val ≤ 0x7f := UInt32.le_iff_toNat_le.mpr (show c.toNat ≤ 127 by omega)
    have hsize : c.utf8Size = 1 := by simp [Char.utf8Size, hv]
    rw [String.utf8EncodeChar_eq_singleton hsize]
    have hb : c.val.toUInt8.toNat = c.toNat := by
      rw [UInt32.toNat_toUInt8]
      exact Nat.mod_eq_of_lt (show c.toNat < 256 by omega)
    have hle : (32 : UInt8) ≤ c.val.toUInt8 := UInt8.le_iff_toNat_le.mpr (hb.symm ▸ hlow)
    have hlt : c.val.toUInt8 < 127 := UInt8.lt_iff_toNat_lt.mpr (hb.symm ▸ hhigh)
    intro b hmem
    obtain rfl := List.mem_singleton.mp hmem
    exact visible_of_graphic hle hlt
  rw [toStr, if_pos hvisible, fromUtf8_intoBytes]

theorem toStr_encode (raw : Bytes) :
    toStr (intoBytes (String.ofList (Base64Standard.encode raw))) =
      some (String.ofList (Base64Standard.encode raw)) := by
  have hall : ('=' :: Base64.alphabet).all (fun c => 32 ≤ c.toNat && c.toNat < 127) = true := rfl
  have hgraphic : ∀ c ∈ '=' :: Base64.alphabet, 32 ≤ c.toNat ∧ c.toNat < 127 := by
    simpa only [List.all_eq_true, Bool.and_eq_true, decide_eq_true_eq] using hall
  refine toStr_intoBytes fun c hc => hgraphic c ?_
  rcases Base64.mem_encode hc with h | rfl
  · exact List.mem_cons_of_mem _ h
  · exact List.mem_cons_self

structure Request where
  method : Method
  path : String
  headers : HeaderMap

structure Response where
  status : ℕ
  headers : HeaderMap
  body : Bytes
deriving DecidableEq

/-- `(StatusCode, &'static str)::into_response`. -/
def textResponse (status : ℕ) (text : String) : Response :=
  ⟨status, [("content-type", intoBytes "text/plain; charset=utf-8")], intoBytes text⟩

/-! ### `GET /key` -/

/-- The body of the answer to `GET /key`. -/
structure OverTLSPublicKeyResponse [Ik] where
  legacyPublicKey : Ik.PublicKey
  publicKey : Ik.PublicKey

namespace OverTLSPublicKeyResponse

variable [Ik] [MachineKeys]

def new (publicKey : Ik.PublicKey) : OverTLSPublicKeyResponse := ⟨MachineKeys.zero, publicKey⟩

/-- `serde_json::to_vec`. -/
def toVec (r : OverTLSPublicKeyResponse) : Bytes :=
  intoBytes (String.ofList (Flow.printFlat
    [(.str "LegacyPublicKey", .str (machineText r.legacyPublicKey)),
      (.str "PublicKey", .str (machineText r.publicKey))]))

/-- `serde_json::from_slice`. -/
def fromSlice (bytes : Bytes) : Option OverTLSPublicKeyResponse := do
  let text ← fromUtf8 bytes
  let v ← Flow.read text.toList
  let es ← entries .json ["LegacyPublicKey", "PublicKey"] (.ofValue .json v)
  let legacyPublicKey ← ((field .missing "LegacyPublicKey" es).bind deserializeString).bind
    MachineKeys.fromStr
  let publicKey ← ((field .missing "PublicKey" es).bind deserializeString).bind
    MachineKeys.fromStr
  return ⟨legacyPublicKey, publicKey⟩

/-- The client reads the keys that the server wrote. -/
theorem fromSlice_toVec (r : OverTLSPublicKeyResponse) : fromSlice r.toVec = some r := by
  rw [fromSlice, toVec, fromUtf8_intoBytes]
  simp only [Option.bind_eq_bind, Option.bind_some, String.toList_ofList, Flow.read_printFlat,
    Parsed.ofValue, Parsed.ofEntries, entries]
  have hlegacy : MachineKeys.fromStr (machineText r.legacyPublicKey) = some r.legacyPublicKey :=
    MachineKeys.fromStr_text _
  have hkey : MachineKeys.fromStr (machineText r.publicKey) = some r.publicKey :=
    MachineKeys.fromStr_text _
  simp [field, named, deserializeString, hlegacy, hkey]

end OverTLSPublicKeyResponse

/-! ### The router -/

/-- What the host injects; no handler reads the store yet. -/
structure ServerState (D : Type) [Ik] where
  serverKey : MachineKeyPair
  store : D

def upgradeTs2021 : String := "tailscale-control-protocol"

section Router

variable [Ik] [MachineKeys] {D : Type}

/-- `GET /key`: the public key of the server. -/
def getKey (state : ServerState D) : Response :=
  ⟨200, [("content-type", intoBytes "application/json")],
    (OverTLSPublicKeyResponse.new state.serverKey.publicKey).toVec⟩

/-- The answer that opens a tunnel. -/
def switchingProtocols : Response :=
  ⟨101, [("connection", intoBytes "upgrade"), ("upgrade", intoBytes upgradeTs2021)], []⟩

/-- With the handshake value that the spawned task is given. -/
def ts2021Upgrade (req : Request) : Response × Option String :=
  let hasUpgrade := (req.headers.get "upgrade").any fun v => !v.isEmpty
  if !hasUpgrade then (textResponse 500 "missing upgrade header", none)
  else
    match (req.headers.get "x-tailscale-handshake").bind toStr with
    | none => (textResponse 400 "missing handshake header", none)
    | some initB64 => (switchingProtocols, some initB64)

/-- A route for `GET` serves `HEAD` too, without the body; other methods and
paths are answered by the framework. -/
def router (state : ServerState D) (req : Request) : Response × Option String :=
  if req.path = "/key" then
    match req.method with
    | .get => (getKey state, none)
    | .head => ({ getKey state with body := [] }, none)
    | _ => (⟨405, [("allow", intoBytes "GET,HEAD")], []⟩, none)
  else if req.path = "/ts2021" then
    match req.method with
    | .post => ts2021Upgrade req
    | _ => (⟨405, [("allow", intoBytes "POST")], []⟩, none)
  else (⟨404, [], []⟩, none)

/-- A client is told the key. -/
theorem learns_key {state : ServerState D} {req : Request} (hmethod : req.method = .get)
    (hpath : req.path = "/key") :
    OverTLSPublicKeyResponse.fromSlice (router state req).1.body =
      some (.new state.serverKey.publicKey) := by
  have hbody : (router state req).1.body =
      (OverTLSPublicKeyResponse.new state.serverKey.publicKey).toVec := by
    rw [router, if_pos hpath, hmethod, getKey]
  rw [hbody, OverTLSPublicKeyResponse.fromSlice_toVec]

/-- A request that may open a tunnel, and the handshake value it carries. -/
structure Upgrades (req : Request) (initB64 : String) : Prop where
  method : req.method = .post
  path : req.path = "/ts2021"
  upgrade : ∃ v, req.headers.get "upgrade" = some v ∧ v ≠ []
  handshake : ∃ v, req.headers.get "x-tailscale-handshake" = some v ∧ toStr v = some initB64

omit [Ik] [MachineKeys] in
/-- Everything `ts2021_upgrade` can answer. -/
theorem ts2021Upgrade_cases (req : Request) :
    (ts2021Upgrade req = (textResponse 500 "missing upgrade header", none) ∧
      ∀ v, req.headers.get "upgrade" = some v → v = []) ∨
    (ts2021Upgrade req = (textResponse 400 "missing handshake header", none) ∧
      (req.headers.get "x-tailscale-handshake").bind toStr = none) ∨
    ∃ initB64, ts2021Upgrade req = (switchingProtocols, some initB64) ∧
      (∃ v, req.headers.get "upgrade" = some v ∧ v ≠ []) ∧
      ∃ v, req.headers.get "x-tailscale-handshake" = some v ∧ toStr v = some initB64 := by
  rcases hup : req.headers.get "upgrade" with - | (- | ⟨b, v⟩)
  · exact Or.inl ⟨by simp [ts2021Upgrade, hup], by simp⟩
  · exact Or.inl ⟨by simp [ts2021Upgrade, hup], by simp⟩
  · rcases hinit : (req.headers.get "x-tailscale-handshake").bind toStr with - | initB64
    · exact Or.inr (Or.inl ⟨by simp [ts2021Upgrade, hup, hinit], rfl⟩)
    · refine Or.inr (Or.inr ⟨initB64, by simp [ts2021Upgrade, hup, hinit], ⟨_, rfl, by simp⟩, ?_⟩)
      exact Option.bind_eq_some_iff.mp hinit

/-- The router switches protocols, and spawns a task, exactly for an upgrade. -/
theorem router_cases (state : ServerState D) (req : Request) :
    ((router state req).1.status ≠ 101 ∧ (router state req).2 = none ∧
      ∀ initB64, ¬ Upgrades req initB64) ∨
    ∃ initB64, Upgrades req initB64 ∧ router state req = (switchingProtocols, some initB64) := by
  unfold router
  split
  · rename_i hpath
    have hnot : ∀ initB64, ¬ Upgrades req initB64 := fun _ h => by
      have hkey := hpath.symm.trans h.path
      exact absurd hkey (by decide)
    refine Or.inl ⟨?_, ?_, hnot⟩
    · split <;> simp [getKey]
    · split <;> rfl
  · split
    · rename_i hpath
      split
      · rename_i hmethod
        rcases ts2021Upgrade_cases req with
          ⟨h, hnone⟩ | ⟨h, hnone⟩ | ⟨initB64, h, hupgrade, hhandshake⟩
        · refine Or.inl ⟨by simp [h, textResponse], by rw [h], fun _ hreq => ?_⟩
          obtain ⟨v, hv, hne⟩ := hreq.upgrade
          exact hne (hnone v hv)
        · refine Or.inl ⟨by simp [h, textResponse], by rw [h], fun _ hreq => ?_⟩
          obtain ⟨v, hv, hstr⟩ := hreq.handshake
          rw [hv, Option.bind_some, hstr] at hnone
          cases hnone
        · exact Or.inr ⟨initB64, ⟨hmethod, hpath, hupgrade, hhandshake⟩, h⟩
      · rename_i hmethod
        exact Or.inl ⟨by simp, rfl, fun _ hreq => hmethod hreq.method⟩
    · rename_i hpath
      exact Or.inl ⟨by simp, rfl, fun _ hreq => hpath hreq.path⟩

/-- A request for a tunnel gets one. -/
theorem router_of_upgrades (state : ServerState D) {req : Request} {initB64 : String}
    (h : Upgrades req initB64) : router state req = (switchingProtocols, some initB64) := by
  rcases router_cases state req with ⟨-, -, hnot⟩ | ⟨initB64', h', hrouter⟩
  · exact absurd h (hnot initB64)
  · obtain ⟨v, hv, hstr⟩ := h.handshake
    obtain ⟨v', hv', hstr'⟩ := h'.handshake
    obtain rfl := Option.some.inj (hv.symm.trans hv')
    obtain rfl := Option.some.inj (hstr.symm.trans hstr')
    exact hrouter

end Router

/-! ### The noise connection -/

/-- Without the failures of the listener, which is not modelled. -/
inductive ServerError
  | noise (e : NoiseError)
  | http2 (text : String)

section Tunnel

variable [Base64Standard] [Ik] [MachineKeys] {S E : Type} [AsyncWrite S]
  [FrameSink (S × Ik.Session) E] [IntoIoError E]

/-- `run_noise_connection` up to the HTTP/2 server.  It is `none` if the stream
has not taken the EarlyNoise frame within the polls. -/
def openTunnel (io : S) (serverKey : MachineKeyPair) (initB64 : String) (challenge : Ik.PublicKey)
    (polls flushes : ℕ) : Checked (Option (Except ServerError (Accepted S))) := do
  match ← accept io serverKey.privateKey initB64 challenge with
  | (.error e, _) => return some (.error (.noise e))
  | (.ok accepted, _) =>
    let early : EarlyNoise := ⟨challengeKey accepted.nodeKeyChallenge⟩
    match writeEarlyNoise polls flushes accepted.stream early with
    | none => return none
    | some (.error e, _) => return some (.error (.noise e))
    | some (.ok (), stream) => return some (.ok { accepted with stream := stream })

/-- The placeholder: every request is acknowledged. -/
def handleMachine (_ : Request) : Response :=
  ⟨200, [("content-type", intoBytes "application/json")], intoBytes "\x7b\x7d"⟩

variable {io : S} {serverKey : MachineKeyPair} {initB64 : String} {challenge : Ik.PublicKey}
  {polls flushes : ℕ} {accepted : Accepted S}

variable (io serverKey initB64 challenge accepted) in
/-- What stands behind an open tunnel: an initiation that the peer has built for
this server under the version it names, and on the wire one response frame and
the EarlyNoise frame. -/
structure Opened : Prop where
  initiation : ∃ payload extra,
    decoded initB64 = some (initiation accepted.capabilityVersion payload ++ extra) ∧
    Wellformed accepted.capabilityVersion payload ∧
    Ik.Built accepted.peerMachineKey serverKey.publicKey
      (prologueFor accepted.capabilityVersion) payload
  challenge_eq : accepted.nodeKeyChallenge = challenge
  wire : ∃ socket session frame polls flushes, IsResponse frame ∧
    AsyncWrite.written socket = AsyncWrite.written io ++ frame ∧
    writeEarlyNoise polls flushes (.new (socket, session)) ⟨challengeKey challenge⟩ =
      some (.ok (), accepted.stream)

omit [Base64Standard] [Ik] [MachineKeys] [AsyncWrite S] [FrameSink (S × Ik.Session) E] in
/-- Only the stream fails. -/
theorem writeEarlyNoise_error {T B : Type} [FrameSink T E] {stream stream' : FramedIo T B}
    {frame : EarlyNoise} {e : NoiseError}
    (h : writeEarlyNoise polls flushes stream frame = some (.error e, stream')) :
    ∃ e', e = .io e' := by
  unfold writeEarlyNoise at h
  rcases hw : stream.writeAll polls frame.buffer with - | ⟨e₁ | u, stream₁⟩
  · rw [hw] at h
    cases h
  · rw [hw] at h
    cases h
    exact ⟨e₁, rfl⟩
  · rw [hw] at h
    dsimp only at h
    rcases hf : stream₁.flush flushes with - | ⟨e₂ | u, stream₂⟩
    · rw [hf] at h
      cases h
    · rw [hf] at h
      cases h
      exact ⟨e₂, rfl⟩
    · rw [hf] at h
      cases h

/-- An accepted handshake opens a tunnel, unless the stream fails or keeps the
frame waiting. -/
theorem openTunnel_of_accept {accepted : Accepted S} {socket : S}
    (h : accept io serverKey.privateKey initB64 challenge = .ok (.ok accepted, socket))
    (polls flushes : ℕ) :
    openTunnel io serverKey initB64 challenge polls flushes = .ok none ∨
    (∃ e, openTunnel io serverKey initB64 challenge polls flushes =
      .ok (some (.error (.noise (.io e))))) ∨
    ∃ stream, Opened io serverKey initB64 challenge { accepted with stream := stream } ∧
      openTunnel io serverKey initB64 challenge polls flushes =
        .ok (some (.ok { accepted with stream := stream })) := by
  rcases accept_cases io serverKey.privateKey initB64 challenge with
    ⟨e, h'⟩ | ⟨capver, payload, received, hparse, hreceive, ⟨e, -, h'⟩ | ⟨hrespond, h'⟩⟩
  · cases h.symm.trans h'
  · cases h.symm.trans h'
  · cases h.symm.trans h'
    obtain ⟨hwell, extra, hdecoded⟩ := parseInitiation_eq_ok_iff.mp hparse
    have hbuilt : Ik.Built (Ik.peerStaticPub received) serverKey.publicKey (prologueFor capver)
        payload := by
      rw [serverKey.public_eq]
      exact (Ik.receive_iff _ _ _ _).mp ⟨received, hreceive, rfl⟩
    obtain ⟨frame, hframe, hwritten⟩ := respond_spec hrespond
    -- the frame is still being written, fails, or is taken
    rcases hw : writeEarlyNoise polls flushes
      (.new ((respond (Ik.finish received).1 io).2, (Ik.finish received).2) :
        FramedIo (S × Ik.Session) Bytes) ⟨challengeKey challenge⟩ with - | ⟨e | u, stream⟩
    · exact Or.inl (by simp only [openTunnel, h, bind, Except.bind, hw]; rfl)
    · obtain ⟨e', rfl⟩ := writeEarlyNoise_error hw
      exact Or.inr (Or.inl ⟨e', by simp only [openTunnel, h, bind, Except.bind, hw]; rfl⟩)
    · refine Or.inr (Or.inr ⟨stream, ?_, ?_⟩)
      · exact ⟨⟨payload, extra, hdecoded, hwell, hbuilt⟩, rfl,
          _, _, frame, polls, flushes, hframe, hwritten, hw⟩
      · simp only [openTunnel, h, bind, Except.bind, hw]
        rfl

/-- Everything `openTunnel` can do. -/
theorem openTunnel_cases (io : S) (serverKey : MachineKeyPair) (initB64 : String)
    (challenge : Ik.PublicKey) (polls flushes : ℕ) :
    (∃ e, openTunnel io serverKey initB64 challenge polls flushes =
      .ok (some (.error (.noise e)))) ∨
    openTunnel io serverKey initB64 challenge polls flushes = .ok none ∨
    ∃ accepted : Accepted S, Opened io serverKey initB64 challenge accepted ∧
      openTunnel io serverKey initB64 challenge polls flushes = .ok (some (.ok accepted)) := by
  rcases accept_cases io serverKey.privateKey initB64 challenge with
    ⟨e, h⟩ | ⟨_, _, received, -, -, ⟨e, -, h⟩ | ⟨-, h⟩⟩
  · exact Or.inl ⟨e, by simp only [openTunnel, h]; rfl⟩
  · exact Or.inl ⟨.io e, by simp only [openTunnel, h]; rfl⟩
  · rcases openTunnel_of_accept h polls flushes with hnone | ⟨e, herr⟩ | ⟨stream, hopened, hok⟩
    · exact Or.inr (Or.inl hnone)
    · exact Or.inl ⟨.io e, herr⟩
    · exact Or.inr (Or.inr ⟨_, hopened, hok⟩)

omit [MachineKeys] in
/-- An initiation that was built for the server is accepted, unless the
response can not be written. -/
theorem accept_of_built {server : Ik.PrivateKey} {k : Ik.PublicKey} {capver : UInt16}
    {payload : Bytes} (hwell : Wellformed capver payload)
    (hbuilt : Ik.Built k (Ik.pub server) (prologueFor capver) payload)
    (hdecoded : decoded initB64 = some (initiation capver payload)) :
    ∃ received : Ik.Received, ∀ (io : S) (challenge : Ik.PublicKey),
      accept io server initB64 challenge = match respond (Ik.finish received).1 io with
        | (.error e, socket) => .ok (.error (.io e), socket)
        | (.ok (), socket) =>
          .ok (.ok ⟨.new (socket, (Ik.finish received).2), capver, k, challenge⟩, socket) := by
  have hparse : parseInitiation initB64 = .ok (.ok (capver, payload)) :=
    parseInitiation_eq_ok_iff.mpr ⟨hwell, [], by rw [hdecoded, List.append_nil]⟩
  obtain ⟨received, hreceive, hpeer⟩ := (Ik.receive_iff _ _ _ _).mpr hbuilt
  refine ⟨received, fun io challenge => ?_⟩
  rcases hrespond : respond (Ik.finish received).1 io with ⟨e | u, socket⟩
  · simp only [accept, hparse, hreceive, bind, Except.bind, hrespond]
    rfl
  · simp only [accept, hparse, hreceive, bind, Except.bind, hrespond, hpeer]
    rfl

/-- An initiation that was built for this server is refused only where the
socket or the stream fails. -/
theorem openTunnel_honest {k : Ik.PublicKey} {capver : UInt16} {payload : Bytes}
    (hwell : Wellformed capver payload)
    (hbuilt : Ik.Built k serverKey.publicKey (prologueFor capver) payload)
    (hdecoded : decoded initB64 = some (initiation capver payload))
    (io : S) (challenge : Ik.PublicKey) (polls flushes : ℕ) :
    openTunnel io serverKey initB64 challenge polls flushes = .ok none ∨
    (∃ e, openTunnel io serverKey initB64 challenge polls flushes =
      .ok (some (.error (.noise (.io e))))) ∨
    ∃ accepted : Accepted S, Opened io serverKey initB64 challenge accepted ∧
      accepted.peerMachineKey = k ∧ accepted.capabilityVersion = capver ∧
      openTunnel io serverKey initB64 challenge polls flushes = .ok (some (.ok accepted)) := by
  rw [serverKey.public_eq] at hbuilt
  obtain ⟨received, haccept⟩ := accept_of_built (S := S) hwell hbuilt hdecoded
  have haccept := haccept io challenge
  rcases hrespond : respond (Ik.finish received).1 io with ⟨e | u, socket⟩
  · rw [hrespond] at haccept
    refine Or.inr (Or.inl ⟨e, ?_⟩)
    simp only [openTunnel, haccept]
    rfl
  · rw [hrespond] at haccept
    refine (openTunnel_of_accept haccept polls flushes).imp_right (Or.imp_right ?_)
    rintro ⟨stream, hopened, hok⟩
    exact ⟨_, hopened, rfl, rfl, hok⟩

end Tunnel

/-! ### The handle -/

/-- How tenants are told apart; nothing reads it yet. -/
structure TenantRouting where
  subdomain : Bool
  pathPrefix : Bool
  optionalMtls : Bool
deriving DecidableEq

/-- What `build` can return.  The failures of `serve` are the listener's. -/
inductive ApiError
  | missingStore

/-- What has been asked for so far. -/
structure ControlServerBuilder (D : Type) [Ik] where
  store : Option D
  listen : Option String
  tenantRouting : TenantRouting
  serverKey : Option MachineKeyPair

/-- A server that has all it needs. -/
structure ControlServer (D : Type) [Ik] where
  store : D
  listen : String
  serverKey : MachineKeyPair
  tenantRouting : TenantRouting

namespace ControlServerBuilder

variable [Ik] {D : Type}

def new : ControlServerBuilder D := ⟨none, none, ⟨false, false, false⟩, none⟩

/-- A call on the builder.  `memory_store` is a `store` of a new `MemoryStore`. -/
inductive Call (D : Type) [Ik]
  | store (store : D)
  | listen (addr : String)
  | tenantRouting (routing : TenantRouting)
  | serverKey (key : MachineKeyPair)

/-- Each call replaces what an earlier one of its kind has given. -/
def apply (b : ControlServerBuilder D) : Call D → ControlServerBuilder D
  | .store store => { b with store := some store }
  | .listen addr => { b with listen := some addr }
  | .tenantRouting routing => { b with tenantRouting := routing }
  | .serverKey key => { b with serverKey := some key }

/-- A key pair that was not supplied is a fresh one. -/
def build (fresh : MachineKeyPair) (b : ControlServerBuilder D) :
    Except ApiError (ControlServer D) :=
  match b.store with
  | none => .error .missingStore
  | some store =>
    .ok ⟨store, b.listen.getD "0.0.0.0:8080", b.serverKey.getD fresh, b.tenantRouting⟩

/-- The store, if the call gives one. -/
def Call.givenStore : Call D → Option D
  | .store d => some d
  | _ => none

def Call.givenListen : Call D → Option String
  | .listen a => some a
  | _ => none

def Call.givenRouting : Call D → Option TenantRouting
  | .tenantRouting r => some r
  | _ => none

def Call.givenKey : Call D → Option MachineKeyPair
  | .serverKey k => some k
  | _ => none

/-- What the last call of a kind has given. -/
def last {α : Type} (given : Call D → Option α) (calls : List (Call D)) : Option α :=
  calls.reverse.findSome? given

/-- The last call counts if it is of the kind, and otherwise the last before
it. -/
@[simp] theorem last_concat {α : Type} (given : Call D → Option α) (calls : List (Call D))
    (x : Call D) : last given (calls ++ [x]) = (given x).or (last given calls) := by
  rw [last, List.reverse_append, List.reverse_singleton, List.singleton_append,
    List.findSome?_cons, last]
  cases given x <;> rfl

/-- What the builder holds after any calls. -/
theorem foldl_apply (calls : List (Call D)) :
    calls.foldl apply new = ⟨last Call.givenStore calls, last Call.givenListen calls,
      (last Call.givenRouting calls).getD ⟨false, false, false⟩, last Call.givenKey calls⟩ := by
  induction calls using List.reverseRecOn with
  | nil => rfl
  | append_singleton calls x ih =>
      rw [List.foldl_concat, ih]
      cases x <;>
        simp [apply, Call.givenStore, Call.givenListen, Call.givenRouting, Call.givenKey]

/-- In whatever order the builder is called, the last call of a kind wins, and
only a store has to be given. -/
theorem build_foldl (fresh : MachineKeyPair) (calls : List (Call D)) :
    build fresh (calls.foldl apply new) = match last Call.givenStore calls with
      | none => .error .missingStore
      | some store => .ok ⟨store, (last Call.givenListen calls).getD "0.0.0.0:8080",
          (last Call.givenKey calls).getD fresh,
          (last Call.givenRouting calls).getD ⟨false, false, false⟩⟩ := by
  rw [foldl_apply]
  rfl

end ControlServerBuilder

namespace ControlServer

variable [Ik] {D : Type}

/-- What `GET /key` advertises. -/
def serverPublicKey (server : ControlServer D) : Ik.PublicKey := server.serverKey.publicKey

/-- What `serve` gives to the router. -/
def state (server : ControlServer D) : ServerState D := ⟨server.serverKey, server.store⟩

/-- A client is told the key that the handle shows. -/
theorem learns_serverPublicKey [MachineKeys] {server : ControlServer D} {req : Request}
    (hmethod : req.method = .get) (hpath : req.path = "/key") :
    OverTLSPublicKeyResponse.fromSlice (router server.state req).1.body =
      some (.new server.serverPublicKey) := learns_key hmethod hpath

end ControlServer

/-! ### A wire that takes everything -/

/-- What was written before and after the handshake. -/
structure Wire where
  raw : Bytes
  frames : List Bytes

instance : AsyncWrite Wire where
  writeAll bytes w := (.ok (), { w with raw := w.raw ++ bytes })
  flush w := (.ok (), w)
  written := Wire.raw
  written_writeAll _ _ _ := rfl
  written_flush _ := rfl

instance {σ : Type} : FrameSink (Wire × σ) IoError where
  pollReady t := (.ready (.ok ()), t)
  startSend buf t := (.ok (), (⟨t.1.raw, t.1.frames ++ [buf]⟩, t.2))
  pollFlush t := (.ready (.ok ()), t)
  pollClose t := (.ready (.ok ()), t)
  frames t := t.1.frames
  frames_pollReady _ := rfl
  startSend_ok buf _ _ := ⟨[buf], rfl, List.append_nil buf⟩
  startSend_error _ _ _ h := by cases h
  frames_pollFlush _ := rfl
  frames_pollClose _ := rfl

/-- Such a wire takes the frame at the first poll. -/
theorem writeEarlyNoise_wire {σ B : Type} (stream : FramedIo (Wire × σ) B) (frame : EarlyNoise) :
    ∃ stream', writeEarlyNoise 1 1 stream frame = some (.ok (), stream') := by
  obtain ⟨b, buf, hbuf⟩ : ∃ b buf, frame.buffer = b :: buf := ⟨0xFF, _, rfl⟩
  refine ⟨⟨(⟨stream.inner.1.raw, stream.inner.1.frames ++ [b :: buf]⟩, stream.inner.2),
    stream.chunk⟩, ?_⟩
  simp [writeEarlyNoise, hbuf, FramedIo.writeAll, FramedIo.flush, FramedIo.pollWrite,
    FramedIo.pollFlush, FramedIo.mapErr, Sink.pollReady, Sink.startSend, Sink.pollFlush]

/-- On such a wire an initiation that was built for the server opens a tunnel. -/
theorem openTunnel_wire [Base64Standard] [Ik] [MachineKeys] {serverKey : MachineKeyPair}
    {initB64 : String} {k : Ik.PublicKey} {capver : UInt16} {payload : Bytes}
    (hwell : Wellformed capver payload)
    (hbuilt : Ik.Built k serverKey.publicKey (prologueFor capver) payload)
    (hdecoded : decoded initB64 = some (initiation capver payload)) (io : Wire)
    (challenge : Ik.PublicKey) :
    ∃ accepted, openTunnel io serverKey initB64 challenge 1 1 = .ok (some (.ok accepted)) := by
  rw [serverKey.public_eq] at hbuilt
  obtain ⟨received, haccept⟩ := accept_of_built (S := Wire) hwell hbuilt hdecoded
  obtain ⟨socket, hrespond⟩ : ∃ socket, respond (Ik.finish received).1 io = (.ok (), socket) :=
    ⟨_, rfl⟩
  have haccept := haccept io challenge
  rw [hrespond] at haccept
  obtain ⟨stream, hwrite⟩ := writeEarlyNoise_wire
    (.new (socket, (Ik.finish received).2) : FramedIo (Wire × Ik.Session) Bytes)
    ⟨challengeKey challenge⟩
  refine ⟨⟨stream, capver, k, challenge⟩, ?_⟩
  simp only [openTunnel, haccept, bind, Except.bind, pure, Except.pure, hwrite]

/-- The keys of `Ik.oneInitiation` are 32 times their byte. -/
@[reducible] def MachineKeys.oneInitiation : @MachineKeys Ik.oneInitiation :=
  letI := Ik.oneInitiation
  { toBytes := fun key : UInt8 => List.replicate 32 key
    length_toBytes := fun _ => List.length_replicate
    zero := (0 : UInt8)
    toBytes_zero := rfl
    fromStr := fun s => ((Flow.expect machinePrefix s.toList).bind unhex).bind List.head?
    fromStr_text := fun key => by
      rw [String.toList_ofList, Flow.expect_append, Option.bind_some, unhex_hex]
      rfl }

def MachineKeyPair.oneInitiation : @MachineKeyPair Ik.oneInitiation :=
  letI := Ik.oneInitiation
  ⟨(), (1 : UInt8), rfl⟩

end Oxiscale

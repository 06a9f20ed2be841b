/-
Oxiscale/Accept.lean

`noise::accept`: the responder's side of the handshake.

The capability version travels in the clear in front of the payload; what
binds the two is the prologue, which `accept` rebuilds from the version it has
parsed.  The cryptography is symbolic (`Ik`): an initiation is received
exactly if it was built for this server under this prologue, and is built in
one way only.  So when the one genuine payload that a header value can contain
was built under version `c`, whatever else the value says, a handshake that is
accepted is the initiator's, with version `c` (`accept_agrees`).
-/
import Oxiscale.Flow
import Oxiscale.Framed
import Oxiscale.Initiation

namespace Oxiscale

/-! ### What `accept` is written against -/

/-- The IK handshake of `ts_noise`.  `Built k s prologue payload` says that
the initiator with static key `k` has built the payload for the server `s`
under the prologue. -/
class Ik where
  PrivateKey : Type
  PublicKey : Type
  Received : Type
  Session : Type
  pub : PrivateKey → PublicKey
  receive : Bytes → Bytes → PrivateKey → Option Received
  peerStaticPub : Received → PublicKey
  finish : Received → Bytes × Session
  respSize : ℕ
  respSize_lt : respSize < 2 ^ 16
  length_finish : ∀ received, (finish received).1.length = respSize
  Built : PublicKey → PublicKey → Bytes → Bytes → Prop
  built_inj : ∀ {k s prologue k' s' prologue' payload}, Built k s prologue payload →
    Built k' s' prologue' payload → k = k' ∧ prologue = prologue'
  receive_iff : ∀ payload prologue server k,
    (∃ received, receive payload prologue server = some received ∧ peerStaticPub received = k) ↔
      Built k (pub server) prologue payload

/-- A socket; `written` is what was written to it so far. -/
class AsyncWrite (S : Type) where
  writeAll : Bytes → S → Except IoError Unit × S
  flush : S → Except IoError Unit × S
  written : S → Bytes
  written_writeAll : ∀ bytes s, (writeAll bytes s).1 = .ok () →
    written (writeAll bytes s).2 = written s ++ bytes
  written_flush : ∀ s, written (flush s).2 = written s

/-! ### The source -/

/-- `format!("Tailscale Control Protocol v{capability_version}")`. -/
def prologueFor (capabilityVersion : UInt16) : Bytes :=
  intoBytes ("Tailscale Control Protocol v" ++ Nat.repr capabilityVersion.toNat)

section Accept

variable [Base64Standard] [Ik] {S : Type} [AsyncWrite S]

/-- The stream is over the socket and the session. -/
structure Accepted (S : Type) [Ik] where
  stream : FramedIo (S × Ik.Session) Bytes
  capabilityVersion : UInt16
  peerMachineKey : Ik.PublicKey
  nodeKeyChallenge : Ik.PublicKey

/-- Write msg2 framed as a controlbase response. -/
def respond (resp : Bytes) (socket : S) : Except IoError Unit × S :=
  let header := MessageType.response.toU8 :: u16ToBeBytes (UInt16.ofNat Ik.respSize)
  match AsyncWrite.writeAll header socket with
  | (.error e, socket) => (.error e, socket)
  | (.ok (), socket) =>
    match AsyncWrite.writeAll resp socket with
    | (.error e, socket) => (.error e, socket)
    | (.ok (), socket) => AsyncWrite.flush socket

/-- With the socket it leaves.  The public half of the random challenge is an
argument. -/
def accept (socket : S) (serverPrivate : Ik.PrivateKey) (initiationB64 : String)
    (challenge : Ik.PublicKey) : Checked (Except NoiseError (Accepted S) × S) := do
  match ← parseInitiation initiationB64 with
  | .error e => return (.error e, socket)
  | .ok (capabilityVersion, payload) =>
    match Ik.receive payload (prologueFor capabilityVersion) serverPrivate with
    | none => return (.error .handshakeFailed, socket)
    | some received =>
      let peerMachineKey := Ik.peerStaticPub received
      let (resp, session) := Ik.finish received
      match respond resp socket with
      | (.error e, socket) => return (.error (.io e), socket)
      | (.ok (), socket) =>
        return (.ok ⟨.new (socket, session), capabilityVersion, peerMachineKey, challenge⟩, socket)

/-! ### The prologue and the response -/

omit [Base64Standard] [Ik] in
theorem intoBytes_inj {s t : String} (h : intoBytes s = intoBytes t) : s = t := by
  have htext := congrArg fromUtf8 h
  rw [fromUtf8_intoBytes, fromUtf8_intoBytes] at htext
  exact Option.some.inj htext

omit [Base64Standard] [Ik] in
/-- The prologue tells the version. -/
theorem prologueFor_inj {c c' : UInt16} (h : prologueFor c = prologueFor c') : c = c' := by
  have hrepr := (String.append_right_inj _).mp (intoBytes_inj h)
  rw [Nat.repr_eq_ofList_toDigits, Nat.repr_eq_ofList_toDigits] at hrepr
  exact UInt16.toNat_inj.mp (Flow.toDigits_inj (String.ofList_injective hrepr))

/-- One response frame with a body of the length it says. -/
def IsResponse (frame : Bytes) : Prop :=
  ∃ len body, frame = 0x02 :: u16ToBeBytes len ++ body ∧ len.toNat = body.length

omit [Base64Standard] in
/-- A response that goes through has put one frame on the socket. -/
theorem respond_spec {received : Ik.Received} {socket : S}
    (h : (respond (Ik.finish received).1 socket).1 = .ok ()) :
    ∃ frame, IsResponse frame ∧
      AsyncWrite.written (respond (Ik.finish received).1 socket).2 =
        AsyncWrite.written socket ++ frame := by
  have hlen : (UInt16.ofNat Ik.respSize).toNat = (Ik.finish received).1.length := by
    rw [Ik.length_finish]
    exact UInt16.toNat_ofNat_of_lt' Ik.respSize_lt
  refine ⟨_, ⟨_, _, rfl, hlen⟩, ?_⟩
  unfold respond at h ⊢
  have hheader := AsyncWrite.written_writeAll
    (MessageType.response.toU8 :: u16ToBeBytes (UInt16.ofNat Ik.respSize)) socket
  -- the header is written first, then the response
  rcases h1 : AsyncWrite.writeAll
    (MessageType.response.toU8 :: u16ToBeBytes (UInt16.ofNat Ik.respSize)) socket with ⟨e | u, s1⟩
  · simp only [h1] at h
    cases h
  · have hresp := AsyncWrite.written_writeAll (Ik.finish received).1 s1
    rcases h2 : AsyncWrite.writeAll (Ik.finish received).1 s1 with ⟨e | u, s2⟩
    · simp only [h1, h2] at h
      cases h
    · rw [h1] at hheader
      rw [h2] at hresp
      simp only [h1, h2]
      rw [AsyncWrite.written_flush, hresp rfl, hheader rfl, List.append_assoc]
      rfl

/-! ### The handshake -/

variable {socket socket' : S} {serverPrivate : Ik.PrivateKey} {initiationB64 : String}
  {challenge : Ik.PublicKey}

/-- Everything `accept` can do. -/
theorem accept_cases (socket : S) (serverPrivate : Ik.PrivateKey) (initiationB64 : String)
    (challenge : Ik.PublicKey) :
    (∃ e, accept socket serverPrivate initiationB64 challenge = .ok (.error e, socket)) ∨
    (∃ capver payload received, parseInitiation initiationB64 = .ok (.ok (capver, payload)) ∧
      Ik.receive payload (prologueFor capver) serverPrivate = some received ∧
      ((∃ e, (respond (Ik.finish received).1 socket).1 = .error e ∧
        accept socket serverPrivate initiationB64 challenge =
          .ok (.error (.io e), (respond (Ik.finish received).1 socket).2)) ∨
      ((respond (Ik.finish received).1 socket).1 = .ok () ∧
        accept socket serverPrivate initiationB64 challenge =
          .ok (.ok ⟨.new ((respond (Ik.finish received).1 socket).2, (Ik.finish received).2),
            capver, Ik.peerStaticPub received, challenge⟩,
            (respond (Ik.finish received).1 socket).2)))) := by
  -- the steps of `accept`: parse, receive the initiation, write the response
  obtain ⟨r, hparse⟩ := parseInitiation_total initiationB64
  rcases r with e | ⟨capver, payload⟩
  · exact Or.inl ⟨e, by simp only [accept, hparse]; rfl⟩
  · rcases hreceive : Ik.receive payload (prologueFor capver) serverPrivate with - | received
    · exact Or.inl ⟨.handshakeFailed, by simp only [accept, hparse, bind, Except.bind, hreceive]; rfl⟩
    · refine Or.inr ⟨capver, payload, received, hparse, hreceive, ?_⟩
      simp only [accept, hparse, bind, Except.bind, hreceive]
      rcases respond (Ik.finish received).1 socket with ⟨e | u, socket'⟩
      · exact Or.inl ⟨e, rfl, rfl⟩
      · exact Or.inr ⟨rfl, rfl⟩

/-- A header value in which the one genuine payload is the one built by the
initiator `k` under version `c`. -/
structure OnlyGenuine (serverPrivate : Ik.PrivateKey) (k : Ik.PublicKey) (c : UInt16)
    (initiationB64 : String) : Prop where
  built : ∃ payload, Ik.Built k (Ik.pub serverPrivate) (prologueFor c) payload ∧
    ∀ raw payload', decoded initiationB64 = some raw → payload' <:+: raw →
      (∃ k' prologue, Ik.Built k' (Ik.pub serverPrivate) prologue payload') → payload' = payload

/-- **Responder and initiator agree.**  Whatever the header value says around
it, a handshake that is accepted is the initiator's, with the version it was
built under, and exactly one response frame is written; an error other than
an I/O error leaves the socket alone. -/
theorem accept_agrees (socket : S) (serverPrivate : Ik.PrivateKey) (k : Ik.PublicKey) (c : UInt16)
    (initiationB64 : String) (challenge : Ik.PublicKey)
    (hgenuine : OnlyGenuine serverPrivate k c initiationB64) :
    (∃ r, accept socket serverPrivate initiationB64 challenge = .ok r) ∧
    (∀ accepted socket', accept socket serverPrivate initiationB64 challenge =
        .ok (.ok accepted, socket') →
      accepted.peerMachineKey = k ∧ accepted.capabilityVersion = c ∧ 113 ≤ c ∧
      ∃ frame, IsResponse frame ∧
        AsyncWrite.written socket' = AsyncWrite.written socket ++ frame) ∧
    ∀ e socket', accept socket serverPrivate initiationB64 challenge = .ok (.error e, socket') →
      (∀ io, e ≠ .io io) → socket' = socket := by
  rcases accept_cases socket serverPrivate initiationB64 challenge with
    ⟨e, h⟩ | ⟨capver, payload, received, hparse, hreceive, ⟨e, hrespond, h⟩ | ⟨hrespond, h⟩⟩
  · refine ⟨⟨_, h⟩, fun accepted socket' hok => ?_, fun e' socket' herr _ => ?_⟩
    · cases h.symm.trans hok
    · cases h.symm.trans herr
      rfl
  · refine ⟨⟨_, h⟩, fun accepted socket' hok => ?_, fun e' socket' herr hio => ?_⟩
    · cases h.symm.trans hok
    · cases h.symm.trans herr
      exact absurd rfl (hio e)
  · refine ⟨⟨_, h⟩, fun accepted socket' hok => ?_, fun e' socket' herr _ => ?_⟩
    · cases h.symm.trans hok
      obtain ⟨payload', hbuilt, honly⟩ := hgenuine.built
      obtain ⟨hwell, extra, hdecoded⟩ := parseInitiation_eq_ok_iff.mp hparse
      have hbuilt' : Ik.Built (Ik.peerStaticPub received) (Ik.pub serverPrivate)
          (prologueFor capver) payload := (Ik.receive_iff _ _ _ _).mp ⟨received, hreceive, rfl⟩
      -- the payload of the value is genuine, so it is the initiator's
      obtain rfl : payload = payload' := by
        refine honly _ payload hdecoded ?_ ⟨_, _, hbuilt'⟩
        exact ⟨u16ToBeBytes capver ++ [0x01, 0x00, 0x60], extra, by simp [initiation]⟩
      obtain ⟨hkey, hprologue⟩ := Ik.built_inj hbuilt' hbuilt
      have hver := prologueFor_inj hprologue
      exact ⟨hkey, hver, hver ▸ hwell.supported, respond_spec hrespond⟩
    · cases h.symm.trans herr

end Accept

/-- A socket that takes everything. -/
instance : AsyncWrite Bytes where
  writeAll bytes s := (.ok (), s ++ bytes)
  flush s := (.ok (), s)
  written := id
  written_writeAll _ _ _ := rfl
  written_flush _ := rfl

/-- One initiation was ever built, by the key 7 under version 113. -/
@[reducible] def Ik.oneInitiation : Ik where
  PrivateKey := Unit
  PublicKey := UInt8
  Received := Unit
  Session := Unit
  pub _ := 1
  receive payload prologue _ :=
    if payload = List.replicate 96 9 ∧ prologue = prologueFor 113 then some () else none
  peerStaticPub _ := 7
  finish _ := (List.replicate 48 0, ())
  respSize := 48
  respSize_lt := by decide
  length_finish _ := rfl
  Built k s prologue payload :=
    k = 7 ∧ s = 1 ∧ prologue = prologueFor 113 ∧ payload = List.replicate 96 9
  built_inj := by
    rintro _ _ _ _ _ _ _ ⟨rfl, -, rfl, -⟩ ⟨rfl, -, rfl, -⟩
    exact ⟨rfl, rfl⟩
  receive_iff payload prologue _ k := by
    constructor
    · rintro ⟨received, hr, rfl⟩
      split at hr
      · rename_i h
        exact ⟨rfl, rfl, h.2, h.1⟩
      · cases hr
    · rintro ⟨rfl, -, rfl, rfl⟩
      exact ⟨(), if_pos ⟨rfl, rfl⟩, rfl⟩

/-- The initiation as it was built, with a byte behind it. -/
theorem accept_agrees_one_initiation :
    letI := Ik.oneInitiation
    let initiationB64 :=
      String.ofList (Base64Standard.encode (initiation 113 (List.replicate 96 9) ++ [0]))
    (∃ r, accept ([] : Bytes) () initiationB64 (1 : UInt8) = .ok r) ∧
    (∀ accepted socket', accept ([] : Bytes) () initiationB64 (1 : UInt8) =
        .ok (.ok accepted, socket') →
      accepted.peerMachineKey = (7 : UInt8) ∧ accepted.capabilityVersion = 113 ∧
      (113 : UInt16) ≤ 113 ∧
      ∃ frame, IsResponse frame ∧
        AsyncWrite.written socket' = AsyncWrite.written ([] : Bytes) ++ frame) ∧
    ∀ e socket', accept ([] : Bytes) () initiationB64 (1 : UInt8) = .ok (.error e, socket') →
      (∀ io, e ≠ .io io) → socket' = ([] : Bytes) := by
  let _ := Ik.oneInitiation
  intro initiationB64
  exact accept_agrees ([] : Bytes) () (7 : UInt8) 113 initiationB64 (1 : UInt8)
    ⟨List.replicate 96 9, ⟨rfl, rfl, rfl, rfl⟩, fun _ _ _ _ ⟨_, _, h⟩ => h.2.2.2⟩

end Oxiscale

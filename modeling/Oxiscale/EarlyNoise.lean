/-
Oxiscale/EarlyNoise.lean

The EarlyNoise preamble in front of the HTTP/2 stream.

`write_early_noise` writes the magic, the length of a JSON text as four
big-endian bytes, and the text, in one `write_all`.  A client reads nine
bytes, then as many as they say.  Whatever sizes it reads in and however the
bytes were cut into frames, it takes exactly the wanted bytes off what is
ahead of it (`readExact_spec`), so it gets the key and is left in front of
what was written next (`early_noise_delimits`).
-/
import Oxiscale.Initiation
import Oxiscale.Pipe
import Oxiscale.Serde

namespace Oxiscale

/-! ### The challenge key -/

structure ChallengePublicKey where
  bytes : Bytes
  length_bytes : bytes.length = 32

/-- Two lower-case digits a byte. -/
def hex (bytes : Bytes) : List Char :=
  bytes.flatMap fun b => [Flow.hexDigit (b.toNat / 16), Flow.hexDigit (b.toNat % 16)]

def unhex : List Char → Option Bytes
  | [] => some []
  | h :: l :: cs => do
    let a ← Flow.hexValue h
    let b ← Flow.hexValue l
    let bytes ← unhex cs
    return UInt8.ofNat (16 * a + b) :: bytes
  | _ => none

theorem hexValue_hexDigit : ∀ n < 16, Flow.hexValue (Flow.hexDigit n) = some n := by decide

theorem unhex_hex (bytes : Bytes) : unhex (hex bytes) = some bytes := by
  induction bytes with
  | nil => rfl
  | cons b bytes ih =>
      have hb := b.toNat_lt
      have hhigh := hexValue_hexDigit (b.toNat / 16) (by omega)
      have hlow := hexValue_hexDigit (b.toNat % 16) (by omega)
      have ih' : unhex (bytes.flatMap _) = some bytes := ih
      rw [hex, List.flatMap_cons, List.cons_append, List.cons_append, List.nil_append, unhex, hhigh,
        hlow, ih']
      show some (UInt8.ofNat (16 * (b.toNat / 16) + b.toNat % 16) :: bytes) = some (b :: bytes)
      rw [Nat.div_add_mod, UInt8.ofNat_toNat]

theorem length_hex (bytes : Bytes) : (hex bytes).length = 2 * bytes.length := by
  induction bytes with
  | nil => rfl
  | cons b bytes ih =>
      have ih' : (bytes.flatMap _).length = 2 * bytes.length := ih
      rw [hex, List.flatMap_cons, List.length_append, ih', List.length_cons]
      show 2 + 2 * bytes.length = 2 * (bytes.length + 1)
      omega

/-- JSON needs no escapes for hex digits. -/
theorem escape_hex (bytes : Bytes) : (hex bytes).flatMap Flow.escapeChar = hex bytes := by
  have hdigit : ∀ n < 16, Flow.escapeChar (Flow.hexDigit n) = [Flow.hexDigit n] := by decide
  induction bytes with
  | nil => rfl
  | cons b bytes ih =>
      have hb := b.toNat_lt
      have ih' : (bytes.flatMap _).flatMap Flow.escapeChar = bytes.flatMap _ := ih
      rw [hex, List.flatMap_cons, List.flatMap_append, ih', List.flatMap_cons, List.flatMap_cons,
        hdigit _ (by omega), hdigit _ (by omega)]
      rfl

def challengePrefix : List Char := ['c', 'h', 'a', 'l', 'p', 'u', 'b', ':']

namespace ChallengePublicKey

/-- `Display`. -/
def text (key : ChallengePublicKey) : String := String.ofList (challengePrefix ++ hex key.bytes)

theorem length_text (key : ChallengePublicKey) : key.text.toList.length = 72 := by
  rw [text, String.toList_ofList, List.length_append, length_hex, key.length_bytes]
  rfl

theorem escape_text (key : ChallengePublicKey) :
    key.text.toList.flatMap Flow.escapeChar = key.text.toList := by
  have hprefix : challengePrefix.flatMap Flow.escapeChar = challengePrefix := rfl
  rw [text, String.toList_ofList, List.flatMap_append, hprefix, escape_hex]

end ChallengePublicKey

/-- `FromStr`: parsing inverts the text form. -/
class ChallengeText where
  parse : String → Option ChallengePublicKey
  parse_text : ∀ key, parse key.text = some key

instance : ChallengeText where
  parse s :=
    (Flow.expect challengePrefix s.toList).bind fun cs =>
      (unhex cs).bind fun bytes => if h : bytes.length = 32 then some ⟨bytes, h⟩ else none
  parse_text key := by
    rw [ChallengePublicKey.text, String.toList_ofList, Flow.expect_append, Option.bind_some,
      unhex_hex, Option.bind_some, dif_pos key.length_bytes]

/-! ### The source: writing the frame -/

def earlyNoiseMagic : Bytes := [0xFF, 0xFF, 0xFF, 0x54, 0x53]

/-- The source's `EarlyNoise`, with the field name of JSON `NodeKeyChallenge`. -/
structure EarlyNoise where
  nodeKeyChallenge : ChallengePublicKey

namespace EarlyNoise

/-- `serde_json::to_vec`, which can not fail on a string. -/
def toVec (frame : EarlyNoise) : Bytes :=
  intoBytes (String.ofList ('\x7b' :: (Flow.printKey (.str "NodeKeyChallenge") ++
    ':' :: (Flow.print 0 (.str frame.nodeKeyChallenge.text) ++ ['\x7d']))))

/-- `json.len() as u32` wraps. -/
def buffer (frame : EarlyNoise) : Bytes :=
  let json := frame.toVec
  earlyNoiseMagic ++ (BigEndian.bytes 4 (UInt32.ofNat json.length).toNat ++ json)

/-- `serde_json::from_slice`. -/
def fromSlice [ChallengeText] (bytes : Bytes) : Option EarlyNoise := do
  let text ← fromUtf8 bytes
  let v ← Flow.read text.toList
  let es ← entries .json ["NodeKeyChallenge"] (.ofValue .json v)
  let key ← (field .missing "NodeKeyChallenge" es).bind deserializeString
  let nodeKeyChallenge ← ChallengeText.parse key
  return ⟨nodeKeyChallenge⟩

/-- The frame comes back from its JSON text. -/
theorem fromSlice_toVec [ChallengeText] (frame : EarlyNoise) :
    fromSlice frame.toVec = some frame := by
  have hread : Flow.read ('\x7b' :: (Flow.printKey (.str "NodeKeyChallenge") ++
      ':' :: (Flow.print 0 (.str frame.nodeKeyChallenge.text) ++ ['\x7d']))) =
      some (.map [(.str "NodeKeyChallenge", .str frame.nodeKeyChallenge.text)]) :=
    Flow.read_single _ _
  have hentries : entries .json ["NodeKeyChallenge"] (.ofValue .json
      (.map [(.str "NodeKeyChallenge", .str frame.nodeKeyChallenge.text)])) =
      some [(.str "NodeKeyChallenge", .str frame.nodeKeyChallenge.text)] := rfl
  have hfield : (field .missing "NodeKeyChallenge"
      [(.str "NodeKeyChallenge", .str frame.nodeKeyChallenge.text)]).bind deserializeString =
      some frame.nodeKeyChallenge.text := by
    simp [field, named, deserializeString]
  rw [fromSlice, toVec, fromUtf8_intoBytes]
  simp only [Option.bind_eq_bind, Option.bind_some, String.toList_ofList, hread, hentries, hfield,
    ChallengeText.parse_text]
  rfl

/-- The text stays below the limit of the reader. -/
theorem length_toVec_le (frame : EarlyNoise) : frame.toVec.length ≤ 1024 := by
  refine (length_intoBytes_le _).trans ?_
  have hkey : (Flow.printKey (.str "NodeKeyChallenge")).length = 18 := by decide
  rw [String.toList_ofList, List.length_cons, List.length_append, hkey, List.length_cons,
    List.length_append, Flow.print, Flow.printString, frame.nodeKeyChallenge.escape_text,
    List.length_cons, List.length_append, frame.nodeKeyChallenge.length_text]
  decide

/-- The four bytes of the length say it. -/
theorem value_length (frame : EarlyNoise) :
    BigEndian.value (BigEndian.bytes 4 (UInt32.ofNat frame.toVec.length).toNat) =
      frame.toVec.length := by
  have hle := frame.length_toVec_le
  have hcast : (UInt32.ofNat frame.toVec.length).toNat = frame.toVec.length :=
    UInt32.toNat_ofNat_of_lt' (show _ < 2 ^ 32 by omega)
  rw [BigEndian.value_bytes, hcast]
  exact Nat.mod_eq_of_lt (by omega)

end EarlyNoise

section Server

variable {T B E : Type} [FrameSink T E] [IntoIoError E]

namespace FramedIo

/-- `write_all`: what was not accepted is written again.  It is polled at most
`polls` times; `none` if it has not finished by then. -/
def writeAll : ℕ → Bytes → FramedIo T B → Option (Except IoError Unit × FramedIo T B)
  | _, [], io => some (.ok (), io)
  | 0, _ :: _, _ => none
  | polls + 1, b :: buf, io =>
    match io.pollWrite (b :: buf) with
    | (.pending, io) => writeAll polls (b :: buf) io
    | (.ready (.error e), io) => some (.error e, io)
    | (.ready (.ok n), io) =>
      if n = 0 then some (.error (.other "write zero"), io)
      else writeAll polls ((b :: buf).drop n) io

/-- `flush`. -/
def flush : ℕ → FramedIo T B → Option (Except IoError Unit × FramedIo T B)
  | 0, _ => none
  | polls + 1, io =>
    match io.pollFlush with
    | (.pending, io) => flush polls io
    | (.ready r, io) => some (r, io)

end FramedIo

/-- All of the frame and then a flush, within the polls. -/
def writeEarlyNoise (polls flushes : ℕ) (stream : FramedIo T B) (frame : EarlyNoise) :
    Option (Except NoiseError Unit × FramedIo T B) :=
  match stream.writeAll polls frame.buffer with
  | none => none
  | some (.error e, stream) => some (.error (.io e), stream)
  | some (.ok (), stream) =>
    match stream.flush flushes with
    | none => none
    | some (.error e, stream) => some (.error (.io e), stream)
    | some (.ok (), stream) => some (.ok (), stream)

/-- The frames that were sent between two states of a writer. -/
def sentSince (io io' : FramedIo T B) : List Bytes :=
  (FrameSink.frames io'.inner).drop (FrameSink.frames io.inner).length

variable {polls flushes : ℕ} {io io' : FramedIo T B}

namespace FramedIo

/-- What `write_all` has accepted it has sent, whole and once. -/
theorem writeAll_spec {buf : Bytes} (h : io.writeAll polls buf = some (.ok (), io')) :
    ∃ sent, FrameSink.frames io'.inner = FrameSink.frames io.inner ++ sent ∧
      sent.flatten = buf := by
  induction polls generalizing buf io with
  | zero =>
      rcases buf with - | ⟨b, buf⟩
      · cases h
        exact ⟨[], (List.append_nil _).symm, rfl⟩
      · cases h
  | succ polls ih =>
      rcases buf with - | ⟨b, buf⟩
      · cases h
        exact ⟨[], (List.append_nil _).symm, rfl⟩
      · rw [writeAll] at h
        rcases pollWrite_spec (b :: buf) io with ⟨hok, sent, hframes, hflat⟩ | ⟨hnot, hframes⟩
        · rcases hw : io.pollWrite (b :: buf) with ⟨r, io₁⟩
          rw [hw] at hok hframes h
          obtain rfl : r = .ready (.ok (b :: buf).length) := hok
          -- the whole buffer was accepted, so nothing is left to write
          have hrest : io₁.writeAll polls ((b :: buf).drop (b :: buf).length) =
              some (.ok (), io₁) := by
            rw [List.drop_length]
            cases polls <;> rfl
          have hsome : (b :: buf).length ≠ 0 := Nat.succ_ne_zero _
          dsimp only at h
          rw [if_neg hsome, hrest] at h
          cases h
          exact ⟨sent, hframes, hflat⟩
        · rcases hw : io.pollWrite (b :: buf) with ⟨r, io₁⟩
          rw [hw] at hnot hframes h
          rcases hnot with hnot | ⟨e, hnot⟩
          · obtain rfl : r = .pending := hnot
            obtain ⟨sent, hsent, hflat⟩ := ih h
            exact ⟨sent, hsent.trans (congrArg (· ++ sent) hframes), hflat⟩
          · obtain rfl : r = .ready (.error e) := hnot
            cases h

/-- A flush sends no frame. -/
theorem frames_flush {r : Except IoError Unit} (h : io.flush flushes = some (r, io')) :
    FrameSink.frames io'.inner = FrameSink.frames io.inner := by
  induction flushes generalizing io with
  | zero => cases h
  | succ flushes ih =>
      have hframes : FrameSink.frames io.pollFlush.2.inner = FrameSink.frames io.inner :=
        FrameSink.frames_pollFlush io.inner
      rw [flush] at h
      rcases hf : io.pollFlush with ⟨_ | r', io₁⟩
      · rw [hf] at h hframes
        exact (ih h).trans hframes
      · rw [hf] at h hframes
        cases h
        exact hframes

end FramedIo

/-- A write that completes has sent the frame, whatever pieces it went in. -/
theorem writeEarlyNoise_spec {frame : EarlyNoise}
    (h : writeEarlyNoise polls flushes io frame = some (.ok (), io')) :
    (sentSince io io').flatten = frame.buffer := by
  unfold writeEarlyNoise at h
  rcases hw : io.writeAll polls frame.buffer with - | ⟨e | u, io₁⟩
  · rw [hw] at h
    cases h
  · rw [hw] at h
    cases h
  · rw [hw] at h
    obtain ⟨sent, hsent, hflat⟩ := FramedIo.writeAll_spec hw
    dsimp only at h
    rcases hf : io₁.flush flushes with - | ⟨e | v, io₂⟩
    · rw [hf] at h
      cases h
    · rw [hf] at h
      cases h
    · rw [hf] at h
      cases h
      rw [sentSince, FramedIo.frames_flush hf, hsent, List.drop_left, hflat]

end Server

/-! ### A client -/

/-- What can go wrong for a client. -/
inductive ClientError
  | io (e : IoError)
  | unexpectedEof
  | magic
  | json

section Client

variable {B E : Type} [Buf B] [IntoIoError E]

namespace FramedIo

/-- Read until there are `n` bytes, each time as many as the next of the sizes
says, one at least; `none` if the sizes are used up before. -/
def readExact (n : ℕ) (got : Bytes) (sizes : List ℕ) (io : FramedIo (List (Answer B E)) B) :
    Checked (Option (Except ClientError Bytes × List ℕ × FramedIo (List (Answer B E)) B)) :=
  if n ≤ got.length then return some (.ok got, sizes, io)
  else
    match sizes with
    | [] => return none
    | size :: sizes => do
      match ← pollRead ⟨got, min (size + 1) (n - got.length)⟩ io with
      | (.pending, buf, io) => readExact n buf.filled sizes io
      | (.ready (.error e), _, io) => return some (.error (.io e), sizes, io)
      | (.ready (.ok ()), buf, io) =>
        if buf.filled.length = got.length then return some (.error .unexpectedEof, sizes, io)
        else readExact n buf.filled sizes io

end FramedIo

section Decoder

variable [ChallengeText]

/-- The frame and the length it was announced with. -/
def decodeJson (json : Bytes) : Except ClientError (EarlyNoise × ℕ) :=
  match EarlyNoise.fromSlice json with
  | none => .error .json
  | some frame => .ok (frame, json.length)

def readBody (jsonLen : ℕ) (sizes : List ℕ) (io : FramedIo (List (Answer B E)) B) :
    Checked (Option (Except ClientError (EarlyNoise × ℕ) × FramedIo (List (Answer B E)) B)) := do
  match ← io.readExact jsonLen [] sizes with
  | none => return none
  | some (.error e, _, io) => return some (.error e, io)
  | some (.ok json, _, io) => return some (decodeJson json, io)

/-- The documented decoder. -/
def readEarlyNoise (sizes : List ℕ) (io : FramedIo (List (Answer B E)) B) :
    Checked (Option (Except ClientError (EarlyNoise × ℕ) × FramedIo (List (Answer B E)) B)) := do
  match ← io.readExact 9 [] sizes with
  | none => return none
  | some (.error e, _, io) => return some (.error e, io)
  | some (.ok head, sizes, io) =>
    if head.take 5 = earlyNoiseMagic then readBody (BigEndian.value (head.drop 5)) sizes io
    else return some (.error .magic, io)

end Decoder

/-! #### Reading exactly -/

namespace FramedIo

variable {io : FramedIo (List (Answer B E)) B} {want : Bytes} {tail : List Observed}

/-- With as many bytes in front as there is space for, a read waits or takes
some of them. -/
theorem pollRead_front (buf : ReadBuf) (h : io.ahead = want.map .byte ++ tail)
    (hpos : 0 < buf.remaining) (hle : buf.remaining ≤ want.length) :
    (∃ io', pollRead buf io = .ok (.pending, buf, io') ∧ io'.ahead = want.map .byte ++ tail ∧
      io'.inner.length < io.inner.length) ∨
    ∃ buf' io' bytes rest, pollRead buf io = .ok (.ready (.ok ()), buf', io') ∧ bytes ≠ [] ∧
      want = bytes ++ rest ∧ buf'.filled = buf.filled ++ bytes ∧
      io'.ahead = rest.map .byte ++ tail ∧ io'.inner.length ≤ io.inner.length := by
  obtain ⟨b, want', rfl⟩ : ∃ b want', want = b :: want' :=
    List.exists_cons_of_length_pos (lt_of_lt_of_le hpos hle)
  rcases pollRead_spec buf io with ⟨r, buf', io', hread, hfits, hahead, htakes, hleft⟩ | ⟨-, hnil⟩
  · rw [h] at hahead
    rcases r with _ | (e | u)
    · obtain rfl : buf' = buf := hleft fun h => by cases h
      have hnone : (Reading.mk buf' .pending buf').observed = [] := by
        rw [Reading.observed, Reading.fits_self.2]
        rfl
      rw [hnone, List.nil_append] at hahead
      exact Or.inl ⟨io', hread, hahead.symm, htakes.2 rfl⟩
    · -- an error is not a byte
      obtain rfl : buf' = buf := hleft fun h => by cases h
      rw [Reading.observed, Reading.fits_self.2] at hahead
      cases hahead
    · have hlen := hfits.bytes_le
      obtain ⟨bytes, hbytes⟩ : ∃ bytes, bytes = (Reading.mk buf (.ready (.ok u)) buf').bytes :=
        ⟨_, rfl⟩
      have hfilled := hfits.filled
      rw [Reading.observed, ← hbytes] at hahead
      rw [← hbytes] at hlen hfilled
      -- a byte is in front, so this is not the end of the stream
      have hsome : bytes ≠ [] := by
        rintro rfl
        have heof : (b :: want').map Observed.byte ++ tail = [.eof] ++ io'.ahead := by
          rw [hahead]
          simp [hpos]
        cases heof
      simp only [hsome, false_and, if_false, List.append_nil] at hahead
      have htake : bytes = (b :: want').take bytes.length := by
        have hfront := congrArg (List.take bytes.length) hahead
        rw [List.take_append_of_le_length (by rw [List.length_map]; exact hlen.trans hle),
          List.take_append_of_le_length (by rw [List.length_map]), ← List.map_take,
          ← List.map_take, List.take_length] at hfront
        exact (List.map_injective_iff.mpr (fun _ _ h => Observed.byte.inj h) hfront).symm
      have hsplit : b :: want' = bytes ++ (b :: want').drop bytes.length := by
        nth_rewrite 1 [← List.take_append_drop bytes.length (b :: want')]
        rw [← htake]
      refine Or.inr ⟨buf', io', bytes, _, hread, hsome, hsplit, hfilled, ?_, htakes.1⟩
      rw [hsplit, List.map_append, List.append_assoc] at hahead
      exact (List.append_cancel_left hahead).symm
  · rw [h] at hnil
    cases hnil

/-- **Reading exactly.**  The wanted bytes are taken off the front, in a
number of reads that is bounded by them and the answers. -/
theorem readExact_spec {n : ℕ} (got : Bytes) (sizes : List ℕ)
    (h : io.ahead = want.map .byte ++ tail) (hn : got.length + want.length = n) :
    (readExact n got sizes io = .ok none ∧ sizes.length < want.length + io.inner.length) ∨
    ∃ sizes' io', readExact n got sizes io = .ok (some (.ok (got ++ want), sizes', io')) ∧
      io'.ahead = tail ∧
      sizes.length + io'.inner.length ≤ sizes'.length + (want.length + io.inner.length) := by
  -- each read uses up an answer or a wanted byte, so together they bound the reads
  induction sizes generalizing got want io with
  | nil =>
      rcases want with - | ⟨b, want⟩
      · refine Or.inr ⟨[], io, ?_, h, by simp⟩
        rw [readExact, if_pos (by simp at hn; omega), List.append_nil]
        rfl
      · rw [List.length_cons] at hn
        refine Or.inl ⟨?_, by simp⟩
        rw [readExact, if_neg (by omega)]
        rfl
  | cons size sizes ih =>
      rcases want with - | ⟨b, want⟩
      · refine Or.inr ⟨size :: sizes, io, ?_, h, by simp⟩
        rw [readExact, if_pos (by simp at hn; omega), List.append_nil]
        rfl
      · have hlt : ¬ n ≤ got.length := by
          rw [List.length_cons] at hn
          omega
        have hspace : n - got.length = (b :: want).length := by omega
        have hsizes : (size :: sizes).length = sizes.length + 1 := rfl
        rcases pollRead_front ⟨got, min (size + 1) (n - got.length)⟩ h
          (show 0 < min (size + 1) (n - got.length) by omega)
          (show min (size + 1) (n - got.length) ≤ (b :: want).length by omega) with
          ⟨io₁, hread, hahead, hinner⟩ | ⟨buf', io₁, bytes, rest, hread, hsome, hsplit, hfilled,
            hahead, hinner⟩
        -- a read that waits
        · have hnext : readExact n got (size :: sizes) io = readExact n got sizes io₁ := by
            rw [readExact, if_neg hlt, hread]
            rfl
          rw [hnext]
          rcases ih got hahead hn with ⟨hnone, hbound⟩ | ⟨sizes', io', hsome, htail, hbound⟩
          · exact Or.inl ⟨hnone, by omega⟩
          · exact Or.inr ⟨sizes', io', hsome, htail, by omega⟩
        -- a read that takes some of the wanted bytes
        · have hpos := List.length_pos_of_ne_nil hsome
          have hgrown : ¬ buf'.filled.length = got.length := by
            rw [hfilled]
            show ¬ (got ++ bytes).length = got.length
            rw [List.length_append]
            omega
          have hnext : readExact n got (size :: sizes) io =
              readExact n (got ++ bytes) sizes io₁ := by
            rw [readExact, if_neg hlt, hread]
            show (if buf'.filled.length = got.length then _ else _) = _
            rw [if_neg hgrown, hfilled]
          have hlen := congrArg List.length hsplit
          rw [List.length_append] at hlen
          rw [hnext, hlen]
          rcases ih (got ++ bytes) hahead (by rw [List.length_append]; omega) with
            ⟨hnone, hbound⟩ | ⟨sizes', io', hsome, htail, hbound⟩
          · exact Or.inl ⟨hnone, by omega⟩
          · refine Or.inr ⟨sizes', io', ?_, htail, by omega⟩
            rw [hsome, hsplit, List.append_assoc]

end FramedIo

variable [ChallengeText] {io : FramedIo (List (Answer B E)) B}

/-- Within enough reads the body is complete, and what follows it is still
ahead. -/
theorem readBody_spec {json : Bytes} {tail : List Observed} (sizes : List ℕ)
    (h : io.ahead = json.map .byte ++ tail) :
    (readBody json.length sizes io = .ok none ∧ sizes.length < json.length + io.inner.length) ∨
    ∃ io', readBody json.length sizes io = .ok (some (decodeJson json, io')) ∧
      io'.ahead = tail := by
  rcases FramedIo.readExact_spec (n := json.length) [] sizes h (Nat.zero_add _) with
    ⟨hnone, hbound⟩ | ⟨sizes', io', hsome, htail, -⟩
  · exact Or.inl ⟨by rw [readBody, hnone]; rfl, hbound⟩
  · exact Or.inr ⟨io', by rw [readBody, hsome]; rfl, htail⟩

/-- **Read.**  Within enough reads the frame comes back, and what follows it is
still ahead. -/
theorem readEarlyNoise_spec {frame : EarlyNoise} {tail : List Observed} (sizes : List ℕ)
    (h : io.ahead = frame.buffer.map .byte ++ tail) :
    (readEarlyNoise sizes io = .ok none ∧
      sizes.length < 9 + frame.toVec.length + io.inner.length) ∨
    ∃ io', readEarlyNoise sizes io = .ok (some (.ok (frame, frame.toVec.length), io')) ∧
      io'.ahead = tail := by
  obtain ⟨len, hlen⟩ :
      ∃ len, len = BigEndian.bytes 4 (UInt32.ofNat frame.toVec.length).toNat := ⟨_, rfl⟩
  have hvalue : BigEndian.value len = frame.toVec.length := by rw [hlen, frame.value_length]
  have hhead : (earlyNoiseMagic ++ len).length = 9 := by
    rw [List.length_append, hlen, BigEndian.length_bytes]
    rfl
  have hahead : io.ahead = (earlyNoiseMagic ++ len).map .byte ++
      (frame.toVec.map .byte ++ tail) := by
    rw [h, EarlyNoise.buffer, ← hlen, ← List.append_assoc earlyNoiseMagic, List.map_append,
      List.append_assoc]
  rcases FramedIo.readExact_spec (n := 9) [] sizes hahead (by rw [hhead]; rfl) with
    ⟨hnone, hbound⟩ | ⟨sizes', io', hsome, hahead', hbound⟩
  · exact Or.inl ⟨by rw [readEarlyNoise, hnone]; rfl, by omega⟩
  · -- the head is the magic and the length
    have hmagic : (earlyNoiseMagic ++ len).take 5 = earlyNoiseMagic := rfl
    have hdrop : (earlyNoiseMagic ++ len).drop 5 = len := rfl
    have hnext : readEarlyNoise sizes io = readBody frame.toVec.length sizes' io' := by
      rw [readEarlyNoise, hsome, List.nil_append]
      show (if (earlyNoiseMagic ++ len).take 5 = earlyNoiseMagic then
        readBody (BigEndian.value ((earlyNoiseMagic ++ len).drop 5)) sizes' io'
        else .ok (some (.error .magic, io'))) = _
      rw [if_pos hmagic, hdrop, hvalue]
    have hdecode : decodeJson frame.toVec = .ok (frame, frame.toVec.length) := by
      rw [decodeJson, frame.fromSlice_toVec]
    rw [hnext, ← hdecode]
    exact (readBody_spec sizes' hahead').imp (fun ⟨hnone, hbound'⟩ => ⟨hnone, by omega⟩) id

end Client

/-! ### The preamble and what follows -/

section Delimits

variable {T B E B' E' : Type} [FrameSink T E] [IntoIoError E] [Buf B'] [IntoIoError E']
  [ChallengeText]

/-- **EarlyNoise is self-delimiting.**  When the server has written the frame
and `rest` behind it, and the bytes were cut into any frames on the way, a
client gets the key and the length of its JSON, in a bounded number of reads
of any sizes; and what it reads afterwards is `rest`. -/
theorem early_noise_delimits (frame : EarlyNoise) (polls flushes : ℕ)
    (server server' : FramedIo T B)
    (hwrite : writeEarlyNoise polls flushes server frame = some (.ok (), server'))
    (rest : Bytes) (frames : List Bytes)
    (hcut : frames.flatten = (sentSince server server').flatten ++ rest)
    (closed : Bool) (answers : List (Answer B' E'))
    (hdeliver : deliver closed frames answers = some []) (sizes : List ℕ) :
    frame.toVec.length ≤ 1024 ∧
    ((readEarlyNoise sizes (.new answers) = .ok none ∧
        sizes.length < 9 + frame.toVec.length + answers.length) ∨
      ∃ client, readEarlyNoise sizes (.new answers) =
          .ok (some (.ok (frame, frame.toVec.length), client)) ∧
        ∃ n, (0 < n → closed = true) ∧ ∀ bufs : List ReadBuf,
          (client.reads bufs).1.flatMap Reading.observed ++ (client.reads bufs).2.ahead =
            rest.map .byte ++ List.replicate n .eof ∧
          ((client.reads bufs).1.map Reading.before = bufs ∨ (client.reads bufs).2.ahead = [])) := by
  refine ⟨frame.length_toVec_le, ?_⟩
  obtain ⟨bytes, n, hbytes, hflat, hclosed⟩ := deliver_spec hdeliver
  have hsent : bytes = frame.buffer ++ rest := by
    rw [← writeEarlyNoise_spec hwrite, ← hcut, ← hflat]
    exact (List.append_nil _).symm
  -- in front of the client are the frame, `rest` and the ends of the stream
  have hahead : (FramedIo.new answers : FramedIo (List (Answer B' E')) B').ahead =
      frame.buffer.map .byte ++ (rest.map .byte ++ List.replicate n .eof) := by
    show answers.flatMap Observed.ofAnswer = _
    rw [hbytes, hsent, List.map_append, List.append_assoc]
  refine (readEarlyNoise_spec sizes hahead).imp id fun ⟨client, hread, htail⟩ => ?_
  refine ⟨client, hread, n, fun hpos => (hclosed hpos).1, fun bufs => ?_⟩
  obtain ⟨hreads, -, hstop⟩ := client.reads_spec bufs
  exact ⟨by rw [← hreads, htail], hstop⟩

end Delimits

/-- A writer that has to wait once, the frame cut in two behind the magic with
the start of the next message in the second piece, and a client that reads one
byte at a time. -/
theorem early_noise_delimits_byte_by_byte :
    let frame : EarlyNoise := ⟨⟨List.replicate 32 7, rfl⟩⟩
    let next : Bytes := frame.buffer.drop 5 ++ [80, 82, 73]
    let answers : List (Answer Bytes IoError) :=
      [.ready (some (.ok (frame.buffer.take 5))), .pending, .ready (some (.ok next)), .ready none]
    ∃ client, readEarlyNoise (List.replicate 1100 0) (.new answers) =
        .ok (some (.ok (frame, frame.toVec.length), client)) ∧
      ∃ n, ∀ bufs : List ReadBuf,
        (client.reads bufs).1.flatMap Reading.observed ++ (client.reads bufs).2.ahead =
          [80, 82, 73].map .byte ++ List.replicate n .eof := by
  intro frame next answers
  obtain ⟨server, hwrite⟩ : ∃ server,
      writeEarlyNoise 2 1 (.new ⟨1, []⟩ : FramedIo Outbox Bytes) frame = some (.ok (), server) := by
    obtain ⟨b, buf, hbuf⟩ : ∃ b buf, frame.buffer = b :: buf := ⟨0xFF, _, rfl⟩
    refine ⟨⟨⟨0, [b :: buf]⟩, none⟩, ?_⟩
    simp [writeEarlyNoise, hbuf, FramedIo.writeAll, FramedIo.flush, FramedIo.pollWrite,
      FramedIo.pollFlush, FramedIo.mapErr, FramedIo.new, Sink.pollReady, Sink.startSend,
      Sink.pollFlush]
  have hcut : [frame.buffer.take 5, next].flatten =
      (sentSince (.new ⟨1, []⟩ : FramedIo Outbox Bytes) server).flatten ++ [80, 82, 73] := by
    rw [writeEarlyNoise_spec hwrite, List.flatten_cons, List.flatten_singleton, ← List.append_assoc,
      List.take_append_drop]
  have hdeliver : ∀ a b : Bytes, deliver true [a, b]
      ([.ready (some (.ok a)), .pending, .ready (some (.ok b)), .ready none] :
        List (Answer Bytes IoError)) = some [] := by
    intro a b
    simp [deliver, Buf.content]
  obtain ⟨hle, h⟩ := early_noise_delimits frame 2 1 _ server hwrite [80, 82, 73] _ hcut true
    answers (hdeliver _ _) (List.replicate 1100 0)
  rcases h with ⟨-, hbound⟩ | ⟨client, hread, n, -, hreads⟩
  · have hanswers : answers.length = 4 := rfl
    rw [List.length_replicate, hanswers] at hbound
    omega
  · exact ⟨client, hread, n, fun bufs => (hreads bufs).1⟩

end Oxiscale

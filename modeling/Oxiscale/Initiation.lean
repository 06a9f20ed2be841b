/-
Oxiscale/Initiation.lean

The controlbase initiation: the checks of `noise::accept` before the
cryptography.

The header value is base64 of two bytes of capability version, the message
type, two bytes of length and the payload.  What the parser accepts is such a
message with anything behind it (`parseRaw_eq_ok_iff`), so it accepts exactly
the grammar on every input that is not an initiation with something behind it
(`parse_exact_iff`).
-/
import Oxiscale.Base64
import Oxiscale.BigEndian
import Oxiscale.Poll

namespace Oxiscale

/-! ### The source -/

/-- The source's `NoiseError`; the base64 and JSON errors of other crates
carry no data here. -/
inductive NoiseError
  | base64
  | badInitiation (reason : String)
  | handshakeFailed
  | unsupportedVersion (got min : UInt16)
  | serde
  | io (error : IoError)
deriving DecidableEq

def initPayloadLen : ℕ := 96

def controlbaseHeaderLen : ℕ := 3

/-- The version that the client prepends. -/
def capverPrefixLen : ℕ := 2

def minSupportedCapabilityVersion : UInt16 := 113

/-- The controlbase message types that are used. -/
inductive MessageType
  | initiation
  | response

def MessageType.toU8 : MessageType → UInt8
  | .initiation => 0x01
  | .response => 0x02

/-- `char::is_whitespace`. -/
def isWhitespace (c : Char) : Bool :=
  let n := c.toNat
  (0x09 ≤ n ∧ n ≤ 0x0D) ∨ n = 0x20 ∨ n = 0x85 ∨ n = 0xA0 ∨ n = 0x1680 ∨
    (0x2000 ≤ n ∧ n ≤ 0x200A) ∨ n = 0x2028 ∨ n = 0x2029 ∨ n = 0x202F ∨ n = 0x205F ∨ n = 0x3000

/-- `str::trim`. -/
def trim (cs : List Char) : List Char :=
  ((cs.dropWhile isWhitespace).reverse.dropWhile isWhitespace).reverse

/-- The `STANDARD` engine: decoding is the exact inverse of encoding. -/
class Base64Standard where
  encode : Bytes → List Char
  decode : List Char → Option Bytes
  decode_eq_some_iff : ∀ cs bytes, decode cs = some bytes ↔ cs = encode bytes
  encode_graphic : ∀ bytes, ∀ c ∈ encode bytes, isWhitespace c = false

instance : Base64Standard where
  encode := Base64.encode
  decode := Base64.decode
  decode_eq_some_iff _ _ := Base64.decode_eq_some_iff
  encode_graphic bytes c hc := by
    have hall : Base64.alphabet.all (fun c => !isWhitespace c) = true := by decide
    rcases Base64.mem_encode hc with h | rfl
    · simpa using List.all_eq_true.mp hall c h
    · rfl

def u16FromBeBytes (l : Bytes) : UInt16 := UInt16.ofNat (BigEndian.value l)

/-- The checks on the decoded bytes. -/
def parseRaw (raw : Bytes) : Checked (Except NoiseError (UInt16 × Bytes)) :=
  if raw.length < capverPrefixLen + controlbaseHeaderLen + initPayloadLen then
    return .error (.badInitiation "initiation too short")
  else do
    let capabilityVersion := u16FromBeBytes [← index raw 0, ← index raw 1]
    if capabilityVersion < minSupportedCapabilityVersion then
      return .error (.unsupportedVersion capabilityVersion minSupportedCapabilityVersion)
    else
      let type ← index raw 2
      if type ≠ MessageType.initiation.toU8 then
        return .error (.badInitiation "not an initiation message")
      else
        let bodyLen := (u16FromBeBytes [← index raw 3, ← index raw 4]).toNat
        if bodyLen ≠ initPayloadLen then
          return .error (.badInitiation "unexpected initiation payload length")
        else
          let payloadStart := capverPrefixLen + controlbaseHeaderLen
          let payload ← slice raw payloadStart (payloadStart + initPayloadLen)
          return .ok (capabilityVersion, payload)

/-- Everything before the cryptography. -/
def parseInitiation [Base64Standard] (initiationB64 : String) :
    Checked (Except NoiseError (UInt16 × Bytes)) :=
  match Base64Standard.decode (trim initiationB64.toList) with
  | none => return .error .base64
  | some raw => parseRaw raw

/-! ### The grammar -/

def u16ToBeBytes (n : UInt16) : Bytes := BigEndian.bytes 2 n.toNat

/-- `[capver][0x01][0x00 0x60][payload]`. -/
def initiation (capver : UInt16) (payload : Bytes) : Bytes :=
  u16ToBeBytes capver ++ 0x01 :: 0x00 :: 0x60 :: payload

/-- A capability version that is supported and a payload of the right size. -/
structure Wellformed (capver : UInt16) (payload : Bytes) : Prop where
  supported : 113 ≤ capver
  length_eq : payload.length = 96

/-! ### Two bytes -/

variable {capver : UInt16} {payload raw : Bytes}

theorem u16FromBeBytes_toNat {a b : UInt8} :
    (u16FromBeBytes [a, b]).toNat = BigEndian.value [a, b] := by
  have hlt : BigEndian.value [a, b] < 256 ^ 2 := BigEndian.value_lt
  exact UInt16.toNat_ofNat_of_lt' (lt_of_lt_of_eq hlt (by decide))

/-- Two bytes are the bytes of the number they are read as. -/
theorem u16ToBeBytes_u16FromBeBytes {a b : UInt8} : u16ToBeBytes (u16FromBeBytes [a, b]) = [a, b] := by
  rw [u16ToBeBytes, u16FromBeBytes_toNat]
  exact BigEndian.bytes_value (l := [a, b])

/-- A version comes back from its two bytes. -/
theorem u16FromBeBytes_u16ToBeBytes (n : UInt16) : u16FromBeBytes (u16ToBeBytes n) = n := by
  have hlt : n.toNat < 256 ^ 2 := n.toNat_lt
  rw [u16FromBeBytes, u16ToBeBytes, BigEndian.value_bytes, Nat.mod_eq_of_lt hlt, UInt16.ofNat_toNat]

theorem exists_u16ToBeBytes_eq (n : UInt16) : ∃ a b, u16ToBeBytes n = [a, b] :=
  List.length_eq_two.mp BigEndian.length_bytes

/-! ### What is accepted -/

theorem parseRaw_short (h : raw.length < 101) :
    parseRaw raw = .ok (.error (.badInitiation "initiation too short")) :=
  if_pos h

/-- The checks, on bytes that are long enough. -/
theorem parseRaw_cons {a b type x y : UInt8} {rest : Bytes} (h : 96 ≤ rest.length) :
    parseRaw (a :: b :: type :: x :: y :: rest) = .ok
      (if u16FromBeBytes [a, b] < 113 then .error (.unsupportedVersion (u16FromBeBytes [a, b]) 113)
      else if type ≠ 0x01 then .error (.badInitiation "not an initiation message")
      else if (u16FromBeBytes [x, y]).toNat ≠ 96 then
        .error (.badInitiation "unexpected initiation payload length")
      else .ok (u16FromBeBytes [a, b], rest.take 96)) := by
  have hlen : ¬ (a :: b :: type :: x :: y :: rest).length <
      capverPrefixLen + controlbaseHeaderLen + initPayloadLen := by
    simp only [List.length_cons, capverPrefixLen, controlbaseHeaderLen, initPayloadLen]
    omega
  have hslice : slice (a :: b :: type :: x :: y :: rest) 5 101 = .ok (rest.take 96) := by
    refine if_pos ⟨by decide, ?_⟩
    simp only [List.length_cons]
    omega
  rw [parseRaw, if_neg hlen]
  show (if u16FromBeBytes [a, b] < 113 then _ else _ : Checked (Except NoiseError (UInt16 × Bytes))) = _
  -- the three checks of the header, in the order of the source
  split
  · rfl
  · show (if type ≠ 0x01 then _ else _ : Checked (Except NoiseError (UInt16 × Bytes))) = _
    split
    · rfl
    · show (if (u16FromBeBytes [x, y]).toNat ≠ 96 then _ else _ :
        Checked (Except NoiseError (UInt16 × Bytes))) = _
      split
      · rfl
      · show Except.bind (slice _ 5 101) _ = _
        rw [hslice]
        rfl

/-- Bytes are too short or have a header. -/
theorem short_or_header (raw : Bytes) : raw.length < 101 ∨
    ∃ a b type x y rest, raw = a :: b :: type :: x :: y :: rest ∧ 96 ≤ rest.length := by
  rcases raw with - | ⟨a, - | ⟨b, - | ⟨type, - | ⟨x, - | ⟨y, rest⟩⟩⟩⟩⟩
  case cons.cons.cons.cons.cons =>
    simp only [List.length_cons]
    rcases Nat.lt_or_ge rest.length 96 with h | h
    · exact Or.inl (by omega)
    · exact Or.inr ⟨a, b, type, x, y, rest, rfl, h⟩
  all_goals exact Or.inl (by simp)

/-- **No index is out of bounds.** -/
theorem parseRaw_total (raw : Bytes) : ∃ r, parseRaw raw = .ok r := by
  rcases short_or_header raw with hshort | ⟨a, b, type, x, y, rest, rfl, h⟩
  · exact ⟨_, parseRaw_short hshort⟩
  · exact ⟨_, parseRaw_cons h⟩

/-- **What is accepted**: an initiation, with anything behind it. -/
theorem parseRaw_eq_ok_iff : parseRaw raw = .ok (.ok (capver, payload)) ↔
    Wellformed capver payload ∧ ∃ extra, raw = initiation capver payload ++ extra := by
  constructor
  · intro hparse
    rcases short_or_header raw with hshort | ⟨a, b, type, x, y, rest, rfl, h⟩
    · rw [parseRaw_short hshort] at hparse
      cases hparse
    · rw [parseRaw_cons h] at hparse
      have hok := Except.ok.inj hparse
      split at hok
      · cases hok
      · rename_i hsupported
        split at hok
        · cases hok
        · rename_i htype
          split at hok
          · cases hok
          · rename_i hbody
            obtain ⟨rfl, rfl⟩ := Prod.mk.inj (Except.ok.inj hok)
            -- only one length is accepted, so its two bytes are known
            have hlen : u16FromBeBytes [x, y] = 96 := UInt16.toNat_inj.mp (not_not.mp hbody)
            have hxy : [x, y] = u16ToBeBytes 96 := by rw [← hlen, u16ToBeBytes_u16FromBeBytes]
            obtain ⟨rfl, hy⟩ := List.cons.inj hxy
            obtain rfl := (List.cons.inj hy).1
            refine ⟨⟨UInt16.not_lt.mp hsupported, ?_⟩, rest.drop 96, ?_⟩
            · rw [List.length_take]
              omega
            · rw [initiation, u16ToBeBytes_u16FromBeBytes, not_not.mp htype]
              simp only [List.cons_append, List.nil_append, List.take_append_drop]
              rfl
  · rintro ⟨⟨hsupported, hlen⟩, extra, rfl⟩
    obtain ⟨a, b, hab⟩ := exists_u16ToBeBytes_eq capver
    have hver : u16FromBeBytes [a, b] = capver := by rw [← hab, u16FromBeBytes_u16ToBeBytes]
    have hrest : 96 ≤ (payload ++ extra).length := by
      rw [List.length_append]
      omega
    rw [initiation, hab]
    show parseRaw (a :: b :: 0x01 :: 0x00 :: 0x60 :: (payload ++ extra)) = _
    rw [parseRaw_cons hrest, hver, if_neg (UInt16.not_lt.mpr hsupported), if_neg (by decide),
      if_neg (by decide), List.take_append_of_le_length hlen.ge, ← hlen, List.take_length]

/-! ### The header value -/

theorem trim_of_graphic {cs : List Char} (h : ∀ c ∈ cs, isWhitespace c = false) : trim cs = cs := by
  have hdrop : ∀ l : List Char, (∀ c ∈ l, isWhitespace c = false) → l.dropWhile isWhitespace = l := by
    intro l hl
    rcases l with - | ⟨c, l⟩
    · rfl
    · exact List.dropWhile_cons_of_neg (by simp [hl c])
  rw [trim, hdrop cs h, hdrop _ fun c hc => h c (List.mem_reverse.mp hc), List.reverse_reverse]

section Header

variable [Base64Standard]

/-- The bytes of a header value. -/
def decoded (initiationB64 : String) : Option Bytes :=
  Base64Standard.decode (trim initiationB64.toList)

/-- An initiation with something behind it. -/
def Overlong (initiationB64 : String) : Prop :=
  ∃ capver payload extra, extra ≠ [] ∧ Wellformed capver payload ∧
    decoded initiationB64 = some (initiation capver payload ++ extra)

variable {s s' : String}

/-- **Exactly** the encodings of an initiation, with or without further bytes,
are accepted. -/
theorem parseInitiation_eq_ok_iff : parseInitiation s = .ok (.ok (capver, payload)) ↔
    Wellformed capver payload ∧ ∃ extra, decoded s = some (initiation capver payload ++ extra) := by
  unfold parseInitiation decoded
  rcases Base64Standard.decode (trim s.toList) with - | raw
  · simp only [reduceCtorEq, exists_false, and_false, iff_false]
    intro h
    cases h
  · simpa using parseRaw_eq_ok_iff

/-- No index is out of bounds. -/
theorem parseInitiation_total (s : String) : ∃ r, parseInitiation s = .ok r := by
  unfold parseInitiation
  split
  · exact ⟨_, rfl⟩
  · exact parseRaw_total _

theorem decoded_encode (raw : Bytes) :
    decoded (String.ofList (Base64Standard.encode raw)) = some raw := by
  rw [decoded, String.toList_ofList, trim_of_graphic (Base64Standard.encode_graphic raw),
    Base64Standard.decode_eq_some_iff]

end Header

/-- A byte behind the payload is not refused. -/
theorem overlong_initiation_accepted :
    ¬ ∀ (s : String) (capver : UInt16) (payload : Bytes),
      parseInitiation s = .ok (.ok (capver, payload)) ↔
        Wellformed capver payload ∧ decoded s = some (initiation capver payload) := by
  intro h
  let payload : Bytes := List.replicate 96 0
  let raw := initiation 113 payload ++ [0]
  have hdecoded : decoded (String.ofList (Base64Standard.encode raw)) = some raw := decoded_encode raw
  have hwell : Wellformed 113 payload := ⟨by decide, List.length_replicate⟩
  have hparse := parseInitiation_eq_ok_iff.mpr ⟨hwell, [0], hdecoded⟩
  have hexact := ((h _ 113 payload).mp hparse).2
  rw [hdecoded] at hexact
  exact absurd (congrArg List.length (Option.some.inj hexact)) (by decide)

/-- **When the parser accepts exactly the grammar**: unless the value is an
initiation with something behind it.  On every value it returns, without an
index out of bounds; every encoding is parsed as what it encodes; and two
values that are not overlong and parse to the same have the same bytes. -/
theorem parse_exact_iff [Base64Standard] (s : String) :
    ((∀ capver payload, parseInitiation s = .ok (.ok (capver, payload)) ↔
      Wellformed capver payload ∧ decoded s = some (initiation capver payload)) ↔ ¬ Overlong s) ∧
    (∃ r, parseInitiation s = .ok r) ∧
    (∀ capver payload, Wellformed capver payload →
      parseInitiation (String.ofList (Base64Standard.encode (initiation capver payload))) =
        .ok (.ok (capver, payload))) ∧
    ∀ s' capver payload, ¬ Overlong s → ¬ Overlong s' →
      parseInitiation s = .ok (.ok (capver, payload)) →
      parseInitiation s' = .ok (.ok (capver, payload)) → decoded s = decoded s' := by
  have hexact : ∀ {s : String} {capver payload}, ¬ Overlong s →
      parseInitiation s = .ok (.ok (capver, payload)) →
      decoded s = some (initiation capver payload) := by
    intro s capver payload hshort hparse
    obtain ⟨hwell, extra, hdecoded⟩ := parseInitiation_eq_ok_iff.mp hparse
    by_cases hextra : extra = []
    · rwa [hextra, List.append_nil] at hdecoded
    · exact absurd ⟨capver, payload, extra, hextra, hwell, hdecoded⟩ hshort
  refine ⟨⟨?_, ?_⟩, parseInitiation_total s, ?_, ?_⟩
  · rintro h ⟨capver, payload, extra, hextra, hwell, hdecoded⟩
    have hparse := parseInitiation_eq_ok_iff.mpr ⟨hwell, extra, hdecoded⟩
    have hsame := hdecoded.symm.trans ((h capver payload).mp hparse).2
    exact hextra (List.append_right_eq_self.mp (Option.some.inj hsame))
  · intro hshort capver payload
    constructor
    · intro hparse
      exact ⟨(parseInitiation_eq_ok_iff.mp hparse).1, hexact hshort hparse⟩
    · rintro ⟨hwell, hdecoded⟩
      exact parseInitiation_eq_ok_iff.mpr ⟨hwell, [], by rw [hdecoded, List.append_nil]⟩
  · intro capver payload hwell
    refine parseInitiation_eq_ok_iff.mpr ⟨hwell, [], ?_⟩
    rw [decoded_encode, List.append_nil]
  · intro s' capver payload hs hs' hparse hparse'
    rw [hexact hs hparse, hexact hs' hparse']

end Oxiscale

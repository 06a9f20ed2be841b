/-
Oxiscale/Serde.lean

What the three snapshot formats keep of a document.

A document is serialised in two stages.  The derived implementations turn it
into a `Flow.Value`: a struct is a map from field names, an id is its number,
a missing option is null, and the policies are a map whose keys are numbers.
The format's crate then writes that value as far as its data model allows:

* JSON has string keys only and writes an integer key as a decimal string;
* YAML takes everything as it is;
* TOML has signed 64-bit integers, string keys, no null, and in a table the
  plain values come before the sub-tables.

A text is read into a `Parsed` tree, which knows more than the value: YAML
gives the text of a plain scalar to a field that asks for a string, so that
`name: 123` is read as the name `123`.  The derived readers take other shapes
too: a struct is a map, or in JSON and TOML an array of its fields in order,
and in YAML a list or a map may be left empty.

The text itself is the crate's.  `Crates` has a writer and a reader for each
format, and the law that the reader undoes the writer on the values that fit
the format's data model.

What is read back is in `Oxiscale/Saved.lean`.
-/
import Oxiscale.File
import Oxiscale.Flow
import Mathlib.Data.Finset.Sort

namespace Oxiscale

open Flow (Key Value)

/-! ### Derived serialisation -/

/-- The entries of a struct, under the names of its fields. -/
def strKeys (fields : List (String × Value)) : List (Key × Value) :=
  fields.map fun f => (.str f.1, f.2)

/-- A struct. -/
def record (fields : List (String × Value)) : Value := .map (strKeys fields)

/-- A newtype is written as what it wraps. -/
def serializeId (id : UInt64) : Value := .int id.toNat

/-- A missing option is null, and no field is skipped. -/
def serializeOption : Option String → Value
  | none => .null
  | some s => .str s

def serializeStrings (l : List String) : Value := .seq (l.map .str)

/-- The fields in the order of the struct, absent options as `null`. -/
def Network.serialize (net : Network) : Value := record
  [("id", serializeId net.id.val), ("name", .str net.name), ("server_host", .str net.serverHost),
   ("ipv4_prefix", .str net.ipv4Prefix), ("ipv6_prefix", .str net.ipv6Prefix),
   ("noise_key_id", .str net.noiseKeyId), ("policy", serializeOption net.policy),
   ("created_at", .str net.createdAt)]

def User.serialize (user : User) : Value := record
  [("id", serializeId user.id.val), ("network_id", serializeId user.networkId.val),
   ("login_name", .str user.loginName), ("display_name", .str user.displayName)]

def Node.serialize (node : Node) : Value := record
  [("id", serializeId node.id.val), ("network_id", serializeId node.networkId.val),
   ("user_id", serializeId node.userId.val), ("machine_key", .str node.machineKey),
   ("node_key", .str node.nodeKey), ("disco_key", .str node.discoKey),
   ("ipv4", serializeOption node.ipv4), ("ipv6", serializeOption node.ipv6),
   ("tags", serializeStrings node.tags)]

/-- The source calls `keyPrefix` the `prefix`. -/
def PreAuthKey.serialize (key : PreAuthKey) : Value := record
  [("id", serializeId key.id.val), ("network_id", serializeId key.networkId.val),
   ("prefix", .str key.keyPrefix), ("secret_hash", .str key.secretHash),
   ("reusable", .bool key.reusable), ("ephemeral", .bool key.ephemeral),
   ("used", .bool key.used), ("expires_at", serializeOption key.expiresAt),
   ("tags", serializeStrings key.tags)]

/-- The policies come in the order in which the hash map visits them. -/
def StoreDocument.serialize (iter : Policies → List (NetworkId × String)) (doc : StoreDocument) :
    Value := record
  [("version", .int doc.version.toNat), ("networks", .seq (doc.networks.map Network.serialize)),
   ("users", .seq (doc.users.map User.serialize)), ("nodes", .seq (doc.nodes.map Node.serialize)),
   ("preauth_keys", .seq (doc.preauthKeys.map PreAuthKey.serialize)),
   ("policies", .map ((iter doc.policies).map fun e => (.int e.1.val.toNat, .str e.2)))]

/-! ### Parsed texts -/

/-- The scalars that are no strings.  A number that is not a natural one, or a
date, is known by how it is written. -/
inductive Scalar
  | null
  | bool (b : Bool)
  | int (n : ℕ)
  | other (literal : String)
deriving DecidableEq

/-- A text as the parser of its format hands it to the derived readers.  The
`text` of a scalar is what a field gets that asks for a string. -/
inductive Parsed
  | scalar (s : Scalar) (text : Option String)
  | str (s : String)
  | seq (items : List Parsed)
  | map (entries : List (Key × Parsed))

/-- YAML has a text for every plain scalar, the other two formats have none. -/
def plainText : Format → Scalar → Option String
  | .yaml, .null => some "null"
  | .yaml, .bool b => some (toString b)
  | .yaml, .int n => some (String.ofList (Nat.toDigits 10 n))
  | .yaml, .other literal => some literal
  | _, _ => none

namespace Parsed

/-- A scalar as the crates write it. -/
def plain (format : Format) (s : Scalar) : Parsed := .scalar s (plainText format s)

mutual

/-- A value that was written by the format's crate. -/
def ofValue (format : Format) : Value → Parsed
  | .null => plain format .null
  | .bool b => plain format (.bool b)
  | .int n => plain format (.int n)
  | .str s => .str s
  | .seq l => .seq (ofItems format l)
  | .map es => .map (ofEntries format es)

def ofItems (format : Format) : List Value → List Parsed
  | [] => []
  | v :: vs => ofValue format v :: ofItems format vs

def ofEntries (format : Format) : List (Key × Value) → List (Key × Parsed)
  | [] => []
  | (k, v) :: es => (k, ofValue format v) :: ofEntries format es

end

/-- What a reader is given for a field that is not there.  Only an option takes
it. -/
def missing : Parsed := .scalar .null none

end Parsed

/-! ### Derived deserialisation -/

/-- The entries under a name. -/
def named {α : Type} (name : String) (es : List (Key × α)) : List (Key × α) :=
  es.filter fun e => e.1 = .str name

/-- The value of a field, `absent` where it is missing.  One that stands twice
is an error; unknown fields are ignored. -/
def field {α : Type} (absent : α) (name : String) (es : List (Key × α)) : Option α :=
  match named name es with
  | [] => some absent
  | [e] => some e.2
  | _ => none

/-- Whether a struct is read from an array: JSON wants as many items as fields,
TOML ignores further ones, and YAML takes maps only. -/
def readsArray : Format → ℕ → ℕ → Bool
  | .json, fields, items => items == fields
  | .toml, fields, items => decide (fields ≤ items)
  | .yaml, _, _ => false

/-- What stands under the names of a struct: the entries of a map, or the items
of an array in the order of the fields. -/
def fieldsOf (names : List String) : Parsed → List (Key × Parsed)
  | .map es => es
  | .seq l => names.zipWith (fun name x => (.str name, x)) l
  | _ => []

/-- The entries of a struct, if the value has the shape of one. -/
def entries (format : Format) (names : List String) : Parsed → Option (List (Key × Parsed))
  | .map es => some es
  | .seq l =>
    if readsArray format names.length l.length then some (fieldsOf names (.seq l)) else none
  | _ => none

/-- A newtype over `u64`. -/
def deserializeId : Parsed → Option UInt64
  | .scalar (.int n) _ => if n < 2 ^ 64 then some (UInt64.ofNat n) else none
  | _ => none

/-- Numbers only, within 32 bits. -/
def deserializeU32 : Parsed → Option UInt32
  | .scalar (.int n) _ => if n < 2 ^ 32 then some (UInt32.ofNat n) else none
  | _ => none

/-- A scalar gives its text, whatever else it is. -/
def deserializeString : Parsed → Option String
  | .str s => some s
  | .scalar _ text => text
  | _ => none

/-- `true` and `false` only. -/
def deserializeBool : Parsed → Option Bool
  | .scalar (.bool b) _ => some b
  | _ => none

/-- A plain null is no string here, though a string takes its text. -/
def deserializeOption : Parsed → Option (Option String)
  | .scalar .null _ => some none
  | x => (deserializeString x).map some

/-- The items one by one; the first that is refused decides.  YAML takes a plain
scalar without any text for an empty list. -/
def deserializeList {α : Type} (item : Parsed → Option α) : Parsed → Option (List α)
  | .seq l => l.mapM item
  | .scalar .null (some "") => some []
  | _ => none

/-- The names its reader knows, in the order of the struct. -/
def Network.fields : List String :=
  ["id", "name", "server_host", "ipv4_prefix", "ipv6_prefix", "noise_key_id", "policy",
   "created_at"]

/-- The fields in their order, each with the reader of its type. -/
def Network.deserialize (format : Format) (x : Parsed) : Option Network := do
  let es ← entries format Network.fields x
  let id ← (field .missing "id" es).bind deserializeId
  let name ← (field .missing "name" es).bind deserializeString
  let serverHost ← (field .missing "server_host" es).bind deserializeString
  let ipv4Prefix ← (field .missing "ipv4_prefix" es).bind deserializeString
  let ipv6Prefix ← (field .missing "ipv6_prefix" es).bind deserializeString
  let noiseKeyId ← (field .missing "noise_key_id" es).bind deserializeString
  let policy ← (field .missing "policy" es).bind deserializeOption
  let createdAt ← (field .missing "created_at" es).bind deserializeString
  return ⟨⟨id⟩, name, serverHost, ipv4Prefix, ipv6Prefix, noiseKeyId, policy, createdAt⟩

def User.fields : List String := ["id", "network_id", "login_name", "display_name"]

/-- No field of a user may be missing. -/
def User.deserialize (format : Format) (x : Parsed) : Option User := do
  let es ← entries format User.fields x
  let id ← (field .missing "id" es).bind deserializeId
  let networkId ← (field .missing "network_id" es).bind deserializeId
  let loginName ← (field .missing "login_name" es).bind deserializeString
  let displayName ← (field .missing "display_name" es).bind deserializeString
  return ⟨⟨id⟩, ⟨networkId⟩, loginName, displayName⟩

def Node.fields : List String :=
  ["id", "network_id", "user_id", "machine_key", "node_key", "disco_key", "ipv4", "ipv6", "tags"]

/-- The addresses may be missing, the tags may not. -/
def Node.deserialize (format : Format) (x : Parsed) : Option Node := do
  let es ← entries format Node.fields x
  let id ← (field .missing "id" es).bind deserializeId
  let networkId ← (field .missing "network_id" es).bind deserializeId
  let userId ← (field .missing "user_id" es).bind deserializeId
  let machineKey ← (field .missing "machine_key" es).bind deserializeString
  let nodeKey ← (field .missing "node_key" es).bind deserializeString
  let discoKey ← (field .missing "disco_key" es).bind deserializeString
  let ipv4 ← (field .missing "ipv4" es).bind deserializeOption
  let ipv6 ← (field .missing "ipv6" es).bind deserializeOption
  let tags ← (field .missing "tags" es).bind (deserializeList deserializeString)
  return ⟨⟨id⟩, ⟨networkId⟩, ⟨userId⟩, machineKey, nodeKey, discoKey, ipv4, ipv6, tags⟩

def PreAuthKey.fields : List String :=
  ["id", "network_id", "prefix", "secret_hash", "reusable", "ephemeral", "used", "expires_at",
   "tags"]

/-- The expiry may be missing, the three flags may not. -/
def PreAuthKey.deserialize (format : Format) (x : Parsed) : Option PreAuthKey := do
  let es ← entries format PreAuthKey.fields x
  let id ← (field .missing "id" es).bind deserializeId
  let networkId ← (field .missing "network_id" es).bind deserializeId
  let keyPrefix ← (field .missing "prefix" es).bind deserializeString
  let secretHash ← (field .missing "secret_hash" es).bind deserializeString
  let reusable ← (field .missing "reusable" es).bind deserializeBool
  let ephemeral ← (field .missing "ephemeral" es).bind deserializeBool
  let used ← (field .missing "used" es).bind deserializeBool
  let expiresAt ← (field .missing "expires_at" es).bind deserializeOption
  let tags ← (field .missing "tags" es).bind (deserializeList deserializeString)
  return ⟨⟨id⟩, ⟨networkId⟩, keyPrefix, secretHash, reusable, ephemeral, used, expiresAt, tags⟩

/-- An array of the fields is a record too, and of a plain scalar YAML takes the
text. -/
example : User.deserialize .json (.seq [.scalar (.int 7) none, .scalar (.int 1) none,
      .str "ann", .str "Ann"]) = some ⟨⟨7⟩, ⟨1⟩, "ann", "Ann"⟩ ∧
    deserializeString (.plain .yaml (.int 123)) = some "123" ∧
    deserializeString (.plain .json (.int 123)) = none := by decide

/-- How a format reads the key of a policy: JSON from a decimal string without
leading zeros, YAML from a number, and TOML, whose keys are strings, not at
all. -/
def deserializeKey : Format → Key → Option NetworkId
  | .json, .str s =>
    match Flow.readNat s.toList with
    | some (n, []) =>
      if Nat.toDigits 10 n = s.toList ∧ n < 2 ^ 64 then some ⟨UInt64.ofNat n⟩ else none
    | _ => none
  | .yaml, .int n => if n < 2 ^ 64 then some ⟨UInt64.ofNat n⟩ else none
  | _, _ => none

/-- A policy, under a key as the format has it. -/
def deserializeEntry (format : Format) (e : Key × Parsed) : Option (NetworkId × String) := do
  let network ← deserializeKey format e.1
  let policy ← deserializeString e.2
  return (network, policy)

/-- The entries go into the hash map one after another.  An empty map may be
left out as an empty list may. -/
def deserializePolicies (format : Format) : Parsed → Option Policies
  | .map es => do
    let es ← es.mapM (deserializeEntry format)
    return es.foldl (fun p e => p.insert e.1 e.2) ∅
  | .scalar .null (some "") => some ∅
  | _ => none

def StoreDocument.fields : List String :=
  ["version", "networks", "users", "nodes", "preauth_keys", "policies"]

/-- Any version is taken, and every field must be there. -/
def StoreDocument.deserialize (format : Format) (x : Parsed) : Option StoreDocument := do
  let es ← entries format StoreDocument.fields x
  let version ← (field .missing "version" es).bind deserializeU32
  let networks ← (field .missing "networks" es).bind (deserializeList (Network.deserialize format))
  let users ← (field .missing "users" es).bind (deserializeList (User.deserialize format))
  let nodes ← (field .missing "nodes" es).bind (deserializeList (Node.deserialize format))
  let preauthKeys ← (field .missing "preauth_keys" es).bind
    (deserializeList (PreAuthKey.deserialize format))
  let policies ← (field .missing "policies" es).bind (deserializePolicies format)
  return ⟨version, networks, users, nodes, preauthKeys, policies⟩

/-! ### The data models of the formats -/

/-- JSON has no integer keys. -/
def jsonKey : Key → Key
  | .int n => .str (String.ofList (Nat.toDigits 10 n))
  | .str s => .str s

mutual

/-- JSON: integer keys become strings. -/
def jsonValue : Value → Value
  | .null => .null
  | .bool b => .bool b
  | .int n => .int n
  | .str s => .str s
  | .seq l => .seq (jsonItems l)
  | .map es => .map (jsonEntries es)

def jsonItems : List Value → List Value
  | [] => []
  | v :: vs => jsonValue v :: jsonItems vs

def jsonEntries : List (Key × Value) → List (Key × Value)
  | [] => []
  | (k, v) :: es => (jsonKey k, jsonValue v) :: jsonEntries es

end

/-- What TOML leaves out of a table. -/
def isNull : Value → Bool
  | .null => true
  | _ => false

def isMap : Value → Bool
  | .map _ => true
  | _ => false

/-- What TOML writes as a `[table]` or as `[[tables]]`. -/
def isTable : Value → Bool
  | .map _ => true
  | .seq (v :: vs) => (v :: vs).all isMap
  | _ => false

/-- The order in which `toml` writes the entries of a table. -/
def valuesFirst (es : List (Key × Value)) : List (Key × Value) :=
  es.filter (fun e => !isTable e.2) ++ es.filter fun e => isTable e.2

mutual

/-- TOML: integers are signed, keys are strings, an entry that is null is left
out. -/
def tomlValue : Value → Except String Value
  | .null => .error "unsupported None value"
  | .bool b => .ok (.bool b)
  | .int n => if n < 2 ^ 63 then .ok (.int n) else .error "out-of-range value for u64 type"
  | .str s => .ok (.str s)
  | .seq l => (tomlItems l).map .seq
  | .map es => (tomlEntries es).map fun es => .map (valuesFirst es)

def tomlItems : List Value → Except String (List Value)
  | [] => .ok []
  | v :: vs =>
    match tomlValue v with
    | .error e => .error e
    | .ok v => (tomlItems vs).map fun vs => v :: vs

def tomlEntries : List (Key × Value) → Except String (List (Key × Value))
  | [] => .ok []
  | (.int _, _) :: _ => .error "map key was not a string"
  | (.str s, v) :: es =>
    if isNull v then tomlEntries es
    else
      match tomlValue v with
      | .error e => .error e
      | .ok v => (tomlEntries es).map fun es => (.str s, v) :: es

end

/-! ### The crates -/

/-- The iteration order of the hash map, and a writer and a reader of text for
each format.  `shapeError` is the error for a text of another shape than a
document. -/
class Crates where
  iter : Policies → List (NetworkId × String)
  nodup_iter : ∀ p, ((iter p).map Prod.fst).Nodup
  mem_iter : ∀ p net policy, (net, policy) ∈ iter p ↔ p.lookup net = some policy
  jsonPrint : Value → Bytes
  jsonParse : Bytes → Except String Parsed
  json_law : ∀ v, jsonParse (jsonPrint (jsonValue v)) = .ok (.ofValue .json (jsonValue v))
  yamlPrint : Value → String
  yamlParse : Bytes → Except String Parsed
  yaml_law : ∀ v, yamlParse (intoBytes (yamlPrint v)) = .ok (.ofValue .yaml v)
  tomlPrint : Value → String
  tomlParse : String → Except String Parsed
  toml_law : ∀ es t, tomlValue (.map es) = .ok t →
    tomlParse (tomlPrint t) = .ok (.ofValue .toml t)
  shapeError : Format → Parsed → String
  utf8Error : Bytes → String

section Crates

variable [Crates]

/-- The derived reader, with the crate's error. -/
def fromParsed (format : Format) (x : Parsed) : Except String StoreDocument :=
  match StoreDocument.deserialize format x with
  | none => .error (Crates.shapeError format x)
  | some doc => .ok doc

instance Crates.serde : Serde where
  jsonToVecPretty doc := .ok (Crates.jsonPrint (jsonValue (doc.serialize Crates.iter)))
  jsonFromSlice bytes := (Crates.jsonParse bytes).bind (fromParsed .json)
  yamlToString doc := .ok (Crates.yamlPrint (doc.serialize Crates.iter))
  yamlFromSlice bytes := (Crates.yamlParse bytes).bind (fromParsed .yaml)
  tomlToStringPretty doc := (tomlValue (doc.serialize Crates.iter)).map Crates.tomlPrint
  tomlFromStr text := (Crates.tomlParse text).bind (fromParsed .toml)
  utf8Error := Crates.utf8Error

end Crates

/-! #### Crates that write flow text -/

instance : LinearOrder NetworkId :=
  LinearOrder.lift' (fun id => id.val.toNat) fun a b h => by
    cases a
    cases b
    simpa [UInt64.toNat_inj] using h

/-- A text that was read as a value, or not at all. -/
def parsedOf (format : Format) : Option Value → Except String Parsed
  | none => .error "syntax error"
  | some v => .ok (.ofValue format v)

/-- The characters of some bytes, read as a value. -/
def parseBytes (format : Format) (read : List Char → Option Value) (bytes : Bytes) :
    Except String Parsed :=
  match fromUtf8 bytes with
  | none => .error "invalid UTF-8"
  | some text => parsedOf format (read text.toList)

def printText (v : Value) : String := String.ofList (Flow.print 0 v)

/-- A map is written as a block, one entry a line. -/
def printBlock : Value → String
  | .map (e :: es) => String.ofList (Flow.printLines ':' (e :: es))
  | v => printText v

/-- A value in flow notation, or a block. -/
def readBlock (cs : List Char) : Option Value :=
  (Flow.read cs).or ((Flow.readLines ':' cs).map .map)

/-- A table, one entry a line; nothing else is a TOML text. -/
def printTable : Value → String
  | .map es => String.ofList (Flow.printLines '=' es)
  | _ => ""

/-- What the reader of a format makes of its text is handed on. -/
theorem parseBytes_ofList {format : Format} {read : List Char → Option Value} {cs : List Char}
    {v : Value} (h : read cs = some v) :
    parseBytes format read (intoBytes (String.ofList cs)) = .ok (.ofValue format v) := by
  rw [parseBytes, fromUtf8_intoBytes]
  show parsedOf format (read (String.ofList cs).toList) = _
  rw [String.toList_ofList, h]
  rfl

/-- JSON text comes back in every format that reads it. -/
theorem parseBytes_printText (format : Format) (v : Value) :
    parseBytes format Flow.read (intoBytes (printText v)) = .ok (.ofValue format v) :=
  parseBytes_ofList (Flow.read_print v)

/-- JSON text is read as a block too. -/
theorem readBlock_print (v : Value) : readBlock (Flow.print 0 v) = some v := by
  rw [readBlock, Flow.read_print]
  rfl

theorem parseBytes_printBlock (v : Value) :
    parseBytes .yaml readBlock (intoBytes (printBlock v)) = .ok (.ofValue .yaml v) := by
  unfold printBlock
  split
  · refine parseBytes_ofList ?_
    rw [readBlock, Flow.read_printLines rfl, Flow.readLines_printLines rfl rfl]
    rfl
  · exact parseBytes_ofList (readBlock_print v)

theorem exists_tomlValue_map {es : List (Key × Value)} {t : Value}
    (h : tomlValue (.map es) = .ok t) : ∃ ts, t = .map ts := by
  rw [tomlValue] at h
  rcases hes : tomlEntries es with e | ts
  · simp [hes, Except.map] at h
  · exact ⟨valuesFirst ts, by simpa [hes, Except.map] using h.symm⟩

/-- The JSON text of `serde_json`, with bare integer keys where the format has
them.  YAML and TOML write a map as lines, with `:` and with `=` after the keys,
and the values in it as JSON; YAML reads JSON as well.  The policies come by
increasing id. -/
@[reducible] def Crates.flow : Crates where
  iter p := (p.keys.sort (· ≤ ·)).map fun net => (net, (p.lookup net).getD "")
  nodup_iter p := by
    rw [List.map_map]
    exact (List.map_id _).symm ▸ p.keys.sort_nodup _
  mem_iter p net policy := by
    rcases h : p.lookup net with - | policy'
    · have hnot : net ∉ p.keys := fun hin => Finmap.lookup_eq_none.mp h (Finmap.mem_keys.mp hin)
      simp [hnot]
    · have hmem : net ∈ p.keys := Finmap.mem_keys.mpr (Finmap.mem_of_lookup_eq_some h)
      simp [hmem, h]
  jsonPrint v := intoBytes (printText v)
  jsonParse := parseBytes .json Flow.read
  json_law v := parseBytes_printText .json _
  yamlPrint := printBlock
  yamlParse := parseBytes .yaml readBlock
  yaml_law := parseBytes_printBlock
  tomlPrint := printTable
  tomlParse text := parsedOf .toml ((Flow.readLines '=' text.toList).map .map)
  toml_law es t h := by
    obtain ⟨ts, rfl⟩ := exists_tomlValue_map h
    rw [printTable, String.toList_ofList, Flow.readLines_printLines rfl rfl]
    rfl
  shapeError _ _ := "not a document"
  utf8Error _ := "invalid utf-8 sequence"

end Oxiscale

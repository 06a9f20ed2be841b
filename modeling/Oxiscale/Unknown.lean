/-
Oxiscale/Unknown.lean

Snapshot files with data that this release does not know.

`load` takes the declared fields of a file and no notice of the others, nor
of the version, and the next flush writes the declared fields only, each in
the way this program writes it.  `left` is what a sequence of mutations leaves
of a file, going by what they replace and delete; the file they have written
contains it exactly if everything in it is known and written as this program
does it (`carried_iff`).

The invariant is `Reflects`: in every field that both have, the document in
memory and what is left of the file agree.
-/
import Oxiscale.Contents
import Oxiscale.Restart

namespace Oxiscale

open FileStore
open Flow (Key Value)

/-! ### What this release knows -/

/-- A value as this program writes it into a field. -/
structure Wrote (id : UInt64) (f : String × Kind) (v : String × Value) : Prop where
  name : f.1 = v.1
  isPlain : isPlain v.2 = true
  fits : ∀ format, isWritten format v.2 = true → f.2.fits format (.ofValue format v.2) = true
  id : v.1 = "id" → v.2 = serializeId id

section Wrote

variable {id : UInt64} {name : String}

theorem wrote_id : Wrote id ("id", .number) ("id", serializeId id) :=
  ⟨rfl, rfl, fun _ _ => rfl, fun _ => rfl⟩

theorem wrote_number (hname : name ≠ "id") (n : UInt64) :
    Wrote id (name, .number) (name, serializeId n) :=
  ⟨rfl, rfl, fun _ _ => rfl, fun h => absurd h hname⟩

theorem wrote_flag (hname : name ≠ "id") (b : Bool) :
    Wrote id (name, .flag) (name, .bool b) :=
  ⟨rfl, rfl, fun _ _ => rfl, fun h => absurd h hname⟩

theorem wrote_text (hname : name ≠ "id") (s : String) :
    Wrote id (name, .text) (name, .str s) :=
  ⟨rfl, rfl, fun _ _ => rfl, fun h => absurd h hname⟩

/-- In TOML a missing option is not written. -/
theorem wrote_option (hname : name ≠ "id") (o : Option String) :
    Wrote id (name, .option) (name, serializeOption o) := by
  refine ⟨rfl, isPlain_serializeOption o, fun format h => ?_, fun h => absurd h hname⟩
  cases o with
  | none => cases format <;> first | rfl | cases h
  | some s => rfl

theorem wrote_texts (hname : name ≠ "id") (l : List String) :
    Wrote id (name, .texts) (name, serializeStrings l) := by
  refine ⟨rfl, isPlain_serializeStrings l, fun format _ => ?_, fun h => absurd h hname⟩
  show Kind.fits format .texts (.ofValue format (.seq (l.map .str))) = true
  rw [ofValue_seq, Kind.fits, List.all_eq_true, List.map_map, List.forall_mem_map]
  exact fun _ _ => rfl

end Wrote

/-- A kind of records: the field that lists them, their fields, and how one is
written. -/
structure Aggregate (α : Type) where
  listed : String
  fields : List (String × Kind)
  id : α → UInt64
  serialize : α → Value
  law : ∀ a, ∃ vs, serialize a = record vs ∧ List.Forall₂ (Wrote (id a)) fields vs

namespace Aggregate

/-- The names of the fields, in their order. -/
def names {α : Type} (A : Aggregate α) : List String := A.fields.map Prod.fst

def networks : Aggregate Network where
  listed := "networks"
  fields := [("id", .number), ("name", .text), ("server_host", .text), ("ipv4_prefix", .text),
    ("ipv6_prefix", .text), ("noise_key_id", .text), ("policy", .option), ("created_at", .text)]
  id net := net.id.val
  serialize := Network.serialize
  law _ := ⟨_, rfl, .cons wrote_id (.cons (wrote_text (by decide) _)
    (.cons (wrote_text (by decide) _) (.cons (wrote_text (by decide) _)
    (.cons (wrote_text (by decide) _) (.cons (wrote_text (by decide) _)
    (.cons (wrote_option (by decide) _) (.cons (wrote_text (by decide) _) .nil)))))))⟩

def users : Aggregate User where
  listed := "users"
  fields := [("id", .number), ("network_id", .number), ("login_name", .text),
    ("display_name", .text)]
  id user := user.id.val
  serialize := User.serialize
  law _ := ⟨_, rfl, .cons wrote_id (.cons (wrote_number (by decide) _)
    (.cons (wrote_text (by decide) _) (.cons (wrote_text (by decide) _) .nil)))⟩

def nodes : Aggregate Node where
  listed := "nodes"
  fields := [("id", .number), ("network_id", .number), ("user_id", .number),
    ("machine_key", .text), ("node_key", .text), ("disco_key", .text), ("ipv4", .option),
    ("ipv6", .option), ("tags", .texts)]
  id node := node.id.val
  serialize := Node.serialize
  law _ := ⟨_, rfl, .cons wrote_id (.cons (wrote_number (by decide) _)
    (.cons (wrote_number (by decide) _) (.cons (wrote_text (by decide) _)
    (.cons (wrote_text (by decide) _) (.cons (wrote_text (by decide) _)
    (.cons (wrote_option (by decide) _) (.cons (wrote_option (by decide) _)
    (.cons (wrote_texts (by decide) _) .nil))))))))⟩

def preauthKeys : Aggregate PreAuthKey where
  listed := "preauth_keys"
  fields := [("id", .number), ("network_id", .number), ("prefix", .text), ("secret_hash", .text),
    ("reusable", .flag), ("ephemeral", .flag), ("used", .flag), ("expires_at", .option),
    ("tags", .texts)]
  id key := key.id.val
  serialize := PreAuthKey.serialize
  law _ := ⟨_, rfl, .cons wrote_id (.cons (wrote_number (by decide) _)
    (.cons (wrote_text (by decide) _) (.cons (wrote_text (by decide) _)
    (.cons (wrote_flag (by decide) _) (.cons (wrote_flag (by decide) _)
    (.cons (wrote_flag (by decide) _) (.cons (wrote_option (by decide) _)
    (.cons (wrote_texts (by decide) _) .nil))))))))⟩

@[simp] theorem networks_listed : networks.listed = "networks" := rfl

@[simp] theorem users_listed : users.listed = "users" := rfl

@[simp] theorem nodes_listed : nodes.listed = "nodes" := rfl

@[simp] theorem preauthKeys_listed : preauthKeys.listed = "preauth_keys" := rfl

end Aggregate

/-- The fields of a document; those of its lists are the aggregates'. -/
def documentFields : List (String × Kind) :=
  [("version", .number), ("networks", .list), ("users", .list), ("nodes", .list),
   ("preauth_keys", .list), ("policies", .table)]

/-- A map with declared fields only, each as this program writes it. -/
def Declared (format : Format) (fields : List (String × Kind)) (x : Parsed) : Prop :=
  ∃ es, x = .map es ∧ ∀ e ∈ es, ∃ f ∈ fields, e.1 = .str f.1 ∧ f.2.fits format e.2 = true

/-- What this program writes is declared.  TOML is left out, where a null stands
for what is not written. -/
theorem Aggregate.declared_serialize {α : Type} (A : Aggregate α) {format : Format}
    (h : format ≠ .toml) (a : α) : Declared format A.fields (.ofValue format (A.serialize a)) := by
  obtain ⟨vs, hser, hlaw⟩ := A.law a
  have hwritten : ∀ v, isWritten format v = true := by
    cases format with
    | toml => exact absurd rfl h
    | _ => exact fun _ => rfl
  rw [hser, ofValue_record]
  refine ⟨_, rfl, List.forall_mem_map.mpr fun v hv => ?_⟩
  obtain ⟨f, hf, hwrote⟩ := (exists_of_mem_forall₂ hlaw).2 v hv
  exact ⟨f, hf, congrArg Key.str hwrote.name.symm, hwrote.fits format (hwritten v.2)⟩

/-- The records that a file lists in one of its fields. -/
def recordsOf (name : String) (x : Parsed) : List Parsed :=
  match lookup StoreDocument.fields name x with
  | some (.seq l) => l
  | _ => []

/-- The policies of a file, in its order. -/
def policiesOf (x : Parsed) : List (Key × Parsed) :=
  match lookup StoreDocument.fields "policies" x with
  | some (.map ps) => ps
  | _ => []

/-- Only declared fields, each as this program writes it, and no network with
two policies. -/
structure Understood (format : Format) (x : Parsed) : Prop where
  document : Declared format documentFields x
  networks : ∀ r ∈ recordsOf "networks" x, Declared format Aggregate.networks.fields r
  users : ∀ r ∈ recordsOf "users" x, Declared format Aggregate.users.fields r
  nodes : ∀ r ∈ recordsOf "nodes" x, Declared format Aggregate.nodes.fields r
  preauthKeys : ∀ r ∈ recordsOf "preauth_keys" x, Declared format Aggregate.preauthKeys.fields r
  texts : ∀ e ∈ policiesOf x, isText e.2 = true
  policies : ∀ e ∈ policiesOf x, ∀ e' ∈ policiesOf x, e.1 = e'.1 → e.2 = e'.2

/-! ### What mutations leave of a file -/

/-- The id of a record with these fields. -/
def recordId (names : List String) (x : Parsed) : Option UInt64 :=
  (lookup names "id" x).bind deserializeId

/-- A record that was replaced: only the id is as it was. -/
def replaced (id : UInt64) : Parsed := .map [(.str "id", .scalar (.int id.toNat) none)]

def editItems (f : List Parsed → List Parsed) : Parsed → Parsed
  | .seq l => .seq (f l)
  | x => x

def editEntries (f : List (Key × Parsed) → List (Key × Parsed)) : Parsed → Parsed
  | .map es => .map (f es)
  | x => x

/-- The `used` of a key that does not serve many times is replaced.  A key that
is written as an array has no entry to take out. -/
def withoutUsed (x : Parsed) : Parsed :=
  match lookup PreAuthKey.fields "reusable" x with
  | some (.scalar (.bool true) _) => x
  | _ => editEntries (List.filter fun e => e.1 ≠ .str "used") x

/-- What a mutation with its reply leaves: a record with the id of an upserted
one is replaced, or there is a new one. -/
def leave (format : Format) (x : Parsed) : Mutation × Reply → Parsed
  | (.upsertNetwork net, _) => editField StoreDocument.fields "networks"
      (editItems (Keyed.put (recordId Network.fields) (replaced net.id.val))) x
  | (.upsertUser user, _) => editField StoreDocument.fields "users"
      (editItems (Keyed.put (recordId User.fields) (replaced user.id.val))) x
  | (.upsertNode node, _) => editField StoreDocument.fields "nodes"
      (editItems (Keyed.put (recordId Node.fields) (replaced node.id.val))) x
  | (.deleteNode id, _) => editField StoreDocument.fields "nodes"
      (editItems (Keyed.erase (recordId Node.fields) (some id.val))) x
  | (.upsertPreauthKey key, _) => editField StoreDocument.fields "preauth_keys"
      (editItems (Keyed.put (recordId PreAuthKey.fields) (replaced key.id.val))) x
  | (.consumePreauthKey id, .consumed true) => editField StoreDocument.fields "preauth_keys"
      (editItems (Keyed.modify (recordId PreAuthKey.fields) (some id.val) withoutUsed)) x
  | (.consumePreauthKey _, _) => x
  | (.setPolicy network _, _) => editField StoreDocument.fields "policies"
      (editEntries (List.filter fun e => deserializeKey format e.1 ≠ some network)) x

/-- What a sequence of mutations leaves. -/
def left (format : Format) (x : Parsed) (calls : List (Mutation × Reply)) : Parsed :=
  calls.foldl (leave format) x

/-! ### Records and what is known of them -/

/-- A field says what it was read as, if it is written as this program does. -/
def Agrees (format : Format) (es : List (Key × Parsed)) (f : String × Kind) (v : String × Value) :
    Prop :=
  f.1 = v.1 ∧ ∀ x, (.str f.1, x) ∈ es → f.2.fits format x = true →
    Survives x (.ofValue format v.2)

/-- The record in memory has the id of the one in the file, and where that is
a map it says what the map says, in the fields that both have. -/
structure Mirrors {α : Type} (format : Format) (A : Aggregate α) (x : Parsed) (a : α) : Prop where
  id : recordId A.names x = some (A.id a)
  agree : ∀ es, x = .map es → ∀ vs, A.serialize a = record vs →
    List.Forall₂ (Agrees format es) A.fields vs

section Records

variable {α : Type} {A : Aggregate α} {format : Format} {x y : Parsed} {a : α} {name : String}
  {es es' : List (Key × Parsed)}

theorem record_inj {vs vs' : List (String × Value)} (h : record vs = record vs') : vs = vs' := by
  have hentry : Function.Injective fun v : String × Value => (Key.str v.1, v.2) := by
    intro v v' heq
    obtain ⟨hname, hvalue⟩ := Prod.mk.inj heq
    exact Prod.ext (Key.str.inj hname) hvalue
  exact hentry.list_map (Value.map.inj h)

/-- What a field was read as is what it says. -/
theorem agrees_of_field {β : Type} {read : Parsed → Option β} {b : β} {kind : Kind} {v : Value}
    (h : ∃ y, field .missing name es = some y ∧ read y = some b)
    (hread : ∀ {y}, read y = some b → kind.fits format y = true →
      Survives y (.ofValue format v)) : Agrees format es (name, kind) (name, v) := by
  obtain ⟨y, hy, hb⟩ := h
  refine ⟨rfl, fun x hx hfits => ?_⟩
  obtain rfl := (field_eq_some hy).2 x hx
  exact hread hb hfits

theorem agrees_of_id {id : UInt64}
    (h : ∃ y, field .missing name es = some y ∧ deserializeId y = some id) :
    Agrees format es (name, .number) (name, serializeId id) :=
  agrees_of_field h fun hid _ => survives_of_deserializeId hid

theorem agrees_of_text {s : String}
    (h : ∃ y, field .missing name es = some y ∧ deserializeString y = some s) :
    Agrees format es (name, .text) (name, .str s) :=
  agrees_of_field h survives_of_deserializeString

theorem agrees_of_flag {b : Bool}
    (h : ∃ y, field .missing name es = some y ∧ deserializeBool y = some b) :
    Agrees format es (name, .flag) (name, .bool b) :=
  agrees_of_field h fun hb _ => survives_of_deserializeBool hb

/-- An optional text that was read is written as it was, `null` where it was
absent. -/
theorem agrees_of_option {o : Option String}
    (h : ∃ y, field .missing name es = some y ∧ deserializeOption y = some o) :
    Agrees format es (name, .option) (name, serializeOption o) :=
  agrees_of_field h survives_of_deserializeOption

theorem agrees_of_texts {l : List String}
    (h : ∃ y, field .missing name es = some y ∧ deserializeList deserializeString y = some l) :
    Agrees format es (name, .texts) (name, serializeStrings l) :=
  agrees_of_field h survives_of_deserializeStrings

/-- Fewer entries say less. -/
theorem Agrees.mono {f : String × Kind} {v : String × Value} (h : Agrees format es f v)
    (hsub : es' ⊆ es) : Agrees format es' f v :=
  ⟨h.1, fun x hx => h.2 x (hsub hx)⟩

/-! #### Reading -/

/-- Fields that agree one by one make a record that mirrors. -/
theorem Mirrors.of_entries (hes : entries format A.names x = some es)
    (hid : ∃ y, field .missing "id" es = some y ∧ deserializeId y = some (A.id a))
    (hagree : ∀ vs, A.serialize a = record vs → List.Forall₂ (Agrees format es) A.fields vs) :
    Mirrors format A x a := by
  obtain ⟨hfields, hshape⟩ := fieldsOf_of_entries hes
  refine ⟨?_, fun es' hx => ?_⟩
  · rw [recordId, lookup, ← hfields]
    exact Option.bind_eq_some_iff.mpr hid
  · rcases hshape with ⟨l, rfl⟩ | rfl
    · cases hx
    · obtain rfl := Parsed.map.inj hx
      exact hagree

/-- A network is written with the fields it was read from. -/
theorem mirrors_network {net : Network} (h : Network.deserialize format x = some net) :
    Mirrors format .networks x net := by
  simp only [Network.deserialize, Option.bind_eq_bind, Option.bind_eq_some_iff] at h
  obtain ⟨es, hes, id, hid, name, hname, host, hhost, ipv4, hipv4, ipv6, hipv6, noise, hnoise,
    policy, hpolicy, created, hcreated, heq⟩ := h
  obtain rfl := Option.some.inj heq
  apply Mirrors.of_entries hes hid
  intro vs hvs
  obtain rfl := record_inj hvs
  exact .cons (agrees_of_id hid) (.cons (agrees_of_text hname) (.cons (agrees_of_text hhost)
    (.cons (agrees_of_text hipv4) (.cons (agrees_of_text hipv6) (.cons (agrees_of_text hnoise)
    (.cons (agrees_of_option hpolicy) (.cons (agrees_of_text hcreated) .nil)))))))

theorem mirrors_user {user : User} (h : User.deserialize format x = some user) :
    Mirrors format .users x user := by
  simp only [User.deserialize, Option.bind_eq_bind, Option.bind_eq_some_iff] at h
  obtain ⟨es, hes, id, hid, network, hnetwork, login, hlogin, display, hdisplay, heq⟩ := h
  obtain rfl := Option.some.inj heq
  apply Mirrors.of_entries hes hid
  intro vs hvs
  obtain rfl := record_inj hvs
  exact .cons (agrees_of_id hid) (.cons (agrees_of_id hnetwork) (.cons (agrees_of_text hlogin)
    (.cons (agrees_of_text hdisplay) .nil)))

theorem mirrors_node {node : Node} (h : Node.deserialize format x = some node) :
    Mirrors format .nodes x node := by
  simp only [Node.deserialize, Option.bind_eq_bind, Option.bind_eq_some_iff] at h
  obtain ⟨es, hes, id, hid, network, hnetwork, user, huser, machine, hmachine, key, hkey, disco,
    hdisco, ipv4, hipv4, ipv6, hipv6, tags, htags, heq⟩ := h
  obtain rfl := Option.some.inj heq
  apply Mirrors.of_entries hes hid
  intro vs hvs
  obtain rfl := record_inj hvs
  exact .cons (agrees_of_id hid) (.cons (agrees_of_id hnetwork) (.cons (agrees_of_id huser)
    (.cons (agrees_of_text hmachine) (.cons (agrees_of_text hkey) (.cons (agrees_of_text hdisco)
    (.cons (agrees_of_option hipv4) (.cons (agrees_of_option hipv6)
    (.cons (agrees_of_texts htags) .nil))))))))

theorem mirrors_preauthKey {key : PreAuthKey} (h : PreAuthKey.deserialize format x = some key) :
    Mirrors format .preauthKeys x key := by
  simp only [PreAuthKey.deserialize, Option.bind_eq_bind, Option.bind_eq_some_iff] at h
  obtain ⟨es, hes, id, hid, network, hnetwork, shown, hshown, hash, hhash, reusable, hreusable,
    ephemeral, hephemeral, used, hused, expires, hexpires, tags, htags, heq⟩ := h
  obtain rfl := Option.some.inj heq
  apply Mirrors.of_entries hes hid
  intro vs hvs
  obtain rfl := record_inj hvs
  exact .cons (agrees_of_id hid) (.cons (agrees_of_id hnetwork) (.cons (agrees_of_text hshown)
    (.cons (agrees_of_text hhash) (.cons (agrees_of_flag hreusable)
    (.cons (agrees_of_flag hephemeral) (.cons (agrees_of_flag hused)
    (.cons (agrees_of_option hexpires) (.cons (agrees_of_texts htags) .nil))))))))

/-! #### Changing -/

variable {l : List Parsed} {as : List α}

/-- A replaced record says no more than its id. -/
theorem mirrors_replaced (format : Format) (A : Aggregate α) (a : α) :
    Mirrors format A (replaced (A.id a)) a := by
  refine ⟨?_, fun es hes vs hvs => ?_⟩
  · simp [recordId, lookup, replaced, fieldsOf, field, named, deserializeId, (A.id a).toNat_lt]
  · obtain ⟨vs', hser, hlaw⟩ := A.law a
    obtain rfl := record_inj (hser.symm.trans hvs)
    obtain rfl := Parsed.map.inj hes
    refine hlaw.imp fun f v hwrote => ⟨hwrote.name, fun x hx _ => ?_⟩
    obtain ⟨hname, rfl⟩ := Prod.mk.inj (List.mem_singleton.mp hx)
    rw [hwrote.id (hwrote.name.symm.trans (Key.str.inj hname)), survives_scalar]
    exact ⟨_, rfl⟩

theorem forall₂_put {κ : Type} [DecidableEq κ] {key : α → κ}
    (hkey : ∀ a a', A.id a = A.id a' ↔ key a = key a') (h : List.Forall₂ (Mirrors format A) l as)
    (a : α) : List.Forall₂ (Mirrors format A)
      (Keyed.put (recordId A.names) (replaced (A.id a)) l) (Keyed.put key a as) := by
  refine Keyed.forall₂_put h (mirrors_replaced format A a) fun b a' hb => ?_
  rw [hb.id, (mirrors_replaced format A a).id, Option.some.injEq]
  exact hkey a' a

/-- The fields of a key of which `used` was set. -/
def setUsed (v : String × Value) : String × Value :=
  if v.1 = "used" then (v.1, .bool true) else v

/-- Marking a key used changes the one field. -/
theorem serialize_markUsed (key : PreAuthKey) : ∃ vs, key.serialize = record vs ∧
    (MemoryStore.markUsed key).serialize = record (vs.map setUsed) :=
  ⟨_, rfl, by simp [PreAuthKey.serialize, MemoryStore.markUsed, setUsed]⟩

/-- Without its `used` a record agrees with the consumed key. -/
theorem forall₂_withoutUsed {fields : List (String × Kind)} {vs : List (String × Value)}
    (h : List.Forall₂ (Agrees format es) fields vs) :
    List.Forall₂ (Agrees format (es.filter fun e => e.1 ≠ .str "used")) fields
      (vs.map setUsed) := by
  rw [List.forall₂_map_right_iff]
  refine h.imp fun f v hfv => ?_
  obtain ⟨hname, hagree⟩ := hfv
  unfold setUsed
  by_cases hused : v.1 = "used"
  · rw [if_pos hused]
    refine ⟨hname, fun x hx _ => ?_⟩
    simp [hname, hused] at hx
  · rw [if_neg hused]
    exact ⟨hname, fun x hx => hagree x (List.mem_filter.mp hx).1⟩

theorem recordId_withoutUsed (x : Parsed) :
    recordId PreAuthKey.fields (withoutUsed x) = recordId PreAuthKey.fields x := by
  unfold withoutUsed
  split
  · rfl
  · cases x with
    | map es =>
        have hnamed : named "id" (es.filter fun e => e.1 ≠ .str "used") = named "id" es := by
          rw [named, named, List.filter_filter]
          refine List.filter_congr fun e _ => ?_
          by_cases he : e.1 = .str "id" <;> simp [he]
        show (field .missing "id" (es.filter fun e => e.1 ≠ .str "used")).bind deserializeId =
          (field .missing "id" es).bind deserializeId
        rw [field, hnamed, field]
    | _ => rfl

/-- A key that serves many times is left whole, and others without their
`used`. -/
theorem withoutUsed_cases (x : Parsed) :
    ((∃ text, lookup PreAuthKey.fields "reusable" x = some (.scalar (.bool true) text)) ∧
      withoutUsed x = x) ∨
    withoutUsed x = editEntries (List.filter fun e => e.1 ≠ .str "used") x := by
  unfold withoutUsed
  split
  · rename_i text hlookup
    exact Or.inl ⟨⟨text, hlookup⟩, rfl⟩
  · exact Or.inr rfl

/-- A key that serves many times in the file does so in memory. -/
theorem Mirrors.reusable {key : PreAuthKey} {text : Option String}
    (h : Mirrors format .preauthKeys (.map es) key)
    (hlookup : lookup PreAuthKey.fields "reusable" (.map es) = some (.scalar (.bool true) text)) :
    key.reusable = true := by
  have hmem := (lookup_eq_some hlookup (by simp [Parsed.missing])).1
  have hagree := h.agree es rfl _ rfl
  simp only [Aggregate.preauthKeys, List.forall₂_cons] at hagree
  have hflag : Agrees format es ("reusable", .flag) ("reusable", .bool key.reusable) :=
    hagree.2.2.2.2.1
  have hsame := hflag.2 _ hmem rfl
  rw [survives_scalar] at hsame
  obtain ⟨text', heq⟩ := hsame
  injection heq with hscalar
  exact Scalar.bool.inj hscalar

/-- Without its `used` a record agrees with the redeemed key. -/
theorem forall₂_redeem {fields : List (String × Kind)} {key : PreAuthKey}
    (h : ∀ vs, key.serialize = record vs → List.Forall₂ (Agrees format es) fields vs) :
    ∀ vs, (MemoryStore.redeem key).serialize = record vs →
      List.Forall₂ (Agrees format (es.filter fun e => e.1 ≠ .str "used")) fields vs := by
  intro vs hvs
  obtain ⟨ks, hks, hmarked⟩ := serialize_markUsed key
  unfold MemoryStore.redeem at hvs
  split at hvs
  · exact (h vs hvs).imp fun _ _ hfv => hfv.mono (List.filter_subset_self _)
  · obtain rfl := record_inj (hmarked.symm.trans hvs)
    exact forall₂_withoutUsed (h ks hks)

/-- What is left of a key mirrors the consumed key. -/
theorem Mirrors.withoutUsed {key : PreAuthKey} (h : Mirrors format .preauthKeys x key) :
    Mirrors format .preauthKeys (withoutUsed x) (MemoryStore.redeem key) := by
  have hid : recordId PreAuthKey.fields x = some key.id.val := h.id
  refine ⟨?_, fun es hes => ?_⟩
  · show recordId PreAuthKey.fields _ = some (MemoryStore.redeem key).id.val
    rw [recordId_withoutUsed, hid, MemoryStore.redeem_id]
  · rcases withoutUsed_cases x with ⟨⟨text, hlookup⟩, hwhole⟩ | hleft
    · rw [hwhole] at hes
      subst hes
      rw [MemoryStore.redeem, if_pos (h.reusable hlookup)]
      exact h.agree es rfl
    · rw [hleft] at hes
      cases x with
      | map xs =>
          obtain rfl := Parsed.map.inj hes
          exact forall₂_redeem (h.agree xs rfl)
      | _ => cases hes

/-! #### Writing -/

/-- **Writing a record.**  It is written with everything that is left of it
exactly if that is all declared. -/
theorem Mirrors.survives_iff (h : Mirrors format A x a)
    (htakes : format = .toml → TomlTakes (A.serialize a)) :
    Survives x (.ofValue format (savedValue format (A.serialize a))) ↔
      Declared format A.fields x := by
  obtain ⟨vs, hser, hlaw⟩ := A.law a
  rw [hser] at htakes
  obtain ⟨ws, hws, hmem⟩ := savedValue_record htakes
  have hsaved : ∀ v ∈ vs, savedValue format v.2 = v.2 := by
    intro v hv
    obtain ⟨f, -, hwrote⟩ := (exists_of_mem_forall₂ hlaw).2 v hv
    exact savedValue_of_isPlain hwrote.isPlain fun ht => tomlTakes_record.mp (htakes ht) v hv
  rw [hser, hws]
  constructor
  · intro hsurvives
    obtain ⟨es, rfl⟩ := (survives_shape hsurvives).1 _ (ofValue_map ws)
    refine ⟨es, rfl, fun e he => ?_⟩
    obtain ⟨u, hu, heu⟩ := survives_ofValue_map.mp hsurvives e he
    obtain ⟨v, hv, hwritten, hkey, rfl⟩ := (hmem _ _).mp hu
    obtain ⟨f, hf, hwrote⟩ := (exists_of_mem_forall₂ hlaw).2 v hv
    rw [hsaved v hv] at heu
    exact ⟨f, hf, hwrote.name ▸ hkey, Kind.fits_of_survives heu (hwrote.fits format hwritten)⟩
  · rintro ⟨es, rfl, hdeclared⟩
    refine survives_ofValue_map.mpr fun e he => ?_
    obtain ⟨f, hf, hkey, hfits⟩ := hdeclared e he
    -- a declared field has been read into the record
    obtain ⟨v, hv, hname, hagree⟩ := (exists_of_mem_forall₂ (h.agree es rfl vs hser)).1 f hf
    have hsurvives : Survives e.2 (.ofValue format v.2) := hagree e.2 (hkey ▸ he) hfits
    have hwritten : isWritten format v.2 = true := by
      cases format with
      | toml =>
          rcases hnull : isNull v.2 with - | -
          · rw [isWritten, hnull]
            rfl
          · rw [eq_null_of_isNull hnull] at hsurvives
            obtain ⟨text, htext⟩ := (survives_shape hsurvives).2.2.2 _ _ rfl
            rw [htext, Kind.fits_toml_null] at hfits
            cases hfits
      | _ => rfl
    refine ⟨v.2, (hmem _ _).mpr ⟨v, hv, hwritten, hname ▸ hkey, (hsaved v hv).symm⟩, hsurvives⟩

/-- A list of records survives exactly if every record is declared. -/
theorem survives_iff_of_forall₂ (h : List.Forall₂ (Mirrors format A) l as)
    (htakes : format = .toml → TomlTakes (.seq (as.map A.serialize))) :
    Survives (.seq l) (.ofValue format (savedValue format (.seq (as.map A.serialize)))) ↔
      ∀ r ∈ l, Declared format A.fields r := by
  obtain ⟨hsaved, hall⟩ := savedValue_seq_map htakes
  rw [hsaved, ofValue_seq, survives_seq, List.map_map, List.forall₂_map_right_iff]
  clear hsaved htakes
  induction h with
  | nil => simp
  | cons hxa _ ih =>
      obtain ⟨ha, has⟩ := List.forall_mem_cons.mp hall
      rw [List.forall₂_cons, ih has, List.forall_mem_cons]
      exact and_congr_left fun _ => hxa.survives_iff ha

end Records

/-! ### Documents and what is known of them -/

/-- The records in memory mirror those in the file, one by one, unless the file
has no list there. -/
def Lists {α : Type} (format : Format) (A : Aggregate α) (x : Parsed) (as : List α) : Prop :=
  ∃ y, lookup StoreDocument.fields A.listed x = some y ∧ y ≠ .missing ∧
    ∀ l, y = .seq l → List.Forall₂ (Mirrors format A) l as

/-- The policy in memory is one of those that the file has for the network. -/
def ListsPolicies (format : Format) (x : Parsed) (policies : Policies) : Prop :=
  ∃ y, lookup StoreDocument.fields "policies" x = some y ∧ y ≠ .missing ∧
    ∀ ps, y = .map ps → ∀ e ∈ ps, ∃ network, deserializeKey format e.1 = some network ∧
      ∃ e' ∈ ps, ∃ text, deserializeKey format e'.1 = some network ∧
        deserializeString e'.2 = some text ∧ policies.lookup network = some text

/-- What is left of the file and the document in memory agree, field by field. -/
structure Reflects (format : Format) (x : Parsed) (doc : StoreDocument) : Prop where
  version : ∃ y, lookup StoreDocument.fields "version" x = some y ∧ y ≠ .missing ∧
    Survives y (.ofValue format (.int doc.version.toNat))
  networks : Lists format .networks x doc.networks
  users : Lists format .users x doc.users
  nodes : Lists format .nodes x doc.nodes
  preauthKeys : Lists format .preauthKeys x doc.preauthKeys
  policies : ListsPolicies format x doc.policies

section Reflects

variable {format : Format} {x : Parsed} {doc : StoreDocument}

/-! #### Reading -/

/-- A field that was read as a list lists what was read. -/
theorem lists_of_field {α : Type} {A : Aggregate α} {read : Parsed → Option α} {as : List α}
    (h : ∃ y, field .missing A.listed (fieldsOf StoreDocument.fields x) = some y ∧
      deserializeList read y = some as)
    (hread : ∀ {y a}, read y = some a → Mirrors format A y a) : Lists format A x as := by
  obtain ⟨y, hy, hlist⟩ := h
  obtain ⟨hmissing, hall⟩ := forall₂_of_deserializeList hlist
  exact ⟨y, hy, hmissing, fun l hl => (hall l hl).imp fun _ _ => hread⟩

/-- Policies are read one entry after another, later ones replacing earlier
ones. -/
theorem listsPolicies_of_field {policies : Policies}
    (h : ∃ y, field .missing "policies" (fieldsOf StoreDocument.fields x) = some y ∧
      deserializePolicies format y = some policies) : ListsPolicies format x policies := by
  obtain ⟨y, hy, hread⟩ := h
  refine ⟨y, hy, ?_, ?_⟩
  · rintro rfl
    cases hread
  · rintro ps rfl
    simp only [deserializePolicies, Option.bind_eq_bind, Option.bind_eq_some_iff] at hread
    obtain ⟨ts, hts, heq⟩ := hread
    obtain rfl := Option.some.inj heq
    obtain ⟨hleft, hright⟩ := exists_of_mem_forall₂ (mapM_eq_some_iff.mp hts)
    have hentry : ∀ {e t}, deserializeEntry format e = some t →
        deserializeKey format e.1 = some t.1 ∧ deserializeString e.2 = some t.2 := by
      intro e t he
      simp only [deserializeEntry, Option.bind_eq_bind, Option.bind_eq_some_iff] at he
      obtain ⟨network, hnetwork, text, htext, heq⟩ := he
      rw [← Option.some.inj heq]
      exact ⟨hnetwork, htext⟩
    intro e he
    obtain ⟨t, ht, hread⟩ := hleft e he
    -- the map has the policy of an entry, which need not be this one
    obtain ⟨text, hmem, hlookup⟩ := lookup_foldl_insert_mem ∅ (List.mem_map_of_mem ht)
    obtain ⟨e', he', hread'⟩ := hright _ hmem
    exact ⟨t.1, (hentry hread).1, e', he', text, (hentry hread').1, (hentry hread').2, hlookup⟩

/-- **Reading.**  A document reflects the file it was read from. -/
theorem reflects_of_deserialize (h : StoreDocument.deserialize format x = some doc) :
    Reflects format x doc := by
  simp only [StoreDocument.deserialize, Option.bind_eq_bind, Option.bind_eq_some_iff] at h
  obtain ⟨es, hes, version, hversion, networks, hnetworks, users, husers, nodes, hnodes, keys,
    hkeys, policies, hpolicies, heq⟩ := h
  obtain ⟨rfl, -⟩ := fieldsOf_of_entries hes
  obtain rfl := Option.some.inj heq
  refine ⟨?_, lists_of_field hnetworks mirrors_network, lists_of_field husers mirrors_user,
    lists_of_field hnodes mirrors_node, lists_of_field hkeys mirrors_preauthKey,
    listsPolicies_of_field hpolicies⟩
  obtain ⟨y, hy, hread⟩ := hversion
  refine ⟨y, hy, ?_, survives_of_deserializeU32 hread⟩
  rintro rfl
  cases hread

/-! #### Changing -/

variable {α : Type} {A : Aggregate α} {as as' : List α} {name : String} {f : Parsed → Parsed}
  {policies : Policies}

theorem Lists.of_ne (h : Lists format A x as) (hne : A.listed ≠ name) :
    Lists format A (editField StoreDocument.fields name f x) as := by
  obtain ⟨y, hy, hall⟩ := h
  exact ⟨y, by rw [lookup_editField_of_ne hne, hy], hall⟩

/-- Editing another field leaves the policies. -/
theorem ListsPolicies.of_ne (h : ListsPolicies format x policies) (hne : "policies" ≠ name) :
    ListsPolicies format (editField StoreDocument.fields name f x) policies := by
  obtain ⟨y, hy, hall⟩ := h
  exact ⟨y, by rw [lookup_editField_of_ne hne, hy], hall⟩

/-- An edit of the records in the file and one of those in memory, side by
side. -/
theorem Lists.edit {g : List Parsed → List Parsed} (h : Lists format A x as)
    (hg : ∀ l, List.Forall₂ (Mirrors format A) l as → List.Forall₂ (Mirrors format A) (g l) as') :
    Lists format A (editField StoreDocument.fields A.listed (editItems g) x) as' := by
  obtain ⟨y, hy, hmissing, hall⟩ := h
  refine ⟨editItems g y, lookup_editField_self hy hmissing, ?_⟩
  -- what is no list stays what it is
  cases y with
  | seq l =>
      refine ⟨by simp [editItems, Parsed.missing], fun l' hl' => ?_⟩
      obtain rfl := Parsed.seq.inj hl'
      exact hg l (hall l rfl)
  | _ => exact ⟨hmissing, fun l hl => by cases hl⟩

/-- An upsert leaves all records but the one it replaces. -/
theorem Lists.put {κ : Type} [DecidableEq κ] {key : α → κ} (h : Lists format A x as)
    (hkey : ∀ a a', A.id a = A.id a' ↔ key a = key a') (a : α) :
    Lists format A (editField StoreDocument.fields A.listed
      (editItems (Keyed.put (recordId A.names) (replaced (A.id a)))) x) (Keyed.put key a as) :=
  h.edit fun _ hl => forall₂_put hkey hl a

/-- Setting a policy leaves those of the other networks. -/
theorem ListsPolicies.set (h : ListsPolicies format x policies) (network : NetworkId)
    (policy : String) : ListsPolicies format (editField StoreDocument.fields "policies"
      (editEntries (List.filter fun e => deserializeKey format e.1 ≠ some network)) x)
      (policies.insert network policy) := by
  obtain ⟨y, hy, hmissing, hall⟩ := h
  refine ⟨_, lookup_editField_self hy hmissing, ?_⟩
  cases y with
  | map ps =>
      refine ⟨by simp [editEntries, Parsed.missing], fun ps' hps' e he => ?_⟩
      obtain rfl := Parsed.map.inj hps'
      obtain ⟨hmem, hne⟩ := List.mem_filter.mp he
      obtain ⟨network', hkey, e', he', text, hkey', htext, hlookup⟩ := hall ps rfl e hmem
      have hother : network' ≠ network := by
        rintro rfl
        simp [hkey] at hne
      refine ⟨network', hkey, e', List.mem_filter.mpr ⟨he', ?_⟩, text, hkey', htext, ?_⟩
      · simpa [hkey'] using hother
      · rw [Finmap.lookup_insert_of_ne _ hother, hlookup]
  | _ => exact ⟨hmissing, fun ps hps => by cases hps⟩

/-- **Step.**  A mutation in memory leaves the file as `leave` says. -/
theorem Reflects.leave [Chrono] (h : Reflects format x doc) (now : Instant) (m : Mutation) :
    Reflects format (leave format x (m, (MemoryStore.mutate now doc m).1))
      (MemoryStore.mutate now doc m).2 := by
  have hversion : ∀ {name f}, "version" ≠ name → ∃ y,
      lookup StoreDocument.fields "version" (editField StoreDocument.fields name f x) = some y ∧
        y ≠ .missing ∧ Survives y (.ofValue format (.int doc.version.toNat)) := by
    intro name f hne
    rw [lookup_editField_of_ne hne]
    exact h.version
  -- each mutation edits one field of the file, and the others are framed
  cases m with
  | upsertNetwork net =>
      exact ⟨hversion (by simp),
        h.networks.put (fun _ _ => ⟨congrArg NetworkId.mk, congrArg NetworkId.val⟩) net,
        h.users.of_ne (by simp), h.nodes.of_ne (by simp), h.preauthKeys.of_ne (by simp),
        h.policies.of_ne (by simp)⟩
  | upsertUser user =>
      exact ⟨hversion (by simp), h.networks.of_ne (by simp),
        h.users.put (fun _ _ => ⟨congrArg UserId.mk, congrArg UserId.val⟩) user,
        h.nodes.of_ne (by simp), h.preauthKeys.of_ne (by simp), h.policies.of_ne (by simp)⟩
  | upsertNode node =>
      exact ⟨hversion (by simp), h.networks.of_ne (by simp), h.users.of_ne (by simp),
        h.nodes.put (fun _ _ => ⟨congrArg NodeId.mk, congrArg NodeId.val⟩) node,
        h.preauthKeys.of_ne (by simp), h.policies.of_ne (by simp)⟩
  | deleteNode id =>
      have hnodes : Lists format .nodes (editField StoreDocument.fields "nodes"
          (editItems (Keyed.erase (recordId Node.fields) (some id.val))) x)
          (Keyed.erase Node.id id doc.nodes) := by
        refine h.nodes.edit fun l hl => Keyed.forall₂_erase hl fun b a hb => ?_
        have hid : recordId Node.fields b = some a.id.val := hb.id
        rw [hid, Option.some.injEq]
        exact ⟨congrArg NodeId.mk, congrArg NodeId.val⟩
      exact ⟨hversion (by simp), h.networks.of_ne (by simp), h.users.of_ne (by simp), hnodes,
        h.preauthKeys.of_ne (by simp), h.policies.of_ne (by simp)⟩
  | upsertPreauthKey key =>
      exact ⟨hversion (by simp), h.networks.of_ne (by simp), h.users.of_ne (by simp),
        h.nodes.of_ne (by simp),
        h.preauthKeys.put (fun _ _ => ⟨congrArg PreAuthKeyId.mk, congrArg PreAuthKeyId.val⟩) key,
        h.policies.of_ne (by simp)⟩
  | consumePreauthKey id =>
      show Reflects format (Oxiscale.leave format x (.consumePreauthKey id,
        .consumed (MemoryStore.consumePreauthKey now id doc).1))
        (MemoryStore.consumePreauthKey now id doc).2
      rw [MemoryStore.consumePreauthKey_snd]
      rcases (MemoryStore.consumePreauthKey now id doc).1 with - | -
      · exact h
      · have hkeys : Lists format .preauthKeys (editField StoreDocument.fields "preauth_keys"
            (editItems (Keyed.modify (recordId PreAuthKey.fields) (some id.val)
              Oxiscale.withoutUsed)) x)
            (Keyed.modify PreAuthKey.id id MemoryStore.redeem doc.preauthKeys) := by
          refine h.preauthKeys.edit fun l hl => Keyed.forall₂_modify hl (fun b a hb => ?_)
            fun b a hb _ => hb.withoutUsed
          have hid : recordId PreAuthKey.fields b = some a.id.val := hb.id
          rw [hid, Option.some.injEq]
          exact ⟨congrArg PreAuthKeyId.mk, congrArg PreAuthKeyId.val⟩
        exact ⟨hversion (by simp), h.networks.of_ne (by simp), h.users.of_ne (by simp),
          h.nodes.of_ne (by simp), hkeys, h.policies.of_ne (by simp)⟩
  | setPolicy network policy =>
      exact ⟨hversion (by simp), h.networks.of_ne (by simp), h.users.of_ne (by simp),
        h.nodes.of_ne (by simp), h.preauthKeys.of_ne (by simp), h.policies.set network policy⟩

/-! #### Writing -/

/-- The entries that a writer makes of some fields. -/
def Writes (format : Format) (fields : List (String × Value)) (ws : List (Key × Value)) : Prop :=
  ∀ k w, (k, w) ∈ ws ↔
    ∃ f ∈ fields, isWritten format f.2 = true ∧ k = .str f.1 ∧ w = savedValue format f.2

/-- A value has its field among the written ones, with everything in it. -/
def Carries (format : Format) (ws : List (Key × Value)) (name : String) (y : Parsed) : Prop :=
  ∃ u, (Key.str name, u) ∈ ws ∧ Survives y (.ofValue format u)

variable {fields : List (String × Value)} {ws : List (Key × Value)} {y : Parsed} {v : Value}

/-- A field that is there once. -/
theorem Writes.carries_iff (h : Writes format fields ws)
    (hone : ∀ z, (name, z) ∈ fields ↔ z = v) (hv : isNull v = false) :
    Carries format ws name y ↔ Survives y (.ofValue format (savedValue format v)) := by
  have hwritten : isWritten format v = true := by
    cases format with
    | toml => rw [isWritten, hv]; rfl
    | _ => rfl
  constructor
  · rintro ⟨u, hu, hy⟩
    obtain ⟨f, hf, -, hname, rfl⟩ := (h _ _).mp hu
    obtain rfl := Key.str.inj hname
    rwa [← (hone f.2).mp hf]
  · exact fun hy => ⟨_, (h _ _).mpr ⟨(name, v), (hone v).mpr rfl, hwritten, rfl, rfl⟩, hy⟩

/-- A list is carried if it is one and its records are declared. -/
theorem Lists.carries_iff (h : Lists format A x as) (hws : Writes format fields ws)
    (hone : ∀ z, (A.listed, z) ∈ fields ↔ z = .seq (as.map A.serialize))
    (htakes : format = .toml → TomlTakes (record fields)) :
    ∃ y, lookup StoreDocument.fields A.listed x = some y ∧ y ≠ .missing ∧
      (Carries format ws A.listed y ↔ Kind.list.fits format y = true ∧
        ∀ r ∈ recordsOf A.listed x, Declared format A.fields r) := by
  obtain ⟨y, hy, hmissing, hall⟩ := h
  have hlist : format = .toml → TomlTakes (.seq (as.map A.serialize)) := fun ht =>
    (tomlTakes_record.mp (htakes ht) _ ((hone _).mpr rfl)).resolve_left (by simp [isNull])
  refine ⟨y, hy, hmissing, ?_⟩
  rw [hws.carries_iff hone rfl]
  by_cases hseq : ∃ l, y = .seq l
  · obtain ⟨l, rfl⟩ := hseq
    have hrecords : recordsOf A.listed x = l := by rw [recordsOf, hy]
    rw [survives_iff_of_forall₂ (hall l rfl) hlist, hrecords]
    exact ⟨fun hdeclared => ⟨rfl, hdeclared⟩, And.right⟩
  · constructor
    · intro hsurvives
      rw [(savedValue_seq_map hlist).1, ofValue_seq] at hsurvives
      exact absurd ((survives_shape hsurvives).2.1 _ rfl) hseq
    · rintro ⟨hfits, -⟩
      cases y with
      | seq l => exact absurd ⟨l, rfl⟩ hseq
      | _ => cases hfits

/-- What is written as a text and read as one is that text. -/
theorem eq_str_of_isText {z : Parsed} {text : String} (hz : isText z = true)
    (h : deserializeString z = some text) : z = .str text := by
  cases z with
  | str t => exact congrArg Parsed.str (Option.some.inj h)
  | _ => cases hz

/-- A table of policies survives exactly if it has texts only, and one for each
network. -/
theorem survives_policies_iff [Crates] {ps : List (Key × Parsed)}
    (hall : ∀ e ∈ ps, ∃ network, deserializeKey format e.1 = some network ∧
      ∃ e' ∈ ps, ∃ text, deserializeKey format e'.1 = some network ∧
        deserializeString e'.2 = some text ∧ policies.lookup network = some text) :
    Survives (.map ps) (.ofValue format (.map ((Crates.iter policies).map fun e =>
      (policyKey format e.1, .str e.2)))) ↔
      (∀ e ∈ ps, isText e.2 = true) ∧ ∀ e ∈ ps, ∀ e' ∈ ps, e.1 = e'.1 → e.2 = e'.2 := by
  rw [survives_ofValue_map]
  constructor
  · intro hsurvives
    -- a network stands once in what is written
    have hentry : ∀ e ∈ ps, ∃ network text, e = (policyKey format network, .str text) ∧
        policies.lookup network = some text := by
      intro e he
      obtain ⟨u, hu, heu⟩ := hsurvives e he
      obtain ⟨⟨network, text⟩, hmem, heq⟩ := List.mem_map.mp hu
      obtain ⟨hkey, rfl⟩ := Prod.mk.inj heq
      exact ⟨network, text, Prod.ext hkey.symm ((survives_shape heu).2.2.1 text rfl),
        (Crates.mem_iter _ _ _).mp hmem⟩
    refine ⟨fun e he => ?_, fun e he e' he' hkeys => ?_⟩
    · obtain ⟨network, text, rfl, -⟩ := hentry e he
      rfl
    · obtain ⟨network, text, rfl, hlookup⟩ := hentry e he
      obtain ⟨network', text', rfl, hlookup'⟩ := hentry e' he'
      obtain rfl := policyKey_inj hkeys
      rw [Option.some.inj (hlookup.symm.trans hlookup')]
  · rintro ⟨htexts, hsame⟩ e he
    -- the entry that is in memory says what this one says
    obtain ⟨network, hkey, e', he', text, hkey', htext, hlookup⟩ := hall e he
    have hvalue : e.2 = .str text :=
      (hsame e he e' he' ((eq_policyKey hkey).trans (eq_policyKey hkey').symm)).trans
        (eq_str_of_isText (htexts e' he') htext)
    refine ⟨.str text, List.mem_map.mpr
      ⟨(network, text), (Crates.mem_iter _ _ _).mpr hlookup, ?_⟩, ?_⟩
    · rw [eq_policyKey hkey]
    · rw [hvalue]
      exact survives_str.mpr rfl

/-- The policies are carried if they are a table, and one that survives. -/
theorem ListsPolicies.carries_iff [Crates] (h : ListsPolicies format x policies)
    (hws : Writes format fields ws) (hone : ∀ z, ("policies", z) ∈ fields ↔
      z = .map ((Crates.iter policies).map fun e => (.int e.1.val.toNat, .str e.2)))
    (htakes : format = .toml → TomlTakes (record fields)) :
    ∃ y, lookup StoreDocument.fields "policies" x = some y ∧ y ≠ .missing ∧
      (Carries format ws "policies" y ↔ Kind.table.fits format y = true ∧
        (∀ e ∈ policiesOf x, isText e.2 = true) ∧
        ∀ e ∈ policiesOf x, ∀ e' ∈ policiesOf x, e.1 = e'.1 → e.2 = e'.2) := by
  obtain ⟨y, hy, hmissing, hall⟩ := h
  have hmap := fun ht =>
    (tomlTakes_record.mp (htakes ht) _ ((hone _).mpr rfl)).resolve_left (by simp [isNull])
  refine ⟨y, hy, hmissing, ?_⟩
  rw [hws.carries_iff hone rfl, savedValue_policies hmap]
  by_cases htable : ∃ ps, y = .map ps
  · obtain ⟨ps, rfl⟩ := htable
    have hpolicies : policiesOf x = ps := by rw [policiesOf, hy]
    rw [survives_policies_iff (hall ps rfl), hpolicies]
    exact ⟨fun hps => ⟨rfl, hps⟩, And.right⟩
  · constructor
    · intro hsurvives
      exact absurd ((survives_shape hsurvives).1 _ (ofValue_map _)) htable
    · rintro ⟨hfits, -⟩
      cases y with
      | map ps => exact absurd ⟨ps, rfl⟩ htable
      | _ => cases hfits

/-- A struct survives exactly if it has declared fields only and what is asked
of the content of each of them holds. -/
theorem survives_struct_iff {declared : List (String × Kind)} {asked : List Prop}
    (hnames : ∀ e ∈ ws, ∃ f ∈ declared, e.1 = .str f.1)
    (hcarries : List.Forall₂ (fun f q => ∃ y, lookup StoreDocument.fields f.1 x = some y ∧
      y ≠ .missing ∧ (Carries format ws f.1 y ↔ f.2.fits format y = true ∧ q)) declared asked) :
    Survives x (.ofValue format (.map ws)) ↔ Declared format declared x ∧ ∀ q ∈ asked, q := by
  obtain ⟨hfields, hasked⟩ := exists_of_mem_forall₂ hcarries
  constructor
  · intro hsurvives
    obtain ⟨es, rfl⟩ := (survives_shape hsurvives).1 _ (ofValue_map ws)
    have hall := survives_ofValue_map.mp hsurvives
    refine ⟨⟨es, rfl, fun e he => ?_⟩, fun q hq => ?_⟩
    · -- an entry under a declared name is what was found there
      obtain ⟨u, hu, hsub⟩ := hall e he
      obtain ⟨f, hf, hkey⟩ := hnames _ hu
      obtain ⟨q, -, y, hy, hmissing, hiff⟩ := hfields f hf
      obtain rfl : e.2 = y := (lookup_eq_some hy hmissing).2 e.2 (hkey ▸ he)
      exact ⟨f, hf, hkey, (hiff.mp ⟨u, hkey ▸ hu, hsub⟩).1⟩
    · obtain ⟨f, -, y, hy, hmissing, hiff⟩ := hasked q hq
      exact (hiff.mp (hall _ (lookup_eq_some hy hmissing).1)).2
  · rintro ⟨⟨es, rfl, hdeclared⟩, hall⟩
    refine survives_ofValue_map.mpr fun e he => ?_
    obtain ⟨f, hf, hkey, hfits⟩ := hdeclared e he
    obtain ⟨q, hq, y, hy, hmissing, hiff⟩ := hfields f hf
    obtain rfl : e.2 = y := (lookup_eq_some hy hmissing).2 e.2 (hkey ▸ he)
    show ∃ u, (e.1, u) ∈ ws ∧ Survives e.2 (.ofValue format u)
    rw [hkey]
    exact hiff.mpr ⟨hfits, hall q hq⟩

/-- **Writing.**  The document is written with everything that is left of the
file exactly if all of that is known. -/
theorem Reflects.survives_iff [Crates] (h : Reflects format x doc)
    (htakes : format = .toml → TomlTakes (doc.serialize Crates.iter)) :
    Survives x (.ofValue format (savedValue format (doc.serialize Crates.iter))) ↔
      Understood format x := by
  rw [StoreDocument.serialize] at htakes ⊢
  obtain ⟨ws, hws, hmem⟩ := savedValue_record htakes
  have hnames : ∀ e ∈ ws, ∃ f ∈ documentFields, e.1 = .str f.1 := by
    intro e he
    obtain ⟨f, hf, -, hkey, -⟩ := (hmem e.1 e.2).mp he
    have hname : f.1 ∈ documentFields.map Prod.fst := List.mem_map_of_mem (f := Prod.fst) hf
    obtain ⟨f', hf', heq⟩ := List.mem_map.mp hname
    exact ⟨f', hf', heq ▸ hkey⟩
  -- the version is carried as it is
  obtain ⟨version, hversion, hmissing, hsame⟩ := h.version
  have hsaved : savedValue format (.int doc.version.toNat) = .int doc.version.toNat :=
    savedValue_of_isPlain rfl fun ht => tomlTakes_record.mp (htakes ht) _ List.mem_cons_self
  have hcarried : Carries format ws "version" version :=
    (Writes.carries_iff (v := .int doc.version.toNat) hmem (fun z => by simp) rfl).mpr
      (hsaved.symm ▸ hsame)
  have hfits : Kind.number.fits format version = true := Kind.fits_of_survives hsame rfl
  rw [hws, survives_struct_iff hnames
    (.cons ⟨version, hversion, hmissing, fun _ => ⟨hfits, trivial⟩, fun _ => hcarried⟩
    (.cons (h.networks.carries_iff hmem (fun z => by simp [Aggregate.networks]) htakes)
    (.cons (h.users.carries_iff hmem (fun z => by simp [Aggregate.users]) htakes)
    (.cons (h.nodes.carries_iff hmem (fun z => by simp [Aggregate.nodes]) htakes)
    (.cons (h.preauthKeys.carries_iff hmem (fun z => by simp [Aggregate.preauthKeys]) htakes)
    (.cons (h.policies.carries_iff hmem (fun z => by simp) htakes) .nil))))))]
  simp only [List.forall_mem_cons, List.not_mem_nil, false_implies, implies_true, and_true, true_and]
  constructor
  · rintro ⟨hdocument, hnetworks, husers, hnodes, hkeys, htexts, hpolicies⟩
    exact ⟨hdocument, hnetworks, husers, hnodes, hkeys, htexts, hpolicies⟩
  · intro hu
    exact ⟨hu.document, hu.networks, hu.users, hu.nodes, hu.preauthKeys, hu.texts, hu.policies⟩

end Reflects

/-! ### Every sequence of mutations -/

section Runs

variable [Crates] [Chrono] {w : World} {c : Mutation × Instant × Faults} {r : Reply} {x : Parsed}

/-- **Run lemma.**  After mutations that have returned `Ok` the memory reflects
what they leave of the file, and the last flush has written it. -/
theorem reflects_run {calls : List (Mutation × Instant × Faults)} {replies : List Reply}
    (h : Reflects w.store.format x w.store.memory)
    (hok : Runs.outputs mutateStep w calls = replies.map fun r => some (.ok r)) :
    Reflects w.store.format (left w.store.format x ((calls.map Prod.fst).zip replies))
      (Runs.final mutateStep w calls).store.memory ∧
    ((∃ r, replies.getLast? = some r ∧ r.flushes = true) → ∃ bytes,
      serialize w.store.format (Runs.final mutateStep w calls).store.memory = .ok bytes ∧
      (Runs.final mutateStep w calls).disk w.store.path = some bytes) := by
  -- what is left of the file moves along, and so does the last reply
  induction calls generalizing w x replies with
  | nil =>
      obtain rfl : replies = [] := by simpa using hok.symm
      exact ⟨h, fun ⟨r, hr, _⟩ => by cases hr⟩
  | cons c calls ih =>
      rcases replies with - | ⟨r, replies⟩
      · cases hok
      · rw [Runs.outputs_cons, List.map_cons, List.cons.injEq] at hok
        obtain ⟨hr, hstore, hwritten⟩ := mutateStep_ok hok.1
        have hformat : (mutateStep w c).2.store.format = w.store.format := by rw [hstore]
        have hpath : (mutateStep w c).2.store.path = w.store.path := by rw [hstore]
        have hnext : Reflects (mutateStep w c).2.store.format (leave w.store.format x (c.1, r))
            (mutateStep w c).2.store.memory := by
          rw [hstore, hr]
          exact h.leave c.2.1 c.1
        obtain ⟨hreflects, hlast⟩ := ih hnext hok.2
        rw [hformat] at hreflects hlast
        rw [hpath] at hlast
        refine ⟨hreflects, ?_⟩
        rcases replies with - | ⟨r', replies⟩
        · -- this was the last call
          obtain rfl : calls = [] := by
            have hlen := congrArg List.length hok.2
            rw [Runs.length_outputs] at hlen
            exact List.length_eq_zero_iff.mp hlen
          rintro ⟨r', hr', hf⟩
          obtain rfl := Option.some.inj hr'
          exact hwritten hf
        · rwa [List.getLast?_cons_cons]

/-- What is in the file after mutations that have returned `Ok`, the last of
which has written it. -/
theorem written_of_run {disk : Disk} {path : Path} {store : FileStore} {bytes : Bytes}
    (hopen : openStore Faults.none disk path = .ok store) (hbytes : disk path = some bytes)
    (hx : contents store.format bytes = some x)
    {calls : List (Mutation × Instant × Faults)} {replies : List Reply}
    (hok : Runs.outputs mutateStep ⟨store, disk⟩ calls = replies.map fun r => some (.ok r))
    (hwrites : ∃ r, replies.getLast? = some r ∧ r.flushes = true) :
    ∃ doc written, (Runs.final mutateStep ⟨store, disk⟩ calls).disk path = some written ∧
      contents store.format written =
        some (.ofValue store.format (savedValue store.format (doc.serialize Crates.iter))) ∧
      (store.format = .toml → TomlTakes (doc.serialize Crates.iter)) ∧
      Reflects store.format (left store.format x ((calls.map Prod.fst).zip replies)) doc := by
  obtain ⟨hpath, -⟩ := format_of_openStore hopen
  have hread : deserialize store.format bytes = .ok store.memory := by
    rcases memory_of_openStore hopen with ⟨hnone, -⟩ | ⟨bytes', hbytes', hdoc⟩
    · cases hbytes.symm.trans hnone
    · obtain rfl := Option.some.inj (hbytes.symm.trans hbytes')
      exact hdoc
  have hstart : Reflects store.format x store.memory :=
    reflects_of_deserialize (deserialize_of_contents hx hread)
  obtain ⟨hreflects, hlast⟩ := reflects_run (w := ⟨store, disk⟩) hstart hok
  obtain ⟨written, hser, hdisk⟩ := hlast hwrites
  obtain ⟨hcontents, htakes⟩ := contents_of_serialize hser
  exact ⟨_, written, hpath ▸ hdisk, hcontents, htakes, hreflects⟩

end Runs

/-- A file of a later version with one more field, and one policy set. -/
theorem unknown_field_lost :
    letI := Crates.flow
    letI := Chrono.unasked
    ¬ ∀ (disk : Disk) (path : Path) (store : FileStore) (bytes : Bytes) (x : Parsed),
      openStore Faults.none disk path = .ok store → disk path = some bytes →
      contents store.format bytes = some x →
      ∀ (calls : List (Mutation × Instant × Faults)) (replies : List Reply),
        (Runs.outputs mutateStep ⟨store, disk⟩ calls = replies.map fun r => some (.ok r)) →
        (∃ r, replies.getLast? = some r ∧ r.flushes = true) →
        ∃ written w, (Runs.final mutateStep ⟨store, disk⟩ calls).disk path = some written ∧
          contents store.format written = some w ∧
          Survives (left store.format x ((calls.map Prod.fst).zip replies)) w := by
  let _ := Crates.flow
  let _ := Chrono.unasked
  intro h
  let v : Value := record [("version", .int 2), ("networks", .seq []), ("users", .seq []),
    ("nodes", .seq []), ("preauth_keys", .seq []), ("policies", .map []), ("dns", .str "magic")]
  let disk : Disk := fun _ => some (Crates.jsonPrint v)
  let store : FileStore := ⟨⟨[], some "net.json".toList⟩, .json,
    { MemoryStore.new with version := 2 }, by decide⟩
  have hdoc : StoreDocument.deserialize .json (.ofValue .json v) = some store.memory := rfl
  obtain ⟨hcontents, hread⟩ := contents_jsonPrint v rfl hdoc
  have hopen : openStore Faults.none disk store.path = .ok store :=
    openStore_serialized rfl rfl hread
  have hcall : mutate Faults.none 0 ⟨store, disk⟩ (.setPolicy ⟨1⟩ "accept") = _ :=
    mutate_none_of_serialize rfl rfl
  have hok : Runs.outputs mutateStep ⟨store, disk⟩ [(.setPolicy ⟨1⟩ "accept", 0, Faults.none)] =
      [Reply.unit].map fun r => some (.ok r) := by
    rw [Runs.outputs_cons]
    show [(mutate Faults.none 0 ⟨store, disk⟩ (.setPolicy ⟨1⟩ "accept")).1] = _
    rw [hcall]
    rfl
  have hlast : ∃ r, [Reply.unit].getLast? = some r ∧ r.flushes = true := ⟨_, rfl, rfl⟩
  obtain ⟨written, w, hwritten, hw, hsurvives⟩ := h disk store.path store _ _ hopen rfl hcontents
    _ _ hok hlast
  obtain ⟨doc, written', hwritten', hw', htakes, hreflects⟩ := written_of_run hopen rfl hcontents
    hok hlast
  obtain rfl := Option.some.inj (hwritten.symm.trans hwritten')
  obtain rfl := Option.some.inj (hw.symm.trans hw')
  -- the further field is left, and no declared one
  obtain ⟨es, hes, hdeclared⟩ := ((hreflects.survives_iff htakes).mp hsurvives).document
  have hdns : (Key.str "dns", Parsed.str "magic") ∈ es := by
    have hleft : left store.format (.ofValue .json v) [(.setPolicy ⟨1⟩ "accept", .unit)] =
        .map es := hes
    rw [← Parsed.map.inj hleft]
    simp [strKeys, Parsed.ofEntries, editEntry]
  obtain ⟨f, hf, heq, -⟩ := hdeclared _ hdns
  have hname : ("dns" : String) = f.1 := Key.str.inj heq
  have hknown : f.1 ∈ documentFields.map Prod.fst := List.mem_map_of_mem hf
  rw [← hname] at hknown
  simp [documentFields] at hknown

section Carried

variable [Crates] [Chrono]

/-- **When a file is carried through**: the file that a sequence of mutations
has written contains all that they leave of the file that was opened exactly
if that has declared fields only, each as this program writes it, and no
network with two policies. -/
theorem carried_iff (disk : Disk) (path : Path) (store : FileStore) (bytes : Bytes) (x : Parsed)
    (hopen : openStore Faults.none disk path = .ok store) (hbytes : disk path = some bytes)
    (hx : contents store.format bytes = some x)
    (calls : List (Mutation × Instant × Faults)) (replies : List Reply)
    (hok : Runs.outputs mutateStep ⟨store, disk⟩ calls = replies.map fun r => some (.ok r))
    (hwrites : ∃ r, replies.getLast? = some r ∧ r.flushes = true) :
    (∃ written w, (Runs.final mutateStep ⟨store, disk⟩ calls).disk path = some written ∧
      contents store.format written = some w ∧
      Survives (left store.format x ((calls.map Prod.fst).zip replies)) w) ↔
    Understood store.format (left store.format x ((calls.map Prod.fst).zip replies)) := by
  obtain ⟨doc, written, hwritten, hcontents, htakes, hreflects⟩ :=
    written_of_run hopen hbytes hx hok hwrites
  rw [← hreflects.survives_iff htakes]
  constructor
  · rintro ⟨written', w, hwritten', hw, hsurvives⟩
    obtain rfl := Option.some.inj (hwritten.symm.trans hwritten')
    obtain rfl := Option.some.inj (hcontents.symm.trans hw)
    exact hsurvives
  · exact fun hsurvives => ⟨written, _, hwritten, hcontents, hsurvives⟩

end Carried

/-- A file with one node, which is carried through another node's upsert. -/
theorem carried_iff_one_node :
    letI := Crates.flow
    letI := Chrono.unasked
    let node (id : UInt64) : Node := ⟨⟨id⟩, ⟨1⟩, ⟨1⟩, "mkey", "nodekey", "disco", none, none, []⟩
    let v := record [("version", .int 2), ("networks", .seq []), ("users", .seq []),
      ("nodes", .seq [(node 1).serialize]), ("preauth_keys", .seq []), ("policies", .map [])]
    let store : FileStore := ⟨⟨[], some "net.json".toList⟩, .json,
      { MemoryStore.new with version := 2, nodes := [node 1] }, by decide⟩
    let disk : Disk := fun _ => some (Crates.jsonPrint v)
    let calls := [(Mutation.upsertNode (node 2), (0 : Instant), Faults.none)]
    ∃ written w, (Runs.final mutateStep ⟨store, disk⟩ calls).disk store.path = some written ∧
      contents .json written = some w ∧
      Survives (left .json (.ofValue .json v) ((calls.map Prod.fst).zip [.unit])) w := by
  let _ := Crates.flow
  let _ := Chrono.unasked
  intro node v store disk calls
  have hdoc : StoreDocument.deserialize .json (.ofValue .json v) = some store.memory := rfl
  obtain ⟨hcontents, hread⟩ := contents_jsonPrint v rfl hdoc
  have hcall : mutate Faults.none 0 ⟨store, disk⟩ (.upsertNode (node 2)) = _ :=
    mutate_none_of_serialize rfl rfl
  have hok : Runs.outputs mutateStep ⟨store, disk⟩ calls =
      [Reply.unit].map fun r => some (.ok r) := by
    rw [Runs.outputs_cons]
    show [(mutate Faults.none 0 ⟨store, disk⟩ (.upsertNode (node 2))).1] = _
    rw [hcall]
    rfl
  have hleft : left store.format (.ofValue .json v) ((calls.map Prod.fst).zip [.unit]) = .map
      [(.str "version", .plain .json (.int 2)), (.str "networks", .seq []),
       (.str "users", .seq []), (.str "nodes", .seq [.ofValue .json (node 1).serialize, replaced 2]),
       (.str "preauth_keys", .seq []), (.str "policies", .map [])] := rfl
  refine (carried_iff disk store.path store _ _ (openStore_serialized rfl rfl hread) rfl hcontents
    calls [.unit] hok ⟨_, rfl, rfl⟩).mpr ?_
  rw [hleft]
  refine ⟨⟨_, rfl, ?_⟩, List.forall_mem_nil _, List.forall_mem_nil _, ?_, List.forall_mem_nil _,
    List.forall_mem_nil _, List.forall_mem_nil _⟩
  · simp [documentFields, Kind.fits, Parsed.plain]
  · intro r hr
    rcases List.mem_pair.mp hr with rfl | rfl
    · exact Aggregate.nodes.declared_serialize (by simp [store]) (node 1)
    · refine ⟨_, rfl, ?_⟩
      simp [Aggregate.nodes, Kind.fits]

end Oxiscale

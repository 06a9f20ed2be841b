/-
Oxiscale/Saved.lean

Saving a document and reading it back.

In JSON and YAML every document comes back.  In TOML the serialiser refuses
exactly the documents with a policy, whose key is a number, or with an id
from `2 ^ 63` on; what it writes has lost the missing options and changed the
order of the fields, and still reads as the same document.

Two general facts carry this.  A map with distinct keys has in TOML the
fields it had before (`field_toml`), and a derived `Deserialize` looks at
nothing but fields (`deserialize_of_fields`).
-/
import Oxiscale.Serde

namespace Oxiscale

open FileStore
open Flow (Key Value)

/-! ### Fields -/

section Fields

variable {name : String} {es es' : List (Key × Value)} {k : Key} {v t : Value} {l : List Value}

/-- The order of the entries does not matter. -/
theorem field_perm (h : es.Perm es') : field .null name es = field .null name es' := by
  have hf : (named name es).Perm (named name es') := h.filter _
  rw [field, field]
  rcases hes : named name es with - | ⟨e, - | ⟨e', rest⟩⟩
  · rw [hes] at hf
    rw [List.nil_perm.mp hf]
  · rw [hes] at hf
    rw [List.singleton_perm.mp hf]
  · rw [hes] at hf
    rcases hes' : named name es' with - | ⟨d, - | ⟨d', rest'⟩⟩
    · rw [hes'] at hf
      exact absurd hf.length_eq (by simp)
    · rw [hes'] at hf
      exact absurd hf.length_eq (by simp)
    · rfl

/-- Only the order changes. -/
theorem valuesFirst_perm : (valuesFirst es).Perm es := by
  have h := List.filter_append_perm (fun e : Key × Value => !isTable e.2) es
  simpa only [valuesFirst, Bool.not_not] using h

theorem field_valuesFirst : field .null name (valuesFirst es) = field .null name es :=
  field_perm valuesFirst_perm

/-- What the TOML text says in the place of a value: null where it says
nothing. -/
def tomlRead (v : Value) : Value :=
  match tomlValue v with
  | .ok t => t
  | .error _ => .null

theorem tomlRead_of_ok (h : tomlValue v = .ok t) : tomlRead v = t := by
  rw [tomlRead, h]

theorem eq_null_of_isNull (h : isNull v = true) : v = .null := by
  cases v with
  | null => rfl
  | _ => simp [isNull] at h

/-- What TOML writes of a map: the entries that are not null. -/
theorem tomlEntries_eq (h : tomlEntries es = .ok es') :
    es' = (es.filter fun e => !isNull e.2).map fun e => (e.1, tomlRead e.2) := by
  induction es generalizing es' with
  | nil =>
      obtain rfl := Except.ok.inj h
      rfl
  | cons e es ih =>
      obtain ⟨k | s, v⟩ := e
      · simp [tomlEntries] at h
      · rcases hnull : isNull v with - | -
        · rcases hv : tomlValue v with err | t
          · simp [tomlEntries, hnull, hv] at h
          · rcases hes : tomlEntries es with err | ts
            · simp [tomlEntries, hnull, hv, hes, Except.map] at h
            · obtain rfl : (Key.str s, t) :: ts = es' := by
                simpa [tomlEntries, hnull, hv, hes, Except.map] using h
              simp [hnull, ih hes, tomlRead_of_ok hv]
        · have hrest : tomlEntries es = .ok es' := by simpa [tomlEntries, hnull] using h
          simp [hnull, ih hrest]

/-- The entries of a name, as they come back. -/
theorem named_tomlEntries (h : tomlEntries es = .ok es') : named name es' =
    ((named name es).filter fun e => !isNull e.2).map fun e => (e.1, tomlRead e.2) := by
  rw [tomlEntries_eq h, named, named, List.filter_map, List.filter_filter, List.filter_filter]
  refine congrArg (List.map _) (List.filter_congr fun e _ => ?_)
  exact Bool.and_comm _ _

/-- **Fields in TOML.**  Of a map with distinct keys, the text has the same
fields. -/
theorem field_toml (hkeys : (es.map Prod.fst).Nodup) (h : tomlEntries es = .ok es') :
    field .null name (valuesFirst es') = (field .null name es).map tomlRead := by
  have hsub : ((named name es).map Prod.fst).Nodup :=
    hkeys.sublist (List.filter_sublist.map Prod.fst)
  have hall : ∀ e ∈ named name es, e.1 = Key.str name :=
    fun e he => by simpa using (List.mem_filter.mp he).2
  rw [field_valuesFirst, field, named_tomlEntries h, field]
  -- no key stands twice, so at most one entry has the name
  rcases hn : named name es with - | ⟨e, - | ⟨e', rest⟩⟩
  · rfl
  · rcases hnull : isNull e.2 with - | -
    · simp [hnull]
    · simp [eq_null_of_isNull hnull, isNull, tomlRead, tomlValue]
  · rw [hn] at hsub hall
    have he := hall e (by simp)
    have he' := hall e' (by simp)
    simp [he, he'] at hsub

theorem field_mem (h : field .null name es = some v) : v = .null ∨ ∃ e ∈ es, e.2 = v := by
  rw [field] at h
  rcases hn : named name es with - | ⟨e, - | ⟨e', rest⟩⟩
  · rw [hn] at h
    exact Or.inl (Option.some.inj h).symm
  · rw [hn] at h
    have he : e ∈ named name es := by simp [hn]
    exact Or.inr ⟨e, (List.mem_filter.mp he).1, Option.some.inj h⟩
  · simp [hn] at h

end Fields

/-! ### What TOML takes -/

section Toml

variable {es ts : List (Key × Value)} {v : Value} {l : List Value}

/-- The value fits TOML's data model. -/
def TomlTakes (v : Value) : Prop := ∃ t, tomlValue v = .ok t

/-- Integers are signed. -/
theorem tomlTakes_int {n : ℕ} : TomlTakes (.int n) ↔ n < 2 ^ 63 := by
  constructor
  · rintro ⟨t, ht⟩
    by_contra hn
    rw [tomlValue, if_neg hn] at ht
    exact absurd ht (by simp)
  · exact fun hn => ⟨_, by rw [tomlValue, if_pos hn]⟩

theorem tomlItems_eq (h : ∀ v ∈ l, TomlTakes v) : tomlItems l = .ok (l.map tomlRead) := by
  induction l with
  | nil => rfl
  | cons v vs ih =>
      obtain ⟨t, ht⟩ := h v List.mem_cons_self
      rw [tomlItems, ht, ih fun w hw => h w (List.mem_cons_of_mem v hw), List.map_cons,
        tomlRead_of_ok ht]
      rfl

theorem tomlTakes_seq : TomlTakes (.seq l) ↔ ∀ v ∈ l, TomlTakes v := by
  constructor
  · rintro ⟨t, ht⟩
    induction l generalizing t with
    | nil => simp
    | cons v vs ih =>
        rcases hv : tomlValue v with e | u
        · simp [tomlValue, tomlItems, hv, Except.map] at ht
        · rcases hvs : tomlItems vs with e | us
          · simp [tomlValue, tomlItems, hv, hvs, Except.map] at ht
          · have hrest := ih (.seq us) (by rw [tomlValue, hvs]; rfl)
            rintro w (- | ⟨-, hw⟩)
            · exact ⟨u, hv⟩
            · exact hrest w hw
  · exact fun h => ⟨_, by rw [tomlValue, tomlItems_eq h]; rfl⟩

theorem tomlRead_seq (h : TomlTakes (.seq l)) : tomlRead (.seq l) = .seq (l.map tomlRead) :=
  tomlRead_of_ok (by rw [tomlValue, tomlItems_eq (tomlTakes_seq.mp h)]; rfl)

/-- A table is written if its keys are text and its values are written, apart
from those left out. -/
theorem tomlEntries_ok_iff : (∃ ts, tomlEntries es = .ok ts) ↔
    ∀ e ∈ es, (∃ s, e.1 = .str s) ∧ (isNull e.2 = true ∨ TomlTakes e.2) := by
  induction es with
  | nil => simp [tomlEntries]
  | cons e es ih =>
      obtain ⟨k | s, v⟩ := e
      · simp [tomlEntries]
      · rw [List.forall_mem_cons, ← ih]
        rcases hnull : isNull v with - | -
        · rcases hv : tomlValue v with err | t
          · simp [tomlEntries, hnull, hv, TomlTakes]
          · rcases hes : tomlEntries es with err | ts
            · simp [tomlEntries, hnull, hv, hes, Except.map]
            · simp [tomlEntries, hnull, hv, hes, Except.map, TomlTakes]
        · simp [tomlEntries, hnull]

theorem tomlTakes_map : TomlTakes (.map es) ↔
    ∀ e ∈ es, (∃ s, e.1 = .str s) ∧ (isNull e.2 = true ∨ TomlTakes e.2) := by
  rw [← tomlEntries_ok_iff, TomlTakes]
  rcases hes : tomlEntries es with err | ts
  · simp [tomlValue, hes, Except.map]
  · simp [tomlValue, hes, Except.map]

/-- For a record the keys are no obstacle. -/
theorem tomlTakes_record {fields : List (String × Value)} : TomlTakes (record fields) ↔
    ∀ f ∈ fields, isNull f.2 = true ∨ TomlTakes f.2 := by
  rw [record, tomlTakes_map, strKeys, List.forall_mem_map]
  simp

/-- The text of a map has the fields of the map. -/
theorem exists_fields_toml (hkeys : (es.map Prod.fst).Nodup) (h : TomlTakes (.map es)) :
    ∃ ts, tomlRead (.map es) = .map ts ∧
      ∀ name, field .null name ts = (field .null name es).map tomlRead := by
  obtain ⟨ts, hts⟩ := tomlEntries_ok_iff.mpr (tomlTakes_map.mp h)
  exact ⟨valuesFirst ts, tomlRead_of_ok (by rw [tomlValue, hts]; rfl),
    fun _ => field_toml hkeys hts⟩

def isString : Value → Bool
  | .str _ => true
  | _ => false

/-- The values of the fields of an aggregate. -/
def isPlain : Value → Bool
  | .map _ => false
  | .seq l => l.all isString
  | _ => true

/-- Plain values come back as they were. -/
theorem tomlRead_of_isPlain (h : isPlain v = true) (ht : isNull v = true ∨ TomlTakes v) :
    tomlRead v = v := by
  cases v with
  | null => rfl
  | bool b => rfl
  | int n =>
      have hn : n < 2 ^ 63 := by simpa [isNull, tomlTakes_int] using ht
      exact tomlRead_of_ok (by rw [tomlValue, if_pos hn])
  | str s => rfl
  | seq l =>
      have hall : ∀ v ∈ l, tomlRead v = v := by
        intro v hv
        have hstr := List.all_eq_true.mp h v hv
        cases v with
        | str s => rfl
        | _ => simp [isString] at hstr
      rw [tomlRead_seq (by simpa [isNull] using ht), List.map_congr_left hall, List.map_id']
  | map es => simp [isPlain] at h

/-- An aggregate is read back from TOML with the same fields. -/
theorem exists_record_toml {fields : List (String × Value)}
    (hkeys : ((strKeys fields).map Prod.fst).Nodup)
    (hplain : ∀ f ∈ fields, isPlain f.2 = true) (h : TomlTakes (record fields)) :
    ∃ ts, tomlRead (record fields) = .map ts ∧
      ∀ name, field .null name ts = field .null name (strKeys fields) := by
  obtain ⟨ts, hts, hfield⟩ := exists_fields_toml hkeys h
  refine ⟨ts, hts, fun name => ?_⟩
  rw [hfield]
  rcases hv : field Value.null name (strKeys fields) with - | v
  · rfl
  · rcases field_mem hv with rfl | ⟨e, he, rfl⟩
    · rfl
    · obtain ⟨f, hf, rfl⟩ := List.mem_map.mp he
      rw [Option.map_some, tomlRead_of_isPlain (hplain f hf) (tomlTakes_record.mp h f hf)]

end Toml

/-! ### Parsed values -/

section Parsed

variable {format : Format} {name : String} {es : List (Key × Value)}

theorem ofItems_eq (l : List Value) :
    Parsed.ofItems format l = l.map (Parsed.ofValue format) := by
  induction l with
  | nil => rfl
  | cons v vs ih => rw [Parsed.ofItems, ih, List.map_cons]

theorem ofEntries_eq (es : List (Key × Value)) :
    Parsed.ofEntries format es = es.map fun e => (e.1, Parsed.ofValue format e.2) := by
  induction es with
  | nil => rfl
  | cons e es ih =>
      obtain ⟨k, v⟩ := e
      rw [Parsed.ofEntries, ih, List.map_cons]

@[simp] theorem ofValue_str (s : String) : Parsed.ofValue format (.str s) = .str s := rfl

@[simp] theorem ofValue_bool (b : Bool) :
    Parsed.ofValue format (.bool b) = .plain format (.bool b) := rfl

@[simp] theorem ofValue_int (n : ℕ) :
    Parsed.ofValue format (.int n) = .plain format (.int n) := rfl

@[simp] theorem ofValue_seq (l : List Value) :
    Parsed.ofValue format (.seq l) = .seq (l.map (Parsed.ofValue format)) := by
  rw [Parsed.ofValue, ofItems_eq]

@[simp] theorem ofValue_map (es : List (Key × Value)) : Parsed.ofValue format (.map es) =
    .map (es.map fun e => (e.1, Parsed.ofValue format e.2)) := by
  rw [Parsed.ofValue, ofEntries_eq]

/-- A struct is parsed as the map of its fields. -/
theorem ofValue_record (fields : List (String × Value)) : Parsed.ofValue format (record fields) =
    .map (fields.map fun f => (.str f.1, Parsed.ofValue format f.2)) := by
  rw [record, ofValue_map, strKeys, List.map_map]
  rfl

/-- Changing the values changes the value of a field. -/
theorem field_map {α β : Type} {absent : α} {f : α → β} {es : List (Key × α)} :
    field (f absent) name (es.map fun e => (e.1, f e.2)) = (field absent name es).map f := by
  have hnamed : named name (es.map fun e => (e.1, f e.2)) =
      (named name es).map fun e => (e.1, f e.2) := by
    rw [named, named, List.filter_map]
    rfl
  rw [field, field, hnamed]
  rcases named name es with - | ⟨e, - | ⟨e', rest⟩⟩ <;> rfl

/-- In TOML a field that is not written reads as a null that was written would. -/
theorem field_ofValue_toml : field .missing name (es.map fun e => (e.1, Parsed.ofValue .toml e.2)) =
    (field .null name es).map (Parsed.ofValue .toml) := by
  show field (Parsed.ofValue .toml .null) name _ = _
  exact field_map

end Parsed

/-! ### Aggregates are read back -/

section Aggregates

variable {format : Format} {fields : List (String × Value)}

/-- Ids come back in every format. -/
@[simp] theorem deserializeId_serializeId (id : UInt64) :
    deserializeId (.ofValue format (serializeId id)) = some id := by
  simp [deserializeId, serializeId, Parsed.plain, id.toNat_lt]

@[simp] theorem deserializeBool_plain (b : Bool) :
    deserializeBool (.plain format (.bool b)) = some b := rfl

@[simp] theorem deserializeString_str (s : String) : deserializeString (.str s) = some s := rfl

@[simp] theorem deserializeOption_serializeOption (o : Option String) :
    deserializeOption (.ofValue format (serializeOption o)) = some o := by
  cases o <;> rfl

theorem mapM_map {α β γ : Type} {item : β → Option γ} {g : α → β} {f : α → γ} {l : List α}
    (h : ∀ x ∈ l, item (g x) = some (f x)) : (l.map g).mapM item = some (l.map f) := by
  induction l with
  | nil => rfl
  | cons x xs ih =>
      have ih := ih fun y hy => h y (List.mem_cons_of_mem x hy)
      simp only [List.map_cons, List.mapM_cons, h x List.mem_cons_self, ih]
      rfl

/-- A list is read back when its items are. -/
theorem deserializeList_map {α : Type} {item : Parsed → Option α} {g : α → Value} {l : List α}
    (h : ∀ x ∈ l, item (.ofValue format (g x)) = some x) :
    deserializeList item (.ofValue format (.seq (l.map g))) = some l := by
  have hread : (l.map fun x => Parsed.ofValue format (g x)).mapM item = some (l.map id) :=
    mapM_map h
  rw [ofValue_seq, List.map_map, deserializeList]
  rwa [List.map_id] at hread

@[simp] theorem deserializeList_serializeStrings (l : List String) :
    deserializeList deserializeString (.ofValue format (serializeStrings l)) = some l :=
  deserializeList_map fun _ _ => rfl

@[simp] theorem isPlain_str (s : String) : isPlain (.str s) = true := rfl

@[simp] theorem isPlain_bool (b : Bool) : isPlain (.bool b) = true := rfl

@[simp] theorem isPlain_serializeId (id : UInt64) : isPlain (serializeId id) = true := rfl

@[simp] theorem isPlain_serializeOption (o : Option String) :
    isPlain (serializeOption o) = true := by
  cases o <;> rfl

@[simp] theorem isPlain_serializeStrings (l : List String) :
    isPlain (serializeStrings l) = true := by
  simp [serializeStrings, isPlain, isString]

/-- The reader of each record undoes its writer. -/
theorem Network.deserialize_serialize (net : Network) :
    Network.deserialize format (.ofValue format net.serialize) = some net := by
  simp [Network.deserialize, Network.serialize, ofValue_record, entries, field, named]

theorem User.deserialize_serialize (user : User) :
    User.deserialize format (.ofValue format user.serialize) = some user := by
  simp [User.deserialize, User.serialize, ofValue_record, entries, field, named]

theorem Node.deserialize_serialize (node : Node) :
    Node.deserialize format (.ofValue format node.serialize) = some node := by
  simp [Node.deserialize, Node.serialize, ofValue_record, entries, field, named]

theorem PreAuthKey.deserialize_serialize (key : PreAuthKey) :
    PreAuthKey.deserialize format (.ofValue format key.serialize) = some key := by
  simp [PreAuthKey.deserialize, PreAuthKey.serialize, ofValue_record, entries, field, named]

/-- What looks only at the fields reads from TOML what it reads from the record. -/
theorem read_record_toml {α : Type} {read : Parsed → Option α} {a : α}
    (hfields : ∀ {es ts}, (∀ name, field .missing name ts = field .missing name es) →
      read (.map ts) = read (.map es))
    (hkeys : ((strKeys fields).map Prod.fst).Nodup) (hplain : ∀ f ∈ fields, isPlain f.2 = true)
    (hread : read (.ofValue .toml (record fields)) = some a) (h : TomlTakes (record fields)) :
    read (.ofValue .toml (tomlRead (record fields))) = some a := by
  obtain ⟨ts, hts, hfield⟩ := exists_record_toml hkeys hplain h
  rw [record, ofValue_map] at hread
  rw [hts, ofValue_map, ← hread]
  apply hfields
  intro name
  rw [field_ofValue_toml, field_ofValue_toml, hfield]

/-- A network comes back from a table, whose fields may stand in another
order. -/
theorem Network.deserialize_toml (net : Network) (h : TomlTakes net.serialize) :
    Network.deserialize .toml (.ofValue .toml (tomlRead net.serialize)) = some net := by
  refine read_record_toml (fun hfield => ?_) (by simp [strKeys]) (by simp)
    net.deserialize_serialize h
  simp only [Network.deserialize, entries, Option.bind_eq_bind, Option.bind_some, hfield]

theorem User.deserialize_toml (user : User) (h : TomlTakes user.serialize) :
    User.deserialize .toml (.ofValue .toml (tomlRead user.serialize)) = some user := by
  refine read_record_toml (fun hfield => ?_) (by simp [strKeys]) (by simp)
    user.deserialize_serialize h
  simp only [User.deserialize, entries, Option.bind_eq_bind, Option.bind_some, hfield]

theorem Node.deserialize_toml (node : Node) (h : TomlTakes node.serialize) :
    Node.deserialize .toml (.ofValue .toml (tomlRead node.serialize)) = some node := by
  refine read_record_toml (fun hfield => ?_) (by simp [strKeys]) (by simp)
    node.deserialize_serialize h
  simp only [Node.deserialize, entries, Option.bind_eq_bind, Option.bind_some, hfield]

theorem PreAuthKey.deserialize_toml (key : PreAuthKey) (h : TomlTakes key.serialize) :
    PreAuthKey.deserialize .toml (.ofValue .toml (tomlRead key.serialize)) = some key := by
  refine read_record_toml (fun hfield => ?_) (by simp [strKeys]) (by simp)
    key.deserialize_serialize h
  simp only [PreAuthKey.deserialize, entries, Option.bind_eq_bind, Option.bind_some, hfield]

end Aggregates

/-! ### Documents are read back -/

section Documents

variable {doc : StoreDocument} {format : Format}

/-- Inserting other networks' policies changes nothing for this one. -/
theorem lookup_foldl_insert_of_notMem {l : List (NetworkId × String)} {net : NetworkId}
    (p : Policies) (h : net ∉ l.map Prod.fst) :
    (l.foldl (fun p e => p.insert e.1 e.2) p).lookup net = p.lookup net := by
  induction l generalizing p with
  | nil => rfl
  | cons e es ih =>
      rw [List.map_cons, List.mem_cons, not_or] at h
      rw [List.foldl_cons, ih _ h.2, Finmap.lookup_insert_of_ne _ h.1]

/-- The map has under a network one of the entries that were inserted. -/
theorem lookup_foldl_insert_mem {l : List (NetworkId × String)} {net : NetworkId}
    (p : Policies) (h : net ∈ l.map Prod.fst) :
    ∃ policy, (net, policy) ∈ l ∧
      (l.foldl (fun p e => p.insert e.1 e.2) p).lookup net = some policy := by
  induction l generalizing p with
  | nil => cases h
  | cons e es ih =>
      rw [List.foldl_cons]
      by_cases hes : net ∈ es.map Prod.fst
      · obtain ⟨policy, hmem, hlookup⟩ := ih (p.insert e.1 e.2) hes
        exact ⟨policy, List.mem_cons_of_mem e hmem, hlookup⟩
      · obtain rfl : net = e.1 := (List.mem_cons.mp h).resolve_right hes
        refine ⟨e.2, List.mem_cons_self, ?_⟩
        rw [lookup_foldl_insert_of_notMem _ hes, Finmap.lookup_insert]

/-- Inserting what the hash map visits rebuilds the map. -/
theorem foldl_iter [Crates] (p : Policies) :
    (Crates.iter p).foldl (fun p e => p.insert e.1 e.2) ∅ = p := by
  apply Finmap.ext_lookup
  intro net
  -- every entry has the policy of the map, so it does not matter which came last
  by_cases hin : net ∈ (Crates.iter p).map Prod.fst
  · obtain ⟨policy, hmem, hlookup⟩ := lookup_foldl_insert_mem ∅ hin
    rw [hlookup, (Crates.mem_iter p net policy).mp hmem]
  · rw [lookup_foldl_insert_of_notMem _ hin]
    rcases hp : p.lookup net with - | policy
    · rfl
    · exact absurd (List.mem_map_of_mem ((Crates.mem_iter p net policy).mpr hp)) hin

/-- The policies are read back if the format reads the keys that it writes. -/
theorem deserializePolicies_iter [Crates] {key : ℕ → Key}
    (hkey : ∀ n < 2 ^ 64, deserializeKey format (key n) = some ⟨UInt64.ofNat n⟩) (p : Policies) :
    deserializePolicies format (.ofValue format
      (.map ((Crates.iter p).map fun e => (key e.1.val.toNat, .str e.2)))) = some p := by
  have hentry : ∀ e ∈ Crates.iter p,
      deserializeEntry format (key e.1.val.toNat, .str e.2) = some (id e) := by
    intro e _
    simp [deserializeEntry, hkey _ e.1.val.toNat_lt]
  have hread := mapM_map hentry
  rw [ofValue_map, List.map_map]
  show (((Crates.iter p).map fun e => (key e.1.val.toNat, Parsed.str e.2)).mapM
    (deserializeEntry format)).bind _ = _
  rw [hread, List.map_id]
  exact congrArg some (foldl_iter p)

/-- Without policies any key would do. -/
theorem deserializePolicies_empty :
    deserializePolicies format (.ofValue format (.map [])) = some ∅ := rfl

/-- A number is read back from the text of a key. -/
theorem deserializeKey_jsonKey {n : ℕ} (h : n < 2 ^ 64) :
    deserializeKey .json (jsonKey (.int n)) = some ⟨UInt64.ofNat n⟩ := by
  have hread : Flow.readNat (Nat.toDigits 10 n) = some (n, []) := by
    have hend : Flow.readNat (Nat.toDigits 10 n ++ []) = some (n, []) :=
      Flow.readNat_toDigits (by simp [Flow.NoDigit])
    rwa [List.append_nil] at hend
  simp only [jsonKey, deserializeKey, String.toList_ofList, hread]
  exact if_pos ⟨trivial, h⟩

/-- A map with the right fields is read as the document. -/
theorem StoreDocument.deserialize_of_fields {es : List (Key × Parsed)}
    (hversion : field .missing "version" es = some (.plain format (.int doc.version.toNat)))
    (hnetworks : (field .missing "networks" es).bind
      (deserializeList (Network.deserialize format)) = some doc.networks)
    (husers : (field .missing "users" es).bind
      (deserializeList (User.deserialize format)) = some doc.users)
    (hnodes : (field .missing "nodes" es).bind
      (deserializeList (Node.deserialize format)) = some doc.nodes)
    (hkeys : (field .missing "preauth_keys" es).bind
      (deserializeList (PreAuthKey.deserialize format)) = some doc.preauthKeys)
    (hpolicies : (field .missing "policies" es).bind (deserializePolicies format) =
      some doc.policies) :
    StoreDocument.deserialize format (.map es) = some doc := by
  have hlt := doc.version.toNat_lt
  simp only [StoreDocument.deserialize, entries, Option.bind_eq_bind, Option.bind_some, hversion,
    Parsed.plain, deserializeU32, hlt, if_true, UInt32.ofNat_toNat, hnetworks, husers, hnodes,
    hkeys, hpolicies]
  rfl

/-- The document with its policies under other keys. -/
def StoreDocument.serializeWith (key : ℕ → Key) (iter : Policies → List (NetworkId × String))
    (doc : StoreDocument) : Value := record
  [("version", .int doc.version.toNat), ("networks", .seq (doc.networks.map Network.serialize)),
   ("users", .seq (doc.users.map User.serialize)), ("nodes", .seq (doc.nodes.map Node.serialize)),
   ("preauth_keys", .seq (doc.preauthKeys.map PreAuthKey.serialize)),
   ("policies", .map ((iter doc.policies).map fun e => (key e.1.val.toNat, .str e.2)))]

/-- Everything but the policies is read back whatever their keys are. -/
theorem StoreDocument.deserialize_serializeWith [Crates] {key : ℕ → Key} (doc : StoreDocument)
    (hpolicies : deserializePolicies format (.ofValue format (.map ((Crates.iter doc.policies).map
      fun e => (key e.1.val.toNat, .str e.2)))) = some doc.policies) :
    StoreDocument.deserialize format (.ofValue format (doc.serializeWith key Crates.iter)) =
      some doc := by
  have hnetworks : deserializeList (Network.deserialize format)
      (.ofValue format (.seq (doc.networks.map Network.serialize))) = some doc.networks :=
    deserializeList_map fun net _ => net.deserialize_serialize
  have husers : deserializeList (User.deserialize format)
      (.ofValue format (.seq (doc.users.map User.serialize))) = some doc.users :=
    deserializeList_map fun user _ => user.deserialize_serialize
  have hnodes : deserializeList (Node.deserialize format)
      (.ofValue format (.seq (doc.nodes.map Node.serialize))) = some doc.nodes :=
    deserializeList_map fun node _ => node.deserialize_serialize
  have hkeys : deserializeList (PreAuthKey.deserialize format)
      (.ofValue format (.seq (doc.preauthKeys.map PreAuthKey.serialize))) = some doc.preauthKeys :=
    deserializeList_map fun key _ => key.deserialize_serialize
  rw [StoreDocument.serializeWith, ofValue_record]
  apply StoreDocument.deserialize_of_fields
  · simp [field, named]
  · simpa [field, named] using hnetworks
  · simpa [field, named] using husers
  · simpa [field, named] using hnodes
  · simpa [field, named] using hkeys
  · simpa [field, named] using hpolicies

/-! #### JSON -/

theorem jsonItems_eq (l : List Value) : jsonItems l = l.map jsonValue := by
  induction l with
  | nil => rfl
  | cons v vs ih => rw [jsonItems, ih, List.map_cons]

theorem jsonEntries_eq (es : List (Key × Value)) :
    jsonEntries es = es.map fun e => (jsonKey e.1, jsonValue e.2) := by
  induction es with
  | nil => rfl
  | cons e es ih =>
      obtain ⟨k, v⟩ := e
      rw [jsonEntries, ih, List.map_cons]

theorem jsonValue_of_isPlain {v : Value} (h : isPlain v = true) : jsonValue v = v := by
  cases v with
  | seq l =>
      have hall : ∀ v ∈ l, jsonValue v = v := by
        intro v hv
        have hstr := List.all_eq_true.mp h v hv
        cases v with
        | str s => rfl
        | _ => simp [isString] at hstr
      rw [jsonValue, jsonItems_eq, List.map_congr_left hall, List.map_id']
  | map es => simp [isPlain] at h
  | _ => rfl

/-- Aggregates have no integer keys. -/
theorem jsonValue_record {fields : List (String × Value)}
    (hplain : ∀ f ∈ fields, isPlain f.2 = true) : jsonValue (record fields) = record fields := by
  rw [record, jsonValue, jsonEntries_eq, strKeys, List.map_map]
  refine congrArg Value.map (List.map_congr_left fun f hf => ?_)
  exact congrArg (Prod.mk (Key.str f.1)) (jsonValue_of_isPlain (hplain f hf))

theorem jsonValue_seq_map {α : Type} {g : α → Value} (l : List α) (h : ∀ x, jsonValue (g x) = g x) :
    jsonValue (.seq (l.map g)) = .seq (l.map g) := by
  rw [jsonValue, jsonItems_eq, List.map_map]
  exact congrArg Value.seq (List.map_congr_left fun x _ => h x)

/-- JSON changes a document in the keys of the policies only. -/
theorem jsonValue_serialize (iter : Policies → List (NetworkId × String)) (doc : StoreDocument) :
    jsonValue (doc.serialize iter) = doc.serializeWith (fun n => jsonKey (.int n)) iter := by
  have hnets := jsonValue_seq_map (g := Network.serialize) doc.networks
    fun _ => jsonValue_record (by simp)
  have husers := jsonValue_seq_map (g := User.serialize) doc.users
    fun _ => jsonValue_record (by simp)
  have hnodes := jsonValue_seq_map (g := Node.serialize) doc.nodes
    fun _ => jsonValue_record (by simp)
  have hkeys := jsonValue_seq_map (g := PreAuthKey.serialize) doc.preauthKeys
    fun _ => jsonValue_record (by simp)
  have hpolicies : jsonValue (.map ((iter doc.policies).map
      fun e => (.int e.1.val.toNat, .str e.2))) = .map ((iter doc.policies).map
      fun e => (jsonKey (.int e.1.val.toNat), .str e.2)) := by
    rw [jsonValue, jsonEntries_eq, List.map_map]
    rfl
  rw [StoreDocument.serialize, record, jsonValue, jsonEntries_eq]
  simp only [strKeys, List.map_cons, List.map_nil, hnets, husers, hnodes, hkeys, hpolicies]
  rfl

/-! #### TOML -/

/-- The document fits TOML: no policies, and ids below `2 ^ 63`. -/
structure StoreDocument.FitsToml (doc : StoreDocument) : Prop where
  networks : ∀ net ∈ doc.networks, net.id.val.toNat < 2 ^ 63
  users : ∀ user ∈ doc.users, user.id.val.toNat < 2 ^ 63 ∧ user.networkId.val.toNat < 2 ^ 63
  nodes : ∀ node ∈ doc.nodes, node.id.val.toNat < 2 ^ 63 ∧ node.networkId.val.toNat < 2 ^ 63 ∧
    node.userId.val.toNat < 2 ^ 63
  preauthKeys : ∀ key ∈ doc.preauthKeys,
    key.id.val.toNat < 2 ^ 63 ∧ key.networkId.val.toNat < 2 ^ 63
  policies : doc.policies = ∅

/-- An empty store can be written as TOML. -/
theorem fitsToml_new : MemoryStore.new.FitsToml := by
  constructor <;> simp [MemoryStore.new]

/-- There is nothing to iterate over exactly without policies. -/
theorem iter_eq_nil_iff [Crates] {p : Policies} : Crates.iter p = [] ↔ p = ∅ := by
  constructor
  · intro h
    rw [← foldl_iter p, h]
    rfl
  · rintro rfl
    refine List.eq_nil_iff_forall_not_mem.mpr fun e he => ?_
    have hmem := (Crates.mem_iter ∅ e.1 e.2).mp he
    simp at hmem

@[simp] theorem tomlTakes_str (s : String) : TomlTakes (.str s) := ⟨_, rfl⟩

@[simp] theorem tomlTakes_bool (b : Bool) : TomlTakes (.bool b) := ⟨_, rfl⟩

@[simp] theorem tomlTakes_serializeId {id : UInt64} :
    TomlTakes (serializeId id) ↔ id.toNat < 2 ^ 63 := tomlTakes_int

@[simp] theorem isNull_serializeId (id : UInt64) : isNull (serializeId id) = false := rfl

@[simp] theorem tomlTakes_serializeStrings (l : List String) :
    TomlTakes (serializeStrings l) := by
  simp [serializeStrings, tomlTakes_seq]

@[simp] theorem tomlTakes_serializeOption (o : Option String) :
    isNull (serializeOption o) = true ∨ TomlTakes (serializeOption o) := by
  cases o with
  | none => exact Or.inl rfl
  | some s => exact Or.inr ⟨_, rfl⟩

/-- A record is written if its ids are small enough. -/
theorem tomlTakes_network {net : Network} :
    TomlTakes net.serialize ↔ net.id.val.toNat < 2 ^ 63 := by
  simp [Network.serialize, tomlTakes_record]

theorem tomlTakes_user {user : User} : TomlTakes user.serialize ↔
    user.id.val.toNat < 2 ^ 63 ∧ user.networkId.val.toNat < 2 ^ 63 := by
  simp [User.serialize, tomlTakes_record]

theorem tomlTakes_node {node : Node} : TomlTakes node.serialize ↔
    node.id.val.toNat < 2 ^ 63 ∧ node.networkId.val.toNat < 2 ^ 63 ∧
      node.userId.val.toNat < 2 ^ 63 := by
  simp [Node.serialize, tomlTakes_record]

theorem tomlTakes_preauthKey {key : PreAuthKey} : TomlTakes key.serialize ↔
    key.id.val.toNat < 2 ^ 63 ∧ key.networkId.val.toNat < 2 ^ 63 := by
  simp [PreAuthKey.serialize, tomlTakes_record]

/-- **Documents in TOML.**  The serialiser takes exactly those that fit. -/
theorem tomlTakes_document [Crates] : TomlTakes (doc.serialize Crates.iter) ↔ doc.FitsToml := by
  have hversion : doc.version.toNat < 2 ^ 63 := by
    have h := doc.version.toNat_lt
    omega
  have hpolicies : TomlTakes (.map ((Crates.iter doc.policies).map
      fun e => (.int e.1.val.toNat, .str e.2))) ↔ doc.policies = ∅ := by
    rw [tomlTakes_map, ← iter_eq_nil_iff]
    rcases Crates.iter doc.policies with - | ⟨e, es⟩
    · simp
    · simp
  rw [StoreDocument.serialize, tomlTakes_record]
  simp only [List.forall_mem_cons, isNull, Bool.false_eq_true, false_or, tomlTakes_int, hversion,
    tomlTakes_seq, List.forall_mem_map, tomlTakes_network, tomlTakes_user, tomlTakes_node,
    tomlTakes_preauthKey, hpolicies, true_and]
  constructor
  · rintro ⟨hnets, husers, hnodes, hkeys, hpol, -⟩
    exact ⟨hnets, husers, hnodes, hkeys, hpol⟩
  · rintro ⟨hnets, husers, hnodes, hkeys, hpol⟩
    exact ⟨hnets, husers, hnodes, hkeys, hpol, by simp⟩

/-- A list of records comes back record by record. -/
theorem tomlRead_seq_map {α : Type} {g : α → Value} {l : List α}
    (h : TomlTakes (.seq (l.map g))) : tomlRead (.seq (l.map g)) =
      .seq (l.map fun x => tomlRead (g x)) ∧ ∀ x ∈ l, TomlTakes (g x) := by
  refine ⟨by rw [tomlRead_seq h, List.map_map]; rfl, fun x hx => ?_⟩
  exact tomlTakes_seq.mp h _ (List.mem_map_of_mem hx)

/-- What the TOML text of a document says is the document. -/
theorem StoreDocument.deserialize_toml [Crates] (h : TomlTakes (doc.serialize Crates.iter)) :
    StoreDocument.deserialize .toml (.ofValue .toml (tomlRead (doc.serialize Crates.iter))) =
      some doc := by
  have hpol := (tomlTakes_document.mp h).policies
  have hfields := tomlTakes_record.mp h
  simp only [List.forall_mem_cons, isNull, Bool.false_eq_true, false_or] at hfields
  obtain ⟨hversion, hnets, husers, hnodes, hkeys, -⟩ := hfields
  obtain ⟨hnets, hnet⟩ := tomlRead_seq_map hnets
  obtain ⟨husers, huser⟩ := tomlRead_seq_map husers
  obtain ⟨hnodes, hnode⟩ := tomlRead_seq_map hnodes
  obtain ⟨hkeys, hkey⟩ := tomlRead_seq_map hkeys
  obtain ⟨ts, hts, hfield⟩ := exists_fields_toml (by simp [strKeys]) h
  rw [StoreDocument.serialize, record, hts, ofValue_map]
  -- each list comes back as what was written of it, and so do its records
  apply StoreDocument.deserialize_of_fields
  · rw [field_ofValue_toml, hfield]
    simpa [strKeys, field, named] using
      congrArg (Parsed.ofValue .toml) (tomlRead_of_isPlain rfl (Or.inr hversion))
  · have hread := deserializeList_map (l := doc.networks)
      fun net hmem => net.deserialize_toml (hnet net hmem)
    rw [field_ofValue_toml, hfield]
    simpa [strKeys, field, named, hnets] using hread
  · have hread := deserializeList_map (l := doc.users)
      fun user hmem => user.deserialize_toml (huser user hmem)
    rw [field_ofValue_toml, hfield]
    simpa [strKeys, field, named, husers] using hread
  · have hread := deserializeList_map (l := doc.nodes)
      fun node hmem => node.deserialize_toml (hnode node hmem)
    rw [field_ofValue_toml, hfield]
    simpa [strKeys, field, named, hnodes] using hread
  · have hread := deserializeList_map (l := doc.preauthKeys)
      fun key hmem => key.deserialize_toml (hkey key hmem)
    rw [field_ofValue_toml, hfield]
    simpa [strKeys, field, named, hkeys] using hread
  · rw [field_ofValue_toml, hfield, hpol]
    have hnone : Crates.iter ∅ = [] := iter_eq_nil_iff.mpr rfl
    have hread : deserializePolicies .toml (.ofValue .toml (.map [])) = some ∅ :=
      deserializePolicies_empty
    simpa [strKeys, field, named, hnone, tomlRead, tomlValue, tomlEntries, valuesFirst,
      Except.map] using hread

end Documents

/-! ### Saving and reading back -/

/-- TOML accepts exactly the documents that fit. -/
theorem serialize_toml_iff [Crates] {doc : StoreDocument} :
    (∃ bytes, serialize .toml doc = .ok bytes) ↔ doc.FitsToml := by
  rw [← tomlTakes_document, TomlTakes]
  rcases ht : tomlValue (doc.serialize Crates.iter) with e | t
  · simp [serialize, Serde.tomlToStringPretty, ht, Except.map, Except.mapError]
  · simp [serialize, Serde.tomlToStringPretty, ht, Except.map, Except.mapError]

/-- What JSON prints of a document is read as that document. -/
theorem fromParsed_json [Crates] (doc : StoreDocument) :
    fromParsed .json (.ofValue .json (jsonValue (doc.serialize Crates.iter))) = .ok doc := by
  have hpolicies := deserializePolicies_iter (fun _ h => deserializeKey_jsonKey h) doc.policies
  rw [fromParsed, jsonValue_serialize, StoreDocument.deserialize_serializeWith doc hpolicies]

/-- **JSON.**  Every document is written and comes back. -/
theorem saved_json [Crates] (doc : StoreDocument) :
    ∃ bytes, serialize .json doc = .ok bytes ∧ deserialize .json bytes = .ok doc := by
  refine ⟨_, rfl, ?_⟩
  simp only [deserialize, Serde.jsonFromSlice, Crates.json_law, Except.bind, fromParsed_json]
  rfl

/-- **YAML.**  Every document is written and comes back. -/
theorem saved_yaml [Crates] (doc : StoreDocument) :
    ∃ bytes, serialize .yaml doc = .ok bytes ∧ deserialize .yaml bytes = .ok doc := by
  have hkey : ∀ n < 2 ^ 64, deserializeKey .yaml (.int n) = some ⟨UInt64.ofNat n⟩ :=
    fun n h => by rw [deserializeKey, if_pos h]
  have hread : StoreDocument.deserialize .yaml (.ofValue .yaml (doc.serialize Crates.iter)) =
      some doc :=
    StoreDocument.deserialize_serializeWith doc (deserializePolicies_iter hkey doc.policies)
  refine ⟨_, rfl, ?_⟩
  simp only [deserialize, Serde.yamlFromSlice, Crates.yaml_law, Except.bind, fromParsed, hread]
  rfl

/-- **TOML.**  A document that fits comes back. -/
theorem saved_toml [Crates] {doc : StoreDocument} (h : doc.FitsToml) :
    ∃ bytes, serialize .toml doc = .ok bytes ∧ deserialize .toml bytes = .ok doc := by
  obtain ⟨t, ht⟩ := tomlTakes_document.mpr h
  have hread := StoreDocument.deserialize_toml ⟨t, ht⟩
  have hlaw : Crates.tomlParse (Crates.tomlPrint t) = .ok (.ofValue .toml t) :=
    Crates.toml_law _ _ ht
  rw [tomlRead_of_ok ht] at hread
  refine ⟨intoBytes (Crates.tomlPrint t), ?_, ?_⟩
  · simp only [serialize, Serde.tomlToStringPretty, ht]
    rfl
  · simp only [deserialize, fromUtf8_intoBytes, Serde.tomlFromStr, hlaw, Except.bind, fromParsed,
      hread]
    rfl

/-- What the serialiser accepts. -/
theorem exists_serialize_iff [Crates] {format : Format} {doc : StoreDocument} :
    (∃ bytes, serialize format doc = .ok bytes) ↔ (format = .toml → doc.FitsToml) := by
  cases format with
  | json => exact ⟨fun _ h => (by cases h), fun _ => ⟨_, rfl⟩⟩
  | yaml => exact ⟨fun _ h => (by cases h), fun _ => ⟨_, rfl⟩⟩
  | toml => exact ⟨fun h _ => serialize_toml_iff.mp h, fun h => serialize_toml_iff.mpr (h rfl)⟩

/-- What was serialised is read back. -/
theorem deserialize_of_serialize [Crates] {format : Format} {doc : StoreDocument} {bytes : Bytes}
    (h : serialize format doc = .ok bytes) : deserialize format bytes = .ok doc := by
  have hsaved : ∃ bytes, serialize format doc = .ok bytes ∧ deserialize format bytes = .ok doc := by
    cases format with
    | json => exact saved_json doc
    | yaml => exact saved_yaml doc
    | toml => exact saved_toml (serialize_toml_iff.mp ⟨bytes, h⟩)
  obtain ⟨bytes', hser, hdes⟩ := hsaved
  obtain rfl := Except.ok.inj (h.symm.trans hser)
  exact hdes

/-- A policy can not be saved as TOML. -/
theorem policy_not_saved_as_toml :
    letI := Crates.flow
    letI := Chrono.unasked
    ¬ ∀ (calls : List (Call × Instant)) (format : Format), ∃ bytes,
      serialize format (Runs.final MemoryStore.call MemoryStore.new calls) = .ok bytes ∧
      deserialize format bytes = .ok (Runs.final MemoryStore.call MemoryStore.new calls) := by
  let _ := Crates.flow
  let _ := Chrono.unasked
  intro h
  obtain ⟨bytes, hser, -⟩ := h [(.mutate (.setPolicy ⟨1⟩ "accept"), 0)] .toml
  have hfits := serialize_toml_iff.mp ⟨bytes, hser⟩
  exact absurd hfits.policies (by decide)

/-- **Round trip.**  A document is saved and read back unchanged in JSON and
YAML always, and in TOML exactly when it has no policy and no id from
`2 ^ 63` on. -/
theorem serialize_deserialize_iff [Crates] (format : Format) (doc : StoreDocument) :
    (∃ bytes, serialize format doc = .ok bytes ∧ deserialize format bytes = .ok doc) ↔
      (format = .toml → doc.FitsToml) := by
  rw [← exists_serialize_iff]
  constructor
  · rintro ⟨bytes, hser, -⟩
    exact ⟨bytes, hser⟩
  · rintro ⟨bytes, hser⟩
    exact ⟨bytes, hser, deserialize_of_serialize hser⟩

/-- The same policy is saved as JSON. -/
theorem policy_saved_as_json :
    letI := Crates.flow
    ∃ bytes, serialize .json (MemoryStore.setPolicy ⟨1⟩ "accept" MemoryStore.new) = .ok bytes ∧
      deserialize .json bytes = .ok (MemoryStore.setPolicy ⟨1⟩ "accept" MemoryStore.new) := by
  let _ := Crates.flow
  exact (serialize_deserialize_iff .json _).mpr fun h => (by cases h)

end Oxiscale

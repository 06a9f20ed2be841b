/-
Oxiscale/Contents.lean

What stands in a snapshot file, as its format parses it.

`Survives` compares two parsed texts: every entry and item of the one stands at
the same place of the other, with the same data.  `lookup` and `editField` read
and change the field of a struct, which is a map or an array.  `contents` is
what a parser makes of the bytes, and `savedValue` what a writer makes of a
value; what has been written of a struct is known entry by entry
(`savedValue_record`).

A field is read back as it was written only if it was written the way this
program writes it: `Kind` says how.
-/
import Oxiscale.Saved

namespace Oxiscale

open FileStore
open Flow (Key Value)

/-! ### Containment -/

mutual

/-- Everything in the first text stands at the same place of the second.  Of a
scalar only the data counts, not how it is written. -/
def Survives : Parsed → Parsed → Prop
  | .map es, w => ∃ fs, w = .map fs ∧ EntriesSurvive es fs
  | .seq l, w => ∃ l', w = .seq l' ∧ ItemsSurvive l l'
  | .scalar s _, w => ∃ text, w = .scalar s text
  | .str s, w => w = .str s

def ItemsSurvive : List Parsed → List Parsed → Prop
  | [], l' => l' = []
  | x :: l, l' => ∃ w rest, l' = w :: rest ∧ Survives x w ∧ ItemsSurvive l rest

def EntriesSurvive : List (Key × Parsed) → List (Key × Parsed) → Prop
  | [], _ => True
  | (k, x) :: es, fs => (∃ w, (k, w) ∈ fs ∧ Survives x w) ∧ EntriesSurvive es fs

end

section Survives

variable {es fs : List (Key × Parsed)} {l l' : List Parsed} {x w : Parsed}

theorem itemsSurvive_iff : ItemsSurvive l l' ↔ List.Forall₂ Survives l l' := by
  induction l generalizing l' with
  | nil => rw [ItemsSurvive, List.forall₂_nil_left_iff]
  | cons x l ih =>
      rw [ItemsSurvive, List.forall₂_cons_left_iff]
      simp only [ih]
      constructor
      · rintro ⟨w, rest, rfl, hx, hl⟩
        exact ⟨w, rest, hx, hl, rfl⟩
      · rintro ⟨w, rest, hx, hl, rfl⟩
        exact ⟨w, rest, rfl, hx, hl⟩

theorem entriesSurvive_iff :
    EntriesSurvive es fs ↔ ∀ e ∈ es, ∃ w, (e.1, w) ∈ fs ∧ Survives e.2 w := by
  induction es with
  | nil => simp [EntriesSurvive]
  | cons e es ih => rw [EntriesSurvive, List.forall_mem_cons, ih]

/-- Maps may gain entries, and may list them in another order. -/
theorem survives_map : Survives (.map es) (.map fs) ↔
    ∀ e ∈ es, ∃ w, (e.1, w) ∈ fs ∧ Survives e.2 w := by
  rw [Survives, ← entriesSurvive_iff]
  constructor
  · rintro ⟨fs', hfs, h⟩
    cases hfs
    exact h
  · exact fun h => ⟨fs, rfl, h⟩

/-- Lists keep their length. -/
theorem survives_seq : Survives (.seq l) (.seq l') ↔ List.Forall₂ Survives l l' := by
  rw [Survives, ← itemsSurvive_iff]
  constructor
  · rintro ⟨m, hm, h⟩
    cases hm
    exact h
  · exact fun h => ⟨l', rfl, h⟩

@[simp] theorem survives_str {s : String} : Survives (.str s) w ↔ w = .str s := by
  rw [Survives]

/-- The text of a scalar is not compared. -/
@[simp] theorem survives_scalar {s : Scalar} {text : Option String} :
    Survives (.scalar s text) w ↔ ∃ text, w = .scalar s text := by
  rw [Survives]

/-- What survives in a value of some shape has that shape. -/
theorem survives_shape (h : Survives x w) :
    (∀ fs, w = .map fs → ∃ es, x = .map es) ∧ (∀ l', w = .seq l' → ∃ l, x = .seq l) ∧
      (∀ s, w = .str s → x = .str s) ∧
      ∀ s text, w = .scalar s text → ∃ text, x = .scalar s text := by
  cases x with
  | map es =>
      rw [Survives] at h
      obtain ⟨fs, rfl, -⟩ := h
      simp
  | seq l =>
      rw [Survives] at h
      obtain ⟨l', rfl, -⟩ := h
      simp
  | scalar s text =>
      obtain ⟨text', rfl⟩ := survives_scalar.mp h
      simp
  | str s =>
      obtain rfl := survives_str.mp h
      simp

/-- Containment in a map that was written. -/
theorem survives_ofValue_map {format : Format} {ws : List (Key × Value)} :
    Survives (.map es) (.ofValue format (.map ws)) ↔
      ∀ e ∈ es, ∃ u, (e.1, u) ∈ ws ∧ Survives e.2 (.ofValue format u) := by
  rw [ofValue_map, survives_map]
  refine forall₂_congr fun e _ => ⟨?_, ?_⟩
  · rintro ⟨w, hw, hsurvives⟩
    obtain ⟨⟨k, u⟩, hu, heq⟩ := List.mem_map.mp hw
    obtain ⟨rfl, rfl⟩ := Prod.mk.inj heq
    exact ⟨u, hu, hsurvives⟩
  · rintro ⟨u, hu, hsurvives⟩
    exact ⟨_, List.mem_map.mpr ⟨(e.1, u), hu, rfl⟩, hsurvives⟩

end Survives

/-! ### Fields of a struct -/

/-- The value of a field of a struct with these fields. -/
def lookup (names : List String) (name : String) (x : Parsed) : Option Parsed :=
  field .missing name (fieldsOf names x)

/-- Change the value of one field. -/
def editEntry (name : String) (f : Parsed → Parsed) (e : Key × Parsed) : Key × Parsed :=
  if e.1 = .str name then (e.1, f e.2) else e

/-- The same in an array of fields. -/
def editItem : List String → String → (Parsed → Parsed) → List Parsed → List Parsed
  | n :: names, name, f, x :: l => (if n = name then f x else x) :: editItem names name f l
  | _, _, _, l => l

/-- The field by its name, in a map, or by its position, in an array. -/
def editField (names : List String) (name : String) (f : Parsed → Parsed) : Parsed → Parsed
  | .map es => .map (es.map (editEntry name f))
  | .seq l => .seq (editItem names name f l)
  | x => x

section Lookup

variable {names : List String} {name name' : String} {f : Parsed → Parsed}
  {es : List (Key × Parsed)} {x y : Parsed}

theorem editEntry_fst (e : Key × Parsed) : (editEntry name f e).1 = e.1 := by
  unfold editEntry
  split <;> rfl

/-- A field that was read stands once, or not at all. -/
theorem field_eq_some (h : field .missing name es = some x) :
    (x = .missing ∨ (.str name, x) ∈ es) ∧ ∀ y, (.str name, y) ∈ es → y = x := by
  have hmem : ∀ y, (Key.str name, y) ∈ es ↔ (Key.str name, y) ∈ named name es :=
    fun y => by simp [named]
  have hname : ∀ e ∈ named name es, e.1 = .str name := fun e he => by
    simpa using (List.mem_filter.mp he).2
  simp only [hmem]
  rw [field] at h
  rcases hn : named name es with - | ⟨e, - | ⟨e', rest⟩⟩
  · rw [hn] at h
    exact ⟨Or.inl (Option.some.inj h).symm, fun y hy => by cases hy⟩
  · rw [hn] at h hname
    have he : e = (.str name, x) := by
      rw [← hname e (List.mem_singleton_self e), ← Option.some.inj h]
    rw [he]
    refine ⟨Or.inr (List.mem_singleton_self _), fun y hy => ?_⟩
    exact (Prod.mk.inj (List.mem_singleton.mp hy)).2
  · rw [hn] at h
    cases h

/-- What was found under a name stands there once. -/
theorem lookup_eq_some (h : lookup names name (.map es) = some x) (hx : x ≠ .missing) :
    (.str name, x) ∈ es ∧ ∀ y, (.str name, y) ∈ es → y = x := by
  obtain ⟨hmem, hall⟩ := field_eq_some h
  exact ⟨hmem.resolve_left hx, hall⟩

theorem named_map_editEntry (es : List (Key × Parsed)) :
    named name' (es.map (editEntry name f)) = (named name' es).map (editEntry name f) := by
  rw [named, named, List.filter_map]
  refine congrArg (List.map _) (List.filter_congr fun e _ => ?_)
  show decide ((editEntry name f e).1 = _) = _
  rw [editEntry_fst]

/-- An edit does the same to a map and to an array. -/
theorem fieldsOf_editField (x : Parsed) : fieldsOf names (editField names name f x) =
    (fieldsOf names x).map (editEntry name f) := by
  cases x with
  | seq l =>
      show names.zipWith _ (editItem names name f l) = (names.zipWith _ l).map _
      induction names generalizing l with
      | nil => rfl
      | cons n names ih =>
          rcases l with - | ⟨x, l⟩
          · rfl
          · rw [editItem, List.zipWith_cons_cons, List.zipWith_cons_cons, List.map_cons, ih, editEntry]
            by_cases hn : n = name <;> simp [hn]
  | _ => rfl

/-- The field edited is the one that is looked up. -/
theorem lookup_editField_self (h : lookup names name x = some y) (hy : y ≠ .missing) :
    lookup names name (editField names name f x) = some (f y) := by
  rw [lookup, field] at h
  rw [lookup, fieldsOf_editField, field, named_map_editEntry]
  rcases hn : named name (fieldsOf names x) with - | ⟨e, - | ⟨e', rest⟩⟩
  · rw [hn] at h
    exact absurd (Option.some.inj h).symm hy
  · rw [hn] at h
    have hname : e.1 = .str name := by
      have he : e ∈ named name (fieldsOf names x) := hn ▸ List.mem_singleton_self e
      simpa using (List.mem_filter.mp he).2
    show some (editEntry name f e).2 = _
    rw [editEntry, if_pos hname, Option.some.inj h]
  · rw [hn] at h
    cases h

theorem lookup_editField_of_ne (h : name' ≠ name) :
    lookup names name' (editField names name f x) = lookup names name' x := by
  have hsame : (named name' (fieldsOf names x)).map (editEntry name f) =
      named name' (fieldsOf names x) := by
    refine (List.map_congr_left fun e he => ?_).trans (List.map_id _)
    have hname : e.1 = .str name' := by simpa using (List.mem_filter.mp he).2
    have hne : ¬ e.1 = .str name := fun heq => h (Key.str.inj (hname.symm.trans heq))
    rw [editEntry, if_neg hne]
    rfl
  rw [lookup, lookup, fieldsOf_editField, field, field, named_map_editEntry, hsame]

/-- A struct that was read has the shape of one. -/
theorem fieldsOf_of_entries {format : Format} (h : entries format names x = some es) :
    es = fieldsOf names x ∧ ((∃ l, x = .seq l) ∨ x = .map es) := by
  cases x with
  | map es' =>
      obtain rfl := Option.some.inj h
      exact ⟨rfl, Or.inr rfl⟩
  | seq l =>
      rw [entries] at h
      split at h
      · exact ⟨(Option.some.inj h).symm, Or.inl ⟨l, rfl⟩⟩
      · cases h
  | _ => cases h

end Lookup

/-! ### Reading and writing -/

section Contents

variable [Crates] {format : Format} {bytes : Bytes} {doc : StoreDocument}

/-- What the format's parser makes of the bytes. -/
def contents (format : Format) (bytes : Bytes) : Option Parsed :=
  match format with
  | .json => (Crates.jsonParse bytes).toOption
  | .yaml => (Crates.yamlParse bytes).toOption
  | .toml => (fromUtf8 bytes).bind fun text => (Crates.tomlParse text).toOption

/-- What the format's writer leaves of a value. -/
def savedValue (format : Format) (v : Value) : Value :=
  match format with
  | .json => jsonValue v
  | .yaml => v
  | .toml => tomlRead v

theorem deserialize_of_contents {x : Parsed} (h : contents format bytes = some x)
    (hdoc : deserialize format bytes = .ok doc) : StoreDocument.deserialize format x = some doc := by
  have hparsed : ∀ {r : Except String Parsed} (f : Format), r.toOption = some x →
      ((r.bind (fromParsed f)).mapError StoreError.serde = .ok doc) →
      StoreDocument.deserialize f x = some doc := by
    intro r f hr hd
    rcases r with e | x'
    · cases hr
    · obtain rfl : x' = x := Option.some.inj hr
      rcases hx : StoreDocument.deserialize f x' with - | doc'
      · simp [Except.bind, fromParsed, hx, Except.mapError] at hd
      · simpa [Except.bind, fromParsed, hx, Except.mapError] using hd
  cases format with
  | json => exact hparsed .json h hdoc
  | yaml => exact hparsed .yaml h hdoc
  | toml =>
      rcases ht : fromUtf8 bytes with - | text
      · simp [contents, ht] at h
      · simp only [contents, ht, Option.bind_some] at h
        simp only [deserialize, ht] at hdoc
        exact hparsed .toml h hdoc

/-- A JSON file with any value that reads as a document. -/
theorem contents_jsonPrint (v : Value) (hjson : jsonValue v = v)
    (hdoc : StoreDocument.deserialize .json (.ofValue .json v) = some doc) :
    contents .json (Crates.jsonPrint v) = some (.ofValue .json v) ∧
      deserialize .json (Crates.jsonPrint v) = .ok doc := by
  have hparse : Crates.jsonParse (Crates.jsonPrint v) = .ok (.ofValue .json v) := by
    have h := Crates.json_law v
    rwa [hjson] at h
  constructor
  · rw [contents, hparse]
    rfl
  · simp only [deserialize, Serde.jsonFromSlice, hparse, Except.bind, fromParsed, hdoc]
    rfl

/-- What has been serialised is in the file as the format writes it. -/
theorem contents_of_serialize (h : serialize format doc = .ok bytes) :
    contents format bytes =
        some (.ofValue format (savedValue format (doc.serialize Crates.iter))) ∧
      (format = .toml → TomlTakes (doc.serialize Crates.iter)) := by
  cases format with
  | json =>
      obtain rfl := Except.ok.inj h
      refine ⟨?_, fun h => by cases h⟩
      simp only [contents, Crates.json_law]
      rfl
  | yaml =>
      obtain rfl := Except.ok.inj h
      refine ⟨?_, fun h => by cases h⟩
      simp only [contents, Crates.yaml_law]
      rfl
  | toml =>
      -- only TOML may refuse, and then nothing was written
      rcases ht : tomlValue (doc.serialize Crates.iter) with e | t
      · simp [serialize, Serde.tomlToStringPretty, ht, Except.map, Except.mapError] at h
      · simp only [serialize, Serde.tomlToStringPretty, ht] at h
        obtain rfl := Except.ok.inj h
        have hlaw : Crates.tomlParse (Crates.tomlPrint t) = .ok (.ofValue .toml t) :=
          Crates.toml_law _ _ ht
        refine ⟨?_, fun _ => ⟨t, ht⟩⟩
        rw [contents, fromUtf8_intoBytes]
        simp only [Option.bind_some, hlaw, savedValue, tomlRead_of_ok ht]
        rfl

/-- What the writer does not leave out. -/
def isWritten (format : Format) (v : Value) : Bool :=
  match format with
  | .toml => !isNull v
  | _ => true

omit [Crates] in
theorem savedValue_record_perm {fields : List (String × Value)}
    (h : format = .toml → TomlTakes (record fields)) :
    ∃ ws, savedValue format (record fields) = .map ws ∧
      ws.Perm ((fields.filter fun f => isWritten format f.2).map fun f =>
        (.str f.1, savedValue format f.2)) := by
  have hall : (fields.filter fun _ => true) = fields := List.filter_eq_self.mpr fun _ _ => rfl
  cases format with
  | json =>
      refine ⟨_, by rw [savedValue, record, jsonValue], List.Perm.of_eq ?_⟩
      rw [jsonEntries_eq, strKeys, List.map_map]
      exact congrArg (List.map _) hall.symm
  | yaml => exact ⟨_, rfl, List.Perm.of_eq (congrArg (List.map _) hall.symm)⟩
  | toml =>
      obtain ⟨ts, hts⟩ := tomlEntries_ok_iff.mpr (tomlTakes_map.mp (h rfl))
      have hvalue : tomlValue (record fields) = .ok (.map (valuesFirst ts)) := by
        rw [record, tomlValue, hts]
        rfl
      refine ⟨valuesFirst ts, tomlRead_of_ok hvalue, ?_⟩
      refine valuesFirst_perm.trans (List.Perm.of_eq ?_)
      rw [tomlEntries_eq hts, strKeys, List.filter_map, List.map_map]
      rfl

omit [Crates] in
/-- **What is written of a struct**: its fields, in TOML without the missing
options. -/
theorem savedValue_record {fields : List (String × Value)}
    (h : format = .toml → TomlTakes (record fields)) :
    ∃ ws, savedValue format (record fields) = .map ws ∧ ∀ k w, (k, w) ∈ ws ↔
      ∃ f ∈ fields, isWritten format f.2 = true ∧ k = .str f.1 ∧ w = savedValue format f.2 := by
  obtain ⟨ws, hws, hperm⟩ := savedValue_record_perm h
  refine ⟨ws, hws, fun k w => ?_⟩
  rw [hperm.mem_iff, List.mem_map]
  constructor
  · rintro ⟨f, hf, heq⟩
    obtain ⟨hmem, hwritten⟩ := List.mem_filter.mp hf
    obtain ⟨rfl, rfl⟩ := Prod.mk.inj heq
    exact ⟨f, hmem, hwritten, rfl, rfl⟩
  · rintro ⟨f, hmem, hwritten, rfl, rfl⟩
    exact ⟨f, List.mem_filter.mpr ⟨hmem, hwritten⟩, rfl⟩

omit [Crates] in
/-- Plain values are in the file as they are. -/
theorem savedValue_of_isPlain {v : Value} (h : isPlain v = true)
    (ht : format = .toml → isNull v = true ∨ TomlTakes v) : savedValue format v = v := by
  cases format with
  | json => exact jsonValue_of_isPlain h
  | yaml => rfl
  | toml => exact tomlRead_of_isPlain h (ht rfl)

omit [Crates] in
theorem savedValue_seq_map {α : Type} {g : α → Value} {l : List α}
    (h : format = .toml → TomlTakes (.seq (l.map g))) :
    savedValue format (.seq (l.map g)) = .seq (l.map fun x => savedValue format (g x)) ∧
      ∀ x ∈ l, format = .toml → TomlTakes (g x) := by
  cases format with
  | json =>
      refine ⟨?_, fun _ _ h => by cases h⟩
      rw [savedValue, jsonValue, jsonItems_eq, List.map_map]
      rfl
  | yaml => exact ⟨rfl, fun _ _ h => by cases h⟩
  | toml =>
      obtain ⟨hread, htakes⟩ := tomlRead_seq_map (h rfl)
      exact ⟨hread, fun x hx _ => htakes x hx⟩

/-! #### Policies -/

/-- How a format writes the key of a policy. -/
def policyKey (format : Format) (network : NetworkId) : Key :=
  match format with
  | .json => jsonKey (.int network.val.toNat)
  | _ => .int network.val.toNat

omit [Crates] in
/-- A network has one key only. -/
theorem eq_policyKey {k : Key} {network : NetworkId} (h : deserializeKey format k = some network) :
    k = policyKey format network := by
  have hnat : ∀ n < 2 ^ 64, (UInt64.ofNat n).toNat = n :=
    fun n hn => UInt64.toNat_ofNat_of_lt' hn
  cases format with
  | json =>
      -- JSON keys are texts, and the number must be written without leading zeros
      rcases k with n | s
      · cases h
      · rw [deserializeKey] at h
        split at h
        · rename_i n hn
          split at h
          · rename_i hcond
            rw [← Option.some.inj h, policyKey, jsonKey, hnat n hcond.2, hcond.1,
              String.ofList_toList]
          · cases h
        · cases h
  | yaml =>
      rcases k with n | s
      · rw [deserializeKey] at h
        split at h
        · rename_i hn
          show Key.int n = .int network.val.toNat
          rw [← Option.some.inj h, hnat n hn]
        · cases h
      · cases h
  | toml => cases h

omit [Crates] in
/-- No two networks share a key. -/
theorem policyKey_inj {network network' : NetworkId}
    (h : policyKey format network = policyKey format network') : network = network' := by
  have hval : network.val.toNat = network'.val.toNat := by
    cases format with
    | json => exact Flow.toDigits_inj (String.ofList_injective (Key.str.inj h))
    | _ => exact Key.int.inj h
  exact congrArg NetworkId.mk (UInt64.toNat_inj.mp hval)

omit [Crates] in
/-- Each policy is in the file under the key the format gives it. -/
theorem savedValue_policies {l : List (NetworkId × String)}
    (h : format = .toml → TomlTakes (.map (l.map fun e => (.int e.1.val.toNat, .str e.2)))) :
    savedValue format (.map (l.map fun e => (.int e.1.val.toNat, .str e.2))) =
      .map (l.map fun e => (policyKey format e.1, .str e.2)) := by
  cases format with
  | json =>
      rw [savedValue, jsonValue, jsonEntries_eq, List.map_map]
      rfl
  | yaml => rfl
  | toml =>
      -- a table can not have such a key
      rcases l with - | ⟨e, l⟩
      · rfl
      · obtain ⟨⟨s, hs⟩, -⟩ := tomlTakes_map.mp (h rfl) _ List.mem_cons_self
        cases hs

end Contents

/-! ### How a field is written -/

/-- The kinds of fields: numbers and flags, texts that must be there and texts
that need not, lists of texts, lists of records, and the policies. -/
inductive Kind
  | number
  | flag
  | text
  | option
  | texts
  | list
  | table

/-- Written as a text, and not as a plain scalar. -/
def isText : Parsed → Bool
  | .str _ => true
  | _ => false

/-- The value is of the sort that this program writes.  Of what the readers
accept, this leaves out a plain scalar for a text, an empty list or map that is
not written as one, and a null in TOML, which has none. -/
def Kind.fits (format : Format) : Kind → Parsed → Bool
  | .number, .scalar (.int _) _ => true
  | .flag, .scalar (.bool _) _ => true
  | .text, .str _ => true
  | .option, .str _ => true
  | .option, .scalar .null _ => format != .toml
  | .texts, .seq l => l.all isText
  | .list, .seq _ => true
  | .table, .map _ => true
  | _, _ => false

section Kind

/-- Related lists have related members. -/
theorem exists_of_mem_forall₂ {α β : Type} {R : α → β → Prop} {l : List α} {l' : List β}
    (h : List.Forall₂ R l l') : (∀ a ∈ l, ∃ b ∈ l', R a b) ∧ ∀ b ∈ l', ∃ a ∈ l, R a b := by
  induction h with
  | nil => exact ⟨List.forall_mem_nil _, List.forall_mem_nil _⟩
  | @cons a b l l' hab _ ih =>
      refine ⟨List.forall_mem_cons.mpr ⟨⟨b, List.mem_cons_self, hab⟩, fun c hc => ?_⟩,
        List.forall_mem_cons.mpr ⟨⟨a, List.mem_cons_self, hab⟩, fun c hc => ?_⟩⟩
      · obtain ⟨d, hd, hcd⟩ := ih.1 c hc
        exact ⟨d, List.mem_cons_of_mem b hd, hcd⟩
      · obtain ⟨d, hd, hdc⟩ := ih.2 c hc
        exact ⟨d, List.mem_cons_of_mem a hd, hdc⟩

variable {format : Format} {kind : Kind} {x w : Parsed}

/-- What survives in a value of a kind is of that kind. -/
theorem Kind.fits_of_survives (h : Survives x w) (hw : kind.fits format w = true) :
    kind.fits format x = true := by
  obtain ⟨hmap, hseq, hstr, hscalar⟩ := survives_shape h
  cases w with
  | scalar s text =>
      obtain ⟨text', rfl⟩ := hscalar s text rfl
      cases kind <;> cases s <;> simp_all [Kind.fits]
  | str s =>
      obtain rfl := hstr s rfl
      exact hw
  | seq l' =>
      obtain ⟨l, rfl⟩ := hseq l' rfl
      cases kind with
      | texts =>
          rw [survives_seq] at h
          rw [Kind.fits, List.all_eq_true] at hw ⊢
          intro y hy
          obtain ⟨z, hz, hyz⟩ := (exists_of_mem_forall₂ h).1 y hy
          have htext := hw z hz
          cases z with
          | str s => rw [(survives_shape hyz).2.2.1 s rfl]; rfl
          | _ => cases htext
      | list => rfl
      | _ => cases hw
  | map fs =>
      obtain ⟨es, rfl⟩ := hmap fs rfl
      cases kind with
      | table => rfl
      | _ => cases hw

/-- TOML has no null. -/
theorem Kind.fits_toml_null {text : Option String} :
    kind.fits .toml (.scalar .null text) = false := by
  cases kind <;> rfl

end Kind

/-! ### What was read was written so -/

section Inverses

variable {format : Format} {x : Parsed}

/-- A list is read item by item. -/
theorem mapM_eq_some_iff {α β : Type} {item : α → Option β} {l : List α} {l' : List β} :
    l.mapM item = some l' ↔ List.Forall₂ (fun a b => item a = some b) l l' := by
  induction l generalizing l' with
  | nil => simp [eq_comm]
  | cons a l ih =>
      rw [List.mapM_cons, List.forall₂_cons_left_iff]
      simp only [Option.bind_eq_bind, Option.bind_eq_some_iff, ih]
      constructor
      · rintro ⟨b, hb, rest, hrest, heq⟩
        exact ⟨b, rest, hb, hrest, (Option.some.inj heq).symm⟩
      · rintro ⟨b, rest, hb, hrest, rfl⟩
        exact ⟨b, hb, rest, hrest, rfl⟩

/-- An id is written as the number that was read. -/
theorem survives_of_deserializeId {id : UInt64} (h : deserializeId x = some id) :
    Survives x (.ofValue format (serializeId id)) := by
  obtain ⟨n, text, rfl⟩ : ∃ n text, x = .scalar (.int n) text := by
    unfold deserializeId at h
    split at h
    · exact ⟨_, _, rfl⟩
    · cases h
  rw [deserializeId] at h
  split at h
  · rename_i hn
    rw [survives_scalar, ← Option.some.inj h, serializeId, UInt64.toNat_ofNat_of_lt' hn]
    exact ⟨_, rfl⟩
  · cases h

theorem survives_of_deserializeU32 {n : UInt32} (h : deserializeU32 x = some n) :
    Survives x (.ofValue format (.int n.toNat)) := by
  obtain ⟨m, text, rfl⟩ : ∃ m text, x = .scalar (.int m) text := by
    unfold deserializeU32 at h
    split at h
    · exact ⟨_, _, rfl⟩
    · cases h
  rw [deserializeU32] at h
  split at h
  · rename_i hm
    rw [survives_scalar, ← Option.some.inj h, UInt32.toNat_ofNat_of_lt' hm]
    exact ⟨_, rfl⟩
  · cases h

/-- A text, if it is written as one. -/
theorem survives_of_deserializeString {s : String} (h : deserializeString x = some s)
    (hfits : Kind.fits format .text x = true) : Survives x (.ofValue format (.str s)) := by
  cases x with
  | str t =>
      rw [Option.some.inj h]
      exact survives_str.mpr rfl
  | _ => cases hfits

theorem survives_of_deserializeBool {b : Bool} (h : deserializeBool x = some b) :
    Survives x (.ofValue format (.bool b)) := by
  unfold deserializeBool at h
  split at h
  · rw [survives_scalar, ← Option.some.inj h]
    exact ⟨_, rfl⟩
  · cases h

/-- An optional text that stands as a text is written as that text. -/
theorem survives_of_deserializeOption {o : Option String} (h : deserializeOption x = some o)
    (hfits : Kind.fits format .option x = true) :
    Survives x (.ofValue format (serializeOption o)) := by
  cases x with
  | str t =>
      rw [← Option.some.inj h]
      exact survives_str.mpr rfl
  | scalar s text =>
      cases s with
      | null =>
          rw [← Option.some.inj h]
          exact survives_scalar.mpr ⟨_, rfl⟩
      | _ => cases hfits
  | _ => cases hfits

/-- A list of texts is written text by text. -/
theorem survives_of_deserializeStrings {l : List String}
    (h : deserializeList deserializeString x = some l) (hfits : Kind.fits format .texts x = true) :
    Survives x (.ofValue format (serializeStrings l)) := by
  cases x with
  | seq xs =>
      have hread := mapM_eq_some_iff.mp h
      rw [Kind.fits, List.all_eq_true] at hfits
      rw [serializeStrings, ofValue_seq, survives_seq, List.map_map, List.forall₂_map_right_iff]
      refine ((List.forall₂_and_left _ _).mpr ⟨hfits, hread⟩).imp fun y s hy => ?_
      have htext : Kind.fits format .text y = true := by
        cases y with
        | str t => rfl
        | _ => cases hy.1
      exact survives_of_deserializeString hy.2 htext
  | _ => cases hfits

/-- A list of records, unless it was left empty. -/
theorem forall₂_of_deserializeList {α : Type} {item : Parsed → Option α} {as : List α}
    (h : deserializeList item x = some as) : x ≠ .missing ∧
      ∀ l, x = .seq l → List.Forall₂ (fun y a => item y = some a) l as := by
  refine ⟨?_, ?_⟩
  · rintro rfl
    cases h
  · rintro l rfl
    exact mapM_eq_some_iff.mp h

end Inverses

end Oxiscale

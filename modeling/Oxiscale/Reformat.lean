/-
Oxiscale/Reformat.lean

Stores with an explicit format.

`open` reads the file in the format its extension names, and only afterwards
does `with_format` say in which format the flushes write.  So a store built
by `open(p)` and `with_format(f)` can be built again exactly when the format
of `p` reads the last document that was written in `f`: the two formats are
the same, or nothing was written at all, or a document without policies was
written as JSON and is read as YAML.  With policies YAML refuses the JSON
text, whose keys are strings: `serde_yaml` reads a number from a plain scalar
only.

`Documented` is what is known of the grammars: JSON text is YAML with the same
data, and otherwise the text that one format writes for a document is no text
of another.
-/
import Oxiscale.Contents
import Oxiscale.Restart

namespace Oxiscale

open FileStore
open Flow (Key Value)

section Reformat

variable [Crates] [Chrono]

/-! ### Building a store again -/

/-- Building the store again in the same way finds the same data. -/
def Reopens (path : Path) (f : Format) (w : World) : Prop :=
  ∃ store, openStore Faults.none w.disk path = .ok store ∧
    (withFormat f store).memory = w.store.memory

/-- A call that has nothing to write: it consumes a key that is missing, has
expired, or was used. -/
def Loses (doc : StoreDocument) (c : Mutation × Instant × Faults) : Prop :=
  ∃ id, c.1 = .consumePreauthKey id ∧
    ∀ key ∈ Keyed.get PreAuthKey.id id doc.preauthKeys, ¬ MemoryStore.Redeemable c.2.1 key

/-- A call that leaves a policy. -/
def SetsPolicy (m : Mutation) : Prop := ∃ network policy, m = .setPolicy network policy

omit [Crates] [Chrono] in
/-- Format `e` reads what format `f` writes for the document. -/
def Readable (e f : Format) (doc : StoreDocument) : Prop :=
  e = f ∨ (e = .yaml ∧ f = .json ∧ doc.policies = ∅)

omit [Chrono] in
/-- What is known of the grammars. -/
structure Documented : Prop where
  jsonIsYaml : ∀ doc : StoreDocument,
    Crates.yamlParse (Crates.jsonPrint (jsonValue (doc.serialize Crates.iter))) =
      .ok (.ofValue .yaml (jsonValue (doc.serialize Crates.iter)))
  foreign : ∀ e f doc bytes, e ≠ f → ¬ (e = .yaml ∧ f = .json) → serialize f doc = .ok bytes →
    ∃ err, deserialize e bytes = .error err

variable {w : World} {path : Path} {e f : Format} {doc : StoreDocument} {bytes : Bytes}

/-! ### JSON text read as YAML -/

omit [Chrono] in
/-- Without policies YAML reads the JSON text of a document as that document. -/
theorem deserialize_yaml_json (h : doc.policies = ∅) :
    StoreDocument.deserialize .yaml (.ofValue .yaml (jsonValue (doc.serialize Crates.iter))) =
      some doc := by
  rw [jsonValue_serialize]
  refine StoreDocument.deserialize_serializeWith doc ?_
  rw [h, iter_eq_nil_iff.mpr rfl]
  exact deserializePolicies_empty

omit [Chrono] in
/-- With policies it refuses the text at their first key. -/
theorem deserialize_yaml_json_of_ne (h : doc.policies ≠ ∅) :
    StoreDocument.deserialize .yaml (.ofValue .yaml (jsonValue (doc.serialize Crates.iter))) =
      none := by
  rw [jsonValue_serialize, StoreDocument.serializeWith, ofValue_record,
    Option.eq_none_iff_forall_ne_some]
  intro doc' hdoc
  simp only [StoreDocument.deserialize, entries, Option.bind_eq_bind, Option.bind_some,
    Option.bind_eq_some_iff] at hdoc
  obtain ⟨-, -, -, -, -, -, -, -, -, -, policies, ⟨y, hy, hread⟩, -⟩ := hdoc
  have hfield : Parsed.ofValue .yaml (.map ((Crates.iter doc.policies).map
      fun e => (jsonKey (.int e.1.val.toNat), .str e.2))) = y := by
    simpa [field, named] using hy
  rcases hiter : Crates.iter doc.policies with - | ⟨p, ps⟩
  · exact h (iter_eq_nil_iff.mp hiter)
  · rw [← hfield, hiter, ofValue_map] at hread
    simp only [deserializePolicies, Option.bind_eq_bind, Option.bind_eq_some_iff] at hread
    obtain ⟨ts, hts, -⟩ := hread
    obtain ⟨hall, -⟩ := exists_of_mem_forall₂ (mapM_eq_some_iff.mp hts)
    obtain ⟨t, -, hentry⟩ := hall _ List.mem_cons_self
    simp [deserializeEntry, jsonKey, deserializeKey] at hentry

omit [Chrono] in
/-- What the YAML reader makes of JSON text is up to the record readers. -/
theorem Documented.yaml_json (h : Documented) (hser : serialize .json doc = .ok bytes) :
    deserialize .yaml bytes = (fromParsed .yaml
      (.ofValue .yaml (jsonValue (doc.serialize Crates.iter)))).mapError .serde := by
  obtain rfl := Except.ok.inj hser
  simp only [deserialize, Serde.yamlFromSlice, h.jsonIsYaml, Except.bind]

omit [Chrono] in
/-- A readable text gives the document back. -/
theorem Documented.deserialize_of_readable (h : Documented) (hr : Readable e f doc)
    (hser : serialize f doc = .ok bytes) : deserialize e bytes = .ok doc := by
  rcases hr with rfl | ⟨rfl, rfl, hpolicies⟩
  · exact deserialize_of_serialize hser
  · rw [h.yaml_json hser, fromParsed, deserialize_yaml_json hpolicies]
    rfl

omit [Chrono] in
/-- Any other text is refused. -/
theorem Documented.error_of_not_readable (h : Documented) (hr : ¬ Readable e f doc)
    (hser : serialize f doc = .ok bytes) : ∃ err, deserialize e bytes = .error err := by
  rw [Readable, not_or] at hr
  by_cases hyaml : e = .yaml ∧ f = .json
  · obtain ⟨rfl, rfl⟩ := hyaml
    have hpolicies : doc.policies ≠ ∅ := fun hp => hr.2 ⟨rfl, rfl, hp⟩
    rw [h.yaml_json hser, fromParsed, deserialize_yaml_json_of_ne hpolicies]
    exact ⟨_, rfl⟩
  · exact h.foreign e f doc bytes hr.1 hyaml hser

/-! ### One mutation -/

/-- The file holds the document in memory, in the store's format. -/
def Written (w : World) : Prop :=
  ∃ bytes, serialize w.store.format w.store.memory = .ok bytes ∧
    w.disk w.store.path = some bytes

variable {c : Mutation × Instant × Faults} {cs : List (Mutation × Instant × Faults)}

omit [Crates] in
/-- A call loses exactly if it has nothing to write. -/
theorem loses_iff :
    Loses doc c ↔ (MemoryStore.mutate c.2.1 doc c.1).1.flushes = false := by
  obtain ⟨m, now, io⟩ := c
  cases m with
  | consumePreauthKey id =>
      constructor
      · rintro ⟨id', hid, hlost⟩
        obtain rfl := Mutation.consumePreauthKey.inj hid
        exact (MemoryStore.consumePreauthKey_fst_eq_false _ _ _).mpr hlost
      · exact fun hlost => ⟨id, rfl, (MemoryStore.consumePreauthKey_fst_eq_false _ _ _).mp hlost⟩
  | _ =>
      constructor
      · rintro ⟨id, hid, -⟩
        cases hid
      · intro h
        cases h

/-- **Step.**  A call that has nothing to write changes nothing, ... -/
theorem step_of_loses (h : Loses w.store.memory c) : (mutateStep w c).2 = w :=
  mutate_of_not_flushes (loses_iff.mp h)

/-- ... and any other one that returned `Ok` has written the document. -/
theorem written_step (hok : ∃ r, (mutateStep w c).1 = some (.ok r))
    (h : ¬ Loses w.store.memory c) : Written (mutateStep w c).2 := by
  obtain ⟨r, hr⟩ := hok
  obtain ⟨rfl, hstore, hwritten⟩ := mutateStep_ok hr
  have hflush : (MemoryStore.mutate c.2.1 w.store.memory c.1).1.flushes = true := by
    by_contra hf
    exact h (loses_iff.mpr (by simpa using hf))
  obtain ⟨bytes, hser, hdisk⟩ := hwritten hflush
  refine ⟨bytes, ?_, ?_⟩
  · rw [hstore] at hser ⊢
    exact hser
  · rw [hstore]
    exact hdisk

omit [Crates] in
/-- Only setting a policy makes the first one, and none goes away. -/
theorem policies_step (now : Instant) (m : Mutation) :
    (MemoryStore.mutate now doc m).2.policies = ∅ ↔ doc.policies = ∅ ∧ ¬ SetsPolicy m := by
  cases m with
  | setPolicy network policy =>
      constructor
      · intro h
        have hlookup : (doc.policies.insert network policy).lookup network = some policy :=
          Finmap.lookup_insert _
        have hempty : doc.policies.insert network policy = ∅ := h
        rw [hempty, Finmap.lookup_empty] at hlookup
        cases hlookup
      · exact fun h => absurd ⟨network, policy, rfl⟩ h.2
  | consumePreauthKey id =>
      have hsame : (MemoryStore.consumePreauthKey now id doc).2.policies = doc.policies := by
        rw [MemoryStore.consumePreauthKey_snd]
      show (MemoryStore.consumePreauthKey now id doc).2.policies = ∅ ↔ _
      rw [hsame]
      simp [SetsPolicy]
  | _ => simp [MemoryStore.mutate, MemoryStore.upsertNetwork, MemoryStore.upsertUser,
      MemoryStore.upsertNode, MemoryStore.deleteNode, MemoryStore.upsertPreauthKey, SetsPolicy]

/-! ### Every run -/

/-- Calls that lose change neither the memory nor the files. -/
theorem run_of_loses (h : ∀ c ∈ cs, Loses w.store.memory c) :
    Runs.final mutateStep w cs = w := by
  induction cs with
  | nil => rfl
  | cons c cs ih =>
      rw [List.forall_mem_cons] at h
      rw [Runs.final_cons, step_of_loses h.1]
      exact ih h.2

/-- **Run lemma.**  After calls that have all returned `Ok`, one of them with
something to write, the file holds the document in memory. -/
theorem written_run (hok : ∀ o ∈ Runs.outputs mutateStep w cs, ∃ r, o = some (.ok r))
    (h : ¬ ∀ c ∈ cs, Loses w.store.memory c) : Written (Runs.final mutateStep w cs) := by
  induction cs generalizing w with
  | nil => exact absurd (List.forall_mem_nil _) h
  | cons c cs ih =>
      rw [Runs.outputs_cons, List.forall_mem_cons] at hok
      rw [Runs.final_cons]
      by_cases hc : Loses w.store.memory c
      · rw [step_of_loses hc] at hok ⊢
        exact ih hok.2 fun hcs => h (List.forall_mem_cons.mpr ⟨hc, hcs⟩)
      · -- this call has written, and the others have or leave it so
        have hwritten := written_step hok.1 hc
        by_cases hcs : ∀ c' ∈ cs, Loses (mutateStep w c).2.store.memory c'
        · rwa [run_of_loses hcs]
        · exact ih hok.2 hcs

/-- The store keeps its path and its format. -/
theorem store_run (hok : ∀ o ∈ Runs.outputs mutateStep w cs, ∃ r, o = some (.ok r)) :
    (Runs.final mutateStep w cs).store.path = w.store.path ∧
      (Runs.final mutateStep w cs).store.format = w.store.format := by
  refine Runs.final_of_outputs (P := fun w' : World =>
    w'.store.path = w.store.path ∧ w'.store.format = w.store.format) ?_ ⟨rfl, rfl⟩ hok
  rintro w' c hw' ⟨r, hr⟩
  rw [(mutateStep_ok hr).2.1]
  exact hw'

/-- No policies are left exactly if there were none and no call has set one. -/
theorem policies_run (hok : ∀ o ∈ Runs.outputs mutateStep w cs, ∃ r, o = some (.ok r)) :
    (Runs.final mutateStep w cs).store.memory.policies = ∅ ↔
      w.store.memory.policies = ∅ ∧ ∀ c ∈ cs, ¬ SetsPolicy c.1 := by
  induction cs generalizing w with
  | nil => simp
  | cons c cs ih =>
      rw [Runs.outputs_cons, List.forall_mem_cons] at hok
      obtain ⟨⟨r, hr⟩, hrest⟩ := hok
      rw [Runs.final_cons, ih hrest, (mutateStep_ok hr).2.1, policies_step, List.forall_mem_cons,
        and_assoc]

omit [Chrono] in
/-- A written document is found again exactly if the format of the path reads
it. -/
theorem reopens_of_written (h : Documented) (hpath : Format.fromPath path = some e)
    (hw : Written w) (hp : w.store.path = path) (hf : w.store.format = f) :
    Reopens path f w ↔ Readable e f w.store.memory := by
  obtain ⟨bytes, hser, hdisk⟩ := hw
  rw [hf] at hser
  rw [hp] at hdisk
  rw [Reopens, openStore_eq _ hpath, hdisk]
  by_cases hr : Readable e f w.store.memory
  · simp only [h.deserialize_of_readable hr hser]
    exact ⟨fun _ => hr, fun _ => ⟨_, rfl, rfl⟩⟩
  · obtain ⟨err, herr⟩ := h.error_of_not_readable hr hser
    simp only [herr]
    refine ⟨?_, fun hr' => absurd hr' hr⟩
    rintro ⟨store, hstore, -⟩
    cases hstore

/-- **Which stores can be built again.**  After mutations that have all
returned `Ok` a store is found again exactly if the path has the format that
the store writes, or no call had anything to write, or the path is YAML, the
format JSON, and there are no policies. -/
theorem reopens_iff (h : Documented) (path : Path) (e f : Format)
    (hpath : Format.fromPath path = some e) (disk : Disk) (store : FileStore)
    (hopen : openStore Faults.none disk path = .ok store)
    (cs : List (Mutation × Instant × Faults))
    (hok : ∀ o ∈ Runs.outputs mutateStep ⟨withFormat f store, disk⟩ cs, ∃ r, o = some (.ok r)) :
    Reopens path f (Runs.final mutateStep ⟨withFormat f store, disk⟩ cs) ↔
      e = f ∨ (∀ c ∈ cs, Loses store.memory c) ∨
        (e = .yaml ∧ f = .json ∧ store.memory.policies = ∅ ∧ ∀ c ∈ cs, ¬ SetsPolicy c.1) := by
  by_cases hloses : ∀ c ∈ cs, Loses store.memory c
  · -- the file is the one that was opened
    have hfinal : Runs.final mutateStep ⟨withFormat f store, disk⟩ cs =
        ⟨withFormat f store, disk⟩ := run_of_loses hloses
    rw [hfinal]
    exact ⟨fun _ => Or.inr (Or.inl hloses), fun _ => ⟨store, hopen, rfl⟩⟩
  · obtain ⟨hp, hf⟩ := store_run hok
    have hreads : Reopens path f (Runs.final mutateStep ⟨withFormat f store, disk⟩ cs) ↔ _ :=
      reopens_of_written h hpath (written_run hok hloses)
        (hp.trans (format_of_openStore hopen).1) hf
    rw [hreads, Readable, policies_run hok]
    constructor
    · rintro (heq | hyaml)
      · exact Or.inl heq
      · exact Or.inr (Or.inr hyaml)
    · rintro (heq | hall | hyaml)
      · exact Or.inl heq
      · exact absurd hall hloses
      · exact Or.inr hyaml

end Reformat

/-! ### Formats that are told apart -/

section Flow

local instance : Crates := Crates.flow

/-- A block begins with an entry of its own line. -/
theorem exists_yaml_text (doc : StoreDocument) : ∃ e es,
    serialize .yaml doc = .ok (intoBytes (String.ofList (Flow.printLines ':' (e :: es)))) :=
  ⟨_, _, rfl⟩

theorem exists_toml_text {doc : StoreDocument} {bytes : Bytes}
    (h : serialize .toml doc = .ok bytes) :
    ∃ e es, bytes = intoBytes (String.ofList (Flow.printLines '=' (e :: es))) := by
  have htakes := (contents_of_serialize h).2 rfl
  rw [StoreDocument.serialize] at htakes
  obtain ⟨ws, hws, hmem⟩ := savedValue_record fun _ : Format.toml = .toml => htakes
  obtain ⟨t, ht⟩ := htakes
  obtain rfl : t = .map ws := (tomlRead_of_ok ht).symm.trans hws
  -- the version is written, so there is a first entry
  have hversion := (hmem (.str "version") _).mpr ⟨_, List.mem_cons_self, rfl, rfl, rfl⟩
  rcases ws with - | ⟨e, es⟩
  · cases hversion
  · refine ⟨e, es, ?_⟩
    have htoml : Serde.tomlToStringPretty doc = .ok (printTable (.map (e :: es))) := by
      show (tomlValue (doc.serialize Crates.iter)).map printTable = _
      rw [StoreDocument.serialize, ht]
      rfl
    rw [serialize, htoml] at h
    exact (Except.ok.inj h).symm

/-- Text that is not JSON is refused. -/
theorem json_error {cs : List Char} (h : Flow.read cs = none) :
    ∃ err, deserialize .json (intoBytes (String.ofList cs)) = .error err := by
  refine ⟨.serde "syntax error", ?_⟩
  show ((parseBytes .json Flow.read _).bind _).mapError StoreError.serde = _
  rw [parseBytes, fromUtf8_intoBytes]
  simp only [String.toList_ofList, h]
  rfl

theorem yaml_error {cs : List Char} (h : readBlock cs = none) :
    ∃ err, deserialize .yaml (intoBytes (String.ofList cs)) = .error err := by
  refine ⟨.serde "syntax error", ?_⟩
  show ((parseBytes .yaml readBlock _).bind _).mapError StoreError.serde = _
  rw [parseBytes, fromUtf8_intoBytes]
  simp only [String.toList_ofList, h]
  rfl

theorem toml_error {cs : List Char} (h : Flow.readLines '=' cs = none) :
    ∃ err, deserialize .toml (intoBytes (String.ofList cs)) = .error err := by
  refine ⟨.serde "syntax error", ?_⟩
  rw [deserialize, fromUtf8_intoBytes]
  show ((parsedOf .toml ((Flow.readLines '=' (String.ofList cs).toList).map .map)).bind _).mapError
    StoreError.serde = _
  rw [String.toList_ofList, h]
  rfl

/-- Lines with a colon, lines with an equals sign, and a map in brackets are
told apart by each of the three readers. -/
theorem documented_flow : Documented := by
  refine ⟨fun doc => parseBytes_ofList (readBlock_print _), ?_⟩
  intro e f doc bytes hne hyaml hser
  cases f with
  | json =>
      obtain rfl := Except.ok.inj hser
      cases e with
      | json => exact absurd rfl hne
      | yaml => exact absurd ⟨rfl, rfl⟩ hyaml
      | toml => exact toml_error (Flow.readLines_print_map _)
  | yaml =>
      obtain ⟨l, ls, htext⟩ := exists_yaml_text doc
      obtain rfl := Except.ok.inj (htext.symm.trans hser)
      cases e with
      | json => exact json_error (Flow.read_printLines rfl)
      | yaml => exact absurd rfl hne
      | toml => exact toml_error (Flow.readLines_printLines_of_ne rfl rfl (by decide))
  | toml =>
      obtain ⟨l, ls, rfl⟩ := exists_toml_text hser
      cases e with
      | json => exact json_error (Flow.read_printLines rfl)
      | yaml =>
          refine yaml_error ?_
          rw [readBlock, Flow.read_printLines rfl,
            Flow.readLines_printLines_of_ne rfl rfl (by decide)]
          rfl
      | toml => exact absurd rfl hne

end Flow

/-- A small network. -/
def oneNetwork : Network :=
  ⟨⟨1⟩, "default", "ctl.local", "100.64.0.0/10", "fd00/8", "k1", none, "now"⟩

/-- A store opened as JSON that writes YAML can not be built again after an
upsert. -/
theorem json_path_not_reopened_as_yaml :
    letI := Crates.flow
    letI := Chrono.unasked
    ¬ ∀ (path : Path) (f : Format) (disk : Disk) (store : FileStore)
      (cs : List (Mutation × Instant × Faults)), openStore Faults.none disk path = .ok store →
      (∀ o ∈ Runs.outputs mutateStep ⟨withFormat f store, disk⟩ cs, ∃ r, o = some (.ok r)) →
      Reopens path f (Runs.final mutateStep ⟨withFormat f store, disk⟩ cs) := by
  let _ := Crates.flow
  let _ := Chrono.unasked
  intro h
  let path : Path := ⟨[], some "net.json".toList⟩
  have hpath : Format.fromPath path = some .json := by decide
  let store : FileStore := ⟨path, .json, MemoryStore.new, by decide⟩
  let w : World := ⟨withFormat .yaml store, fun _ => none⟩
  have hcall : mutate Faults.none 0 w (.upsertNetwork oneNetwork) = _ :=
    mutate_none_of_serialize rfl rfl
  have hok : ∀ o ∈ Runs.outputs mutateStep w [(.upsertNetwork oneNetwork, 0, Faults.none)],
      ∃ r, o = some (.ok r) := by
    rw [Runs.outputs_cons, Runs.outputs_nil]
    refine List.forall_mem_singleton.mpr ⟨.unit, ?_⟩
    show (mutate Faults.none 0 w (.upsertNetwork oneNetwork)).1 = _
    rw [hcall]
    rfl
  have hwritten := written_run hok fun hall => by
    obtain ⟨id, hid, -⟩ := hall _ List.mem_cons_self
    cases hid
  obtain ⟨hp, hf⟩ := store_run hok
  have hopen : openStore Faults.none (fun _ => none) path = .ok store := openStore_eq _ hpath
  have hreads := (reopens_of_written documented_flow hpath hwritten hp hf).mp
    (h path .yaml _ store _ hopen hok)
  rcases hreads with heq | ⟨heq, -⟩ <;> cases heq

/-- A store on a YAML path that writes JSON can be built again after the same
upsert, as it has no policy. -/
theorem yaml_path_reopened_as_json :
    letI := Crates.flow
    letI := Chrono.unasked
    let path : Path := ⟨[], some "net.yaml".toList⟩
    let store : FileStore := ⟨path, .yaml, MemoryStore.new, by decide⟩
    Reopens path .json (Runs.final mutateStep ⟨withFormat .json store, fun _ => none⟩
      [(.upsertNetwork oneNetwork, 0, Faults.none)]) := by
  let _ := Crates.flow
  let _ := Chrono.unasked
  intro path store
  have hpath : Format.fromPath path = some .yaml := by decide
  have hopen : openStore Faults.none (fun _ => none) path = .ok store := openStore_eq _ hpath
  have hcall : mutate Faults.none 0 ⟨withFormat .json store, fun _ => none⟩
      (.upsertNetwork oneNetwork) = _ := mutate_none_of_serialize rfl rfl
  refine (reopens_iff documented_flow path .yaml .json hpath _ store hopen _ ?_).mpr
    (Or.inr (Or.inr ⟨rfl, rfl, rfl, ?_⟩))
  · rw [Runs.outputs_cons, Runs.outputs_nil]
    refine List.forall_mem_singleton.mpr ⟨.unit, ?_⟩
    show (mutate Faults.none 0 ⟨withFormat .json store, fun _ => none⟩
      (.upsertNetwork oneNetwork)).1 = _
    rw [hcall]
    rfl
  · refine List.forall_mem_singleton.mpr ?_
    rintro ⟨network, policy, hset⟩
    cases hset

end Oxiscale

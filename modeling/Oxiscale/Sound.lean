/-
Oxiscale/Sound.lean

Stores opened from files that nobody has checked.

Every lookup, replacement and consumption acts on the first record under an
id.  `Sound` says what callers take for granted about that: ids are distinct,
what was upserted is the only record under its id, and a consumed single-use
key has no twin that could still be used.  The operations keep ids distinct
(`IdsDistinct.mutate`), but `load` does not look at them, so all of it holds
exactly if they are distinct in the file (`opened_sound_iff`).
-/
import Oxiscale.Ordered
import Oxiscale.Restart

namespace Oxiscale

open FileStore

/-! ### What callers take for granted -/

/-- What a mutation with this reply leaves, by the document it found. -/
def Shows (doc : StoreDocument) (m : Mutation) (r : Reply) (doc' : StoreDocument) : Prop :=
  match m, r with
  | .upsertNetwork net, _ =>
    (MemoryStore.listNetworks doc').filter (fun n => n.id = net.id) = [net]
  | .upsertUser user, _ => ∀ network,
    (MemoryStore.listUsers network doc').filter (fun u => u.id = user.id) =
      if user.networkId = network then [user] else []
  | .upsertNode node, _ => MemoryStore.getNode node.id doc' = some node ∧ ∀ network,
    (MemoryStore.listNodes network doc').filter (fun n => n.id = node.id) =
      if node.networkId = network then [node] else []
  | .upsertPreauthKey key, _ => ∀ network,
    (MemoryStore.listPreauthKeys network doc').filter (fun k => k.id = key.id) =
      if key.networkId = network then [key] else []
  | .consumePreauthKey id, .consumed true =>
    ∀ key ∈ Keyed.get PreAuthKey.id id doc.preauthKeys, key.reusable = false →
      ∀ network, ∀ k ∈ MemoryStore.listPreauthKeys network doc', k.id = id → k.used = true
  | _, _ => True

section Sound

variable [Serde] [Chrono]

/-- Ids are distinct, and the next mutation that returns `Ok` shows. -/
structure Sound (w : World) : Prop where
  distinct : w.store.memory.IdsDistinct
  shows : ∀ m now io r, (mutate io now w m).1 = some (.ok r) →
    Shows w.store.memory m r (mutate io now w m).2.store.memory

/-! ### One call -/

variable {w : World} {doc : StoreDocument}

omit [Serde] in
/-- With distinct ids, every mutation shows. -/
theorem shows_mutate (h : doc.IdsDistinct) (now : Instant) (m : Mutation) :
    Shows doc m (MemoryStore.mutate now doc m).1 (MemoryStore.mutate now doc m).2 := by
  have hnext := h.mutate now m
  cases m with
  | upsertNetwork net => exact Keyed.filter_key hnext.networks Keyed.get_put_self
  | upsertUser user =>
      intro network
      have hview := Keyed.filter_filter_key (p := fun u => u.networkId = network) hnext.users
        Keyed.get_put_self
      simp only [decide_eq_true_eq] at hview
      exact hview
  | upsertNode node =>
      refine ⟨Keyed.get_put_self, fun network => ?_⟩
      have hview := Keyed.filter_filter_key (p := fun n => n.networkId = network) hnext.nodes
        Keyed.get_put_self
      simp only [decide_eq_true_eq] at hview
      exact hview
  | upsertPreauthKey key =>
      intro network
      have hview := Keyed.filter_filter_key (p := fun k => k.networkId = network)
        hnext.preauthKeys Keyed.get_put_self
      simp only [decide_eq_true_eq] at hview
      exact hview
  | consumePreauthKey id =>
      show Shows doc _ (.consumed (MemoryStore.consumePreauthKey now id doc).1)
        (MemoryStore.consumePreauthKey now id doc).2
      rcases hwon : (MemoryStore.consumePreauthKey now id doc).1 with - | -
      · trivial
      · intro key hkey hr network k hk hid
        have hmod : (MemoryStore.consumePreauthKey now id doc).2.preauthKeys =
            Keyed.modify PreAuthKey.id id MemoryStore.redeem doc.preauthKeys := by
          rw [MemoryStore.consumePreauthKey_snd, hwon]
          rfl
        have hget : Keyed.get PreAuthKey.id id
            (MemoryStore.consumePreauthKey now id doc).2.preauthKeys =
            some (MemoryStore.redeem key) := by
          rw [hmod, Keyed.get_modify_self MemoryStore.redeem_id_of_get, hkey]
          rfl
        have hused : (MemoryStore.redeem key).used = true := by
          simp [MemoryStore.redeem, hr, MemoryStore.markUsed]
        -- there is no other record under the id
        exact Keyed.forall_key (P := fun k => k.used = true) hnext.preauthKeys
          (Keyed.mem_of_get hget) (Keyed.key_of_get hget) hused k (List.mem_of_mem_filter hk) hid
  | _ => trivial

/-- Distinct ids are all that is asked of the memory. -/
theorem Sound.of_distinct (h : w.store.memory.IdsDistinct) : Sound w where
  distinct := h
  shows m now io r hok := by
    obtain ⟨rfl, hmem⟩ := memory_of_ok hok
    rw [hmem]
    exact shows_mutate h now m

/-! ### Every sequence of calls -/

/-- **Step lemma.** -/
theorem idsDistinct_call (h : w.store.memory.IdsDistinct) (x : Call × Instant × Faults)
    (hok : ∃ r, (call w x).1 = some (.ok r)) : (call w x).2.store.memory.IdsDistinct := by
  obtain ⟨c, now, io⟩ := x
  obtain ⟨r, hr⟩ := hok
  cases c with
  | mutate m =>
      show (mutate io now w m).2.store.memory.IdsDistinct
      rw [(memory_of_ok hr).2]
      exact h.mutate now m
  | query q =>
      have hsame : (query io w q).2 = w := by
        unfold query
        split <;> rfl
      show (query io w q).2.store.memory.IdsDistinct
      rw [hsame]
      exact h

/-- **Run lemma.** -/
theorem idsDistinct_run {calls : List (Call × Instant × Faults)} (h : w.store.memory.IdsDistinct)
    (hok : ∀ out ∈ Runs.outputs call w calls, ∃ r, out = some (.ok r)) :
    (Runs.final call w calls).store.memory.IdsDistinct :=
  Runs.final_of_outputs (P := fun v : World => v.store.memory.IdsDistinct)
    (Q := fun out => ∃ r, out = some (.ok r)) (fun _ x h hgood => idsDistinct_call h x hgood) h hok

end Sound

/-- A file that lists a single-use key twice: once the first is consumed, the
second is still unused. -/
theorem twin_key_stays_usable :
    letI := Crates.flow
    letI := Chrono.unasked
    ¬ ∀ (disk : Disk) (path : Path) (store : FileStore),
      openStore Faults.none disk path = .ok store →
      ∀ calls, (∀ out ∈ Runs.outputs call ⟨store, disk⟩ calls, ∃ r, out = some (.ok r)) →
        Sound (Runs.final call ⟨store, disk⟩ calls) := by
  let _ := Crates.flow
  let _ := Chrono.unasked
  intro h
  let key (hash : String) : PreAuthKey :=
    ⟨⟨1⟩, ⟨1⟩, "pk", hash, false, false, false, none, []⟩
  let store : FileStore := ⟨⟨[], some "net.json".toList⟩, .json,
    { MemoryStore.new with preauthKeys := [key "first", key "second"] }, by decide⟩
  let bytes := Crates.jsonPrint (jsonValue (store.memory.serialize Crates.iter))
  have hser : serialize .json store.memory = .ok bytes := rfl
  have hopen : openStore Faults.none (fun _ => some bytes) store.path = .ok store :=
    openStore_serialized rfl rfl (deserialize_of_serialize hser)
  have hsound : Sound ⟨store, fun _ => some bytes⟩ :=
    h _ _ store hopen [] fun _ hout => by cases hout
  have hcall : mutate Faults.none 0 ⟨store, fun _ => some bytes⟩ (.consumePreauthKey ⟨1⟩) = _ :=
    mutate_none_of_serialize rfl rfl
  have hshows := hsound.shows (.consumePreauthKey ⟨1⟩) 0 Faults.none (.consumed true) (by
    rw [hcall]
    rfl)
  rw [hcall] at hshows
  have hused : (key "second").used = true :=
    hshows (key "first") rfl rfl ⟨1⟩ (key "second") (List.mem_cons_of_mem _ (List.mem_singleton_self _))
      rfl
  cases hused

section Sound

variable [Serde] [Chrono]

/-- **When an accepted file yields a sound store**: after every sequence of
calls that return `Ok` the store is sound exactly if ids are distinct in the
file. -/
theorem opened_sound_iff (disk : Disk) (path : Path) (store : FileStore)
    (hopen : openStore Faults.none disk path = .ok store) :
    (∀ calls, (∀ out ∈ Runs.outputs call ⟨store, disk⟩ calls, ∃ r, out = some (.ok r)) →
      Sound (Runs.final call ⟨store, disk⟩ calls)) ↔
    ∀ bytes doc, disk path = some bytes → deserialize store.format bytes = .ok doc →
      doc.IdsDistinct := by
  constructor
  · intro h bytes doc hbytes hdoc
    have hdistinct : store.memory.IdsDistinct := (h [] fun _ hout => by cases hout).distinct
    rcases memory_of_openStore hopen with ⟨hnone, -⟩ | ⟨bytes', hbytes', hmem⟩
    · cases hnone.symm.trans hbytes
    · obtain rfl := Option.some.inj (hbytes.symm.trans hbytes')
      obtain rfl := Except.ok.inj (hdoc.symm.trans hmem)
      exact hdistinct
  · intro h calls hok
    refine Sound.of_distinct (idsDistinct_run ?_ hok)
    rcases memory_of_openStore hopen with ⟨-, hnew⟩ | ⟨bytes, hbytes, hmem⟩
    · show store.memory.IdsDistinct
      rw [hnew]
      exact Ordered.new.idsDistinct
    · exact h bytes store.memory hbytes hmem

end Sound

/-- A file with one single-use key. -/
theorem opened_sound_iff_one_key :
    letI := Crates.flow
    letI := Chrono.unasked
    let store : FileStore := ⟨⟨[], some "net.json".toList⟩, .json, { MemoryStore.new with
      preauthKeys := [⟨⟨1⟩, ⟨1⟩, "pk", "hash", false, false, false, none, []⟩] }, by decide⟩
    let disk : Disk := fun _ => some (Crates.jsonPrint (jsonValue (store.memory.serialize Crates.iter)))
    (∀ calls, (∀ out ∈ Runs.outputs call ⟨store, disk⟩ calls, ∃ r, out = some (.ok r)) →
      Sound (Runs.final call ⟨store, disk⟩ calls)) ↔
    ∀ bytes doc, disk store.path = some bytes → deserialize store.format bytes = .ok doc →
      doc.IdsDistinct := by
  let _ := Crates.flow
  let _ := Chrono.unasked
  intro store disk
  have hser : serialize .json store.memory =
      .ok (Crates.jsonPrint (jsonValue (store.memory.serialize Crates.iter))) := rfl
  exact opened_sound_iff disk store.path store
    (openStore_serialized rfl rfl (deserialize_of_serialize hser))

end Oxiscale

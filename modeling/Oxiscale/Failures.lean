/-
Oxiscale/Failures.lean

Mutations of a `FileStore` that do not return `Ok`.

Every mutation changes the memory first and flushes afterwards, and nothing
is taken back when the flush fails or the future is dropped before it.  So a
failed mutation leaves no trace in exactly two cases: it was dropped while
waiting for the lock, or its change was no change (`Mutation.Idle`), such as
an upsert of the record that is already stored.

`LeavesNoTrace` compares everything later calls can show: replies, memory and
target file.  The only thing two worlds may differ in is then the temp file,
and `observe_agreeOff` is the bisimulation that says nobody looks at it.
-/
import Oxiscale.Ordered
import Oxiscale.Saved

namespace Oxiscale

open FileStore

section Failures

variable [Serde] [Chrono]

/-! ### What later calls show -/

/-- One call, with its result, the memory and the content of the target
afterwards. -/
def observe (w : World) (x : Call × Instant × Faults) :
    (Option (Except StoreError Reply) × StoreDocument × Option Bytes) × World :=
  let (r, w') := call w x
  ((r, w'.store.memory, w'.disk w'.store.path), w')

/-- Going on from `w'` is in every respect like going on from `w`. -/
structure LeavesNoTrace (w w' : World) : Prop where
  memory : w'.store.memory = w.store.memory
  target : w'.disk w.store.path = w.disk w.store.path
  later : ∀ calls, Runs.outputs observe w' calls = Runs.outputs observe w calls

/-- The worlds differ in the temp file at most. -/
structure SameButTemp (w w' : World) : Prop where
  store : w'.store = w.store
  disk : AgreeOff w.store.path.tmpPath w'.disk w.disk

omit [Serde] [Chrono] in
theorem SameButTemp.target {w w' : World} (h : SameButTemp w w') :
    w'.disk w.store.path = w.disk w.store.path :=
  h.disk _ (tmpPath_ne w.store.accepted w.store.accepted).symm

omit [Serde] [Chrono] in
theorem SameButTemp.setMemory {w w' : World} (h : SameButTemp w w') (doc : StoreDocument) :
    SameButTemp (w.setMemory doc) (w'.setMemory doc) where
  store := by simp only [World.setMemory, h.store]
  disk := h.disk

omit [Chrono] in
/-- What the temp file held before makes no difference to a flush. -/
theorem flushThen_sameButTemp {w w' : World} (h : SameButTemp w w') (io : Faults)
    (reply : Reply) : (flushThen io reply w').1 = (flushThen io reply w).1 ∧
      SameButTemp (flushThen io reply w).2 (flushThen io reply w').2 := by
  obtain ⟨store, disk⟩ := w
  obtain ⟨_, disk'⟩ := w'
  obtain ⟨hstore, hdisk⟩ := h
  obtain rfl : _ = store := hstore
  by_cases hdrop : io.dropAt = some .snapshot
  · simpa only [flushThen, if_pos hdrop, true_and] using ⟨rfl, hdisk⟩
  · obtain ⟨hres, hoff⟩ := flush_agreeOff io (w := ⟨_, disk⟩) hdisk
    rcases hf : flush io ⟨_, disk⟩ with ⟨r, d⟩
    rcases hf' : flush io ⟨_, disk'⟩ with ⟨r', d'⟩
    rw [hf, hf'] at hres hoff
    obtain rfl : r' = r := hres
    rcases r' with e | u
    · simpa only [flushThen, if_neg hdrop, hf, hf', true_and] using ⟨rfl, hoff⟩
    · simpa only [flushThen, if_neg hdrop, hf, hf', true_and] using ⟨rfl, hoff⟩

/-- **Bisimulation step.**  No call looks at the temp file an earlier call
left behind. -/
theorem call_sameButTemp {w w' : World} (h : SameButTemp w w')
    (x : Call × Instant × Faults) :
    (call w' x).1 = (call w x).1 ∧ SameButTemp (call w x).2 (call w' x).2 := by
  obtain ⟨c, now, io⟩ := x
  cases c with
  | query q =>
      simp only [call, query, h.store]
      split
      · exact ⟨rfl, h⟩
      · exact ⟨rfl, h⟩
  | mutate m =>
      simp only [call, mutate_eq, h.store]
      split
      · exact ⟨rfl, h⟩
      · split
        · exact flushThen_sameButTemp (h.setMemory _) io _
        · exact ⟨rfl, h.setMemory _⟩

/-- No call tells the two worlds apart. -/
theorem observe_sameButTemp {w w' : World} (h : SameButTemp w w')
    (x : Call × Instant × Faults) :
    (observe w' x).1 = (observe w x).1 ∧ SameButTemp (observe w x).2 (observe w' x).2 := by
  obtain ⟨hres, hnext⟩ := call_sameButTemp h x
  refine ⟨?_, hnext⟩
  show ((call w' x).1, (call w' x).2.store.memory, (call w' x).2.disk (call w' x).2.store.path) =
    ((call w x).1, (call w x).2.store.memory, (call w x).2.disk (call w x).2.store.path)
  rw [hres, hnext.store, hnext.target]

theorem SameButTemp.leavesNoTrace {w w' : World} (h : SameButTemp w w') :
    LeavesNoTrace w w' where
  memory := by rw [h.store]
  target := h.target
  later calls := Runs.outputs_bisim (R := fun v v' => SameButTemp v' v)
    (fun _ _ x hx => observe_sameButTemp hx x) h

/-! ### Mutations that change nothing -/

/-- The change a mutation makes to the document is no change. -/
def Mutation.Idle (now : Instant) (doc : StoreDocument) : Mutation → Prop
  | .upsertNetwork net => Keyed.get Network.id net.id doc.networks = some net
  | .upsertUser user => Keyed.get User.id user.id doc.users = some user
  | .upsertNode node => Keyed.get Node.id node.id doc.nodes = some node
  | .deleteNode id => Keyed.get Node.id id doc.nodes = none
  | .upsertPreauthKey key => Keyed.get PreAuthKey.id key.id doc.preauthKeys = some key
  | .consumePreauthKey id => ∀ key ∈ Keyed.get PreAuthKey.id id doc.preauthKeys,
      key.reusable = true ∨ ¬ MemoryStore.Redeemable now key
  | .setPolicy network policy => doc.policies.lookup network = some policy

omit [Serde] in
/-- A mutation leaves the document exactly when it has nothing to change. -/
theorem mutate_eq_self_iff {now : Instant} {doc : StoreDocument} {m : Mutation} :
    (MemoryStore.mutate now doc m).2 = doc ↔ m.Idle now doc := by
  cases m with
  | upsertNetwork net =>
      rw [Mutation.Idle, ← Keyed.put_eq_self_iff]
      exact ⟨congrArg StoreDocument.networks, fun h => congrArg (fun l => { doc with networks := l }) h⟩
  | upsertUser user =>
      rw [Mutation.Idle, ← Keyed.put_eq_self_iff]
      exact ⟨congrArg StoreDocument.users, fun h => congrArg (fun l => { doc with users := l }) h⟩
  | upsertNode node =>
      rw [Mutation.Idle, ← Keyed.put_eq_self_iff]
      exact ⟨congrArg StoreDocument.nodes, fun h => congrArg (fun l => { doc with nodes := l }) h⟩
  | deleteNode id =>
      rw [Mutation.Idle, ← Keyed.erase_eq_self_iff]
      exact ⟨congrArg StoreDocument.nodes, fun h => congrArg (fun l => { doc with nodes := l }) h⟩
  | upsertPreauthKey key =>
      rw [Mutation.Idle, ← Keyed.put_eq_self_iff]
      exact ⟨congrArg StoreDocument.preauthKeys,
        fun h => congrArg (fun l => { doc with preauthKeys := l }) h⟩
  | consumePreauthKey id =>
      show (MemoryStore.consumePreauthKey now id doc).2 = doc ↔ _
      rw [Mutation.Idle]
      rcases MemoryStore.consumePreauthKey_cases now id doc with
        ⟨h, hno⟩ | ⟨key, hg, hred, hr, h⟩ | ⟨key, hg, hred, hr, hu, h⟩
      · rw [h]
        exact ⟨fun _ key hk => Or.inr (hno key hk), fun _ => rfl⟩
      · rw [h, hg]
        simp [hr]
      · -- a single-use key that is redeemed gets its flag
        rw [h, hg]
        refine ⟨fun heq => ?_, fun hidle => absurd hred ?_⟩
        · have hkeys := congrArg StoreDocument.preauthKeys heq
          have hsame := Keyed.modify_eq_self_iff.mp hkeys key hg
          have hflag := congrArg PreAuthKey.used hsame
          simp [MemoryStore.markUsed, hu] at hflag
        · simpa [hr] using hidle key rfl
  | setPolicy network policy =>
      rw [Mutation.Idle]
      constructor
      · intro h
        have hpol : doc.policies.insert network policy = doc.policies :=
          congrArg StoreDocument.policies h
        rw [← hpol]
        exact Finmap.lookup_insert _
      · intro h
        have hpol : doc.policies.insert network policy = doc.policies := by
          apply Finmap.ext_lookup
          intro net
          rcases eq_or_ne net network with rfl | hne
          · rw [Finmap.lookup_insert, h]
          · rw [Finmap.lookup_insert_of_ne _ hne]
        exact congrArg (fun p => { doc with policies := p }) hpol

/-! ### Failed mutations -/

/-- A mutation that did not return `Ok` was dropped at the lock, or has
changed the memory and nothing but the temp file on disk. -/
theorem mutate_not_ok {io : Faults} {now : Instant} {w : World} {m : Mutation}
    (hfail : ∀ r, (mutate io now w m).1 ≠ some (.ok r)) :
    (io.dropAt = some .lock ∧ (mutate io now w m).2 = w) ∨
    (io.dropAt ≠ some .lock ∧ ∃ d, AgreeOff w.store.path.tmpPath d w.disk ∧
      (mutate io now w m).2 =
        { w.setMemory (MemoryStore.mutate now w.store.memory m).2 with disk := d }) := by
  rw [mutate_eq] at hfail ⊢
  by_cases hlock : io.dropAt = some .lock
  · exact Or.inl ⟨hlock, by rw [if_pos hlock]⟩
  · rw [if_neg hlock] at hfail ⊢
    refine Or.inr ⟨hlock, ?_⟩
    rcases hf : (MemoryStore.mutate now w.store.memory m).1.flushes with - | -
    -- a lost consume returns `Ok`
    · simp only [hf] at hfail
      exact absurd rfl (hfail _)
    · simp only [hf, if_true] at hfail ⊢
      by_cases hdrop : io.dropAt = some .snapshot
      · refine ⟨w.disk, fun _ _ => rfl, ?_⟩
        rw [flushThen, if_pos hdrop]
        rfl
      · rcases flush_cases io (w.setMemory (MemoryStore.mutate now w.store.memory m).2)
          with ⟨e, d, hflush, hoff⟩ | ⟨bytes, -, hflush⟩
        · refine ⟨d, hoff, ?_⟩
          rw [flushThen, if_neg hdrop, hflush]
        · rw [flushThen, if_neg hdrop, hflush] at hfail
          exact absurd rfl (hfail _)

/-- **When a failed mutation leaves no trace**: exactly when it was dropped
while waiting for the lock, or its change was no change. -/
theorem failed_mutation_leavesNoTrace_iff (w : World) (m : Mutation) (now : Instant)
    (io : Faults) (hfail : ∀ r, (mutate io now w m).1 ≠ some (.ok r)) :
    LeavesNoTrace w (mutate io now w m).2 ↔
      io.dropAt = some .lock ∨ m.Idle now w.store.memory := by
  rcases mutate_not_ok hfail with ⟨hlock, hw⟩ | ⟨hlock, d, hoff, hw⟩
  · have hself : SameButTemp w w := ⟨rfl, fun _ _ => rfl⟩
    rw [hw]
    exact ⟨fun _ => Or.inl hlock, fun _ => hself.leavesNoTrace⟩
  · rw [hw]
    constructor
    · intro h
      exact Or.inr (mutate_eq_self_iff.mp h.memory)
    · rintro (h | h)
      · exact absurd h hlock
      · have hdoc := mutate_eq_self_iff.mpr h
        have hsame : SameButTemp w
            { w.setMemory (MemoryStore.mutate now w.store.memory m).2 with disk := d } := by
          refine ⟨?_, hoff⟩
          rw [hdoc]
          rfl
        exact hsame.leavesNoTrace

end Failures

/-- A full disk makes a consume fail, and the key is spent all the same. -/
theorem failed_consume_spends_key :
    letI := Crates.flow
    letI := Chrono.unasked
    ¬ ∀ (disk : Disk) (path : Path) (store : FileStore) (calls : List (Call × Instant × Faults))
      (m : Mutation) (now : Instant) (io : Faults),
      openStore Faults.none disk path = .ok store →
      let w := Runs.final call ⟨store, disk⟩ calls
      (∀ r, (mutate io now w m).1 ≠ some (.ok r)) → LeavesNoTrace w (mutate io now w m).2 := by
  let _ := Crates.flow
  let _ := Chrono.unasked
  intro h
  let key : PreAuthKey := ⟨⟨1⟩, ⟨1⟩, "000000000001", "hash", false, false, false, none, []⟩
  let full : Faults :=
    { Faults.none with write := some ⟨.other "No space left on device", none⟩ }
  have htrace := h (fun _ => none) ⟨[], some "net.json".toList⟩ _
    [(.mutate (.upsertPreauthKey key), 0, Faults.none)] (.consumePreauthKey ⟨1⟩) 0 full rfl
    (fun r hr => by cases hr)
  have hkeys := congrArg StoreDocument.preauthKeys htrace.memory
  have hused : ({ key with used := true } : PreAuthKey) = key := List.head_eq_of_cons_eq hkeys
  exact absurd (congrArg PreAuthKey.used hused) (by decide)

/-- Writing back the record that is stored may fail without a trace. -/
theorem failed_rewrite_leavesNoTrace :
    letI := Crates.flow
    letI := Chrono.unasked
    let net : Network := ⟨⟨1⟩, "default", "ctl.local", "100.64.0.0/10", "fd7a::/48", "k1", none, ""⟩
    let io : Faults := { Faults.none with rename := some (.other "Permission denied") }
    let w : World := ⟨⟨⟨[], some "net.json".toList⟩, .json,
      MemoryStore.upsertNetwork net MemoryStore.new, by decide⟩, fun _ => none⟩
    LeavesNoTrace w (mutate io 0 w (.upsertNetwork net)).2 := by
  let _ := Crates.flow
  let _ := Chrono.unasked
  intro net io w
  exact (failed_mutation_leavesNoTrace_iff w (.upsertNetwork net) 0 io
    (fun r hr => by cases hr)).mpr (Or.inr rfl)

end Oxiscale

/-
Oxiscale/Reload.lean

`load()` on a store that is in use.

`load` reads the file and then replaces the document.  A missing file is
answered by returning at once, so the document stays as it is: what `load`
establishes is the state of the file only when there is one, or when the
memory is empty already (`loads_iff`).

Between the two halves of `load` other tasks may complete whole calls, and
the document that is put in place is then older than theirs
(`change_lost_by_load`).  In the runs in which what completes there changes
nothing (`Quiet`), the memory and the file always have every acknowledged
mutation.  The invariant `Reloads` says that the file is the memory whenever
the memory can be serialised at all, and that what a `load` has read is still
what the file says.
-/
import Oxiscale.Failures
import Oxiscale.Restart

namespace Oxiscale

open FileStore

/-! ### What a path holds -/

section Loading

variable [Serde]

/-- What was read from the path stands for the document; a missing file
stands for the empty one. -/
def Decodes (format : Format) (doc : StoreDocument) : Except IoError Bytes → Prop
  | .error .notFound => doc = MemoryStore.new
  | .error (.other _) => False
  | .ok bytes => deserialize format bytes = .ok doc

/-- The second half of `load`, after the file was read. -/
def FileStore.loadFrom (store : FileStore) :
    Except IoError Bytes → Except StoreError Unit × FileStore
  | .error .notFound => (.ok (), store)
  | .error e => (.error (.io e), store)
  | .ok bytes =>
    match deserialize store.format bytes with
    | .error e => (.error e, store)
    | .ok doc => (.ok (), { store with memory := doc })

theorem load_eq (io : Faults) (disk : Disk) (store : FileStore) :
    load io disk store = store.loadFrom (disk.read io store.path) := by
  unfold load loadFrom
  rcases disk.read io store.path with e | bytes
  · cases e <;> rfl
  · rfl

variable {io : Faults} {disk : Disk} {store : FileStore} {r : Except IoError Bytes}

/-- Everything `load` can do after reading. -/
theorem loadFrom_cases (store : FileStore) (r : Except IoError Bytes) :
    (r = .error .notFound ∧ store.loadFrom r = (.ok (), store)) ∨
    (∃ message, r = .error (.other message) ∧
      store.loadFrom r = (.error (.io (.other message)), store)) ∨
    (∃ bytes e, r = .ok bytes ∧ deserialize store.format bytes = .error e ∧
      store.loadFrom r = (.error e, store)) ∨
    (∃ bytes doc, r = .ok bytes ∧ deserialize store.format bytes = .ok doc ∧
      store.loadFrom r = (.ok (), { store with memory := doc })) := by
  rcases r with (- | message) | bytes
  · exact Or.inl ⟨rfl, rfl⟩
  · exact Or.inr (Or.inl ⟨message, rfl, rfl⟩)
  · rcases hd : deserialize store.format bytes with e | doc
    · exact Or.inr (Or.inr (Or.inl ⟨bytes, e, rfl, hd, by simp only [loadFrom, hd]⟩))
    · exact Or.inr (Or.inr (Or.inr ⟨bytes, doc, rfl, hd, by simp only [loadFrom, hd]⟩))

/-! ### The contract of `load` -/

variable (io disk store) in
/-- `load` fails exactly when the path is present and cannot be read or
decoded, and then changes nothing; otherwise the memory is the state of the
file.  Loading again changes nothing, and opening the path again gives the
same. -/
structure Loads : Prop where
  fails_iff : (∃ e, (load io disk store).1 = .error e) ↔
    (∃ e, e ≠ .notFound ∧ disk.read io store.path = .error e) ∨
    ∃ bytes e, disk.read io store.path = .ok bytes ∧ deserialize store.format bytes = .error e
  unchanged : ∀ e, (load io disk store).1 = .error e → (load io disk store).2 = store
  established : (load io disk store).1 = .ok () →
    Decodes store.format (load io disk store).2.memory (disk.read io store.path)
  again : load io disk (load io disk store).2 = load io disk store
  asOpened : (load io disk store).1 = .ok () → Format.fromPath store.path = some store.format →
    openStore io disk store.path = .ok (load io disk store).2

/-- Opening is a load into an empty store. -/
theorem openStore_of_load {format : Format} (hf : Format.fromPath store.path = some format)
    {s : FileStore} (h : load io disk ⟨store.path, format, MemoryStore.new, store.accepted⟩ =
      (.ok (), s)) : openStore io disk store.path = .ok s := by
  unfold openStore
  split
  · rename_i hnone
    rw [hf] at hnone
    cases hnone
  · rename_i format' hsome
    obtain rfl := Option.some.inj (hf.symm.trans hsome)
    rw [h]

/-- A load that fails leaves the store as it was. -/
theorem Loads.of_error {e : StoreError} (h : load io disk store = (.error e, store))
    (hfails : (∃ e, e ≠ .notFound ∧ disk.read io store.path = .error e) ∨
      ∃ bytes e, disk.read io store.path = .ok bytes ∧ deserialize store.format bytes = .error e) :
    Loads io disk store where
  fails_iff := ⟨fun _ => hfails, fun _ => ⟨e, by rw [h]⟩⟩
  unchanged _ _ := by rw [h]
  established hok := by
    rw [h] at hok
    cases hok
  again := by rw [h, h]
  asOpened hok := by
    rw [h] at hok
    cases hok

/-- **When `load` keeps its contract**: unless the file is missing and there is
something in memory. -/
theorem loads_iff (io : Faults) (disk : Disk) (store : FileStore) :
    Loads io disk store ↔
      (disk.read io store.path = .error .notFound → store.memory = MemoryStore.new) := by
  constructor
  · intro h hmissing
    have hload : load io disk store = (.ok (), store) := by
      rw [load_eq, hmissing]
      rfl
    have hdec := h.established (by rw [hload])
    rwa [hload, hmissing] at hdec
  · intro hnew
    rcases loadFrom_cases store (disk.read io store.path) with
      ⟨hr, h⟩ | ⟨message, hr, h⟩ | ⟨bytes, e, hr, hd, h⟩ | ⟨bytes, doc, hr, hd, h⟩
    -- in turn: missing, not readable, not decodable, decoded
    all_goals rw [← load_eq] at h
    · have hempty : (⟨store.path, store.format, MemoryStore.new, store.accepted⟩ : FileStore) =
          store := by
        rw [← hnew hr]
      refine ⟨by simp [h, hr], by simp [h], fun _ => ?_, by rw [h, h], fun _ hf => ?_⟩
      · rw [h, hr]
        exact hnew hr
      · rw [h]
        exact openStore_of_load hf (by rw [hempty, h])
    · exact .of_error h (Or.inl ⟨_, by simp, hr⟩)
    · exact .of_error h (Or.inr ⟨bytes, e, hr, hd⟩)
    · -- the memory before has no part in it
      have hany : ∀ memory, load io disk { store with memory := memory } =
          (.ok (), { store with memory := doc }) := by
        intro memory
        rw [load_eq, hr]
        simp only [loadFrom, hd]
      refine ⟨by simp [h, hr, hd], by simp [h], fun _ => ?_, ?_, fun _ hf => ?_⟩
      · rw [h, hr]
        exact hd
      · rw [h]
        exact hany doc
      · rw [h]
        exact openStore_of_load hf (hany MemoryStore.new)

end Loading

/-- A mutation whose flush has failed stays in memory when the missing file is
loaded. -/
theorem missing_file_keeps_memory :
    letI := Crates.flow
    letI := Chrono.unasked
    ¬ ∀ (disk : Disk) (path : Path) (store : FileStore) (m : Mutation) (now : Instant) (io : Faults),
      openStore Faults.none disk path = .ok store →
      let w := (mutate io now ⟨store, disk⟩ m).2
      Loads Faults.none w.disk w.store := by
  let _ := Crates.flow
  let _ := Chrono.unasked
  intro h
  let full : Faults :=
    { Faults.none with write := some ⟨.other "No space left on device", none⟩ }
  have hloads := h (fun _ => none) ⟨[], some "net.json".toList⟩ _ (.setPolicy ⟨1⟩ "accept") 0 full rfl
  have hpolicies := congrArg StoreDocument.policies ((loads_iff _ _ _).mp hloads rfl)
  exact absurd (congrArg (fun p => p.lookup (⟨1⟩ : NetworkId)) hpolicies) (by decide)

/-! ### Loading while others write -/

/-- A mutation, with what it has returned. -/
structure LogEntry where
  mutation : Mutation
  now : Instant
  result : Option (Except StoreError Reply)

/-- A store, its disk, what a `load` has read and not yet put in place, and
the mutations so far. -/
structure Reloading where
  world : World
  loading : Option (Except IoError Bytes)
  log : List LogEntry

def Reloading.start (w : World) : Reloading := ⟨w, none, []⟩

inductive ReloadStep
  | mutate (m : Mutation) (now : Instant)
  | read
  | replace

/-- The mutation has returned `Ok` after a flush. -/
def LogEntry.acknowledged (e : LogEntry) : Bool :=
  match e.result with
  | some (.ok r) => r.flushes
  | _ => false

section Reloading

variable [Serde] [Chrono]

/-- A mutation is one step, and a `load` is two. -/
def Reloading.step (s : Reloading) : ReloadStep → Option Reloading
  | .mutate m now =>
    let (r, w) := mutate Faults.none now s.world m
    some { s with world := w, log := s.log ++ [⟨m, now, r⟩] }
  | .read =>
    match s.loading with
    | none =>
      some { s with loading := some (s.world.disk.read Faults.none s.world.store.path) }
    | some _ => none
  | .replace =>
    match s.loading with
    | none => none
    | some r =>
      some { s with
        world := { s.world with store := (s.world.store.loadFrom r).2 }
        loading := none }

/-- A mutation between the two halves of a `load` changes nothing, or leaves a
document that cannot be serialised. -/
def Quiet (s : Reloading) : ReloadStep → Prop
  | .mutate m now => s.loading = none ∨ m.Idle now s.world.store.memory ∨
    ∃ e, serialize s.world.store.format
      (MemoryStore.mutate now s.world.store.memory m).2 = .error e
  | _ => True

omit [Serde] in
/-- The document is the one at the start after the logged mutations, in their
order, save some that were not acknowledged.  Each gets the reply it has
returned. -/
inductive HasAcknowledged (doc : StoreDocument) : List LogEntry → StoreDocument → Prop
  | start : HasAcknowledged doc [] doc
  | keep {log d} (h : HasAcknowledged doc log d) (e : LogEntry)
      (hreply : ∀ r, e.result = some (.ok r) → (MemoryStore.mutate e.now d e.mutation).1 = r) :
      HasAcknowledged doc (log ++ [e]) (MemoryStore.mutate e.now d e.mutation).2
  | skip {log d} (h : HasAcknowledged doc log d) (e : LogEntry) (he : e.acknowledged = false) :
      HasAcknowledged doc (log ++ [e]) d

end Reloading

section Runs

variable [Crates] [Chrono] {doc f : StoreDocument} {s t : Reloading} {x : ReloadStep} {w : World}

/-! #### The invariant -/

variable (doc s) in
/-- Memory and file have every acknowledged mutation.  The file is the memory,
unless the memory cannot be serialised, and what a `load` has read. -/
structure Reloads : Prop where
  memory : HasAcknowledged doc s.log s.world.store.memory
  file : ∃ f, Decodes s.world.store.format f (s.world.disk.read Faults.none s.world.store.path) ∧
    HasAcknowledged doc s.log f ∧
    (∀ bytes, serialize s.world.store.format s.world.store.memory = .ok bytes →
      s.world.store.memory = f) ∧
    ∀ r ∈ s.loading, Decodes s.world.store.format f r

theorem Reloads.start (h : Decodes w.store.format w.store.memory
    (w.disk.read Faults.none w.store.path)) : Reloads w.store.memory (Reloading.start w) where
  memory := .start
  file := ⟨w.store.memory, h, .start, fun _ _ => rfl, fun _ h => by cases h⟩

/-- A mutation that returns has written its own document. -/
theorem Reloads.mutate (h : Reloads doc s) (m : Mutation) (now : Instant)
    (hquiet : Quiet s (.mutate m now)) (hstep : s.step (.mutate m now) = some t) :
    Reloads doc t := by
  obtain ⟨f, hfile, hack, hsame, hloading⟩ := h.file
  have ht : t = { s with
      world := (FileStore.mutate Faults.none now s.world m).2
      log := s.log ++ [⟨m, now, (FileStore.mutate Faults.none now s.world m).1⟩] } :=
    (Option.some.inj hstep).symm
  rcases mutate_none_cases s.world m now with
    ⟨hf, hcall⟩ | ⟨e, hser, hcall⟩ | ⟨bytes, hser, hf, hcall⟩
  all_goals rw [hcall] at ht; subst ht
  · -- a lost consume
    exact ⟨h.memory.skip _ hf, f, hfile, hack.skip _ hf, hsame, hloading⟩
  · -- the flush fails, and the file stays behind the memory
    refine ⟨h.memory.keep ⟨m, now, _⟩ ?_, f, hfile, hack.skip _ rfl, fun bytes hok => ?_, hloading⟩
    · intro r hr
      cases hr
    · cases hser.symm.trans hok
  · have hmem : HasAcknowledged doc
        (s.log ++ [⟨m, now, some (.ok (MemoryStore.mutate now s.world.store.memory m).1)⟩])
        (MemoryStore.mutate now s.world.store.memory m).2 :=
      h.memory.keep ⟨m, now, _⟩ fun r hr => Except.ok.inj (Option.some.inj hr)
    refine ⟨hmem, _, ?_, hmem, fun _ _ => rfl, fun r hr => ?_⟩
    · show Decodes _ _ (Disk.read Faults.none (Function.update _ _ (some bytes)) s.world.store.path)
      rw [Disk.read, Function.update_self]
      exact deserialize_of_serialize hser
    · have hr' : r ∈ s.loading := hr
      rcases hquiet with hnone | hidle | ⟨e, he⟩
      · rw [hnone] at hr'
        cases hr'
      · -- nothing has changed, so the file is what it was
        have hidem : (MemoryStore.mutate now s.world.store.memory m).2 = s.world.store.memory :=
          mutate_eq_self_iff.mpr hidle
        rw [hidem] at hser
        show Decodes _ (MemoryStore.mutate now s.world.store.memory m).2 r
        rw [hidem, hsame bytes hser]
        exact hloading r hr'
      · cases he.symm.trans hser

theorem Reloads.read (h : Reloads doc s) (hstep : s.step .read = some t) : Reloads doc t := by
  obtain ⟨f, hfile, hack, hsame, -⟩ := h.file
  simp only [Reloading.step] at hstep
  split at hstep
  · obtain rfl := Option.some.inj hstep
    refine ⟨h.memory, f, hfile, hack, hsame, fun r hr => ?_⟩
    obtain rfl := Option.some.inj hr
    exact hfile
  · cases hstep

/-- The second half of a load replaces the document by that of the content. -/
theorem Reloads.replace (h : Reloads doc s) (hstep : s.step .replace = some t) :
    Reloads doc t := by
  obtain ⟨f, hfile, hack, hsame, hloading⟩ := h.file
  simp only [Reloading.step] at hstep
  split at hstep
  · cases hstep
  · rename_i r hr
    obtain rfl := Option.some.inj hstep
    have hdec := hloading r hr
    rcases loadFrom_cases s.world.store r with
      ⟨rfl, hload⟩ | ⟨m, rfl, hload⟩ | ⟨bytes, e, rfl, hd, hload⟩ | ⟨bytes, d, rfl, hd, hload⟩
    · rw [hload]
      exact ⟨h.memory, f, hfile, hack, hsame, fun _ hr => by cases hr⟩
    · exact hdec.elim
    · cases hd.symm.trans hdec
    · obtain rfl := Except.ok.inj (hd.symm.trans hdec)
      rw [hload]
      exact ⟨hack, d, hfile, hack, fun _ _ => rfl, fun _ hr => by cases hr⟩

/-- **Step.** -/
theorem Reloads.next (h : Reloads doc s) (hquiet : Quiet s x) (hstep : s.step x = some t) :
    Reloads doc t := by
  cases x with
  | mutate m now => exact h.mutate m now hquiet hstep
  | read => exact h.read hstep
  | replace => exact h.replace hstep

end Runs

/-! #### Every run -/

/-- If every mutation was acknowledged, they all have been applied. -/
theorem HasAcknowledged.eq_final [Chrono] {doc d : StoreDocument} {log : List LogEntry}
    (h : HasAcknowledged doc log d) (hall : ∀ e ∈ log, e.acknowledged = true) :
    d = Runs.final (fun d e => MemoryStore.mutate e.now d e.mutation) doc log := by
  induction h with
  | start => rfl
  | keep h e hreply ih =>
      rw [Runs.final_snoc, ← ih fun e he => hall e (List.mem_append_left _ he)]
  | skip h e he ih =>
      have hack := hall e (List.mem_append_right _ (List.mem_singleton_self e))
      cases he.symm.trans hack

/-- A saved mutation, as a step. -/
theorem step_mutate [Serde] [Chrono] {s : Reloading} {m : Mutation} {now : Instant} {bytes : Bytes}
    (hf : (MemoryStore.mutate now s.world.store.memory m).1.flushes = true)
    (hser : serialize s.world.store.format (MemoryStore.mutate now s.world.store.memory m).2 =
      .ok bytes) :
    s.step (.mutate m now) = some { s with
      world := { s.world.setMemory (MemoryStore.mutate now s.world.store.memory m).2 with
        disk := Function.update (Function.update s.world.disk s.world.store.path.tmpPath none)
          s.world.store.path (some bytes) }
      log := s.log ++ [⟨m, now, some (.ok (MemoryStore.mutate now s.world.store.memory m).1)⟩] } := by
  simp only [Reloading.step, mutate_none_of_serialize hf hser]

/-- What was read before a mutation takes the place of what it wrote. -/
theorem exec_stale_load [Crates] [Chrono] (w : World) (m m' : Mutation) (now : Instant)
    {bytes bytes' : Bytes}
    (hf : (MemoryStore.mutate now w.store.memory m).1.flushes = true)
    (hser : serialize w.store.format (MemoryStore.mutate now w.store.memory m).2 = .ok bytes)
    (hf' : (MemoryStore.mutate now (MemoryStore.mutate now w.store.memory m).2 m').1.flushes = true)
    (hser' : serialize w.store.format
      (MemoryStore.mutate now (MemoryStore.mutate now w.store.memory m).2 m').2 = .ok bytes') :
    ∃ s, Runs.exec Reloading.step (Reloading.start w)
        [.mutate m now, .read, .mutate m' now, .replace] = some s ∧
      s.world.store.memory = (MemoryStore.mutate now w.store.memory m).2 ∧
      (∀ e ∈ s.log, e.acknowledged = true) ∧
      ∃ r r', s.log = [⟨m, now, r⟩, ⟨m', now, r'⟩] := by
  -- the bytes are read after the first change, and replace the memory after the second
  have hread : (Reloading.step { Reloading.start w with
      world := { w.setMemory (MemoryStore.mutate now w.store.memory m).2 with
        disk := Function.update (Function.update w.disk w.store.path.tmpPath none)
          w.store.path (some bytes) }
      log := [⟨m, now, some (.ok (MemoryStore.mutate now w.store.memory m).1)⟩] } .read) =
      some ⟨{ w.setMemory (MemoryStore.mutate now w.store.memory m).2 with
        disk := Function.update (Function.update w.disk w.store.path.tmpPath none)
          w.store.path (some bytes) }, some (.ok bytes),
        [⟨m, now, some (.ok (MemoryStore.mutate now w.store.memory m).1)⟩]⟩ := by
    simp only [Reloading.step, Reloading.start, World.setMemory_path, Disk.read,
      Function.update_self]
    rfl
  refine ⟨_, Runs.exec_cons_some.mpr ⟨_, step_mutate hf hser, Runs.exec_cons_some.mpr ⟨_, hread,
    Runs.exec_cons_some.mpr ⟨_, step_mutate hf' hser', Runs.exec_cons_some.mpr ⟨_, rfl, rfl⟩⟩⟩⟩,
    ?_, ?_, _, _, rfl⟩
  · show (loadFrom _ (.ok bytes)).2.memory = _
    simp only [loadFrom, World.setMemory_format, deserialize_of_serialize hser]
  · show ∀ e ∈ [LogEntry.mk m now _, LogEntry.mk m' now _], e.acknowledged = true
    simp only [List.forall_mem_cons, LogEntry.acknowledged, hf]
    exact ⟨trivial, hf', by simp⟩

/-- The policy is set again between the two halves of a `load`. -/
theorem change_lost_by_load :
    letI := Crates.flow
    letI := Chrono.unasked
    ¬ ∀ (w : World) (xs : List ReloadStep) (s : Reloading),
      Decodes w.store.format w.store.memory (w.disk.read Faults.none w.store.path) →
      Runs.exec Reloading.step (Reloading.start w) xs = some s →
      HasAcknowledged w.store.memory s.log s.world.store.memory := by
  let _ := Crates.flow
  let _ := Chrono.unasked
  intro h
  let w : World :=
    ⟨⟨⟨[], some "net.json".toList⟩, .json, MemoryStore.new, by decide⟩, fun _ => none⟩
  obtain ⟨s, hrun, hmem, hall, r, r', hlog⟩ := exec_stale_load w (.setPolicy ⟨1⟩ "accept")
    (.setPolicy ⟨1⟩ "drop") 0 rfl rfl rfl rfl
  have hfinal := (h w _ s rfl hrun).eq_final hall
  rw [hmem, hlog] at hfinal
  have hpolicy : some "accept" = some "drop" :=
    congrArg (fun d => d.policies.lookup (⟨1⟩ : NetworkId)) hfinal
  exact absurd hpolicy (by decide)

/-- **Reloading loses no acknowledged change** in the quiet runs: the memory,
and the document the file stands for, have every mutation that has returned
`Ok`. -/
theorem reload_keeps_acknowledged [Crates] [Chrono] (w : World) (xs : List ReloadStep)
    (s : Reloading)
    (hagree : Decodes w.store.format w.store.memory (w.disk.read Faults.none w.store.path))
    (hquiet : Runs.Guarded Reloading.step Quiet (Reloading.start w) xs)
    (hrun : Runs.exec Reloading.step (Reloading.start w) xs = some s) :
    HasAcknowledged w.store.memory s.log s.world.store.memory ∧
    ∃ f, Decodes s.world.store.format f (s.world.disk.read Faults.none s.world.store.path) ∧
      HasAcknowledged w.store.memory s.log f := by
  have hreloads : Reloads w.store.memory s :=
    Runs.exec_invariant (P := Reloads w.store.memory)
      (fun _ _ _ h hx hstep => h.next hx hstep) (.start hagree) hquiet hrun
  obtain ⟨f, hfile, hack, -⟩ := hreloads.file
  exact ⟨hreloads.memory, f, hfile, hack⟩

/-- The policy is set again between two loads. -/
theorem reload_keeps_acknowledged_twice :
    letI := Crates.flow
    letI := Chrono.unasked
    let w : World :=
      ⟨⟨⟨[], some "net.json".toList⟩, .json, MemoryStore.new, by decide⟩, fun _ => none⟩
    ∃ s, Runs.exec Reloading.step (Reloading.start w)
        [.read, .replace, .mutate (.setPolicy ⟨1⟩ "accept") 0, .read, .replace] = some s ∧
      (HasAcknowledged w.store.memory s.log s.world.store.memory ∧
      ∃ f, Decodes s.world.store.format f (s.world.disk.read Faults.none s.world.store.path) ∧
        HasAcknowledged w.store.memory s.log f) := by
  let _ := Crates.flow
  let _ := Chrono.unasked
  intro w
  obtain ⟨s, hrun, hquiet⟩ : ∃ s, Runs.exec Reloading.step (Reloading.start w)
      [.read, .replace, .mutate (.setPolicy ⟨1⟩ "accept") 0, .read, .replace] = some s ∧
      Runs.Guarded Reloading.step Quiet (Reloading.start w)
        [.read, .replace, .mutate (.setPolicy ⟨1⟩ "accept") 0, .read, .replace] := by
    refine ⟨_, Runs.exec_cons_some.mpr ⟨_, rfl, Runs.exec_cons_some.mpr ⟨_, rfl,
      Runs.exec_cons_some.mpr ⟨_, step_mutate rfl rfl, Runs.exec_cons_some.mpr ⟨_, rfl,
      Runs.exec_cons_some.mpr ⟨_, rfl, rfl⟩⟩⟩⟩⟩, ?_⟩
    exact .cons trivial rfl (.cons trivial rfl (.cons (Or.inl rfl) (step_mutate rfl rfl)
      (.cons trivial rfl (.cons trivial rfl trivial))))
  exact ⟨s, hrun, reload_keeps_acknowledged w _ s rfl hquiet hrun⟩

end Oxiscale

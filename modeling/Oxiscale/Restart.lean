/-
Oxiscale/Restart.lean

`FileStore` across restarts and crashes.

A crash loses the memory and keeps the disk.  The disk it leaves inside a
call is the one a call leaves that fails at the same point, so a crash point
is read as a `Faults`; afterwards the same path is opened again.

`Explains` is what a single `MemoryStore` says about such a history: it
replies to every completed call, and the call in flight at a crash is wholly
kept or wholly dropped.  The invariant is `Agree`, that opening the path
would give exactly the store in memory; it holds after every call, whether
the call flushed or not, and no temp file can disturb it because no accepted
path is a temp path.
-/
import Oxiscale.Saved

namespace Oxiscale

open FileStore

section Restart

variable [Serde] [Chrono]

/-! ### Histories with crashes -/

/-- Where in a mutation the process dies. -/
inductive CrashPoint
  | beforeChange
  | beforeWrite
  | duringWrite (written : ℕ)
  | beforeRename
  | afterRename

/-- The failure that leaves the same disk.  The error is returned to nobody. -/
def CrashPoint.faults : CrashPoint → Faults
  | .beforeChange => { Faults.none with dropAt := some .lock }
  | .beforeWrite => { Faults.none with dropAt := some .snapshot }
  | .duringWrite n => { Faults.none with write := some ⟨.other "crashed", some n⟩ }
  | .beforeRename => { Faults.none with rename := some (.other "crashed") }
  | .afterRename => Faults.none

/-- A completed call, or a crash with the mutation in flight, if any. -/
inductive Event
  | call (x : Call × Instant)
  | crash (inFlight : Option (Mutation × Instant × CrashPoint))

/-- The disk after a crash. -/
def crashDisk (w : World) : Option (Mutation × Instant × CrashPoint) → Disk
  | none => w.disk
  | some (m, now, point) => (mutate point.faults now w m).2.disk

/-- The results of the completed calls of a history and the world after it;
an error when opening the path fails. -/
def runEvents : World → List Event →
    Except StoreError (List (Option (Except StoreError Reply)) × World)
  | w, [] => .ok ([], w)
  | w, .call (c, now) :: es =>
    let (r, w') := call w (c, now, Faults.none)
    (runEvents w' es).map fun (rs, v) => (r :: rs, v)
  | w, .crash inFlight :: es =>
    let disk := crashDisk w inFlight
    match openStore Faults.none disk w.store.path with
    | .error e => .error e
    | .ok store => runEvents ⟨store, disk⟩ es

/-- The results are those of one `MemoryStore` that is never restarted, for
some choice of keeping or dropping each mutation in flight. -/
inductive Explains : StoreDocument → List Event → List (Option (Except StoreError Reply)) →
    StoreDocument → Prop
  | nil (doc) : Explains doc [] [] doc
  | call {doc x es rs doc'} (h : Explains (MemoryStore.call doc x).2 es rs doc') :
      Explains doc (.call x :: es) (some (.ok (MemoryStore.call doc x).1) :: rs) doc'
  | dropped {doc inFlight es rs doc'} (h : Explains doc es rs doc') :
      Explains doc (.crash inFlight :: es) rs doc'
  | kept {doc m now point es rs doc'} (h : Explains (MemoryStore.mutate now doc m).2 es rs doc') :
      Explains doc (.crash (some (m, now, point)) :: es) rs doc'

/-! ### Memory and file agree -/

/-- `deserialize` undoes `serialize`, which accepts every document. -/
def RoundTrips (format : Format) : Prop :=
  ∀ doc, ∃ bytes, serialize format doc = .ok bytes ∧ deserialize format bytes = .ok doc

/-- Opening the path would give the store that is in memory. -/
def Agree (w : World) : Prop := openStore Faults.none w.disk w.store.path = .ok w.store

variable {w : World}

omit [Chrono] in
/-- What opening a path makes of the file. -/
theorem openStore_eq (disk : Disk) {path : Path} {format : Format}
    (hf : Format.fromPath path = some format) :
    openStore Faults.none disk path =
      match disk path with
      | none => .ok ⟨path, format, MemoryStore.new, by simp [hf]⟩
      | some bytes =>
        match deserialize format bytes with
        | .error e => .error e
        | .ok doc => .ok ⟨path, format, doc, by simp [hf]⟩ := by
  unfold openStore
  split
  · rename_i h
    simp [h] at hf
  · rename_i format' h
    obtain rfl := Option.some.inj (h.symm.trans hf)
    rcases hd : disk path with - | bytes
    · simp [load, Disk.read, Faults.none, hd]
    · rcases hdoc : deserialize format' bytes with e | doc <;>
        simp [load, Disk.read, Faults.none, hd, hdoc]

omit [Chrono] in
/-- An opened store has the format of its path. -/
theorem format_of_openStore {disk : Disk} {path : Path} {store : FileStore}
    (h : openStore Faults.none disk path = .ok store) :
    store.path = path ∧ Format.fromPath path = some store.format := by
  rcases hf : Format.fromPath path with - | format
  · unfold openStore at h
    split at h
    · cases h
    · rename_i format h'
      simp [h'] at hf
  · rw [openStore_eq _ hf] at h
    rcases hd : disk path with - | bytes
    · simp only [hd, Except.ok.injEq] at h
      exact ⟨by rw [← h], by rw [← h]⟩
    · rcases hdoc : deserialize format bytes with e | doc
      · simp [hd, hdoc] at h
      · simp only [hd, hdoc, Except.ok.injEq] at h
        exact ⟨by rw [← h], by rw [← h]⟩

omit [Chrono] in
/-- The document of an opened store is that of the file. -/
theorem memory_of_openStore {disk : Disk} {path : Path} {store : FileStore}
    (hopen : openStore Faults.none disk path = .ok store) :
    (disk path = none ∧ store.memory = MemoryStore.new) ∨
    ∃ bytes, disk path = some bytes ∧ deserialize store.format bytes = .ok store.memory := by
  rw [openStore_eq _ (format_of_openStore hopen).2] at hopen
  split at hopen
  · rename_i hnone
    exact Or.inl ⟨hnone, by rw [← Except.ok.inj hopen]⟩
  · rename_i bytes hbytes
    split at hopen
    · cases hopen
    · rename_i doc hdoc
      exact Or.inr ⟨bytes, hbytes, by rw [hdoc, ← Except.ok.inj hopen]⟩

omit [Chrono] in
theorem Agree.format (h : Agree w) : Format.fromPath w.store.path = some w.store.format :=
  (format_of_openStore h).2

omit [Chrono] in
/-- Only the content of the target matters. -/
theorem Agree.of_target (h : Agree w) {disk : Disk}
    (hd : disk w.store.path = w.disk w.store.path) :
    openStore Faults.none disk w.store.path = .ok w.store := by
  rw [openStore_eq _ h.format, hd, ← openStore_eq _ h.format]
  exact h

omit [Chrono] in
/-- A target that holds the serialised document opens as that document. -/
theorem openStore_serialized {store : FileStore} {disk : Disk} {bytes : Bytes}
    (hf : Format.fromPath store.path = some store.format)
    (hd : disk store.path = some bytes)
    (hdoc : deserialize store.format bytes = .ok store.memory) :
    openStore Faults.none disk store.path = .ok store := by
  rw [openStore_eq _ hf, hd]
  dsimp only
  rw [hdoc]

/-! ### One event -/

/-- What a mutation, failed or not, may do to the target file. -/
theorem mutate_target (io : Faults) (now : Instant) (m : Mutation) :
    (mutate io now w m).2.disk w.store.path = w.disk w.store.path ∨
    ∃ bytes, serialize w.store.format (MemoryStore.mutate now w.store.memory m).2 = .ok bytes ∧
      (mutate io now w m).2.disk w.store.path = some bytes := by
  have hne := (tmpPath_ne w.store.accepted w.store.accepted).symm
  rw [mutate_eq]
  split
  · exact Or.inl rfl
  · dsimp only
    split
    · rw [flushThen]
      split
      · exact Or.inl rfl
      · rcases flush_cases io (w.setMemory (MemoryStore.mutate now w.store.memory m).2)
          with ⟨e, d, hflush, hoff⟩ | ⟨bytes, hbytes, hflush⟩
        · rw [hflush]
          exact Or.inl (hoff _ hne)
        · rw [hflush]
          exact Or.inr ⟨bytes, hbytes, by simp⟩
    · exact Or.inl rfl

/-- **Call step.**  A call without faults replies what the memory replies,
and leaves memory and file in agreement. -/
theorem call_agree (hrt : RoundTrips w.store.format) (h : Agree w) (c : Call) (now : Instant) :
    (call w (c, now, Faults.none)).1 =
      some (.ok (MemoryStore.call w.store.memory (c, now)).1) ∧
    (call w (c, now, Faults.none)).2.store =
      { w.store with memory := (MemoryStore.call w.store.memory (c, now)).2 } ∧
    Agree (call w (c, now, Faults.none)).2 := by
  cases c with
  | query q => exact ⟨rfl, rfl, h⟩
  | mutate m =>
      obtain ⟨bytes, hser, hdes⟩ := hrt (MemoryStore.mutate now w.store.memory m).2
      show (mutate Faults.none now w m).1 = _ ∧ (mutate Faults.none now w m).2.store = _ ∧
        Agree (mutate Faults.none now w m).2
      rcases mutate_none_cases w m now with
        ⟨hf, hcall⟩ | ⟨e, he, -⟩ | ⟨bytes', hser', -, hcall⟩
      · -- a lost consume: the memory has not changed either
        rw [hcall]
        refine ⟨rfl, ?_, h⟩
        show w.store = { w.store with memory := (MemoryStore.mutate now w.store.memory m).2 }
        rw [snd_of_not_flushes hf]
      · cases he.symm.trans hser
      · obtain rfl := Except.ok.inj (hser.symm.trans hser')
        rw [hcall]
        refine ⟨rfl, rfl, ?_⟩
        show openStore Faults.none _ (w.setMemory _).store.path = .ok (w.setMemory _).store
        exact openStore_serialized h.format (Function.update_self _ _ _) hdes

/-- **Crash step.**  After a crash the path opens, with the mutation in
flight kept or dropped. -/
theorem crash_agree (hrt : RoundTrips w.store.format) (h : Agree w)
    (inFlight : Option (Mutation × Instant × CrashPoint)) :
    openStore Faults.none (crashDisk w inFlight) w.store.path = .ok w.store ∨
    ∃ m now point, inFlight = some (m, now, point) ∧
      openStore Faults.none (crashDisk w inFlight) w.store.path =
        .ok { w.store with memory := (MemoryStore.mutate now w.store.memory m).2 } := by
  rcases inFlight with - | ⟨m, now, point⟩
  · exact Or.inl h
  · rcases mutate_target (w := w) point.faults now m with hd | ⟨bytes, hser, hd⟩
    · exact Or.inl (h.of_target hd)
    · obtain ⟨bytes', hser', hdes⟩ := hrt (MemoryStore.mutate now w.store.memory m).2
      obtain rfl := Except.ok.inj (hser.symm.trans hser')
      refine Or.inr ⟨m, now, point, rfl, ?_⟩
      let kept : FileStore :=
        { w.store with memory := (MemoryStore.mutate now w.store.memory m).2 }
      have hopen : openStore Faults.none (crashDisk w (some (m, now, point))) kept.path = .ok kept :=
        openStore_serialized h.format hd hdes
      exact hopen

/-! ### Every history -/

/-- **Run lemma.**  From agreement of memory and file, every history runs, is
explained by one `MemoryStore`, and ends in agreement. -/
theorem runEvents_agree (es : List Event) :
    ∀ w : World, RoundTrips w.store.format → Agree w →
      ∃ rs w', runEvents w es = .ok (rs, w') ∧
        Explains w.store.memory es rs w'.store.memory ∧ Agree w' := by
  -- memory and file agree before each event, so every `open` finds a document
  induction es with
  | nil => exact fun w _ h => ⟨[], w, rfl, .nil _, h⟩
  | cons e es ih =>
      intro w hrt h
      cases e with
      | call x =>
          obtain ⟨c, now⟩ := x
          obtain ⟨hres, hstore, hnext⟩ := call_agree hrt h c now
          have hrt' : RoundTrips (FileStore.call w (c, now, Faults.none)).2.store.format := by
            rw [hstore]
            exact hrt
          obtain ⟨rs, w', hrun, hexp, hagree⟩ := ih _ hrt' hnext
          refine ⟨some (.ok (MemoryStore.call w.store.memory (c, now)).1) :: rs, w', ?_, ?_, hagree⟩
          · simp only [runEvents, hrun, hres]
            rfl
          · rw [hstore] at hexp
            exact .call hexp
      | crash inFlight =>
          rcases crash_agree hrt h inFlight with hopen | ⟨m, now, point, rfl, hopen⟩
          -- the target is as before: the mutation in flight is dropped
          · have hagree : Agree ⟨w.store, crashDisk w inFlight⟩ := hopen
            obtain ⟨rs, w', hrun, hexp, hagree'⟩ :=
              ih ⟨w.store, crashDisk w inFlight⟩ hrt hagree
            refine ⟨rs, w', ?_, .dropped hexp, hagree'⟩
            simp only [runEvents, hopen]
            exact hrun
          -- the target is the new document: the mutation in flight is kept
          · let kept : FileStore :=
              { w.store with memory := (MemoryStore.mutate now w.store.memory m).2 }
            have hagree : Agree ⟨kept, crashDisk w (some (m, now, point))⟩ := hopen
            obtain ⟨rs, w', hrun, hexp, hagree'⟩ :=
              ih ⟨kept, crashDisk w (some (m, now, point))⟩ hrt hagree
            refine ⟨rs, w', ?_, .kept hexp, hagree'⟩
            simp only [runEvents, hopen]
            exact hrun

/-- **`FileStore` refines `MemoryStore` across restarts and crashes.**  From a
missing file, every history of calls and crashes runs to its end without a
failing `open`, its completed calls return what one `MemoryStore` returns
with each mutation in flight kept or dropped, and memory and file agree
afterwards. -/
theorem fileStore_refines_memoryStore (path : Path) (format : Format)
    (hf : Format.fromPath path = some format) (hrt : RoundTrips format) (disk : Disk)
    (hmissing : disk path = none) (es : List Event) :
    ∃ store rs w', openStore Faults.none disk path = .ok store ∧
      runEvents ⟨store, disk⟩ es = .ok (rs, w') ∧
      Explains MemoryStore.new es rs w'.store.memory ∧
      openStore Faults.none w'.disk w'.store.path = .ok w'.store := by
  have hopen := openStore_eq disk hf
  rw [hmissing] at hopen
  obtain ⟨rs, w', hrun, hexp, hagree⟩ := runEvents_agree es
    ⟨⟨path, format, MemoryStore.new, by simp [hf]⟩, disk⟩ hrt hopen
  exact ⟨_, rs, w', hopen, hrun, hexp, hagree⟩

end Restart

/-- A crash tears the temp file of a policy change between two calls. -/
theorem fileStore_refines_memoryStore_torn :
    letI := Crates.flow
    letI := Chrono.unasked
    let path : Path := ⟨[], some "net.json".toList⟩
    let net : Network := ⟨⟨1⟩, "default", "ctl.local", "100.64.0.0/10", "fd7a::/48", "k1", none, ""⟩
    let es : List Event := [.call (.mutate (.upsertNetwork net), 0),
      .crash (some (.setPolicy ⟨1⟩ "accept", 0, .duringWrite 7)), .call (.query .listNetworks, 0)]
    ∃ store rs w', openStore Faults.none (fun _ => none) path = .ok store ∧
      runEvents ⟨store, fun _ => none⟩ es = .ok (rs, w') ∧
      Explains MemoryStore.new es rs w'.store.memory ∧
      openStore Faults.none w'.disk w'.store.path = .ok w'.store := by
  let _ := Crates.flow
  let _ := Chrono.unasked
  intro path net es
  exact fileStore_refines_memoryStore path .json (by decide) saved_json _ rfl es

end Oxiscale

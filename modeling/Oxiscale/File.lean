/-
Oxiscale/File.lean

`FileStore` (`store/file.rs`): a `MemoryStore` that writes the whole document
to one file after every mutation.

This module is the sequential reading of the source, one call after another
against a disk that maps paths to contents.  The three serialisers are other
crates; they enter through the class `Serde`, and what a result needs of them
is a hypothesis of that result.  What can go wrong in a call is the argument
`Faults`: an I/O error at each of the three file operations, and the
returned future being dropped at one of its two await points.

A path is checked once, by `open`, and never changes; the check is a field
of `FileStore`, so that later results need no hypothesis about paths.

The interleavings of concurrent calls are in `Oxiscale/Flush.lean`.
-/
import Oxiscale.Bytes
import Oxiscale.Memory
import Oxiscale.Paths
import Mathlib.Logic.Function.Basic

namespace Oxiscale

/-! ### The serialisers -/

/-- The entry points of `serde_json`, `serde_yaml` and `toml` for the derived
implementations of `StoreDocument`, with errors as their text.  `utf8Error`
is the text of a `Utf8Error`. -/
class Serde where
  jsonToVecPretty : StoreDocument → Except String Bytes
  jsonFromSlice : Bytes → Except String StoreDocument
  yamlToString : StoreDocument → Except String String
  yamlFromSlice : Bytes → Except String StoreDocument
  tomlToStringPretty : StoreDocument → Except String String
  tomlFromStr : String → Except String StoreDocument
  utf8Error : Bytes → String

namespace FileStore

variable [Serde]

def serialize (format : Format) (doc : StoreDocument) : Except StoreError Bytes :=
  match format with
  | .json => (Serde.jsonToVecPretty doc).mapError .serde
  | .yaml => ((Serde.yamlToString doc).map intoBytes).mapError .serde
  | .toml => ((Serde.tomlToStringPretty doc).map intoBytes).mapError .serde

/-- TOML has to be text before it is read. -/
def deserialize (format : Format) (bytes : Bytes) : Except StoreError StoreDocument :=
  match format with
  | .json => (Serde.jsonFromSlice bytes).mapError .serde
  | .yaml => (Serde.yamlFromSlice bytes).mapError .serde
  | .toml =>
    match fromUtf8 bytes with
    | none => .error (.serde ("snapshot is not valid UTF-8: " ++ Serde.utf8Error bytes))
    | some text => (Serde.tomlFromStr text).mapError .serde

end FileStore

/-! ### The disk and what can go wrong -/

/-- The content of each existing file. -/
abbrev Disk := Path → Option Bytes

/-- A failed `std::fs::write`: either the file could not be opened, or it was
truncated and so many bytes were written. -/
structure WriteFault where
  error : IoError
  written : Option ℕ

/-- The await points of a mutating call: the write lock of the change, and
the read lock of `snapshot()`. -/
inductive Await
  | lock
  | snapshot
deriving DecidableEq

/-- What the environment does to a call. -/
structure Faults where
  read : Option IoError
  write : Option WriteFault
  rename : Option IoError
  dropAt : Option Await

/-- Nothing goes wrong. -/
def Faults.none : Faults := ⟨.none, .none, .none, .none⟩

namespace Disk

/-- `std::fs::read`. -/
def read (io : Faults) (d : Disk) (p : Path) : Except IoError Bytes :=
  match io.read with
  | some e => .error e
  | none =>
    match d p with
    | none => .error .notFound
    | some bytes => .ok bytes

/-- `std::fs::write`. -/
def write (io : Faults) (d : Disk) (p : Path) (bytes : Bytes) : Except IoError Unit × Disk :=
  match io.write with
  | none => (.ok (), Function.update d p (some bytes))
  | some ⟨e, none⟩ => (.error e, d)
  | some ⟨e, some n⟩ => (.error e, Function.update d p (some (bytes.take n)))

/-- `std::fs::rename`. -/
def rename (io : Faults) (d : Disk) (src dst : Path) : Except IoError Unit × Disk :=
  match io.rename with
  | some e => (.error e, d)
  | none =>
    match d src with
    | none => (.error .notFound, d)
    | some bytes => (.ok (), Function.update (Function.update d src none) dst (some bytes))

end Disk

/-! ### The store -/

structure FileStore where
  path : Path
  format : Format
  memory : StoreDocument
  accepted : (Format.fromPath path).isSome

/-- A store and the disk it lives on. -/
structure World where
  store : FileStore
  disk : Disk

def World.setMemory (w : World) (doc : StoreDocument) : World :=
  { w with store := { w.store with memory := doc } }

@[simp] theorem World.setMemory_disk (w : World) (doc : StoreDocument) :
    (w.setMemory doc).disk = w.disk := rfl

@[simp] theorem World.setMemory_memory (w : World) (doc : StoreDocument) :
    (w.setMemory doc).store.memory = doc := rfl

@[simp] theorem World.setMemory_path (w : World) (doc : StoreDocument) :
    (w.setMemory doc).store.path = w.store.path := rfl

@[simp] theorem World.setMemory_format (w : World) (doc : StoreDocument) :
    (w.setMemory doc).store.format = w.store.format := rfl

namespace FileStore

variable [Serde]

/-- A missing file leaves the memory as it is. -/
def load (io : Faults) (disk : Disk) (store : FileStore) :
    Except StoreError Unit × FileStore :=
  match disk.read io store.path with
  | .error .notFound => (.ok (), store)
  | .error e => (.error (.io e), store)
  | .ok bytes =>
    match deserialize store.format bytes with
    | .error e => (.error e, store)
    | .ok doc => (.ok (), { store with memory := doc })

/-- The format is that of the extension, and `load` already uses it. -/
def openStore (io : Faults) (disk : Disk) (path : Path) : Except StoreError FileStore :=
  match h : Format.fromPath path with
  | none => .error (.serde "unsupported file extension; use .json, .yaml, .yml, or .toml")
  | some format =>
    match load io disk ⟨path, format, MemoryStore.new, by simp [h]⟩ with
    | (.error e, _) => .error e
    | (.ok _, store) => .ok store

omit [Serde] in
/-- The builder's override, for all later loads and flushes. -/
def withFormat (format : Format) (store : FileStore) : FileStore :=
  { store with format := format }

/-- Snapshot, serialise, write the temp file, rename it over the target. -/
def flush (io : Faults) (w : World) : Except StoreError Unit × Disk :=
  match serialize w.store.format w.store.memory with
  | .error e => (.error e, w.disk)
  | .ok bytes =>
    match w.disk.write io w.store.path.tmpPath bytes with
    | (.error e, d) => (.error (.io e), d)
    | (.ok _, d) =>
      match d.rename io w.store.path.tmpPath w.store.path with
      | (.error e, d) => (.error (.io e), d)
      | (.ok _, d) => (.ok (), d)

/-- `self.flush().await?` followed by `Ok(reply)`; `none` is a future dropped
before it returned. -/
def flushThen (io : Faults) (reply : Reply) (w : World) :
    Option (Except StoreError Reply) × World :=
  if io.dropAt = some .snapshot then (none, w)
  else
    match flush io w with
    | (.error e, d) => (some (.error e), { w with disk := d })
    | (.ok _, d) => (some (.ok reply), { w with disk := d })

/-- `self.memory.f(..).await?; self.flush().await`. -/
def changeThenFlush (io : Faults) (f : StoreDocument → StoreDocument) (w : World) :
    Option (Except StoreError Reply) × World :=
  if io.dropAt = some .lock then (none, w)
  else flushThen io .unit (w.setMemory (f w.store.memory))

def upsertNetwork (io : Faults) (net : Network) :=
  changeThenFlush io (MemoryStore.upsertNetwork net)

def upsertUser (io : Faults) (user : User) :=
  changeThenFlush io (MemoryStore.upsertUser user)

def upsertNode (io : Faults) (node : Node) :=
  changeThenFlush io (MemoryStore.upsertNode node)

def deleteNode (io : Faults) (id : NodeId) :=
  changeThenFlush io (MemoryStore.deleteNode id)

def upsertPreauthKey (io : Faults) (key : PreAuthKey) :=
  changeThenFlush io (MemoryStore.upsertPreauthKey key)

def setPolicy (io : Faults) (network : NetworkId) (policy : String) :=
  changeThenFlush io (MemoryStore.setPolicy network policy)

variable [Chrono]

/-- Only a consume that won is flushed. -/
def consumePreauthKey (io : Faults) (now : Instant) (id : PreAuthKeyId) (w : World) :
    Option (Except StoreError Reply) × World :=
  if io.dropAt = some .lock then (none, w)
  else
    let (won, doc) := MemoryStore.consumePreauthKey now id w.store.memory
    if won then flushThen io (.consumed won) (w.setMemory doc)
    else (some (.ok (.consumed won)), w.setMemory doc)

def mutate (io : Faults) (now : Instant) (w : World) :
    Mutation → Option (Except StoreError Reply) × World
  | .upsertNetwork net => upsertNetwork io net w
  | .upsertUser user => upsertUser io user w
  | .upsertNode node => upsertNode io node w
  | .deleteNode id => deleteNode io id w
  | .upsertPreauthKey key => upsertPreauthKey io key w
  | .consumePreauthKey id => consumePreauthKey io now id w
  | .setPolicy network policy => setPolicy io network policy w

/-- Reads go to the memory. -/
def query (io : Faults) (w : World) (q : Query) : Option (Except StoreError Reply) × World :=
  if io.dropAt = some .lock then (none, w)
  else (some (.ok (MemoryStore.query w.store.memory q)), w)

/-- One call with its clock reading and what the environment does to it. -/
def call (w : World) : Call × Instant × Faults → Option (Except StoreError Reply) × World
  | (.mutate m, now, io) => mutate io now w m
  | (.query q, _, io) => query io w q

end FileStore

/-- A mutation of a run, with its clock reading and what the environment does
to it. -/
def mutateStep [Serde] [Chrono] (w : World) (x : Mutation × Instant × Faults) :
    Option (Except StoreError Reply) × World := FileStore.mutate x.2.2 x.2.1 w x.1

/-! ### What a mutation does -/

/-- The replies after which a mutation flushes. -/
def Reply.flushes : Reply → Bool
  | .consumed won => won
  | _ => true

namespace FileStore

variable [Serde] [Chrono] {io : Faults} {now : Instant} {w : World} {m : Mutation}

/-- The seven mutations are one: change the memory, flush if the reply asks
for it. -/
theorem mutate_eq : mutate io now w m =
    if io.dropAt = some .lock then (none, w)
    else
      let r := MemoryStore.mutate now w.store.memory m
      if r.1.flushes then flushThen io r.1 (w.setMemory r.2)
      else (some (.ok r.1), w.setMemory r.2) := by
  cases m <;> rfl

omit [Serde] in
/-- A mutation that does not flush is a lost consume, and changes nothing. -/
theorem snd_of_not_flushes {doc : StoreDocument}
    (h : (MemoryStore.mutate now doc m).1.flushes = false) :
    (MemoryStore.mutate now doc m).2 = doc := by
  cases m with
  | consumePreauthKey id =>
      have hlost : (MemoryStore.consumePreauthKey now id doc).1 = false := h
      show (MemoryStore.consumePreauthKey now id doc).2 = doc
      rw [MemoryStore.consumePreauthKey_snd, hlost]
      rfl
  | _ => simp [MemoryStore.mutate, Reply.flushes] at h

/-- So the disk stays as it is, whatever the environment does. -/
theorem mutate_of_not_flushes (h : (MemoryStore.mutate now w.store.memory m).1.flushes = false) :
    (mutate io now w m).2 = w := by
  rw [mutate_eq]
  split
  · rfl
  · simp only [h, snd_of_not_flushes h]
    rfl

/-! ### What a flush does -/

/-- The disks agree on every file but one. -/
def AgreeOff (p : Path) (d d' : Disk) : Prop := ∀ q, q ≠ p → d q = d' q

omit [Chrono] in
/-- A flush either fails, having touched nothing but the temp file, or leaves
the serialised memory in the target and no temp file. -/
theorem flush_cases (io : Faults) (w : World) :
    (∃ e d, flush io w = (.error e, d) ∧ AgreeOff w.store.path.tmpPath d w.disk) ∨
    (∃ bytes, serialize w.store.format w.store.memory = .ok bytes ∧ flush io w =
      (.ok (), Function.update (Function.update w.disk w.store.path.tmpPath none)
        w.store.path (some bytes))) := by
  have hself : AgreeOff w.store.path.tmpPath w.disk w.disk := fun _ _ => rfl
  have hupd : ∀ b, AgreeOff w.store.path.tmpPath
      (Function.update w.disk w.store.path.tmpPath b) w.disk :=
    fun b q hq => Function.update_of_ne hq _ _
  rcases hs : serialize w.store.format w.store.memory with e | bytes
  · exact Or.inl ⟨e, w.disk, by simp [flush, hs], hself⟩
  · rcases hw : io.write with - | ⟨e, - | n⟩
    · rcases hr : io.rename with - | e
      · exact Or.inr ⟨bytes, rfl, by simp [flush, hs, Disk.write, hw, Disk.rename, hr]⟩
      · exact Or.inl ⟨.io e, _, by simp [flush, hs, Disk.write, hw, Disk.rename, hr],
          hupd (some bytes)⟩
    · exact Or.inl ⟨.io e, w.disk, by simp [flush, hs, Disk.write, hw], hself⟩
    · exact Or.inl ⟨.io e, _, by simp [flush, hs, Disk.write, hw], hupd (some (bytes.take n))⟩

omit [Chrono] in
/-- With nothing going wrong, a flush succeeds when the serialiser does. -/
theorem flush_none {bytes : Bytes} (h : serialize w.store.format w.store.memory = .ok bytes) :
    flush Faults.none w = (.ok (), Function.update
      (Function.update w.disk w.store.path.tmpPath none) w.store.path (some bytes)) := by
  simp [flush, h, Disk.write, Disk.rename, Faults.none]

omit [Chrono] in
/-- The temp file left by an earlier call changes nothing. -/
theorem flush_agreeOff (io : Faults) {d : Disk} (h : AgreeOff w.store.path.tmpPath d w.disk) :
    (flush io { w with disk := d }).1 = (flush io w).1 ∧
      AgreeOff w.store.path.tmpPath (flush io { w with disk := d }).2 (flush io w).2 := by
  rcases hs : serialize w.store.format w.store.memory with e | bytes
  · simpa [flush, hs] using h
  · rcases hw : io.write with - | ⟨e, - | n⟩
    · rcases hr : io.rename with - | e
      · refine ⟨by simp [flush, hs, Disk.write, hw, Disk.rename, hr], fun q hq => ?_⟩
        simp [flush, hs, Disk.write, hw, Disk.rename, hr, Function.update_apply, hq, h q hq]
      · refine ⟨by simp [flush, hs, Disk.write, hw, Disk.rename, hr], fun q hq => ?_⟩
        simp [flush, hs, Disk.write, hw, Disk.rename, hr, hq, h q hq]
    · simpa [flush, hs, Disk.write, hw] using h
    · refine ⟨by simp [flush, hs, Disk.write, hw], fun q hq => ?_⟩
      simp [flush, hs, Disk.write, hw, hq, h q hq]

/-- What a mutation that returned `Ok` has done: nothing at all, or it has
changed the memory and written it to the target. -/
theorem mutate_ok {io : Faults} {now : Instant} {m : Mutation} {r : Reply}
    (h : (mutate io now w m).1 = some (.ok r)) :
    r = (MemoryStore.mutate now w.store.memory m).1 ∧
    ((r.flushes = false ∧ (mutate io now w m).2 = w) ∨
    ∃ bytes, serialize w.store.format (MemoryStore.mutate now w.store.memory m).2 = .ok bytes ∧
      (mutate io now w m).2.store =
        { w.store with memory := (MemoryStore.mutate now w.store.memory m).2 } ∧
      (mutate io now w m).2.disk w.store.path = some bytes) := by
  rw [mutate_eq] at h ⊢
  by_cases hlock : io.dropAt = some .lock
  · rw [if_pos hlock] at h
    cases h
  · rw [if_neg hlock] at h ⊢
    -- a mutation flushes unless it is a lost consume, which changes nothing
    rcases hf : (MemoryStore.mutate now w.store.memory m).1.flushes with - | -
    · simp only [hf, snd_of_not_flushes hf] at h ⊢
      obtain rfl := Except.ok.inj (Option.some.inj h)
      exact ⟨rfl, Or.inl ⟨hf, rfl⟩⟩
    · simp only [hf, if_true] at h ⊢
      rw [flushThen] at h ⊢
      split at h
      · cases h
      · rename_i hdrop
        rw [if_neg hdrop]
        rcases flush_cases io (w.setMemory (MemoryStore.mutate now w.store.memory m).2)
          with ⟨err, d, hflush, -⟩ | ⟨bytes, hbytes, hflush⟩
        · rw [hflush] at h
          cases h
        · rw [hflush] at h ⊢
          exact ⟨(Except.ok.inj (Option.some.inj h)).symm,
            Or.inr ⟨bytes, hbytes, rfl, Function.update_self _ _ _⟩⟩

/-- A mutation that returned `Ok` has given the reply of the memory, which it
has changed. -/
theorem memory_of_ok {io : Faults} {now : Instant} {m : Mutation} {r : Reply}
    (h : (mutate io now w m).1 = some (.ok r)) :
    r = (MemoryStore.mutate now w.store.memory m).1 ∧
    (mutate io now w m).2.store.memory = (MemoryStore.mutate now w.store.memory m).2 := by
  obtain ⟨rfl, ⟨hf, hsame⟩ | ⟨bytes, -, hstore, -⟩⟩ := mutate_ok h
  · exact ⟨rfl, by rw [hsame, snd_of_not_flushes hf]⟩
  · exact ⟨rfl, by rw [hstore]⟩

/-- A mutation of a run that returned `Ok` has changed the memory, and written it
if there was something to write. -/
theorem mutateStep_ok {c : Mutation × Instant × Faults} {r : Reply}
    (h : (mutateStep w c).1 = some (.ok r)) :
    r = (MemoryStore.mutate c.2.1 w.store.memory c.1).1 ∧
    (mutateStep w c).2.store =
      { w.store with memory := (MemoryStore.mutate c.2.1 w.store.memory c.1).2 } ∧
    (r.flushes = true → ∃ bytes,
      serialize w.store.format (mutateStep w c).2.store.memory = .ok bytes ∧
      (mutateStep w c).2.disk w.store.path = some bytes) := by
  obtain ⟨m, now, io⟩ := c
  unfold mutateStep at h ⊢
  obtain ⟨rfl, ⟨hf, hsame⟩ | ⟨bytes, hser, hstore, hdisk⟩⟩ := mutate_ok h
  · refine ⟨rfl, ?_, fun hf' => by cases hf.symm.trans hf'⟩
    rw [hsame, snd_of_not_flushes hf]
  · refine ⟨rfl, hstore, fun _ => ⟨bytes, ?_, hdisk⟩⟩
    rw [hstore]
    exact hser

/-- Everything a mutation can do when nothing goes wrong. -/
theorem mutate_none_cases (w : World) (m : Mutation) (now : Instant) :
    ((MemoryStore.mutate now w.store.memory m).1.flushes = false ∧
      mutate Faults.none now w m = (some (.ok (MemoryStore.mutate now w.store.memory m).1), w)) ∨
    (∃ e, serialize w.store.format (MemoryStore.mutate now w.store.memory m).2 = .error e ∧
      mutate Faults.none now w m =
        (some (.error e), w.setMemory (MemoryStore.mutate now w.store.memory m).2)) ∨
    (∃ bytes, serialize w.store.format (MemoryStore.mutate now w.store.memory m).2 = .ok bytes ∧
      (MemoryStore.mutate now w.store.memory m).1.flushes = true ∧
      mutate Faults.none now w m = (some (.ok (MemoryStore.mutate now w.store.memory m).1),
        { w.setMemory (MemoryStore.mutate now w.store.memory m).2 with
          disk := Function.update (Function.update w.disk w.store.path.tmpPath none)
            w.store.path (some bytes) })) := by
  have hlock : ¬ Faults.none.dropAt = some .lock := by simp [Faults.none]
  have hdrop : ¬ Faults.none.dropAt = some .snapshot := by simp [Faults.none]
  rw [mutate_eq, if_neg hlock]
  rcases hf : (MemoryStore.mutate now w.store.memory m).1.flushes with - | -
  · refine Or.inl ⟨rfl, ?_⟩
    simp only [hf, snd_of_not_flushes hf]
    rfl
  · simp only [hf, if_true, flushThen, if_neg hdrop]
    rcases hser : serialize w.store.format (MemoryStore.mutate now w.store.memory m).2 with e | bytes
    · refine Or.inr (Or.inl ⟨e, rfl, ?_⟩)
      simp only [flush, World.setMemory_format, World.setMemory_memory, hser]
    · refine Or.inr (Or.inr ⟨bytes, rfl, trivial, ?_⟩)
      rw [flush_none hser]
      rfl

/-- A mutation of a document that can be saved. -/
theorem mutate_none_of_serialize {bytes : Bytes}
    (hf : (MemoryStore.mutate now w.store.memory m).1.flushes = true)
    (hser : serialize w.store.format (MemoryStore.mutate now w.store.memory m).2 = .ok bytes) :
    mutate Faults.none now w m = (some (.ok (MemoryStore.mutate now w.store.memory m).1),
      { w.setMemory (MemoryStore.mutate now w.store.memory m).2 with
        disk := Function.update (Function.update w.disk w.store.path.tmpPath none)
          w.store.path (some bytes) }) := by
  rcases mutate_none_cases w m now with ⟨hf', -⟩ | ⟨e, he, -⟩ | ⟨bytes', hb, -, hcall⟩
  · cases hf.symm.trans hf'
  · cases he.symm.trans hser
  · obtain rfl := Except.ok.inj (hser.symm.trans hb)
    exact hcall

end FileStore

end Oxiscale

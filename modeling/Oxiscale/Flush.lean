/-
Oxiscale/Flush.lean

Concurrent calls on a `FileStore`.

Any number of mutating calls share one store.  A call goes through the steps
of the source: it changes the memory under the write lock, takes and
serialises a snapshot under the read lock, opens and truncates the temp
file, appends its bytes to it in any number of pieces, and renames the temp
file over the target.  Between any two of its steps any other call may move;
`step` says what one move does, and a list of moves is one interleaving.  The
file system never fails by itself, so the only I/O error is a rename that
finds no temp file.

Every flush of a store uses the same temp path.  A call holds the file it
opened and goes on writing to it whatever becomes of the name.

Two fields of the state are no part of the program: `log`, the calls in the
order of their changes to the memory, and `seen`, how many of these a snapshot
has seen.  `Logged` says what they mean, and holds in every run.
-/
import Oxiscale.File
import Oxiscale.Runs
import Oxiscale.Volume

namespace Oxiscale

open FileStore

/-! ### Calls and their steps -/

/-- How far a call is.  A writing call has written `done` of its bytes. -/
inductive Phase (N : Type)
  | waiting
  | applied (reply : Reply)
  | snapped (reply : Reply) (bytes : Bytes)
  | writing (reply : Reply) (bytes : Bytes) (file : Volume.Inode Path N) (done : ℕ)
  | returned (result : Except StoreError Reply)

/-- After the change to the memory.  A call that need not flush has returned. -/
def Phase.afterApply {N : Type} (reply : Reply) : Phase N :=
  if reply.flushes then .applied reply else .returned (.ok reply)

/-- A move of the call `i`. -/
inductive Step (T : Type)
  | apply (i : T)
  | snapshot (i : T)
  | create (i : T)
  | append (i : T) (n : ℕ)
  | rename (i : T)

abbrev Files (N : Type) := Volume Path N UInt8

/-- A store with the calls made on it. -/
structure Shared (T N : Type) where
  store : FileStore
  phase : T → Phase N
  log : List T
  seen : T → ℕ

namespace Shared

variable {T N : Type}

/-- Before the first call. -/
def start (store : FileStore) : Shared T N where
  store := store
  phase _ := .waiting
  log := []
  seen _ := 0

variable [DecidableEq T]

def setPhase (i : T) (ph : Phase N) (s : Shared T N) : Shared T N :=
  { s with phase := Function.update s.phase i ph }

@[simp] theorem setPhase_store (i : T) (ph : Phase N) (s : Shared T N) :
    (s.setPhase i ph).store = s.store := rfl

@[simp] theorem setPhase_log (i : T) (ph : Phase N) (s : Shared T N) :
    (s.setPhase i ph).log = s.log := rfl

@[simp] theorem setPhase_self (i : T) (ph : Phase N) (s : Shared T N) :
    (s.setPhase i ph).phase i = ph := Function.update_self _ _ _

theorem setPhase_of_ne {i j : T} (h : j ≠ i) (ph : Phase N) (s : Shared T N) :
    (s.setPhase i ph).phase j = s.phase j := Function.update_of_ne h _ _

/-- The change to the memory. -/
def apply [Chrono] (calls : T → Mutation × Instant) (i : T) (s : Shared T N) : Shared T N :=
  let (reply, doc) := MemoryStore.mutate (calls i).2 s.store.memory (calls i).1
  { s with
    store := { s.store with memory := doc }
    phase := Function.update s.phase i (.afterApply reply)
    log := s.log ++ [i] }

/-- A snapshot that was serialised. -/
def snap (i : T) (reply : Reply) (bytes : Bytes) (s : Shared T N) : Shared T N :=
  { s.setPhase i (.snapped reply bytes) with seen := Function.update s.seen i s.log.length }

end Shared

section Calls

variable {T N : Type} [DecidableEq T] [DecidableEq N] [Serde] [Chrono]
  (calls : T → Mutation × Instant) (name : T → N)

/-- One move.  It is `none` where the call is not at that step. -/
def step : Shared T N × Files N → Step T → Option (Shared T N × Files N)
  | (s, v), .apply i =>
    match s.phase i with
    | .waiting => some (s.apply calls i, v)
    | _ => none
  | (s, v), .snapshot i =>
    match s.phase i with
    | .applied reply =>
      match serialize s.store.format s.store.memory with
      | .error e => some (s.setPhase i (.returned (.error e)), v)
      | .ok bytes => some (s.snap i reply bytes, v)
    | _ => none
  | (s, v), .create i =>
    match s.phase i with
    | .snapped reply bytes =>
      let (file, v') := v.create (name i) s.store.path.tmpPath
      some (s.setPhase i (.writing reply bytes file 0), v')
    | _ => none
  | (s, v), .append i n =>
    match s.phase i with
    | .writing reply bytes file done =>
      some (s.setPhase i (.writing reply bytes file (done + n)),
        v.append file ((bytes.drop done).take n))
    | _ => none
  | (s, v), .rename i =>
    match s.phase i with
    | .writing reply bytes _ done =>
      if done < bytes.length then none
      else
        match v.rename s.store.path.tmpPath s.store.path with
        | none => some (s.setPhase i (.returned (.error (.io .notFound))), v)
        | some v' => some (s.setPhase i (.returned (.ok reply)), v')
    | _ => none

/-- Everything a move can do. -/
inductive Next : Shared T N × Files N → Step T → Shared T N × Files N → Prop
  | apply {s v i} (h : s.phase i = .waiting) : Next (s, v) (.apply i) (s.apply calls i, v)
  | refused {s v i reply e} (h : s.phase i = .applied reply)
      (hser : serialize s.store.format s.store.memory = .error e) :
      Next (s, v) (.snapshot i) (s.setPhase i (.returned (.error e)), v)
  | snapshot {s v i reply bytes} (h : s.phase i = .applied reply)
      (hser : serialize s.store.format s.store.memory = .ok bytes) :
      Next (s, v) (.snapshot i) (s.snap i reply bytes, v)
  | create {s v i reply bytes} (h : s.phase i = .snapped reply bytes) :
      Next (s, v) (.create i)
        (s.setPhase i (.writing reply bytes (v.create (name i) s.store.path.tmpPath).1 0),
          (v.create (name i) s.store.path.tmpPath).2)
  | append {s v i n reply bytes file done} (h : s.phase i = .writing reply bytes file done) :
      Next (s, v) (.append i n) (s.setPhase i (.writing reply bytes file (done + n)),
        v.append file ((bytes.drop done).take n))
  | gone {s v i reply bytes file done} (h : s.phase i = .writing reply bytes file done)
      (hdone : bytes.length ≤ done) (hv : v.rename s.store.path.tmpPath s.store.path = none) :
      Next (s, v) (.rename i) (s.setPhase i (.returned (.error (.io .notFound))), v)
  | rename {s v i reply bytes file done w} (h : s.phase i = .writing reply bytes file done)
      (hdone : bytes.length ≤ done) (hv : v.rename s.store.path.tmpPath s.store.path = some w) :
      Next (s, v) (.rename i) (s.setPhase i (.returned (.ok reply)), w)

variable {calls name} {a b : Shared T N × Files N} {x : Step T}

/-- **Step.**  The moves of the model are those of the relation. -/
theorem step_eq_some_iff : step calls name a x = some b ↔ Next calls name a x b := by
  obtain ⟨s, v⟩ := a
  constructor
  · intro h
    -- one case for each branch of `step` that is taken
    cases x with
    | apply i =>
        simp only [step] at h
        split at h
        · rename_i hi
          exact Option.some.inj h ▸ .apply hi
        · cases h
    | snapshot i =>
        simp only [step] at h
        split at h
        · rename_i hi
          split at h
          · rename_i hser
            exact Option.some.inj h ▸ .refused hi hser
          · rename_i hser
            exact Option.some.inj h ▸ .snapshot hi hser
        · cases h
    | create i =>
        simp only [step] at h
        split at h
        · rename_i hi
          exact Option.some.inj h ▸ .create hi
        · cases h
    | append i n =>
        simp only [step] at h
        split at h
        · rename_i hi
          exact Option.some.inj h ▸ .append hi
        · cases h
    | rename i =>
        simp only [step] at h
        split at h
        · rename_i hi
          split at h
          · cases h
          · rename_i hdone
            split at h
            · rename_i hv
              exact Option.some.inj h ▸ .gone hi (Nat.le_of_not_lt hdone) hv
            · rename_i hv
              exact Option.some.inj h ▸ .rename hi (Nat.le_of_not_lt hdone) hv
        · cases h
  · rintro (h | ⟨h, hser⟩ | ⟨h, hser⟩ | h | h | ⟨h, hdone, hv⟩ | ⟨h, hdone, hv⟩)
    · simp only [step, h]
    · simp only [step, h, hser]
    · simp only [step, h, hser]
    · simp only [step, h]
    · simp only [step, h]
    · simp only [step, h, if_neg (Nat.not_lt.mpr hdone), hv]
    · simp only [step, h, if_neg (Nat.not_lt.mpr hdone), hv]

/-- A run begins with its first move. -/
theorem exec_next {c : Shared T N × Files N} {xs : List (Step T)} (h : Next calls name a x b)
    (hrest : Runs.exec (step calls name) b xs = some c) :
    Runs.exec (step calls name) a (x :: xs) = some c :=
  Runs.exec_cons_some.mpr ⟨b, step_eq_some_iff.mpr h, hrest⟩

/-- An allowed run begins with its first move. -/
theorem guarded_next {ok : Shared T N × Files N → Step T → Prop} {c : Shared T N × Files N}
    {xs : List (Step T)} (hok : ok a x) (h : Next calls name a x b)
    (hrest : Runs.exec (step calls name) b xs = some c ∧
      Runs.Guarded (step calls name) ok b xs) :
    Runs.exec (step calls name) a (x :: xs) = some c ∧
      Runs.Guarded (step calls name) ok a (x :: xs) :=
  ⟨exec_next h hrest.1, .cons hok (step_eq_some_iff.mpr h) hrest.2⟩

/-- No move changes path or format. -/
theorem Next.path_eq (h : Next calls name a x b) :
    b.1.store.path = a.1.store.path ∧ b.1.store.format = a.1.store.format := by
  cases h <;> exact ⟨rfl, rfl⟩

/-! ### The order of the calls -/

/-- The call whose change to the memory a move is. -/
def Step.changes : Step T → Option T
  | .apply i => some i
  | _ => none

/-- The log lists the changes of the run in their order. -/
theorem log_of_exec {xs : List (Step T)} (h : Runs.exec (step calls name) a xs = some b) :
    b.1.log = a.1.log ++ xs.filterMap Step.changes := by
  induction xs generalizing a with
  | nil =>
      obtain rfl := Option.some.inj h
      simp
  | cons x xs ih =>
      obtain ⟨c, hc, hrest⟩ := Runs.exec_cons_some.mp h
      rw [ih hrest]
      -- only a change to the memory is logged
      cases step_eq_some_iff.mp hc with
      | apply hi => exact List.append_assoc _ _ _
      | _ => rfl

variable (calls) in
/-- The document after the calls of a list. -/
def docAfter (doc : StoreDocument) (l : List T) : StoreDocument :=
  Runs.final (fun d i => MemoryStore.mutate (calls i).2 d (calls i).1) doc l

variable (calls) in
/-- A call of the list replies this, when the calls are made in the order of
the list. -/
def Replies (doc : StoreDocument) (l : List T) (i : T) (r : Reply) : Prop :=
  ∃ before after, l = before ++ i :: after ∧
    r = (MemoryStore.mutate (calls i).2 (docAfter calls doc before) (calls i).1).1

/-- The reply a call will give when its flush succeeds. -/
def Phase.pending : Phase N → Option Reply
  | .applied reply => some reply
  | .snapped reply _ => some reply
  | .writing reply _ _ _ => some reply
  | _ => none

/-- The bytes a call writes or will write. -/
def Phase.payload : Phase N → Option Bytes
  | .snapped _ bytes => some bytes
  | .writing _ bytes _ _ => some bytes
  | _ => none

variable {doc : StoreDocument} {s : Shared T N} {i j : T} {r : Reply} {l : List T} {ph : Phase N}

omit [DecidableEq T] [DecidableEq N] [Serde] in
theorem docAfter_snoc : docAfter calls doc (l ++ [i]) =
    (MemoryStore.mutate (calls i).2 (docAfter calls doc l) (calls i).1).2 :=
  Runs.final_snoc

omit [DecidableEq T] [DecidableEq N] [Serde] in
/-- A reply does not depend on the changes made later. -/
theorem Replies.append (h : Replies calls doc l i r) (l' : List T) :
    Replies calls doc (l ++ l') i r := by
  obtain ⟨before, after, rfl, hr⟩ := h
  exact ⟨before, after ++ l', by simp, hr⟩

variable (calls doc s) in
/-- What the two history fields mean: the memory is the document after the
logged calls, a call is logged once it has changed the memory and replies as
its place in the log says, and its bytes are the document it has seen. -/
structure Logged : Prop where
  nodup : s.log.Nodup
  memory : s.store.memory = docAfter calls doc s.log
  mem_log : ∀ i, i ∈ s.log ↔ s.phase i ≠ .waiting
  pending : ∀ i r, (s.phase i).pending = some r → Replies calls doc s.log i r ∧ r.flushes = true
  returned : ∀ i r, s.phase i = .returned (.ok r) → Replies calls doc s.log i r
  payload : ∀ i bytes, (s.phase i).payload = some bytes → s.seen i ≤ s.log.length ∧
    i ∈ s.log.take (s.seen i) ∧
    serialize s.store.format (docAfter calls doc (s.log.take (s.seen i))) = .ok bytes

omit [DecidableEq T] [DecidableEq N] in
theorem Logged.start (store : FileStore) :
    Logged calls store.memory (Shared.start store : Shared T N) where
  nodup := List.nodup_nil
  memory := rfl
  mem_log i := by simp [Shared.start]
  pending i r h := by simp [Shared.start, Phase.pending] at h
  returned i r h := by simp [Shared.start] at h
  payload i bytes h := by simp [Shared.start, Phase.payload] at h

variable (calls doc s) in
/-- The part of `Logged` that is about one call. -/
structure LoggedCall (i : T) : Prop where
  mem_log : i ∈ s.log ↔ s.phase i ≠ .waiting
  pending : ∀ r, (s.phase i).pending = some r → Replies calls doc s.log i r ∧ r.flushes = true
  returned : ∀ r, s.phase i = .returned (.ok r) → Replies calls doc s.log i r
  payload : ∀ bytes, (s.phase i).payload = some bytes → s.seen i ≤ s.log.length ∧
    i ∈ s.log.take (s.seen i) ∧
    serialize s.store.format (docAfter calls doc (s.log.take (s.seen i))) = .ok bytes

omit [DecidableEq T] [DecidableEq N] in
/-- It is enough to look at the calls one by one. -/
theorem Logged.of_calls (hnodup : s.log.Nodup) (hmemory : s.store.memory = docAfter calls doc s.log)
    (h : ∀ i, LoggedCall calls doc s i) : Logged calls doc s where
  nodup := hnodup
  memory := hmemory
  mem_log i := (h i).mem_log
  pending i := (h i).pending
  returned i := (h i).returned
  payload i := (h i).payload

omit [DecidableEq T] [DecidableEq N] in
/-- A call that does not move stays logged as it was, in a log that may grow
by other calls. -/
theorem Logged.frame {s' : Shared T N} (h : Logged calls doc s) (hphase : s'.phase j = s.phase j)
    (hseen : s'.seen j = s.seen j) (hformat : s'.store.format = s.store.format)
    (hlog : s'.log = s.log ++ l) (hj : j ∉ l) : LoggedCall calls doc s' j := by
  refine ⟨?_, ?_, ?_, ?_⟩
  all_goals rw [hphase, hlog]
  · rw [← h.mem_log j]
    simp [hj]
  · exact fun r hr => ⟨(h.pending j r hr).1.append l, (h.pending j r hr).2⟩
  · exact fun r hr => (h.returned j r hr).append l
  · intro bytes hb
    obtain ⟨hle, hmem, hser⟩ := h.payload j bytes hb
    rw [hseen, hformat, List.take_append_of_le_length hle, List.length_append]
    exact ⟨hle.trans (Nat.le_add_right _ _), hmem, hser⟩

omit [DecidableEq N] in
theorem Logged.apply (h : Logged calls doc s) (hi : s.phase i = .waiting) :
    Logged calls doc (s.apply calls i) := by
  have hnot : i ∉ s.log := fun hmem => (h.mem_log i).mp hmem hi
  have hreply : Replies calls doc (s.log ++ [i]) i
      (MemoryStore.mutate (calls i).2 s.store.memory (calls i).1).1 :=
    ⟨s.log, [], rfl, by rw [h.memory]⟩
  have hself : (s.apply calls i).phase i =
      .afterApply (MemoryStore.mutate (calls i).2 s.store.memory (calls i).1).1 :=
    Function.update_self _ _ _
  refine .of_calls ?_ ?_ fun j => ?_
  · exact h.nodup.append (List.nodup_singleton i) (by simpa using hnot)
  · show (MemoryStore.mutate (calls i).2 s.store.memory (calls i).1).2 = _
    rw [h.memory]
    exact docAfter_snoc.symm
  · rcases eq_or_ne j i with rfl | hj
    · -- its reply needs a flush, or is returned at once
      refine ⟨?_, ?_, ?_, ?_⟩
      all_goals rw [hself, Phase.afterApply]
      · split <;> simp [Shared.apply]
      · intro r hr
        split at hr
        · rename_i hflush
          obtain rfl := Option.some.inj hr
          exact ⟨hreply, hflush⟩
        · cases hr
      · intro r hr
        split at hr
        · cases hr
        · obtain rfl := Except.ok.inj (Phase.returned.inj hr)
          exact hreply
      · intro bytes hb
        split at hb <;> cases hb
    · exact h.frame (l := [i]) (Function.update_of_ne hj _ _) rfl rfl rfl (by simpa using hj)

omit [DecidableEq N] in
/-- A later phase of a call keeps the log right if it keeps the call's reply
and its bytes. -/
theorem Logged.setPhase (h : Logged calls doc s) (hi : s.phase i ≠ .waiting)
    (hph : ph ≠ .waiting) (hpending : ∀ r, ph.pending = some r → (s.phase i).pending = some r)
    (hreturned : ∀ r, ph = .returned (.ok r) → (s.phase i).pending = some r)
    (hpayload : ∀ bytes, ph.payload = some bytes → (s.phase i).payload = some bytes) :
    Logged calls doc (s.setPhase i ph) := by
  refine .of_calls h.nodup h.memory fun j => ?_
  rcases eq_or_ne j i with rfl | hj
  · refine ⟨?_, ?_, ?_, ?_⟩
    all_goals rw [Shared.setPhase_self]
    · simpa [hph] using (h.mem_log j).mpr hi
    · exact fun r hr => h.pending j r (hpending r hr)
    · exact fun r hr => (h.pending j r (hreturned r hr)).1
    · exact fun bytes hb => h.payload j bytes (hpayload bytes hb)
  · exact h.frame (Shared.setPhase_of_ne hj _ _) rfl rfl (List.append_nil _).symm List.not_mem_nil

omit [DecidableEq N] in
/-- A snapshot is the document after the log so far. -/
theorem Logged.snap {bytes : Bytes} (h : Logged calls doc s) (hi : s.phase i = .applied r)
    (hser : serialize s.store.format s.store.memory = .ok bytes) :
    Logged calls doc (s.snap i r bytes) := by
  have hmem : i ∈ s.log := (h.mem_log i).mpr (by simp [hi])
  have hself : (s.snap i r bytes).phase i = .snapped r bytes := Function.update_self _ _ _
  have hseen : (s.snap i r bytes).seen i = s.log.length := Function.update_self _ _ _
  refine .of_calls h.nodup h.memory fun j => ?_
  rcases eq_or_ne j i with rfl | hj
  · refine ⟨?_, ?_, ?_, ?_⟩
    all_goals rw [hself]
    · exact ⟨fun _ => by simp, fun _ => hmem⟩
    · intro r' hr
      obtain rfl : r = r' := Option.some.inj hr
      exact h.pending j r (by rw [hi]; rfl)
    · intro r' hr
      cases hr
    · intro bytes' hb
      obtain rfl : bytes = bytes' := Option.some.inj hb
      -- it has seen the whole log, whose document is the memory
      have htake : s.log.take s.log.length = s.log := List.take_length
      rw [hseen]
      refine ⟨le_refl _, ?_, ?_⟩
      · exact htake.symm ▸ hmem
      · show serialize s.store.format (docAfter calls doc (s.log.take s.log.length)) = _
        rw [htake, ← h.memory]
        exact hser
  · exact h.frame (Function.update_of_ne hj _ _) (Function.update_of_ne hj _ _) rfl
      (List.append_nil _).symm List.not_mem_nil

/-- **Step.**  Every move keeps the log right. -/
theorem Logged.next (h : Logged calls doc a.1) (hnext : Next calls name a x b) :
    Logged calls doc b.1 := by
  cases hnext with
  | apply hi => exact h.apply hi
  | refused hi hser =>
      exact h.setPhase (by simp [hi]) (by simp) (by simp [Phase.pending]) (by simp)
        (by simp [Phase.payload])
  | snapshot hi hser => exact h.snap hi hser
  | create hi =>
      exact h.setPhase (by simp [hi]) (by simp) (by simp [hi, Phase.pending]) (by simp)
        (by simp [hi, Phase.payload])
  | append hi =>
      exact h.setPhase (by simp [hi]) (by simp) (by simp [hi, Phase.pending]) (by simp)
        (by simp [hi, Phase.payload])
  | gone hi hdone hv =>
      exact h.setPhase (by simp [hi]) (by simp) (by simp [Phase.pending]) (by simp)
        (by simp [Phase.payload])
  | rename hi hdone hv =>
      exact h.setPhase (by simp [hi]) (by simp) (by simp [Phase.pending])
        (by simp [hi, Phase.pending]) (by simp [Phase.payload])

end Calls

/-! ### One writer at a time -/

/-- The call has not opened the temp file yet. -/
def Phase.Unopened {N : Type} : Phase N → Prop
  | .waiting => True
  | .applied _ => True
  | .snapped _ _ => True
  | _ => False

/-- The call has the temp file open. -/
def Phase.Writing {N : Type} : Phase N → Prop
  | .writing _ _ _ _ => True
  | _ => False

theorem Phase.not_writing_afterApply {N : Type} (reply : Reply) :
    ¬ (Phase.afterApply reply : Phase N).Writing := by
  rw [afterApply]
  split <;> exact id

theorem tmpPath_ne_path {T N : Type} {s : Shared T N} :
    s.store.path.tmpPath ≠ s.store.path :=
  tmpPath_ne s.store.accepted s.store.accepted

section Exclusive

variable {T : Type} {Busy : Phase T → Prop} {s s' : Shared T T} {v w : Files T} {i : T}
  {reply : Reply} {bytes : Bytes} {file : Volume.Inode Path T} {done n : ℕ}

variable (Busy s v) in
/-- At most one call is busy with the temp file, and what it has written is
what stands there. -/
structure Exclusive : Prop where
  noAlias : v.NoAlias
  fresh : ∀ i, (s.phase i).Unopened → v.Fresh i
  one : ∀ i j, Busy (s.phase i) → Busy (s.phase j) → i = j
  temp : ∀ i reply bytes file done, s.phase i = .writing reply bytes file done →
    Busy (s.phase i) → v.dir s.store.path.tmpPath = some file ∧ v.data file = bytes.take done

theorem Exclusive.start (hwaiting : ¬ Busy .waiting) (store : FileStore) (disk : Disk) :
    Exclusive Busy (Shared.start store) (Volume.ofDisk disk) where
  noAlias := Volume.noAlias_ofDisk disk
  fresh i _ := Volume.fresh_ofDisk disk
  one i j h := absurd h hwaiting
  temp i reply bytes file done h := by cases h

/-- A move that touches no file, after which whoever is busy was so before. -/
theorem Exclusive.frame (h : Exclusive Busy s v) (hpath : s'.store.path = s.store.path)
    (hunopened : ∀ j, (s'.phase j).Unopened → (s.phase j).Unopened)
    (hbusy : ∀ j, Busy (s'.phase j) → s'.phase j = s.phase j) : Exclusive Busy s' v where
  noAlias := h.noAlias
  fresh j hj := h.fresh j (hunopened j hj)
  one i j hi hj := h.one i j (hbusy i hi ▸ hi) (hbusy j hj ▸ hj)
  temp j reply bytes file done hj hb := by
    have hsame := hbusy j hb
    rw [hpath]
    exact h.temp j reply bytes file done (hsame.symm.trans hj) (hsame ▸ hb)

variable [DecidableEq T]

/-- A file is created while no other call is busy. -/
theorem Exclusive.create (h : Exclusive Busy s v) (hi : s.phase i = .snapped reply bytes)
    (hok : ∀ j, j ≠ i → ¬ Busy (s.phase j)) :
    Exclusive Busy (s.setPhase i (.writing reply bytes (v.create i s.store.path.tmpPath).1 0))
      (v.create i s.store.path.tmpPath).2 := by
  have hfresh : v.Fresh i := h.fresh i (by rw [hi]; trivial)
  -- by the guard no other call is at the file
  have honly : ∀ j, Busy ((s.setPhase i (.writing reply bytes
      (v.create i s.store.path.tmpPath).1 0)).phase j) → j = i := by
    intro j hj
    by_contra hji
    rw [Shared.setPhase_of_ne hji] at hj
    exact hok j hji hj
  refine ⟨h.noAlias.create hfresh, ?_, ?_, ?_⟩
  · intro j hj
    rcases eq_or_ne j i with rfl | hji
    · rw [Shared.setPhase_self] at hj
      exact hj.elim
    · rw [Shared.setPhase_of_ne hji] at hj
      exact (h.fresh j hj).create hji
  · intro j k hj hk
    rw [honly j hj, honly k hk]
  · intro j reply' bytes' file' done' hj hb
    obtain rfl := honly j hb
    rw [Shared.setPhase_self] at hj
    obtain ⟨rfl, rfl, rfl, rfl⟩ := Phase.writing.inj hj
    exact ⟨Volume.dir_create_self, Volume.data_create_self⟩

/-- The target keeps its content when the temp file is opened. -/
theorem Exclusive.read_create (h : Exclusive Busy s v) (hi : s.phase i = .snapped reply bytes) :
    (v.create i s.store.path.tmpPath).2.read s.store.path = v.read s.store.path :=
  Volume.read_create_of_ne h.noAlias (h.fresh i (by rw [hi]; trivial)) tmpPath_ne_path.symm

/-- Writing on changes the data of its own file only. -/
theorem Exclusive.append (h : Exclusive Busy s v) (hi : s.phase i = .writing reply bytes file done)
    (hbusy : Busy (s.phase i)) :
    Exclusive Busy (s.setPhase i (.writing reply bytes file (done + n)))
      (v.append file ((bytes.drop done).take n)) := by
  obtain ⟨hdir, hdata⟩ := h.temp i reply bytes file done hi hbusy
  have honly : ∀ j, Busy ((s.setPhase i (.writing reply bytes file (done + n))).phase j) →
      j = i := by
    intro j hj
    by_contra hji
    rw [Shared.setPhase_of_ne hji] at hj
    exact hji (h.one j i hj hbusy)
  refine ⟨h.noAlias.append, ?_, ?_, ?_⟩
  · intro j hj
    rcases eq_or_ne j i with rfl | hji
    · rw [Shared.setPhase_self] at hj
      exact hj.elim
    · rw [Shared.setPhase_of_ne hji] at hj
      exact (h.fresh j hj).append
  · intro j k hj hk
    rw [honly j hj, honly k hk]
  · intro j reply' bytes' file' done' hj hb
    obtain rfl := honly j hb
    rw [Shared.setPhase_self] at hj
    obtain ⟨rfl, rfl, rfl, rfl⟩ := Phase.writing.inj hj
    exact ⟨hdir, by rw [Volume.data_append_self, hdata, List.take_add]⟩

/-- The target keeps its content while the temp file is written. -/
theorem Exclusive.read_append (h : Exclusive Busy s v)
    (hi : s.phase i = .writing reply bytes file done) (hbusy : Busy (s.phase i)) (piece : Bytes) :
    (v.append file piece).read s.store.path = v.read s.store.path :=
  Volume.read_append_of_ne
    (h.noAlias.dir_ne (h.temp i reply bytes file done hi hbusy).1 tmpPath_ne_path.symm)

theorem Exclusive.rename {result : Except StoreError Reply} (h : Exclusive Busy s v)
    (hreturned : ¬ Busy (.returned result)) (hok : ∀ j, j ≠ i → ¬ Busy (s.phase j))
    (hv : v.rename s.store.path.tmpPath s.store.path = some w) :
    Exclusive Busy (s.setPhase i (.returned result)) w := by
  have hnot : ∀ j, ¬ Busy ((s.setPhase i (.returned result)).phase j) := by
    intro j hj
    rcases eq_or_ne j i with rfl | hji
    · rw [Shared.setPhase_self] at hj
      exact hreturned hj
    · rw [Shared.setPhase_of_ne hji] at hj
      exact hok j hji hj
  refine ⟨h.noAlias.rename hv, ?_, fun j k hj => absurd hj (hnot j),
    fun j _ _ _ _ _ hb => absurd hb (hnot j)⟩
  intro j hj
  rcases eq_or_ne j i with rfl | hji
  · rw [Shared.setPhase_self] at hj
    exact hj.elim
  · rw [Shared.setPhase_of_ne hji] at hj
    exact (h.fresh j hj).rename hv

end Exclusive

end Oxiscale

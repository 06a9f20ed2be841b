/-
Oxiscale/Durable.lean

When acknowledged mutations are durable.

Two orders of steps lose a mutation or fail a call.  A call that finds the
temp file renamed away by another one returns an error for a change that was
made, and a call that has taken its snapshot early may rename last, over a
newer document whose calls have already returned `Ok`.

The runs without them are the `Orderly` ones: a temp file is opened only when
no other call has it open, and a call renames only when its snapshot has seen
every acknowledged call.  In these runs every call replies what the memory
replied, and the target holds every acknowledged mutation.
-/
import Oxiscale.Flush
import Oxiscale.Saved

namespace Oxiscale

open FileStore

/-- The call has returned `Ok` after a flush. -/
def Shared.Acknowledged {T N : Type} (s : Shared T N) (i : T) : Prop :=
  ∃ r, s.phase i = .returned (.ok r) ∧ r.flushes = true

section Durable

variable {T : Type} [DecidableEq T] [Crates] [Chrono] {calls : T → Mutation × Instant}
  {doc : StoreDocument} {disk : Disk} {s s' : Shared T T} {v w : Files T} {i j : T}
  {x : Step T} {a b : Shared T T × Files T} {r : Reply} {bytes : Bytes}
  {file : Volume.Inode Path T} {done : ℕ}

/-- The serialiser accepts the document, nobody else has the temp file open
when it is opened, and whoever renames has seen what was acknowledged. -/
def Orderly (a : Shared T T × Files T) : Step T → Prop
  | .snapshot _ => a.1.store.format = .toml → a.1.store.memory.FitsToml
  | .create i => ∀ j, j ≠ i → ¬ (a.1.phase j).Writing
  | .rename i => ∀ j, a.1.Acknowledged j → j ∈ a.1.log.take (a.1.seen i)
  | _ => True

variable (calls doc s v) in
/-- The target has a prefix of the calls, and every acknowledged one is in
it. -/
def Recovers : Prop := ∃ n bytes, v.read s.store.path = some bytes ∧
  serialize s.store.format (docAfter calls doc (s.log.take n)) = .ok bytes ∧
  ∀ j, s.Acknowledged j → j ∈ s.log.take n

variable (calls doc s v) in
structure Durable : Prop where
  logged : Logged calls doc s
  exclusive : Exclusive Phase.Writing s v
  returned : ∀ i result, s.phase i = .returned result → ∃ r, result = .ok r
  target : (∃ k, s.Acknowledged k) → Recovers calls doc s v

omit [DecidableEq T] in
theorem Durable.start (store : FileStore) :
    Durable calls store.memory (Shared.start store) (Volume.ofDisk disk : Files T) where
  logged := .start store
  exclusive := .start id store disk
  returned i result h := by cases h
  target h := by
    obtain ⟨k, r, hk, -⟩ := h
    cases hk

omit [DecidableEq T] in
/-- As long as the target is not touched and no call returns, what it recovers
stands. -/
theorem Recovers.mono {l : List T} (h : Recovers calls doc s v) (hlog : s'.log = s.log ++ l)
    (hpath : s'.store.path = s.store.path) (hformat : s'.store.format = s.store.format)
    (hack : ∀ j, s'.Acknowledged j → s.Acknowledged j) (hread : w.read s.store.path = v.read s.store.path) :
    Recovers calls doc s' w := by
  obtain ⟨n, bytes, hbytes, hser, hall⟩ := h
  have htake : s'.log.take (min n s.log.length) = s.log.take n := by
    rw [hlog, List.take_append_of_le_length (Nat.min_le_right _ _)]
    rcases Nat.le_total n s.log.length with hn | hn
    · rw [Nat.min_eq_left hn]
    · rw [Nat.min_eq_right hn, List.take_length, List.take_of_length_le hn]
  refine ⟨min n s.log.length, bytes, ?_, ?_, ?_⟩
  · rw [hpath, hread, hbytes]
  · rw [hformat, htake, hser]
  · intro j hj
    rw [htake]
    exact hall j (hack j hj)

omit [Crates] in
/-- The change to the memory acknowledges nothing: a call that returns with
it has not flushed. -/
theorem acknowledged_apply (h : (s.apply calls i).Acknowledged j) : s.Acknowledged j := by
  obtain ⟨r, hr, hflush⟩ := h
  rcases eq_or_ne j i with rfl | hji
  · have hself : (s.apply calls j).phase j =
        .afterApply (MemoryStore.mutate (calls j).2 s.store.memory (calls j).1).1 :=
      Function.update_self _ _ _
    rw [hself, Phase.afterApply] at hr
    split at hr
    · cases hr
    · rename_i hnot
      obtain rfl := Except.ok.inj (Phase.returned.inj hr)
      exact absurd hflush hnot
  · have hne : (s.apply calls i).phase j = s.phase j := Function.update_of_ne hji _ _
    exact ⟨r, hne ▸ hr, hflush⟩

omit [Crates] [Chrono] in
/-- A call that has not returned is not acknowledged. -/
theorem acknowledged_setPhase {ph : Phase T} (hph : ∀ result, ph ≠ .returned result)
    (h : (s.setPhase i ph).Acknowledged j) : s.Acknowledged j := by
  obtain ⟨r, hr, hflush⟩ := h
  rcases eq_or_ne j i with rfl | hji
  · rw [Shared.setPhase_self] at hr
    exact absurd hr (hph _)
  · rw [Shared.setPhase_of_ne hji] at hr
    exact ⟨r, hr, hflush⟩

theorem Durable.apply (h : Durable calls doc s v) (hi : s.phase i = .waiting) :
    Durable calls doc (s.apply calls i) v := by
  have hself : (s.apply calls i).phase i =
      .afterApply (MemoryStore.mutate (calls i).2 s.store.memory (calls i).1).1 :=
    Function.update_self _ _ _
  have hne : ∀ j, j ≠ i → (s.apply calls i).phase j = s.phase j :=
    fun j hj => Function.update_of_ne hj _ _
  -- the call does not write yet, and no other call moves
  refine ⟨h.logged.apply hi, h.exclusive.frame rfl ?_ ?_, ?_, ?_⟩
  · intro j hj
    rcases eq_or_ne j i with rfl | hji
    · rw [hi]
      trivial
    · exact hne j hji ▸ hj
  · intro j hj
    rcases eq_or_ne j i with rfl | hji
    · rw [hself] at hj
      exact absurd hj (Phase.not_writing_afterApply _)
    · exact hne j hji
  · intro j result hj
    rcases eq_or_ne j i with rfl | hji
    · rw [hself, Phase.afterApply] at hj
      split at hj
      · cases hj
      · exact ⟨_, (Phase.returned.inj hj).symm⟩
    · exact h.returned j result (hne j hji ▸ hj)
  · rintro ⟨k, hk⟩
    exact (h.target ⟨k, acknowledged_apply hk⟩).mono (l := [i]) rfl rfl rfl
      (fun _ => acknowledged_apply) rfl

/-- A move that returns nothing and leaves the target alone. -/
theorem Durable.setPhase {ph : Phase T} (h : Durable calls doc s v)
    (hlogged : Logged calls doc s') (hphase : s'.phase = (s.setPhase i ph).phase)
    (hlog : s'.log = s.log) (hstore : s'.store = s.store)
    (hexclusive : Exclusive Phase.Writing s' w) (hph : ∀ result, ph ≠ .returned result)
    (hread : w.read s.store.path = v.read s.store.path) : Durable calls doc s' w := by
  have hack : ∀ j, s'.Acknowledged j → s.Acknowledged j := by
    rintro j ⟨r, hr, hflush⟩
    rw [hphase] at hr
    exact acknowledged_setPhase hph ⟨r, hr, hflush⟩
  refine ⟨hlogged, hexclusive, ?_, ?_⟩
  · intro j result hj
    rw [hphase] at hj
    rcases eq_or_ne j i with rfl | hji
    · rw [Shared.setPhase_self] at hj
      exact absurd hj (hph result)
    · rw [Shared.setPhase_of_ne hji] at hj
      exact h.returned j result hj
  · rintro ⟨k, hk⟩
    exact (h.target ⟨k, hack k hk⟩).mono (l := []) (by rw [hlog, List.append_nil])
      (by rw [hstore]) (by rw [hstore]) hack hread

/-- The rename puts every acknowledged change into the target. -/
theorem Durable.rename (h : Durable calls doc s v)
    (hlogged : Logged calls doc (s.setPhase i (.returned (.ok r))))
    (hi : s.phase i = .writing r bytes file done) (hdone : bytes.length ≤ done)
    (hok : ∀ j, s.Acknowledged j → j ∈ s.log.take (s.seen i))
    (hv : v.rename s.store.path.tmpPath s.store.path = some w) :
    Durable calls doc (s.setPhase i (.returned (.ok r))) w := by
  have hwriting : (s.phase i).Writing := by
    rw [hi]
    trivial
  have hone : ∀ j, j ≠ i → ¬ (s.phase j).Writing :=
    fun j hji hj => hji (h.exclusive.one j i hj hwriting)
  obtain ⟨hdir, hdata⟩ := h.exclusive.temp i r bytes file done hi hwriting
  obtain ⟨htarget, -⟩ := Volume.read_rename hv tmpPath_ne_path
  obtain ⟨-, hmem, hser⟩ := h.logged.payload i bytes (by rw [hi]; rfl)
  refine ⟨hlogged, h.exclusive.rename id hone hv, ?_, fun _ => ⟨s.seen i, bytes, ?_, hser, ?_⟩⟩
  · intro j result hj
    rcases eq_or_ne j i with rfl | hji
    · rw [Shared.setPhase_self] at hj
      exact ⟨r, (Phase.returned.inj hj).symm⟩
    · rw [Shared.setPhase_of_ne hji] at hj
      exact h.returned j result hj
  · rw [Shared.setPhase_store, htarget, Volume.read_of_dir hdir, hdata,
      List.take_of_length_le hdone]
  -- by the guard, what `i` has seen holds every other acknowledged call
  · rintro j ⟨r', hr', hflush⟩
    rcases eq_or_ne j i with rfl | hji
    · exact hmem
    · rw [Shared.setPhase_of_ne hji] at hr'
      exact hok j ⟨r', hr', hflush⟩

/-- **Step.** -/
theorem Durable.next (h : Durable calls doc a.1 a.2) (hok : Orderly a x)
    (hnext : Next calls id a x b) : Durable calls doc b.1 b.2 := by
  have hlogged := h.logged.next hnext
  cases hnext with
  | apply hi => exact h.apply hi
  | @refused s v i reply e hi hser =>
      -- excluded by the guard: this snapshot can be serialised
      obtain ⟨bytes, hbytes⟩ := exists_serialize_iff.mpr hok
      rw [hser] at hbytes
      cases hbytes
  | @snapshot s v i reply bytes hi hser =>
      refine h.setPhase hlogged rfl rfl rfl (h.exclusive.frame rfl ?_ ?_) (by simp) rfl
      · intro j hj
        rcases eq_or_ne j i with rfl | hji
        · show (s.phase j).Unopened
          rw [hi]
          trivial
        · exact Shared.setPhase_of_ne hji (.snapped reply bytes) s ▸ hj
      · intro j hj
        rcases eq_or_ne j i with rfl | hji
        · have hself : (s.snap j reply bytes).phase j = .snapped reply bytes :=
            Function.update_self _ _ _
          rw [hself] at hj
          exact hj.elim
        · exact Function.update_of_ne hji _ _
  | create hi =>
      exact h.setPhase hlogged rfl rfl rfl (h.exclusive.create hi hok) (by simp)
        (h.exclusive.read_create hi)
  | @append s v i n reply bytes file done hi =>
      have hwriting : (s.phase i).Writing := by
        rw [hi]
        trivial
      exact h.setPhase hlogged rfl rfl rfl (h.exclusive.append hi hwriting) (by simp)
        (h.exclusive.read_append hi hwriting _)
  | @gone s v i reply bytes file done hi hdone hv =>
      -- the temp file is where the call has put it
      have hdir := (h.exclusive.temp i reply bytes file done hi (by rw [hi]; trivial)).1
      rw [Volume.rename_eq_none_iff, hdir] at hv
      cases hv
  | rename hi hdone hv => exact h.rename hlogged hi hdone hok hv

end Durable

/-! ### Every run -/

section Runs

variable {T N : Type} [Serde] [Chrono]

/-- Every call that has returned gave the reply of its place in the order of
the changes to the memory. -/
def Answered (calls : T → Mutation × Instant) (doc : StoreDocument) (s : Shared T N) : Prop :=
  ∀ i result, s.phase i = .returned result →
    ∃ r, result = .ok r ∧ Replies calls doc s.log i r

/-- Every acknowledged mutation is in the document the target decodes to, which
is the memory after some of the calls. -/
def Kept (calls : T → Mutation × Instant) (doc : StoreDocument) (s : Shared T N) (v : Files N) :
    Prop := ∀ k, s.Acknowledged k → ∃ n bytes, v.read s.store.path = some bytes ∧
  deserialize s.store.format bytes = .ok (docAfter calls doc (s.log.take n)) ∧ k ∈ s.log.take n

end Runs

/-- Two networks are written at the same time.  The call with the older
snapshot renames last, and the other network, although acknowledged, is not in
the file. -/
theorem older_snapshot_renamed_last :
    letI := Crates.flow
    letI := Chrono.unasked
    ¬ ∀ (T : Type) [DecidableEq T] (disk : Disk) (path : Path) (store : FileStore)
      (calls : T → Mutation × Instant) (xs : List (Step T)) (s : Shared T T) (v : Files T),
      openStore Faults.none disk path = .ok store →
      Runs.exec (step calls id) (Shared.start store, Volume.ofDisk disk) xs = some (s, v) →
      Answered calls store.memory s ∧ Kept calls store.memory s v := by
  let _ := Crates.flow
  let _ := Chrono.unasked
  intro h
  let net (id : UInt64) : Network :=
    ⟨⟨id⟩, "default", "ctl.local", "100.64.0.0/10", "fd7a::/48", "k1", none, ""⟩
  let calls : Bool → Mutation × Instant
    | false => (.upsertNetwork (net 1), 0)
    | true => (.upsertNetwork (net 2), 0)
  let store : FileStore := ⟨⟨[], some "net.json".toList⟩, .json, MemoryStore.new, by decide⟩
  let older := MemoryStore.upsertNetwork (net 1) MemoryStore.new
  let newer := MemoryStore.upsertNetwork (net 2) older
  let bytes (doc : StoreDocument) := Crates.jsonPrint (jsonValue (doc.serialize Crates.iter))
  obtain ⟨-, hkept⟩ := h Bool (fun _ => none) store.path store calls
    [.apply false, .snapshot false, .apply true, .snapshot true, .create true,
      .append true (bytes newer).length, .rename true, .create false,
      .append false (bytes older).length, .rename false] _ _ rfl
    (exec_next (.apply rfl) (exec_next (.snapshot rfl rfl) (exec_next (.apply rfl)
      (exec_next (.snapshot rfl rfl) (exec_next (.create rfl) (exec_next (.append rfl)
      (exec_next (.rename rfl (Nat.zero_add _).ge rfl) (exec_next (.create rfl)
      (exec_next (.append rfl) (exec_next (.rename rfl (Nat.zero_add _).ge rfl) rfl))))))))))
  obtain ⟨n, found, hread, hdes, hmem⟩ := hkept true ⟨.unit, rfl, rfl⟩
  -- the target holds the older document, in which the second network is missing
  rw [Volume.read_of_dir (i := .made false) rfl] at hread
  have hfound : [] ++ ((bytes older).drop 0).take (bytes older).length = found :=
    Option.some.inj hread
  rw [List.nil_append, List.drop_zero, List.take_length] at hfound
  have hser : serialize .json older = .ok found := hfound ▸ rfl
  have hdoc : older = docAfter calls store.memory ([false, true].take n) :=
    Except.ok.inj ((deserialize_of_serialize hser).symm.trans hdes)
  match n with
  | 0 => cases hmem
  | 1 => exact absurd (show true ∈ [false] from hmem) (by decide)
  | n + 2 =>
      have hall : [false, true].take (n + 2) = [false, true] :=
        List.take_of_length_le (Nat.le_add_left _ _)
      rw [hall] at hdoc
      exact absurd (show older = newer from hdoc) (by decide)

/-- **Acknowledged mutations are durable** in the orderly runs, and no call
fails in them. -/
theorem acknowledged_durable [Crates] [Chrono] {T : Type} [DecidableEq T] (disk : Disk)
    (store : FileStore) (calls : T → Mutation × Instant) (xs : List (Step T)) (s : Shared T T)
    (v : Files T)
    (hok : Runs.Guarded (step calls id) Orderly (Shared.start store, Volume.ofDisk disk) xs)
    (hrun : Runs.exec (step calls id) (Shared.start store, Volume.ofDisk disk) xs = some (s, v)) :
    s.log = xs.filterMap Step.changes ∧ Answered calls store.memory s ∧
      Kept calls store.memory s v := by
  have hdurable : Durable calls store.memory s v :=
    Runs.exec_invariant (P := fun a : Shared T T × Files T => Durable calls store.memory a.1 a.2)
      (fun a x b h hx hstep => h.next hx (step_eq_some_iff.mp hstep)) (.start store) hok hrun
  refine ⟨log_of_exec hrun, ?_, ?_⟩
  · intro i result hi
    obtain ⟨r, rfl⟩ := hdurable.returned i result hi
    exact ⟨r, rfl, hdurable.logged.returned i r hi⟩
  · intro k hk
    obtain ⟨n, bytes, hread, hser, hall⟩ := hdurable.target ⟨k, hk⟩
    exact ⟨n, bytes, hread, deserialize_of_serialize hser, hall k hk⟩

/-- Two calls, one after the other. -/
theorem acknowledged_durable_one_by_one :
    letI := Crates.flow
    letI := Chrono.unasked
    let calls : Bool → Mutation × Instant
      | false => (.upsertUser ⟨⟨1⟩, ⟨1⟩, "ada", ""⟩, 0)
      | true => (.setPolicy ⟨1⟩ "accept", 0)
    let store : FileStore := ⟨⟨[], some "net.json".toList⟩, .json, MemoryStore.new, by decide⟩
    ∃ n m s v, Runs.exec (step calls id) (Shared.start store, Volume.ofDisk fun _ => none)
        [.apply false, .snapshot false, .create false, .append false n, .rename false,
          .apply true, .snapshot true, .create true, .append true m, .rename true] =
          some (s, v) ∧
      s.log = [false, true] ∧ Answered calls store.memory s ∧ Kept calls store.memory s v := by
  let _ := Crates.flow
  let _ := Chrono.unasked
  intro calls store
  -- only the renaming of the second call has something to check
  have hjson : ∀ m : StoreDocument, Format.json = .toml → m.FitsToml := fun _ h => by cases h
  obtain ⟨n, m, s, v, hrun, hok⟩ : ∃ n m s v,
      let xs := [Step.apply false, .snapshot false, .create false, .append false n, .rename false,
          .apply true, .snapshot true, .create true, .append true m, .rename true]
      Runs.exec (step calls id) (Shared.start store, Volume.ofDisk fun _ => none) xs =
          some (s, v) ∧
        Runs.Guarded (step calls id) Orderly (Shared.start store, Volume.ofDisk fun _ => none) xs :=
    ⟨_, _, _, _, guarded_next trivial (.apply rfl) (guarded_next (hjson _) (.snapshot rfl rfl)
      (guarded_next (fun j hj => by cases j; exacts [absurd rfl hj, id]) (.create rfl)
      (guarded_next trivial (.append rfl)
      (guarded_next (fun j ⟨r, hr, _⟩ => by cases j <;> cases hr)
        (.rename rfl (Nat.zero_add _).ge rfl)
      (guarded_next trivial (.apply rfl) (guarded_next (hjson _) (.snapshot rfl rfl)
      (guarded_next (fun j hj => by cases j; exacts [id, absurd rfl hj]) (.create rfl)
      (guarded_next trivial (.append rfl)
      (guarded_next (fun j _ => show j ∈ [false, true] by cases j <;> decide)
        (.rename rfl (Nat.zero_add _).ge rfl)
        ⟨rfl, trivial⟩)))))))))⟩
  exact ⟨n, m, s, v, hrun, acknowledged_durable _ store calls _ s v hok hrun⟩

end Oxiscale

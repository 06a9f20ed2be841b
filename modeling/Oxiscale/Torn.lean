/-
Oxiscale/Torn.lean

When the target file is always a whole document.

A flush truncates the temp file and fills it piece by piece, and whoever
renames moves whatever stands under the temp path.  The target is never torn
in the runs in which nobody truncates or renames the temp file while another
call is in the middle of writing it.

The invariant `Whole` follows the content of the temp file: while a call
writes, it is the part of that call's bytes that is written, and otherwise,
once the store has written at all, it is a document the memory has held.
-/
import Oxiscale.Flush
import Oxiscale.Restart

namespace Oxiscale

open FileStore

/-! ### Writing -/

section Phases

variable {N : Type}

/-- Between the truncation and the last piece. -/
def Phase.MidWrite : Phase N → Prop
  | .writing _ bytes _ done => done < bytes.length
  | _ => False

theorem Phase.MidWrite.writing {ph : Phase N} (h : ph.MidWrite) : ph.Writing := by
  cases ph with
  | writing => trivial
  | _ => exact h

end Phases

section Torn

variable {T : Type} [DecidableEq T] [Serde] [Chrono] {calls : T → Mutation × Instant}
  {doc : StoreDocument} {disk : Disk} {s s' : Shared T T} {v w : Files T} {i j : T}
  {x : Step T} {a b : Shared T T × Files T}

/-- Nobody else is in the middle of writing when the temp file is truncated or
renamed. -/
def Undisturbed (a : Shared T T × Files T) : Step T → Prop
  | .create i => ∀ j, j ≠ i → ¬ (a.1.phase j).MidWrite
  | .rename i => ∀ j, j ≠ i → ¬ (a.1.phase j).MidWrite
  | _ => True

variable (calls doc s) in
/-- The bytes are the serialisation of a document the memory has held. -/
def Held (bytes : Bytes) : Prop := ∃ n,
  serialize s.store.format (docAfter calls doc (s.log.take n)) = .ok bytes

variable (calls doc disk s v) in
/-- Once the store has written and nobody is in the middle of writing, the
temp file is a document the memory has held; and so is always the target, once
it is not the one found at open. -/
structure Whole : Prop where
  logged : Logged calls doc s
  exclusive : Exclusive Phase.MidWrite s v
  temp : (∃ i, (s.phase i).Writing) → (∀ i, ¬ (s.phase i).MidWrite) →
    ∀ bytes, v.read s.store.path.tmpPath = some bytes → Held calls doc s bytes
  target : v.read s.store.path = disk s.store.path ∨
    ∃ bytes, v.read s.store.path = some bytes ∧ Held calls doc s bytes

omit [DecidableEq T] in
theorem Whole.start (store : FileStore) :
    Whole calls store.memory disk (Shared.start store) (Volume.ofDisk disk : Files T) where
  logged := .start store
  exclusive := .start id store disk
  temp h := by
    obtain ⟨i, hi⟩ := h
    exact hi.elim
  target := Or.inl (by rw [Volume.read_ofDisk])

omit [DecidableEq T] in
theorem Held.mono {bytes : Bytes} {l : List T} (h : Held calls doc s bytes)
    (hlog : s'.log = s.log ++ l) (hformat : s'.store.format = s.store.format) :
    Held calls doc s' bytes := by
  obtain ⟨n, hser⟩ := h
  refine ⟨min n s.log.length, ?_⟩
  rw [hlog, hformat, List.take_append_of_le_length (Nat.min_le_right _ _)]
  rcases Nat.le_total n s.log.length with hn | hn
  · rwa [Nat.min_eq_left hn]
  · rwa [Nat.min_eq_right hn, List.take_length, ← List.take_of_length_le hn]

omit [DecidableEq T] in
/-- The payload of a call is the document of a moment of the run. -/
theorem Logged.held {bytes : Bytes} (h : Logged calls doc s)
    (hi : (s.phase i).payload = some bytes) : Held calls doc s bytes :=
  ⟨s.seen i, (h.payload i bytes hi).2.2⟩

omit [DecidableEq T] in
/-- A move that touches no file, and after which the same calls are writing
what they were. -/
theorem Whole.frame {l : List T} (h : Whole calls doc disk s v) (hlogged : Logged calls doc s')
    (hlog : s'.log = s.log ++ l) (hpath : s'.store.path = s.store.path)
    (hformat : s'.store.format = s.store.format)
    (hunopened : ∀ j, (s'.phase j).Unopened → (s.phase j).Unopened)
    (hwriting : ∀ j, (s'.phase j).Writing → (s.phase j).Writing)
    (hmid : ∀ j, (s'.phase j).MidWrite → s'.phase j = s.phase j)
    (hmid' : ∀ j, (s.phase j).MidWrite → (s'.phase j).MidWrite) :
    Whole calls doc disk s' v where
  logged := hlogged
  exclusive := h.exclusive.frame hpath hunopened hmid
  temp hw hnot bytes hread := by
    obtain ⟨j, hj⟩ := hw
    rw [hpath] at hread
    exact (h.temp ⟨j, hwriting j hj⟩ (fun k hk => hnot k (hmid' k hk)) bytes hread).mono hlog
      hformat
  target := by
    rw [hpath]
    rcases h.target with hsame | ⟨bytes, hread, hheld⟩
    · exact Or.inl hsame
    · exact Or.inr ⟨bytes, hread, hheld.mono hlog hformat⟩

/-- Replacing the phase of one call, when it neither is nor was in the middle
of writing. -/
theorem Whole.setPhase {ph : Phase T} {l : List T} (h : Whole calls doc disk s v)
    (hlogged : Logged calls doc s') (hlog : s'.log = s.log ++ l)
    (hpath : s'.store.path = s.store.path) (hformat : s'.store.format = s.store.format)
    (hphase : s'.phase = Function.update s.phase i ph)
    (hunopened : ph.Unopened → (s.phase i).Unopened)
    (hwriting : ph.Writing → (s.phase i).Writing) (hmid : ¬ (s.phase i).MidWrite)
    (hmid' : ¬ ph.MidWrite) : Whole calls doc disk s' v := by
  have hself : s'.phase i = ph := by rw [hphase, Function.update_self]
  have hne : ∀ j, j ≠ i → s'.phase j = s.phase j := by
    intro j hj
    rw [hphase, Function.update_of_ne hj]
  refine h.frame hlogged hlog hpath hformat ?_ ?_ ?_ ?_
  · intro j hj
    rcases eq_or_ne j i with rfl | hji
    · exact hunopened (hself ▸ hj)
    · exact hne j hji ▸ hj
  · intro j hj
    rcases eq_or_ne j i with rfl | hji
    · exact hwriting (hself ▸ hj)
    · exact hne j hji ▸ hj
  · intro j hj
    rcases eq_or_ne j i with rfl | hji
    · exact absurd (hself ▸ hj) hmid'
    · exact hne j hji
  · intro j hj
    rcases eq_or_ne j i with rfl | hji
    · exact absurd hj hmid
    · exact (hne j hji).symm ▸ hj

/-- The temp file is emptied, and the target is not touched. -/
theorem Whole.create {reply : Reply} {bytes : Bytes} (h : Whole calls doc disk s v)
    (hlogged : Logged calls doc
      (s.setPhase i (.writing reply bytes (v.create i s.store.path.tmpPath).1 0)))
    (hi : s.phase i = .snapped reply bytes) (hok : ∀ j, j ≠ i → ¬ (s.phase j).MidWrite) :
    Whole calls doc disk (s.setPhase i (.writing reply bytes (v.create i s.store.path.tmpPath).1 0))
      (v.create i s.store.path.tmpPath).2 := by
  refine ⟨hlogged, h.exclusive.create hi hok, ?_, ?_⟩
  · -- nobody is in the middle of writing, so there is nothing to write
    intro _ hnot bytes' hread
    have hempty : bytes.length ≤ 0 := by
      have hself := hnot i
      rw [Shared.setPhase_self] at hself
      exact Nat.le_of_not_lt hself
    obtain rfl : bytes = [] := List.length_eq_zero_iff.mp (Nat.le_zero.mp hempty)
    rw [Shared.setPhase_store, Volume.read_of_dir Volume.dir_create_self,
      Volume.data_create_self] at hread
    obtain rfl := Option.some.inj hread
    exact hlogged.held (i := i) (by rw [Shared.setPhase_self]; rfl)
  · rw [Shared.setPhase_store, h.exclusive.read_create hi]
    exact h.target

/-- A write does not touch the target. -/
theorem Whole.append {reply : Reply} {bytes : Bytes} {file : Volume.Inode Path T} {done n : ℕ}
    (h : Whole calls doc disk s v)
    (hlogged : Logged calls doc (s.setPhase i (.writing reply bytes file (done + n))))
    (hi : s.phase i = .writing reply bytes file done) :
    Whole calls doc disk (s.setPhase i (.writing reply bytes file (done + n)))
      (v.append file ((bytes.drop done).take n)) := by
  have hself : (s.setPhase i (.writing reply bytes file (done + n))).phase i =
      .writing reply bytes file (done + n) := Shared.setPhase_self _ _ _
  rcases Nat.lt_or_ge done bytes.length with hlt | hge
  · have hmid : (s.phase i).MidWrite := by
      rw [hi]
      exact hlt
    obtain ⟨hdir, hdata⟩ := h.exclusive.temp i reply bytes file done hi hmid
    refine ⟨hlogged, h.exclusive.append hi hmid, ?_, ?_⟩
    · -- this was the last piece
      intro _ hnot bytes' hread
      have hend : bytes.length ≤ done + n := by
        have hlast := hnot i
        rw [hself] at hlast
        exact Nat.le_of_not_lt hlast
      rw [Shared.setPhase_store, Volume.read_of_dir (v := v.append _ _) hdir,
        Volume.data_append_self, hdata, ← List.take_add, List.take_of_length_le hend] at hread
      obtain rfl := Option.some.inj hread
      exact hlogged.held (i := i) (by rw [hself]; rfl)
    · rw [Shared.setPhase_store, h.exclusive.read_append hi hmid]
      exact h.target
  · -- nothing is left to write
    rw [List.drop_eq_nil_of_le hge, List.take_nil, Volume.append_nil]
    refine h.setPhase (l := []) hlogged (List.append_nil _).symm rfl rfl rfl
      (fun hph => hph.elim) (fun _ => ?_) ?_ ?_
    · show (s.phase i).Writing
      rw [hi]
      trivial
    · show ¬ (s.phase i).MidWrite
      rw [hi]
      exact Nat.not_lt.mpr hge
    · exact Nat.not_lt.mpr (hge.trans (Nat.le_add_right _ _))

/-- The target gets the whole of what was written. -/
theorem Whole.rename {reply : Reply} {bytes : Bytes} {file : Volume.Inode Path T} {done : ℕ}
    (h : Whole calls doc disk s v)
    (hlogged : Logged calls doc (s.setPhase i (.returned (.ok reply))))
    (hi : s.phase i = .writing reply bytes file done) (hdone : bytes.length ≤ done)
    (hok : ∀ j, j ≠ i → ¬ (s.phase j).MidWrite)
    (hv : v.rename s.store.path.tmpPath s.store.path = some w) :
    Whole calls doc disk (s.setPhase i (.returned (.ok reply))) w := by
  obtain ⟨htarget, htmp, -⟩ := Volume.read_rename hv tmpPath_ne_path
  have hnot : ∀ j, ¬ (s.phase j).MidWrite := by
    intro j hj
    rcases eq_or_ne j i with rfl | hji
    · rw [hi] at hj
      exact absurd hj (Nat.not_lt.mpr hdone)
    · exact hok j hji hj
  refine ⟨hlogged, h.exclusive.rename id hok hv, ?_, ?_⟩
  · intro _ _ bytes' hread
    rw [Shared.setPhase_store, htmp] at hread
    cases hread
  -- the target becomes the temp file, which nobody is in the middle of writing
  · obtain ⟨file', hfile', -⟩ := Volume.exists_of_rename hv
    have hread := Volume.read_of_dir hfile'
    refine Or.inr ⟨v.data file', ?_, ?_⟩
    · rw [Shared.setPhase_store, htarget, hread]
    · exact (h.temp ⟨i, by rw [hi]; trivial⟩ hnot _ hread).mono (l := []) (by simp) rfl

/-- **Step.** -/
theorem Whole.next (h : Whole calls doc disk a.1 a.2) (hok : Undisturbed a x)
    (hnext : Next calls id a x b) : Whole calls doc disk b.1 b.2 := by
  have hlogged := h.logged.next hnext
  cases hnext with
  | @apply s v i hi =>
      have hnot := Phase.not_writing_afterApply (N := T)
        (MemoryStore.mutate (calls i).2 s.store.memory (calls i).1).1
      refine h.setPhase (l := [i]) hlogged rfl rfl rfl rfl (fun _ => ?_)
        (fun hph => absurd hph hnot) ?_ fun hph => hnot hph.writing
      -- it has not opened the file
      · show (s.phase i).Unopened
        rw [hi]
        trivial
      · show ¬ (s.phase i).MidWrite
        rw [hi]
        exact id
  | @refused s v i reply e hi hser =>
      refine h.setPhase (l := []) hlogged (by simp) rfl rfl rfl (fun hph => hph.elim)
        (fun hph => hph.elim) ?_ id
      show ¬ (s.phase i).MidWrite
      rw [hi]
      exact id
  | @snapshot s v i reply bytes hi hser =>
      refine h.setPhase (l := []) hlogged (List.append_nil _).symm rfl rfl rfl (fun _ => ?_)
        (fun hph => hph.elim) ?_ id
      · show (s.phase i).Unopened
        rw [hi]
        trivial
      · show ¬ (s.phase i).MidWrite
        rw [hi]
        exact id
  | create hi => exact h.create hlogged hi hok
  | append hi => exact h.append hlogged hi
  | @gone s v i reply bytes file done hi hdone hv =>
      refine h.setPhase (l := []) hlogged (by simp) rfl rfl rfl (fun hph => hph.elim)
        (fun hph => hph.elim) ?_ id
      show ¬ (s.phase i).MidWrite
      rw [hi]
      exact Nat.not_lt.mpr hdone
  | rename hi hdone hv => exact h.rename hlogged hi hdone hok hv

end Torn

/-! ### Every run -/

/-- A call that renames while another one has just truncated the temp file
leaves an empty target, which no `open` reads. -/
theorem truncated_temp_renamed :
    letI := Crates.flow
    letI := Chrono.unasked
    ¬ ∀ (T : Type) [DecidableEq T] (disk : Disk) (path : Path) (store : FileStore)
      (calls : T → Mutation × Instant) (xs : List (Step T)) (s : Shared T T) (v : Files T),
      openStore Faults.none disk path = .ok store →
      Runs.exec (step calls id) (Shared.start store, Volume.ofDisk disk) xs = some (s, v) →
      (v.read path = disk path ∨ ∃ n bytes, v.read path = some bytes ∧
        serialize store.format (docAfter calls store.memory (s.log.take n)) = .ok bytes) ∧
      ∃ store', openStore Faults.none v.read path = .ok store' := by
  let _ := Crates.flow
  let _ := Chrono.unasked
  intro h
  let net : Network := ⟨⟨1⟩, "default", "ctl.local", "100.64.0.0/10", "fd7a::/48", "k1", none, ""⟩
  let calls : Bool → Mutation × Instant := fun _ => (.upsertNetwork net, 0)
  let path : Path := ⟨[], some "net.json".toList⟩
  let bytes := Crates.jsonPrint (jsonValue ((MemoryStore.upsertNetwork net MemoryStore.new).serialize
    Crates.iter))
  obtain ⟨store', hopen⟩ := (h Bool (fun _ => none) path
    ⟨path, .json, MemoryStore.new, by decide⟩ calls
    [.apply false, .snapshot false, .create false, .append false bytes.length,
      .apply true, .snapshot true, .create true, .rename false] _ _ rfl
    (exec_next (.apply rfl) (exec_next (.snapshot rfl rfl) (exec_next (.create rfl)
      (exec_next (.append rfl) (exec_next (.apply rfl) (exec_next (.snapshot rfl rfl)
      (exec_next (.create rfl) (exec_next (.rename rfl (Nat.zero_add _).ge rfl) rfl))))))))).2
  -- the target is the temp file as the second call has just truncated it
  rw [openStore_eq _ (show Format.fromPath path = some .json by decide)] at hopen
  cases hopen

/-- **The target is never torn** in the runs whose steps are undisturbed: it is
as at open or the whole serialisation of a document the memory has held, and
it can be opened. -/
theorem target_never_torn [Crates] [Chrono] {T : Type} [DecidableEq T] (disk : Disk) (path : Path)
    (store : FileStore) (calls : T → Mutation × Instant) (xs : List (Step T)) (s : Shared T T)
    (v : Files T) (hopen : openStore Faults.none disk path = .ok store)
    (hok : Runs.Guarded (step calls id) Undisturbed (Shared.start store, Volume.ofDisk disk) xs)
    (hrun : Runs.exec (step calls id) (Shared.start store, Volume.ofDisk disk) xs = some (s, v)) :
    (v.read path = disk path ∨ ∃ n bytes, v.read path = some bytes ∧
      serialize store.format (docAfter calls store.memory (s.log.take n)) = .ok bytes) ∧
    ∃ store', openStore Faults.none v.read path = .ok store' := by
  have hwhole : Whole calls store.memory disk s v ∧ s.store.path = path ∧
      s.store.format = store.format :=
    Runs.exec_invariant (P := fun a : Shared T T × Files T =>
      Whole calls store.memory disk a.1 a.2 ∧ a.1.store.path = path ∧
        a.1.store.format = store.format)
      (fun a x b ⟨h, hpath, hformat⟩ hx hstep => by
        have hnext := step_eq_some_iff.mp hstep
        exact ⟨h.next hx hnext, hnext.path_eq.1.trans hpath, hnext.path_eq.2.trans hformat⟩)
      ⟨Whole.start store, (format_of_openStore hopen).1, rfl⟩ hok hrun
  obtain ⟨hwhole, hpath, hformat⟩ := hwhole
  obtain ⟨hstore, hf⟩ := format_of_openStore hopen
  have htarget := hwhole.target
  simp only [Held, hpath, hformat] at htarget
  rcases htarget with hsame | ⟨bytes, hread, n, hser⟩
  · refine ⟨Or.inl hsame, store, ?_⟩
    rw [openStore_eq _ hf, hsame, ← openStore_eq _ hf]
    exact hopen
  · refine ⟨Or.inr ⟨n, bytes, hread, hser⟩, ?_⟩
    rw [openStore_eq _ hf, hread]
    simp only [deserialize_of_serialize hser]
    exact ⟨_, rfl⟩

/-- One call that writes its bytes in two pieces. -/
theorem target_never_torn_two_pieces :
    letI := Crates.flow
    letI := Chrono.unasked
    let calls : Unit → Mutation × Instant := fun _ => (.setPolicy ⟨1⟩ "accept", 0)
    let store : FileStore := ⟨⟨[], some "net.json".toList⟩, .json, MemoryStore.new, by decide⟩
    ∃ n s v, Runs.exec (step calls id) (Shared.start store, Volume.ofDisk fun _ => none)
        [.apply (), .snapshot (), .create (), .append () 10, .append () n, .rename ()] =
          some (s, v) ∧
      ((v.read store.path = none ∨ ∃ n bytes, v.read store.path = some bytes ∧
        serialize store.format (docAfter calls store.memory (s.log.take n)) = .ok bytes) ∧
      ∃ store', openStore Faults.none v.read store.path = .ok store') := by
  let _ := Crates.flow
  let _ := Chrono.unasked
  intro calls store
  obtain ⟨n, s, v, hrun⟩ : ∃ n s v,
      Runs.exec (step calls id) (Shared.start store, Volume.ofDisk fun _ => none)
        [.apply (), .snapshot (), .create (), .append () 10, .append () n, .rename ()] =
          some (s, v) :=
    ⟨_, _, _, exec_next (.apply rfl) (exec_next (.snapshot rfl rfl) (exec_next (.create rfl)
      (exec_next (.append rfl) (exec_next (.append rfl)
      (exec_next (.rename rfl (Nat.le_add_left _ _) rfl) rfl)))))⟩
  exact ⟨n, s, v, hrun, target_never_torn (fun _ => none) store.path store calls _ s v rfl
    (.of_forall fun a x => by cases x <;> simp [Undisturbed]) hrun⟩

end Oxiscale

/-
Oxiscale/Alone.lean

A call that nobody disturbs.

`File.lean` has one call at a time, on a disk that is a function of the path,
and `Flush.lean` any number of calls, on a volume with files and names.  They
are two readings of one source.  Here they meet: from whatever state an
interleaving has led to, other calls being in the middle of their flushes, a
call that then moves alone from its beginning to its end does exactly what
the sequential model does on the contents of that volume (`alone_eq_mutate`).

So a store heals.  Whatever a disorderly run has left in the files, a torn or
an outdated target included, one undisturbed call leaves the target with every
change made so far (`alone_heals`).
-/
import Oxiscale.Locked
import Oxiscale.Restart

namespace Oxiscale

open FileStore

section Alone

variable {T : Type} [DecidableEq T] [Serde] [Chrono] {calls : T → Mutation × Instant}
  {s t : Shared T T} {v w : Files T} {a b : Shared T T × Files T} {x : Step T} {i : T}
  {disk : Disk} {store : FileStore}

/-! ### Names -/

variable (s v) in
/-- No file has two names, and a call that has not opened the temp file has a
new file to create. -/
structure Tidy : Prop where
  noAlias : v.NoAlias
  fresh : ∀ i, (s.phase i).Unopened → v.Fresh i

omit [DecidableEq T] [Serde] [Chrono] in
theorem Tidy.start (store : FileStore) (disk : Disk) :
    Tidy (Shared.start store : Shared T T) (Volume.ofDisk disk) where
  noAlias := Volume.noAlias_ofDisk disk
  fresh _ _ := Volume.fresh_ofDisk disk

/-- A call that has not opened the file had not opened it before. -/
theorem Next.unopened {j : T} (h : Next calls id a x b) (hj : (b.1.phase j).Unopened) :
    (a.1.phase j).Unopened := by
  rcases eq_or_ne x.call j with rfl | hne
  · have hopen : ∀ ph : Phase T, a.1.phase x.call = ph → ph.Unopened →
        (a.1.phase x.call).Unopened := fun _ hph hun => hph ▸ hun
    have hclosed : ∀ ph : Phase T, b.1.phase x.call = ph → ¬ ph.Unopened →
        (a.1.phase x.call).Unopened := fun _ hph hnot => absurd (hph ▸ hj) hnot
    cases h with
    | apply hi => exact hopen _ hi trivial
    | refused hi _ => exact hopen _ hi trivial
    | snapshot hi _ => exact hopen _ hi trivial
    | create hi => exact hopen _ hi trivial
    | append hi => exact hclosed _ (Shared.setPhase_self _ _ _) id
    | gone hi _ _ => exact hclosed _ (Shared.setPhase_self _ _ _) id
    | rename hi _ _ => exact hclosed _ (Shared.setPhase_self _ _ _) id
  · rw [← h.phase_of_ne hne]
    exact hj

/-- **Step.**  No guard is needed for it. -/
theorem Tidy.next (h : Tidy a.1 a.2) (hnext : Next calls id a x b) : Tidy b.1 b.2 := by
  have hfresh : ∀ j, (b.1.phase j).Unopened → a.2.Fresh j :=
    fun j hj => h.fresh j (hnext.unopened hj)
  cases hnext with
  | @create s v i reply bytes hi =>
      have hi' : v.Fresh i := h.fresh i (by rw [hi]; trivial)
      refine ⟨h.noAlias.create hi', fun j hj => (hfresh j hj).create ?_⟩
      rintro rfl
      rw [Shared.setPhase_self] at hj
      exact hj
  | append hi => exact ⟨h.noAlias.append, fun j hj => (hfresh j hj).append⟩
  | rename hi hdone hv => exact ⟨h.noAlias.rename hv, fun j hj => (hfresh j hj).rename hv⟩
  | _ => exact ⟨h.noAlias, hfresh⟩

/-! ### From the beginning to the end of a call -/

variable (calls s v i) in
/-- How far a call is that has moved alone since the state `s`, `v`, by its
phase. -/
def Alone (ph : Phase T) (now : FileStore) (w : Files T) : Prop :=
  let after := MemoryStore.mutate (calls i).2 s.store.memory (calls i).1
  let store := { s.store with memory := after.2 }
  match ph with
  | .waiting => now = s.store ∧ w = v
  | .applied reply => (reply = after.1 ∧ reply.flushes = true) ∧ now = store ∧ w = v
  | .snapped reply bytes => (reply = after.1 ∧ reply.flushes = true) ∧ now = store ∧
    serialize store.format store.memory = .ok bytes ∧ w = v
  | .writing reply bytes file done => (reply = after.1 ∧ reply.flushes = true) ∧ now = store ∧
    serialize store.format store.memory = .ok bytes ∧
    w.dir store.path.tmpPath = some file ∧ w.data file = bytes.take done ∧
    (∀ q, q ≠ store.path.tmpPath → w.dir q ≠ some file ∧ w.read q = v.read q)
  | .returned result => mutate Faults.none (calls i).2 ⟨s.store, v.read⟩ (calls i).1 =
    (some result, ⟨now, w.read⟩)

/-- What the call does in the sequential model when it flushes. -/
theorem mutate_of_flushes (now : Instant) (w : World) (m : Mutation)
    (hflush : (MemoryStore.mutate now w.store.memory m).1.flushes = true) :
    mutate Faults.none now w m = flushThen Faults.none (MemoryStore.mutate now w.store.memory m).1
      (w.setMemory (MemoryStore.mutate now w.store.memory m).2) := by
  rw [mutate_eq, if_neg (by simp [Faults.none])]
  exact if_pos hflush

/-- **Step.**  What the call has to do is what the sequential model does. -/
theorem Alone.next (h : Alone calls s v i (a.1.phase i) a.1.store a.2) (hnames : Tidy a.1 a.2)
    (hnext : Next calls id a x b) (hx : x.call = i) :
    Alone calls s v i (b.1.phase i) b.1.store b.2 := by
  cases hnext with
  | @apply t w j hi =>
      obtain rfl : j = i := hx
      rw [hi] at h
      obtain ⟨hstore, rfl⟩ := h
      have hself : (t.apply calls j).phase j =
          .afterApply (MemoryStore.mutate (calls j).2 s.store.memory (calls j).1).1 := by
        rw [← hstore]
        exact Function.update_self _ _ _
      have hnow : (t.apply calls j).store = { s.store with
          memory := (MemoryStore.mutate (calls j).2 s.store.memory (calls j).1).2 } := by
        rw [← hstore]
        rfl
      show Alone calls s w j ((t.apply calls j).phase j) (t.apply calls j).store w
      rw [hself, hnow, Phase.afterApply]
      split
      · rename_i hflush
        exact ⟨⟨rfl, hflush⟩, rfl, rfl⟩
      · -- a lost consume leaves the memory as it is, and is not flushed
        rename_i hflush
        show mutate _ _ _ _ = _
        rw [mutate_eq, if_neg (by simp [Faults.none])]
        simp only [hflush]
        rfl
  | @refused t w j reply e hi hser =>
      obtain rfl : j = i := hx
      rw [hi] at h
      obtain ⟨⟨rfl, hflush⟩, hstore, rfl⟩ := h
      rw [hstore] at hser
      show Alone calls s w j ((t.setPhase j _).phase j) t.store w
      rw [Shared.setPhase_self, hstore]
      show mutate _ _ _ _ = _
      rw [mutate_of_flushes _ _ _ hflush]
      simp only [flushThen, flush, World.setMemory, hser]
      rfl
  | @snapshot t w j reply bytes hi hser =>
      obtain rfl : j = i := hx
      rw [hi] at h
      obtain ⟨hreply, hstore, rfl⟩ := h
      have hself : (t.snap j reply bytes).phase j = .snapped reply bytes :=
        Function.update_self _ _ _
      show Alone calls s w j ((t.snap j reply bytes).phase j) t.store w
      rw [hself]
      rw [hstore] at hser ⊢
      exact ⟨hreply, rfl, hser, rfl⟩
  | @create t w j reply bytes hi =>
      obtain rfl : j = i := hx
      have hfresh : w.Fresh j := hnames.fresh j (hi ▸ trivial)
      rw [hi] at h
      obtain ⟨hreply, hstore, hser, rfl⟩ := h
      show Alone calls s w j ((t.setPhase j _).phase j) t.store _
      rw [Shared.setPhase_self, hstore]
      refine ⟨hreply, rfl, hser, Volume.dir_create_self, Volume.data_create_self, ?_⟩
      refine fun q hq => ⟨?_, ?_⟩
      · rw [Volume.dir_create_of_ne hq]
        exact Volume.dir_ne_create hnames.noAlias hfresh hq
      · exact Volume.read_create_of_ne hnames.noAlias hfresh hq
  | @append t w j n reply bytes file done hi =>
      obtain rfl : j = i := hx
      rw [hi] at h
      obtain ⟨hreply, hstore, hser, hdir, hdata, hrest⟩ := h
      show Alone calls s v j ((t.setPhase j _).phase j) t.store _
      rw [Shared.setPhase_self, hstore]
      refine ⟨hreply, rfl, hser, hdir, ?_, fun q hq => ?_⟩
      · have hdata' : w.data file = bytes.take done := hdata
        rw [Volume.data_append_self, hdata', List.take_add]
      · exact ⟨(hrest q hq).1, (Volume.read_append_of_ne (hrest q hq).1).trans (hrest q hq).2⟩
  | @gone t w j reply bytes file done hi hdone hv =>
      -- nobody has moved the temp file
      obtain rfl : j = i := hx
      rw [hi] at h
      obtain ⟨-, hstore, -, hdir, -⟩ := h
      have hdir' : w.dir s.store.path.tmpPath = some file := hdir
      rw [hstore, Volume.rename_eq_none_iff, hdir'] at hv
      cases hv
  | @rename t w j reply bytes file done w' hi hdone hv =>
      obtain rfl : j = i := hx
      rw [hi] at h
      obtain ⟨⟨rfl, hflush⟩, hstore, hser, hdir, hdata, hrest⟩ := h
      have hne : s.store.path.tmpPath ≠ s.store.path := tmpPath_ne_path
      rw [hstore] at hv
      obtain ⟨htarget, htemp, hothers⟩ := Volume.read_rename hv hne
      show Alone calls s v j ((t.setPhase j _).phase j) t.store w'
      rw [Shared.setPhase_self, hstore]
      show mutate _ _ _ _ = _
      rw [mutate_of_flushes _ _ _ hflush, flushThen, if_neg (by simp [Faults.none]),
        flush_none hser]
      -- the files after the rename, one name after the other
      have hread : w'.read = Function.update (Function.update v.read s.store.path.tmpPath none)
          s.store.path (some bytes) := by
        funext q
        rcases eq_or_ne q s.store.path with rfl | hq
        · have hdata' : w.data file = bytes.take done := hdata
          rw [Function.update_self, htarget, Volume.read_of_dir hdir, hdata',
            List.take_of_length_le hdone]
        · rw [Function.update_of_ne hq]
          rcases eq_or_ne q s.store.path.tmpPath with rfl | hq'
          · rw [Function.update_self]
            exact htemp
          · rw [Function.update_of_ne hq', hothers q hq' hq]
            exact (hrest q hq').2
      rw [hread]
      rfl

/-- What a run from the opened store says of the state it leads to. -/
theorem invariants_of_exec {xs : List (Step T)}
    (hrun : Runs.exec (step calls id) (Shared.start store, Volume.ofDisk disk) xs = some (s, v)) :
    Tidy s v ∧ Logged calls store.memory s ∧
      s.store.path = store.path ∧ s.store.format = store.format := by
  have hok : Runs.Guarded (step calls id) (fun _ _ => True)
      (Shared.start store, Volume.ofDisk disk) xs := .of_forall fun _ _ => trivial
  exact Runs.exec_invariant (P := fun a : Shared T T × Files T => Tidy a.1 a.2 ∧
      Logged calls store.memory a.1 ∧ a.1.store.path = store.path ∧ a.1.store.format = store.format)
    (fun a x b ⟨htidy, hlogged, hpath, hformat⟩ _ hstep => by
      have hnext := step_eq_some_iff.mp hstep
      exact ⟨htidy.next hnext, hlogged.next hnext, hnext.path_eq.1.trans hpath,
        hnext.path_eq.2.trans hformat⟩)
    ⟨.start store disk, .start store, rfl, rfl⟩ hok hrun

/-- **Run.**  Moves of one call from its beginning. -/
theorem Alone.of_exec {ys : List (Step T)} (htidy : Tidy s v) (hi : s.phase i = .waiting)
    (hown : ∀ x ∈ ys, x.call = i) (hrun : Runs.exec (step calls id) (s, v) ys = some (t, w)) :
    Alone calls s v i (t.phase i) t.store w := by
  have hstart : Alone calls s v i (s.phase i) s.store v := hi ▸ ⟨rfl, rfl⟩
  exact (Runs.exec_invariant (P := fun a : Shared T T × Files T =>
      Alone calls s v i (a.1.phase i) a.1.store a.2 ∧ Tidy a.1 a.2)
    (fun a x b ⟨h, htidy⟩ hx hstep => by
      have hnext := step_eq_some_iff.mp hstep
      exact ⟨h.next htidy hnext hx, htidy.next hnext⟩)
    ⟨hstart, htidy⟩ (.of_mem hown) hrun).1

/-- **The two models agree.**  After any interleaving, a call that moves alone
from its beginning to its end returns what the sequential model returns, and
leaves the same memory and the same content under every path. -/
theorem alone_eq_mutate (disk : Disk) (store : FileStore) (calls : T → Mutation × Instant)
    (xs ys : List (Step T)) (i : T) (result : Except StoreError Reply)
    (hrun : Runs.exec (step calls id) (Shared.start store, Volume.ofDisk disk) xs = some (s, v))
    (hi : s.phase i = .waiting) (hown : ∀ x ∈ ys, x.call = i)
    (halone : Runs.exec (step calls id) (s, v) ys = some (t, w))
    (hret : t.phase i = .returned result) :
    mutate Faults.none (calls i).2 ⟨s.store, v.read⟩ (calls i).1 =
      (some result, ⟨t.store, w.read⟩) := by
  have h := Alone.of_exec (invariants_of_exec hrun).1 hi hown halone
  rw [hret] at h
  exact h

end Alone

/-- **An undisturbed call heals the file.**  After any interleaving, whatever
it has left in the files, a call that has not begun can move alone to its end,
and however it does so it returns the reply of the memory and leaves a target
that opens as the document after all the changes made so far, its own
included. -/
theorem alone_heals [Crates] [Chrono] {T : Type} [DecidableEq T] (disk : Disk) (path : Path)
    (store : FileStore) (calls : T → Mutation × Instant) (xs : List (Step T)) (s : Shared T T)
    (v : Files T) (i : T) (hopen : openStore Faults.none disk path = .ok store)
    (hrun : Runs.exec (step calls id) (Shared.start store, Volume.ofDisk disk) xs = some (s, v))
    (hi : s.phase i = .waiting)
    (hfits : store.format = .toml → (docAfter calls store.memory (s.log ++ [i])).FitsToml) :
    (∃ ys t w result, (∀ x ∈ ys, x.call = i) ∧
      Runs.exec (step calls id) (s, v) ys = some (t, w) ∧ t.phase i = .returned result) ∧
    ∀ ys t w result, (∀ x ∈ ys, x.call = i) →
      Runs.exec (step calls id) (s, v) ys = some (t, w) → t.phase i = .returned result →
      ∃ r, result = .ok r ∧ Replies calls store.memory (s.log ++ [i]) i r ∧
        (r.flushes = true → openStore Faults.none w.read path =
          .ok { store with memory := docAfter calls store.memory (s.log ++ [i]) }) := by
  obtain ⟨rfl, hf⟩ := format_of_openStore hopen
  obtain ⟨htidy, hlogged, hpath, hformat⟩ := invariants_of_exec hrun
  have hmemory : (MemoryStore.mutate (calls i).2 s.store.memory (calls i).1).2 =
      docAfter calls store.memory (s.log ++ [i]) := by
    rw [hlogged.memory]
    exact docAfter_snoc.symm
  refine ⟨?_, fun ys t w result hown halone hret => ?_⟩
  · obtain ⟨ys, b, result, hys, hb, hown⟩ : Finishes calls id i (s, v) := finishes i (s, v)
    exact ⟨ys, b.1, b.2, result, hown, hys, hb⟩
  have hmutate : mutate Faults.none (calls i).2 ⟨s.store, v.read⟩ (calls i).1 =
      (some result, ⟨t.store, w.read⟩) := by
    have h := Alone.of_exec htidy hi hown halone
    rw [hret] at h
    exact h
  have hreplies : Replies calls store.memory (s.log ++ [i]) i
      (MemoryStore.mutate (calls i).2 s.store.memory (calls i).1).1 :=
    ⟨s.log, [], rfl, by rw [hlogged.memory]⟩
  rcases mutate_none_cases ⟨s.store, v.read⟩ (calls i).1 (calls i).2 with
    ⟨hflush, h⟩ | ⟨e, hser, h⟩ | ⟨bytes, hser, -, h⟩
  · rw [h] at hmutate
    obtain ⟨hresult, -⟩ := Prod.mk.inj hmutate
    exact ⟨_, (Option.some.inj hresult).symm, hreplies, fun hr => by simp [hflush] at hr⟩
  · -- the serialiser takes the document
    obtain ⟨bytes, hbytes⟩ := exists_serialize_iff.mpr hfits
    rw [← hmemory, ← hformat] at hbytes
    have hcontra := hser.symm.trans hbytes
    cases hcontra
  · rw [h] at hmutate
    obtain ⟨hresult, hworld⟩ := Prod.mk.inj hmutate
    refine ⟨_, (Option.some.inj hresult).symm, hreplies, fun _ => ?_⟩
    have hread : w.read store.path = some bytes := by
      rw [← (World.mk.inj hworld).2, hpath]
      exact Function.update_self _ _ _
    have hser' : serialize store.format (docAfter calls store.memory (s.log ++ [i])) =
        .ok bytes := by
      rw [← hmemory, ← hformat]
      exact hser
    rw [openStore_eq _ hf, hread]
    simp only [deserialize_of_serialize hser']

/-! ### A torn target

Two calls write the temp file at the same time, and the target is empty when
a third one begins. -/

section Example

def tornStore : FileStore :=
  ⟨⟨[], some "net.json".toList⟩, .json, MemoryStore.new, by decide⟩

def tornCalls (i : Fin 3) : Mutation × Instant :=
  (.setPolicy ⟨i.val.toUInt64⟩ "accept", 0)

theorem exists_torn :
    letI := Crates.flow
    letI := Chrono.unasked
    ∃ xs s, ∃ v : Files (Fin 3),
      Runs.exec (step tornCalls id) (Shared.start tornStore, Volume.ofDisk fun _ => none) xs =
        some (s, v) ∧
      v.read tornStore.path = some [] ∧ s.phase 2 = .waiting ∧ s.log = [0, 1] := by
  let _ := Crates.flow
  let _ := Chrono.unasked
  let bytes := Crates.jsonPrint (jsonValue ((MemoryStore.setPolicy ⟨0⟩ "accept"
    MemoryStore.new).serialize Crates.iter))
  exact ⟨[.apply 0, .snapshot 0, .create 0, .append 0 bytes.length,
      .apply 1, .snapshot 1, .create 1, .rename 0], _, _,
    exec_next (.apply rfl) (exec_next (.snapshot rfl rfl) (exec_next (.create rfl)
      (exec_next (.append rfl) (exec_next (.apply rfl) (exec_next (.snapshot rfl rfl)
      (exec_next (.create rfl) (exec_next (.rename rfl (Nat.zero_add _).ge rfl) rfl))))))),
    rfl, rfl, rfl⟩

/-- The third call, alone, does what it does in the sequential model. -/
theorem alone_eq_mutate_torn :
    letI := Crates.flow
    letI := Chrono.unasked
    ∃ s t : Shared (Fin 3) (Fin 3), ∃ v w : Files (Fin 3), ∃ result,
      v.read tornStore.path = some [] ∧
      s.phase 2 = .waiting ∧ t.phase 2 = .returned result ∧
      mutate Faults.none (tornCalls 2).2 ⟨s.store, v.read⟩ (tornCalls 2).1 =
        (some result, ⟨t.store, w.read⟩) := by
  let _ := Crates.flow
  let _ := Chrono.unasked
  obtain ⟨xs, s, v, hrun, hread, hi, -⟩ := exists_torn
  obtain ⟨ys, ⟨t, w⟩, result, hys, hret, hown⟩ : Finishes tornCalls id 2 (s, v) := finishes 2 (s, v)
  exact ⟨s, t, v, w, result, hread, hi, hret,
    alone_eq_mutate (fun _ => none) tornStore tornCalls xs ys 2 result hrun hi hown hys hret⟩

/-- And the path opens again. -/
theorem alone_heals_torn :
    letI := Crates.flow
    letI := Chrono.unasked
    ∃ s t : Shared (Fin 3) (Fin 3), ∃ v w : Files (Fin 3), ∃ result,
      v.read tornStore.path = some [] ∧
      s.phase 2 = .waiting ∧ t.phase 2 = .returned result ∧
      openStore Faults.none w.read tornStore.path =
        .ok { tornStore with memory := docAfter tornCalls tornStore.memory [0, 1, 2] } := by
  let _ := Crates.flow
  let _ := Chrono.unasked
  obtain ⟨xs, s, v, hrun, hread, hi, hlog⟩ := exists_torn
  obtain ⟨⟨ys, t, w, result, hown, hys, hret⟩, hheals⟩ := alone_heals (fun _ => none)
    tornStore.path tornStore tornCalls xs s v 2 rfl hrun hi fun h => by cases h
  obtain ⟨r, -, hreplies, hopens⟩ := hheals ys t w result hown hys hret
  rw [hlog] at hreplies hopens
  refine ⟨s, t, v, w, result, hread, hi, hret, hopens ?_⟩
  obtain ⟨before, after, -, rfl⟩ := hreplies
  rfl

end Example

end Oxiscale

/-
Oxiscale/Serial.lean

Flushes that do not overlap.

`Durable.lean` guards every opening and renaming of the temp file.  Here is a
condition that a caller can keep without looking at the files: nobody takes a
snapshot while another call is between its own snapshot and the end of its
flush.  The changes to the memory, and the reads, may still come at any time,
so several calls may be waiting for one flush to end.

Such a run is orderly (`Serial.orderly`), since whoever flushes has seen every
acknowledged call and goes on to be the only one that flushes.  So nothing
acknowledged is lost at any point of it, and when all calls have returned the
file holds the memory: what the flushes have not seen by then is only calls
that changed nothing.
-/
import Oxiscale.Epochs

namespace Oxiscale

open FileStore

/-- The call is between its snapshot and the end of its flush. -/
def Phase.Flushing {N : Type} : Phase N → Prop
  | .snapped _ _ => True
  | .writing _ _ _ _ => True
  | _ => False

theorem Phase.Writing.flushing {N : Type} {ph : Phase N} (h : ph.Writing) : ph.Flushing := by
  cases ph with
  | writing => trivial
  | _ => exact h.elim

theorem Phase.Flushing.exists_payload {N : Type} {ph : Phase N} (h : ph.Flushing) :
    ∃ bytes, ph.payload = some bytes := by
  cases ph with
  | snapped _ bytes => exact ⟨bytes, rfl⟩
  | writing _ bytes _ _ => exact ⟨bytes, rfl⟩
  | _ => exact h.elim

/-- No call is under way. -/
def Shared.AtRest {T N : Type} (s : Shared T N) : Prop :=
  ∀ i, s.phase i = .waiting ∨ ∃ result, s.phase i = .returned result

section Serial

variable {T : Type} [DecidableEq T] [Crates] [Chrono] {calls : T → Mutation × Instant}
  {doc : StoreDocument} {disk : Disk} {store : FileStore} {s s' : Shared T T} {v : Files T}
  {i j : T} {x : Step T} {a b : Shared T T × Files T} {l : List T}

/-- A snapshot is only taken when nobody flushes, of a document that the
serialiser accepts. -/
def Serial (a : Shared T T × Files T) : Step T → Prop
  | .snapshot _ => (a.1.store.format = .toml → a.1.store.memory.FitsToml) ∧
    ∀ j, ¬ (a.1.phase j).Flushing
  | _ => True

variable (s) in
/-- At most one call flushes, and it has seen every acknowledged one. -/
structure OneFlush : Prop where
  one : ∀ i j, (s.phase i).Flushing → (s.phase j).Flushing → i = j
  seen : ∀ i j, (s.phase i).Flushing → s.Acknowledged j → j ∈ s.log.take (s.seen i)

omit [DecidableEq T] [Crates] [Chrono] in
theorem OneFlush.start (store : FileStore) : OneFlush (Shared.start store : Shared T T) where
  one _ _ h := h.elim
  seen _ _ h := h.elim

omit [DecidableEq T] in
/-- What a snapshot has seen is in the log. -/
theorem Logged.seen_le (h : Logged calls doc s) (hi : (s.phase i).Flushing) :
    s.seen i ≤ s.log.length := by
  obtain ⟨bytes, hbytes⟩ := hi.exists_payload
  exact (h.payload i bytes hbytes).1

omit [DecidableEq T] in
/-- A move after which whoever flushes did so before, and which acknowledges
nothing. -/
theorem OneFlush.frame (h : OneFlush s) (hlogged : Logged calls doc s)
    (hflush : ∀ i, (s'.phase i).Flushing → (s.phase i).Flushing ∧ s'.seen i = s.seen i)
    (hlog : s'.log = s.log ++ l) (hack : ∀ j, s'.Acknowledged j → s.Acknowledged j) :
    OneFlush s' where
  one i j hi hj := h.one i j (hflush i hi).1 (hflush j hj).1
  seen i j hi hj := by
    obtain ⟨hi', hseen⟩ := hflush i hi
    rw [hseen, hlog, List.take_append_of_le_length (hlogged.seen_le hi')]
    exact h.seen i j hi' (hack j hj)

/-- A move of the one that flushes, short of its return. -/
theorem OneFlush.setPhase {ph : Phase T} (h : OneFlush s) (hlogged : Logged calls doc s)
    (hflush : ph.Flushing → (s.phase i).Flushing) (hph : ∀ r, ph ≠ .returned (.ok r)) :
    OneFlush (s.setPhase i ph) := by
  refine h.frame (l := []) hlogged ?_ (List.append_nil _).symm ?_
  · intro j hj
    rcases eq_or_ne j i with rfl | hji
    · rw [Shared.setPhase_self] at hj
      exact ⟨hflush hj, rfl⟩
    · rw [Shared.setPhase_of_ne hji] at hj
      exact ⟨hj, rfl⟩
  · rintro j ⟨r, hr, hr'⟩
    rcases eq_or_ne j i with rfl | hji
    · rw [Shared.setPhase_self] at hr
      exact absurd hr (hph r)
    · rw [Shared.setPhase_of_ne hji] at hr
      exact ⟨r, hr, hr'⟩

/-- A change is made outside of any flush. -/
theorem OneFlush.apply (h : OneFlush s) (hlogged : Logged calls doc s) :
    OneFlush (s.apply calls i) := by
  refine h.frame (l := [i]) hlogged ?_ rfl fun j => acknowledged_apply
  intro j hj
  rcases eq_or_ne j i with rfl | hji
  · have hself : (s.apply calls j).phase j =
        .afterApply (MemoryStore.mutate (calls j).2 s.store.memory (calls j).1).1 :=
      Function.update_self _ _ _
    rw [hself, Phase.afterApply] at hj
    split at hj <;> exact hj.elim
  · have hne : (s.apply calls i).phase j = s.phase j := Function.update_of_ne hji _ _
    exact ⟨hne ▸ hj, rfl⟩

/-- A snapshot has seen everything that is acknowledged. -/
theorem OneFlush.snap {reply : Reply} {bytes : Bytes} (hlogged : Logged calls doc s)
    (hfree : ∀ j, ¬ (s.phase j).Flushing) : OneFlush (s.snap i reply bytes) := by
  have honly : ∀ j, ((s.snap i reply bytes).phase j).Flushing → j = i := by
    intro j hj
    by_contra hji
    have hne : (s.snap i reply bytes).phase j = s.phase j := Function.update_of_ne hji _ _
    exact hfree j (hne ▸ hj)
  refine ⟨fun j k hj hk => (honly j hj).trans (honly k hk).symm, fun j k hj hk => ?_⟩
  obtain rfl := honly j hj
  have hseen : (s.snap j reply bytes).seen j = s.log.length := Function.update_self _ _ _
  have hsnapped : ∀ result, (.snapped reply bytes : Phase T) ≠ .returned result := by simp
  have hack : s.Acknowledged k := acknowledged_setPhase hsnapped hk
  obtain ⟨r, hr, -⟩ := hack
  show k ∈ s.log.take _
  rw [hseen, List.take_length]
  exact (hlogged.mem_log k).mpr (by simp [hr])

omit [Crates] [Chrono] in
/-- The one that has flushed was the only one. -/
theorem OneFlush.rename {result : Except StoreError Reply} (h : OneFlush s)
    (hi : (s.phase i).Flushing) : OneFlush (s.setPhase i (.returned result)) := by
  have hnot : ∀ j, ¬ ((s.setPhase i (.returned result)).phase j).Flushing := by
    intro j hj
    rcases eq_or_ne j i with rfl | hji
    · rw [Shared.setPhase_self] at hj
      exact hj
    · rw [Shared.setPhase_of_ne hji] at hj
      exact hji (h.one j i hj hi)
  exact ⟨fun j _ hj => absurd hj (hnot j), fun j _ hj => absurd hj (hnot j)⟩

/-- **Step.** -/
theorem OneFlush.next (h : OneFlush a.1) (hlogged : Logged calls doc a.1) (hok : Serial a x)
    (hnext : Next calls id a x b) : OneFlush b.1 := by
  cases hnext with
  | apply hi => exact h.apply hlogged
  | refused hi hser => exact h.setPhase hlogged (fun hph => hph.elim) (by simp)
  | snapshot hi hser => exact .snap hlogged hok.2
  | @create s v i reply bytes hi =>
      refine h.setPhase hlogged (fun _ => ?_) (by simp)
      show (s.phase i).Flushing
      rw [hi]
      trivial
  | @append s v i n reply bytes file done hi =>
      refine h.setPhase hlogged (fun _ => ?_) (by simp)
      show (s.phase i).Flushing
      rw [hi]
      trivial
  | gone hi hdone hv => exact h.setPhase hlogged (fun hph => hph.elim) (by simp)
  | @rename s v i reply bytes file done w hi hdone hv =>
      have hflush : (s.phase i).Flushing := by
        rw [hi]
        trivial
      exact h.rename hflush

omit [Crates] in
/-- The next step of a serial run is an orderly one. -/
theorem OneFlush.orderly (h : OneFlush a.1) [Crates] (hok : Serial a x)
    (hnext : Next calls id a x b) : Orderly a x := by
  cases hnext with
  | refused hi hser => exact hok.1
  | snapshot hi hser => exact hok.1
  | @create s v i reply bytes hi =>
      have hflush : (s.phase i).Flushing := by
        rw [hi]
        trivial
      exact fun j hji hj => hji (h.one j i hj.flushing hflush)
  | @gone s v i reply bytes file done hi hdone hv =>
      have hflush : (s.phase i).Flushing := by
        rw [hi]
        trivial
      exact fun j hj => h.seen i j hflush hj
  | @rename s v i reply bytes file done w hi hdone hv =>
      have hflush : (s.phase i).Flushing := by
        rw [hi]
        trivial
      exact fun j hj => h.seen i j hflush hj
  | _ => trivial

/-- **Run.**  A serial run is orderly. -/
theorem Serial.orderly {xs : List (Step T)}
    (hok : Runs.Guarded (step calls id) Serial (Shared.start store, Volume.ofDisk disk) xs)
    (hrun : Runs.exec (step calls id) (Shared.start store, Volume.ofDisk disk) xs = some (s, v)) :
    Runs.Guarded (step calls id) Orderly (Shared.start store, Volume.ofDisk disk) xs :=
  Runs.Guarded.of_invariant
    (P := fun a : Shared T T × Files T => OneFlush a.1 ∧ Logged calls store.memory a.1)
    (fun a x b ⟨h, hlogged⟩ hx hstep => by
      have hnext := step_eq_some_iff.mp hstep
      exact ⟨h.orderly hx hnext, h.next hlogged hx hnext, hlogged.next hnext⟩)
    ⟨.start store, .start store⟩ hok hrun

/-! ### At rest -/

omit [DecidableEq T] [Crates] in
/-- Calls that leave the document as it is. -/
theorem docAfter_append_of_same {l' : List T}
    (h : ∀ before i after, l' = before ++ i :: after →
      (MemoryStore.mutate (calls i).2 (docAfter calls doc (l ++ before)) (calls i).1).2 =
        docAfter calls doc (l ++ before)) :
    docAfter calls doc (l ++ l') = docAfter calls doc l := by
  induction l' using List.reverseRecOn with
  | nil => rw [List.append_nil]
  | append_singleton l' i ih =>
      rw [← List.append_assoc, docAfter_snoc, h l' i [] rfl]
      refine ih fun before j after hsplit => h before j (after ++ [i]) ?_
      rw [hsplit, List.append_assoc, List.cons_append]

omit [DecidableEq T] in
/-- **Quiescence.**  When no call is under way, what the memory has more than a
document with every acknowledged call is nothing. -/
theorem Durable.docAfter_kept (h : Durable calls doc s v) (hrest : s.AtRest)
    (hfront : l <+: s.log) (hack : ∀ i, s.Acknowledged i → i ∈ l) :
    docAfter calls doc l = s.store.memory := by
  obtain ⟨l', hl⟩ := hfront
  rw [h.logged.memory, ← hl]
  refine (docAfter_append_of_same fun before i after hsplit => ?_).symm
  -- a call that `l` has not is logged, so it has returned, without a flush
  have hlog : s.log = (l ++ before) ++ i :: after := by rw [← hl, hsplit, List.append_assoc]
  have hnodup : ((l ++ before) ++ i :: after).Nodup := hlog ▸ h.logged.nodup
  have hother : i ∉ l ++ before ∧ i ∉ after := by
    rw [List.nodup_middle, List.nodup_cons, List.mem_append, not_or] at hnodup
    exact hnodup.1
  have hmem : i ∈ s.log := by simp [hlog]
  obtain ⟨result, hi⟩ := (hrest i).resolve_left ((h.logged.mem_log i).mp hmem)
  obtain ⟨r, rfl⟩ := h.returned i result hi
  have hflush : r.flushes = false := by
    by_contra hr
    have hil : i ∈ l := hack i ⟨r, hi, by simpa using hr⟩
    exact hother.1 (List.mem_append_left before hil)
  -- its place in the log is the one at which it replied
  obtain ⟨before', after', hlog', rfl⟩ := h.logged.returned i r hi
  obtain ⟨hbefore, -, -⟩ := (List.append_cons_inj_of_notMem hother.1 hother.2).mp
    (hlog.symm.trans hlog')
  rw [hbefore]
  exact snd_of_not_flushes hflush

end Serial

/-- **Flushes that do not overlap lose nothing.**  However the changes to the
memory are interleaved, every call that has returned gave the reply of its
place in the order of these changes, and at every point the path opens as the
document after some of them, with every acknowledged one.  When no call is
under way, it opens as the store itself. -/
theorem serial_flushes_durable [Crates] [Chrono] {T : Type} [DecidableEq T] (disk : Disk)
    (path : Path) (store : FileStore) (calls : T → Mutation × Instant) (xs : List (Step T))
    (s : Shared T T) (v : Files T) (hopen : openStore Faults.none disk path = .ok store)
    (hok : Runs.Guarded (step calls id) Serial (Shared.start store, Volume.ofDisk disk) xs)
    (hrun : Runs.exec (step calls id) (Shared.start store, Volume.ofDisk disk) xs = some (s, v)) :
    Answered calls store.memory s ∧
    (∃ kept, kept <+: s.log ∧ (∀ i, s.Acknowledged i → i ∈ kept) ∧
      openStore Faults.none v.read path =
        .ok { store with memory := docAfter calls store.memory kept }) ∧
    (s.AtRest → openStore Faults.none v.read path = .ok s.store) := by
  have horderly := Serial.orderly hok hrun
  obtain ⟨hdurable, -, hpath, hformat⟩ := orderly_invariant horderly hrun
  obtain ⟨kept, hfront, hack, hreopen⟩ := reopens hopen horderly hrun
  refine ⟨?_, ⟨kept, hfront, hack, hreopen⟩, fun hrest => ?_⟩
  · intro i result hi
    obtain ⟨r, rfl⟩ := hdurable.returned i result hi
    exact ⟨r, rfl, hdurable.logged.returned i r hi⟩
  · rw [hreopen, hdurable.docAfter_kept hrest hfront hack]
    cases hs : s.store with
    | mk p f m a =>
      rw [hs] at hpath hformat
      obtain rfl : p = store.path := hpath
      obtain rfl : f = store.format := hformat
      rfl

/-- Two calls change the memory before either of them flushes. -/
theorem serial_flushes_durable_two_waiting :
    letI := Crates.flow
    letI := Chrono.unasked
    let calls : Bool → Mutation × Instant
      | false => (.upsertUser ⟨⟨1⟩, ⟨1⟩, "ada", ""⟩, 0)
      | true => (.setPolicy ⟨1⟩ "accept", 0)
    let store : FileStore := ⟨⟨[], some "state.json".toList⟩, .json, MemoryStore.new, by decide⟩
    ∃ n m s v, Runs.exec (step calls id) (Shared.start store, Volume.ofDisk fun _ => none)
        [.apply false, .apply true, .snapshot false, .create false, .append false n,
          .rename false, .snapshot true, .create true, .append true m, .rename true] =
          some (s, v) ∧
      openStore Faults.none v.read store.path =
        .ok { store with memory := docAfter calls store.memory [false, true] } := by
  let _ := Crates.flow
  let _ := Chrono.unasked
  intro calls store
  have hjson : ∀ m : StoreDocument, Format.json = .toml → m.FitsToml := fun _ h => by cases h
  obtain ⟨n, m, s, v, ⟨hrun, hok⟩, hrest, hmemory⟩ : ∃ n m s v,
      let xs := [Step.apply false, .apply true, .snapshot false, .create false, .append false n,
          .rename false, .snapshot true, .create true, .append true m, .rename true]
      (Runs.exec (step calls id) (Shared.start store, Volume.ofDisk fun _ => none) xs =
          some (s, v) ∧
        Runs.Guarded (step calls id) Serial (Shared.start store, Volume.ofDisk fun _ => none) xs) ∧
      s.AtRest ∧
      s.store = { store with memory := docAfter calls store.memory [false, true] } :=
    ⟨_, _, _, _, guarded_next trivial (.apply rfl) (guarded_next trivial (.apply rfl)
      (guarded_next ⟨hjson _, fun j => by cases j <;> exact id⟩ (.snapshot rfl rfl)
      (guarded_next trivial (.create rfl) (guarded_next trivial (.append rfl)
      (guarded_next trivial (.rename rfl (Nat.zero_add _).ge rfl)
      (guarded_next ⟨hjson _, fun j => by cases j <;> exact id⟩ (.snapshot rfl rfl)
      (guarded_next trivial (.create rfl) (guarded_next trivial (.append rfl)
      (guarded_next trivial (.rename rfl (Nat.zero_add _).ge rfl)
      ⟨rfl, trivial⟩))))))))),
      fun i => by cases i <;> exact Or.inr ⟨_, rfl⟩, rfl⟩
  obtain ⟨-, -, hopens⟩ := serial_flushes_durable _ store.path store calls _ s v rfl hok hrun
  exact ⟨n, m, s, v, hrun, by rw [hopens hrest, hmemory]⟩

end Oxiscale

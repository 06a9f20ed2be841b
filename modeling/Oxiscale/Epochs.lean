/-
Oxiscale/Epochs.lean

A `FileStore` across crashes in the middle of concurrent calls.

An *epoch* is the life of one process: the path is opened, any number of
calls move turn by turn, and the process dies between two moves, with calls
in every phase and one perhaps inside the lock.  The memory is lost and the
files stay as they are, half-written temp files included; the next epoch
opens the same path and makes calls of its own.

`Restart.lean` has one call at a time and `Durable.lean` one process.  Here
the two meet: in orderly epochs the path can always be opened again, and what
is opened is the document after a prefix of the calls of every epoch so far
that holds all acknowledged ones (`crashes_durable`).  So a single-use key is
redeemed at most once in the whole history, whatever the crashes
(`redeemed_once_across_crashes`).
-/
import Oxiscale.Durable
import Oxiscale.Locked
import Oxiscale.Redeem
import Oxiscale.Torn

namespace Oxiscale

open FileStore

/-! ### One epoch -/

section Epoch

variable {T : Type} [DecidableEq T]

/-- The calls of one process, and how they move until it dies. -/
structure Epoch (T : Type) where
  calls : T → Mutation × Instant
  moves : List (Turn T)

/-- Open the path and let the calls move: the state the process dies in, and
the disk it leaves. -/
def Epoch.live [Serde] [Chrono] (path : Path) (disk : Disk) (e : Epoch T) :
    Except StoreError (Option (Shared T T × Disk)) :=
  match openStore Faults.none disk path with
  | .error err => .error err
  | .ok store => .ok <|
    (Runs.exec (locked e.calls id).fine ⟨(Shared.start store, Volume.ofDisk disk), []⟩
      e.moves).map fun f => (f.state.1, f.state.2.read)

variable [Crates] [Chrono] {calls : T → Mutation × Instant} {doc : StoreDocument} {disk : Disk}
  {path : Path} {store : FileStore} {s : Shared T T} {v : Files T}

/-- Every run of the steps is the life of some process. -/
theorem exists_epoch (hopen : openStore Faults.none disk path = .ok store) {l : List (Step T)}
    (hrun : Runs.exec (step calls id) (Shared.start store, Volume.ofDisk disk) l = some (s, v)) :
    ∃ e : Epoch T, e.calls = calls ∧ e.moves.filterMap Sections.Move.commits = l ∧
      e.live path disk = .ok (some (s, v.read)) := by
  obtain ⟨xs, hxs, hcommits⟩ := locked_of_exec hrun
  refine ⟨⟨calls, xs⟩, rfl, hcommits, ?_⟩
  simp only [Epoch.live, hopen, hxs]
  rfl

/-- Every step of an orderly run is undisturbed: at most one call has the temp
file open. -/
theorem Durable.undisturbed {a : Shared T T × Files T} {x : Step T}
    (h : Durable calls doc a.1 a.2) (hok : Orderly a x) {b : Shared T T × Files T}
    (hnext : Next calls id a x b) : Undisturbed a x := by
  cases hnext with
  | create hi => exact fun j hj hmid => hok j hj hmid.writing
  | @rename s v i reply bytes file done w hi hdone hv =>
      intro j hj hmid
      exact hj (h.exclusive.one j i hmid.writing (by rw [hi]; trivial))
  | @gone s v i reply bytes file done hi hdone hv =>
      intro j hj hmid
      exact hj (h.exclusive.one j i hmid.writing (by rw [hi]; trivial))
  | _ => trivial

/-- Both invariants hold in every orderly run, and the store keeps its path and
format. -/
theorem orderly_invariant {xs : List (Step T)}
    (hok : Runs.Guarded (step calls id) Orderly (Shared.start store, Volume.ofDisk disk) xs)
    (hrun : Runs.exec (step calls id) (Shared.start store, Volume.ofDisk disk) xs = some (s, v)) :
    Durable calls store.memory s v ∧ Whole calls store.memory disk s v ∧
      s.store.path = store.path ∧ s.store.format = store.format :=
  Runs.exec_invariant (P := fun a : Shared T T × Files T =>
    Durable calls store.memory a.1 a.2 ∧ Whole calls store.memory disk a.1 a.2 ∧
      a.1.store.path = store.path ∧ a.1.store.format = store.format)
    (fun a x b ⟨hdurable, hwhole, hpath, hformat⟩ hx hstep => by
      have hnext := step_eq_some_iff.mp hstep
      exact ⟨hdurable.next hx hnext, hwhole.next (hdurable.undisturbed hx hnext) hnext,
        hnext.path_eq.1.trans hpath, hnext.path_eq.2.trans hformat⟩)
    ⟨.start store, .start store, rfl, rfl⟩ hok hrun

/-- **One crash.**  The path opens again, as the document after a prefix of the
calls that holds all acknowledged ones. -/
theorem reopens (hopen : openStore Faults.none disk path = .ok store) {xs : List (Step T)}
    (hok : Runs.Guarded (step calls id) Orderly (Shared.start store, Volume.ofDisk disk) xs)
    (hrun : Runs.exec (step calls id) (Shared.start store, Volume.ofDisk disk) xs = some (s, v)) :
    ∃ kept, kept <+: s.log ∧ (∀ i, s.Acknowledged i → i ∈ kept) ∧
      openStore Faults.none v.read path =
        .ok { store with memory := docAfter calls store.memory kept } := by
  obtain ⟨hdurable, hwhole, hpath, hformat⟩ := orderly_invariant hok hrun
  obtain ⟨rfl, hf⟩ := format_of_openStore hopen
  -- a target that holds a serialised document opens as that document
  have hopens : ∀ n bytes, v.read store.path = some bytes →
      serialize store.format (docAfter calls store.memory (s.log.take n)) = .ok bytes →
      openStore Faults.none v.read store.path =
        .ok { store with memory := docAfter calls store.memory (s.log.take n) } := by
    intro n bytes hread hser
    rw [openStore_eq _ hf, hread]
    simp only [deserialize_of_serialize hser]
  by_cases hack : ∃ k, s.Acknowledged k
  · obtain ⟨n, bytes, hread, hser, hall⟩ := hdurable.target hack
    rw [hpath] at hread
    rw [hformat] at hser
    exact ⟨s.log.take n, List.take_prefix n s.log, hall, hopens n bytes hread hser⟩
  · have hnone : ∀ (l : List T) i, s.Acknowledged i → i ∈ l := fun _ i hi => absurd ⟨i, hi⟩ hack
    rcases hwhole.target with hsame | ⟨bytes, hread, n, hser⟩
    · rw [hpath] at hsame
      refine ⟨[], List.nil_prefix, hnone [], ?_⟩
      rw [openStore_eq _ hf, hsame, ← openStore_eq _ hf]
      exact hopen
    · rw [hpath] at hread
      rw [hformat] at hser
      exact ⟨s.log.take n, List.take_prefix n s.log, hnone _, hopens n bytes hread hser⟩

end Epoch

/-! ### Every epoch -/

section Epochs

variable {T : Type} [DecidableEq T]

/-- One epoch after another, until the path does not open.  It is `none` where
a move is not enabled. -/
def live [Serde] [Chrono] (path : Path) :
    Disk → List (Epoch T) → Except StoreError (Option (List (Shared T T) × Disk))
  | disk, [] => .ok (some ([], disk))
  | disk, e :: es =>
    match e.live path disk with
    | .error err => .error err
    | .ok none => .ok none
    | .ok (some (s, disk')) =>
      match live path disk' es with
      | .error err => .error err
      | .ok r => .ok (r.map fun (ss, d) => (s :: ss, d))

/-- Every epoch is orderly in the order in which its sections are left. -/
def OrderlyAll [Crates] [Chrono] (path : Path) : Disk → List (Epoch T) → Prop
  | _, [] => True
  | disk, e :: es =>
    (∀ store, openStore Faults.none disk path = .ok store →
      Runs.Guarded (step e.calls id) Orderly (Shared.start store, Volume.ofDisk disk)
        (e.moves.filterMap Sections.Move.commits)) ∧
    ∀ s disk', e.live path disk = .ok (some (s, disk')) → OrderlyAll path disk' es

/-- One more epoch, from the files that the one before has left. -/
theorem OrderlyAll.cons [Crates] [Chrono] {path : Path} {disk disk' : Disk} {store : FileStore}
    {e : Epoch T} {es : List (Epoch T)} {s : Shared T T}
    (hopen : openStore Faults.none disk path = .ok store)
    (hok : Runs.Guarded (step e.calls id) Orderly (Shared.start store, Volume.ofDisk disk)
      (e.moves.filterMap Sections.Move.commits))
    (hlive : e.live path disk = .ok (some (s, disk'))) (hrest : OrderlyAll path disk' es) :
    OrderlyAll path disk (e :: es) := by
  refine ⟨fun store' hopen' => ?_, fun s' d hlive' => ?_⟩
  · obtain rfl := Except.ok.inj (hopen.symm.trans hopen')
    exact hok
  · obtain ⟨rfl, rfl⟩ := Prod.mk.inj (Option.some.inj (Except.ok.inj (hlive.symm.trans hlive')))
    exact hrest

theorem live_cons [Serde] [Chrono] {path : Path} {disk disk' d : Disk} {e : Epoch T}
    {es : List (Epoch T)} {s : Shared T T} {ss : List (Shared T T)}
    (hlive : e.live path disk = .ok (some (s, disk')))
    (hrest : live path disk' es = .ok (some (ss, d))) :
    live path disk (e :: es) = .ok (some (s :: ss, d)) := by
  simp only [live, hlive, hrest]
  rfl

/-- The document after the calls that each epoch has kept. -/
def recovered [Chrono] : StoreDocument → List (Epoch T) → List (List T) → StoreDocument
  | doc, e :: es, kept :: rest => recovered (docAfter e.calls doc kept) es rest
  | doc, _, _ => doc

/-- Every epoch keeps a prefix of its calls with all acknowledged ones, and its
calls reply what they do one at a time, after what the epochs before have
kept. -/
inductive Outlives [Chrono] :
    StoreDocument → List (Epoch T) → List (Shared T T) → List (List T) → Prop
  | nil {doc} : Outlives doc [] [] []
  | cons {doc e es s ss kept rest} (hfront : kept <+: s.log) (hnodup : s.log.Nodup)
      (hack : ∀ i, s.Acknowledged i → i ∈ kept) (hanswered : Answered e.calls doc s)
      (hrest : Outlives (docAfter e.calls doc kept) es ss rest) :
      Outlives doc (e :: es) (s :: ss) (kept :: rest)

section Crashes

variable [Crates] [Chrono] {path : Path} {disk d : Disk} {store : FileStore} {e : Epoch T}
  {es : List (Epoch T)} {s : Shared T T} {ss : List (Shared T T)}

/-- On a path that opens a process begins. -/
theorem exists_epoch_live (hopen : openStore Faults.none disk path = .ok store) :
    ∃ r, e.live path disk = .ok r := by
  simp only [Epoch.live, hopen]
  exact ⟨_, rfl⟩

/-- **One epoch.**  What a process leaves behind opens again, as the document
after a prefix of its calls that holds all acknowledged ones. -/
theorem epoch_outlives (hopen : openStore Faults.none disk path = .ok store)
    (hguard : Runs.Guarded (step e.calls id) Orderly (Shared.start store, Volume.ofDisk disk)
      (e.moves.filterMap Sections.Move.commits))
    (hlive : e.live path disk = .ok (some (s, d))) :
    ∃ kept, kept <+: s.log ∧ s.log.Nodup ∧ (∀ i, s.Acknowledged i → i ∈ kept) ∧
      Answered e.calls store.memory s ∧ openStore Faults.none d path =
        .ok { store with memory := docAfter e.calls store.memory kept } := by
  simp only [Epoch.live, hopen, Except.ok.injEq] at hlive
  obtain ⟨f, hrun, hf⟩ := Option.map_eq_some_iff.mp hlive
  obtain ⟨rfl, rfl⟩ := Prod.mk.inj hf
  -- the steps behind the turns, and what the crash leaves of them
  obtain ⟨s, hs, hsame, -⟩ := exec_of_locked hrun
  obtain ⟨kept, hfront, hack, hreopen⟩ := reopens hopen hguard hs
  obtain ⟨hdurable, -⟩ := orderly_invariant hguard hs
  rw [hsame]
  refine ⟨kept, hfront, hdurable.logged.nodup, hack, fun i result hi => ?_, hreopen⟩
  obtain ⟨reply, rfl⟩ := hdurable.returned i result hi
  exact ⟨reply, rfl, hdurable.logged.returned i reply hi⟩

/-- **Run lemma.**  What all epochs have kept, one after the other. -/
theorem outlives_of_live (hopen : openStore Faults.none disk path = .ok store)
    (hok : OrderlyAll path disk es) (hlive : live path disk es = .ok (some (ss, d))) :
    ∃ kept, Outlives store.memory es ss kept ∧ openStore Faults.none d path =
      .ok { store with memory := recovered store.memory es kept } := by
  induction es generalizing disk store ss with
  | nil =>
      obtain ⟨rfl, rfl⟩ := Prod.mk.inj (Option.some.inj (Except.ok.inj hlive))
      exact ⟨[], .nil, hopen⟩
  | cons e es ih =>
      obtain ⟨hguard, hnext⟩ := hok
      obtain ⟨r, hr⟩ := exists_epoch_live (e := e) hopen
      rcases r with - | ⟨s, d'⟩
      · simp [live, hr] at hlive
      · obtain ⟨kept, hfront, hnodup, hack, hanswered, hreopen⟩ :=
          epoch_outlives hopen (hguard store hopen) hr
        rcases hrest : live path d' es with err | r
        · simp [live, hr, hrest] at hlive
        · simp only [live, hr, hrest, Except.ok.injEq] at hlive
          obtain ⟨⟨ss', d''⟩, rfl, hsd⟩ := Option.map_eq_some_iff.mp hlive
          obtain ⟨rfl, rfl⟩ := Prod.mk.inj hsd
          obtain ⟨rest, houtlives, hfinal⟩ := ih hreopen (hnext _ _ hr) hrest
          exact ⟨kept :: rest, .cons hfront hnodup hack hanswered houtlives, hfinal⟩

/-- No epoch finds a path that does not open. -/
theorem exists_live (hopen : openStore Faults.none disk path = .ok store)
    (hok : OrderlyAll path disk es) : ∃ r, live path disk es = .ok r := by
  induction es generalizing disk store with
  | nil => exact ⟨_, rfl⟩
  | cons e es ih =>
      obtain ⟨hguard, hnext⟩ := hok
      obtain ⟨r, hr⟩ := exists_epoch_live (e := e) hopen
      rcases r with - | ⟨s, d⟩
      · exact ⟨none, by simp only [live, hr]⟩
      · obtain ⟨kept, -, -, -, -, hreopen⟩ := epoch_outlives hopen (hguard store hopen) hr
        obtain ⟨r, hrest⟩ := ih hreopen (hnext _ _ hr)
        exact ⟨r.map fun (ss, d) => (s :: ss, d), by simp only [live, hr, hrest]⟩

end Crashes

/-- **Acknowledged mutations survive every crash.**  However many processes
open the path one after the other, and wherever each of them dies, the path
always opens again, and what is opened is the document after the kept calls of
all of them. -/
theorem crashes_durable [Crates] [Chrono] (path : Path) (disk : Disk) (store : FileStore)
    (es : List (Epoch T)) (hopen : openStore Faults.none disk path = .ok store)
    (hok : OrderlyAll path disk es) :
    ∃ r, live path disk es = .ok r ∧ ∀ ss d, r = some (ss, d) →
      ∃ kept, Outlives store.memory es ss kept ∧
        openStore Faults.none d path =
          .ok { store with memory := recovered store.memory es kept } := by
  obtain ⟨r, hr⟩ := exists_live hopen hok
  refine ⟨r, hr, ?_⟩
  rintro ss d rfl
  exact outlives_of_live hopen hok hr

end Epochs

/-! ### A single-use key -/

section SingleUse

variable [Chrono] {id : PreAuthKeyId} {doc : StoreDocument} {now : Instant} {m : Mutation}

/-- The record under the id serves once. -/
def SingleUse (id : PreAuthKeyId) (doc : StoreDocument) : Prop :=
  ∃ key, Keyed.get PreAuthKey.id id doc.preauthKeys = some key ∧ key.reusable = false

/-- It has served. -/
def Spent (id : PreAuthKeyId) (doc : StoreDocument) : Prop :=
  ∃ key, Keyed.get PreAuthKey.id id doc.preauthKeys = some key ∧ key.reusable = false ∧
    key.used = true

/-- The record after a mutation that does not write it. -/
theorem getKey_mutate (now : Instant) (doc : StoreDocument)
    (hw : (Call.mutate m).writes id = none) :
    Keyed.get PreAuthKey.id id (MemoryStore.mutate now doc m).2.preauthKeys =
      (Keyed.get PreAuthKey.id id doc.preauthKeys).map
        (if isWin id ((.mutate m, now), (MemoryStore.mutate now doc m).1) then MemoryStore.redeem
          else fun key => key) := by
  have h : Keyed.get PreAuthKey.id id (MemoryStore.call doc (.mutate m, now)).2.preauthKeys = _ :=
    getKey_call (.mutate m, now)
  rw [hw, Option.none_or] at h
  exact h

/-- A key that may be used once stays such a key unless it is written. -/
theorem SingleUse.mutate (h : SingleUse id doc) (hw : (Call.mutate m).writes id = none) :
    SingleUse id (MemoryStore.mutate now doc m).2 := by
  obtain ⟨key, hget, hr⟩ := h
  have hkey := getKey_mutate now doc hw
  rw [hget, Option.map_some] at hkey
  refine ⟨_, hkey, ?_⟩
  split
  · simp [MemoryStore.redeem, MemoryStore.markUsed, hr]
  · exact hr

/-- A spent key stays spent unless it is written. -/
theorem Spent.mutate (h : Spent id doc) (hw : (Call.mutate m).writes id = none) :
    Spent id (MemoryStore.mutate now doc m).2 := by
  obtain ⟨key, hget, hr, hu⟩ := h
  have hkey := getKey_mutate now doc hw
  rw [hget, Option.map_some] at hkey
  refine ⟨_, hkey, ?_⟩
  split
  · simp [MemoryStore.redeem, MemoryStore.markUsed, hr]
  · exact ⟨hr, hu⟩

/-- A spent key is not redeemed. -/
theorem Spent.refused (h : Spent id doc) :
    (MemoryStore.mutate now doc (.consumePreauthKey id)).1 ≠ .consumed true := by
  obtain ⟨key, hget, hr, hu⟩ := h
  intro hwon
  have htrue : (MemoryStore.consumePreauthKey now id doc).1 = true := Reply.consumed.inj hwon
  obtain ⟨key', hget', -, hred⟩ := (MemoryStore.consumePreauthKey_fst now id doc).mp htrue
  obtain rfl := Option.some.inj (hget.symm.trans hget')
  rcases hred with hred | hred
  · exact absurd (hr.symm.trans hred) (by decide)
  · exact absurd (hu.symm.trans hred) (by decide)

/-- A winner spends the key. -/
theorem SingleUse.spent (h : SingleUse id doc)
    (hwon : (MemoryStore.mutate now doc (.consumePreauthKey id)).1 = .consumed true) :
    Spent id (MemoryStore.mutate now doc (.consumePreauthKey id)).2 := by
  obtain ⟨key, hget, hr⟩ := h
  have hw : (Call.mutate (.consumePreauthKey id)).writes id = none := rfl
  have hkey := getKey_mutate now doc hw
  rw [hget, hwon, Option.map_some] at hkey
  refine ⟨_, hkey, ?_⟩
  simp [isWin, MemoryStore.redeem, MemoryStore.markUsed, hr]

variable {T : Type} {calls : T → Mutation × Instant} {l : List T} {i j : T}

theorem SingleUse.docAfter (h : SingleUse id doc)
    (hw : ∀ i, (Call.mutate (calls i).1).writes id = none) :
    SingleUse id (docAfter calls doc l) := by
  induction l using List.reverseRecOn with
  | nil => exact h
  | append_singleton l i ih =>
      rw [docAfter_snoc]
      exact ih.mutate (hw i)

theorem docAfter_append {l' : List T} :
    docAfter calls doc (l ++ l') = docAfter calls (docAfter calls doc l) l' :=
  Runs.final_append

theorem Spent.docAfter (h : Spent id doc)
    (hw : ∀ i, (Call.mutate (calls i).1).writes id = none) : Spent id (docAfter calls doc l) := by
  induction l using List.reverseRecOn with
  | nil => exact h
  | append_singleton l i ih =>
      rw [docAfter_snoc]
      exact ih.mutate (hw i)

/-- A consume of the id that won at this place of the list. -/
def WonAt (calls : T → Mutation × Instant) (doc : StoreDocument) (id : PreAuthKeyId)
    (before : List T) (i : T) : Prop :=
  (calls i).1 = .consumePreauthKey id ∧
    (MemoryStore.mutate (calls i).2 (Oxiscale.docAfter calls doc before) (calls i).1).1 =
      .consumed true

/-- Once it is won the key is spent. -/
theorem WonAt.spent {before after : List T} (hwon : WonAt calls doc id before i)
    (h : SingleUse id doc) (hw : ∀ i, (Call.mutate (calls i).1).writes id = none) :
    Spent id (Oxiscale.docAfter calls doc (before ++ i :: after)) := by
  obtain ⟨hcall, hreply⟩ := hwon
  rw [hcall] at hreply
  rw [docAfter_append, ← List.singleton_append, docAfter_append]
  refine Spent.docAfter ?_ hw
  show Spent id (MemoryStore.mutate (calls i).2 _ (calls i).1).2
  rw [hcall]
  exact (h.docAfter hw).spent hreply

theorem WonAt.not_spent {before : List T} (hwon : WonAt calls doc id before i)
    (h : Spent id (Oxiscale.docAfter calls doc before)) : False := by
  obtain ⟨hcall, hreply⟩ := hwon
  rw [hcall] at hreply
  exact h.refused hreply

/-- In one order of the calls there is one winner. -/
theorem WonAt.unique {before after before' after' : List T} (hi : WonAt calls doc id before i)
    (hj : WonAt calls doc id before' j) (hl : before ++ i :: after = before' ++ j :: after')
    (h : SingleUse id doc) (hw : ∀ i, (Call.mutate (calls i).1).writes id = none) : i = j := by
  rcases List.append_eq_append_iff.mp hl with ⟨mid, rfl, hmid⟩ | ⟨mid, rfl, hmid⟩
  · cases mid with
    | nil => exact (List.cons.inj hmid).1
    | cons x mid =>
        obtain ⟨rfl, -⟩ := List.cons.inj hmid
        exact (hj.not_spent (hi.spent h hw)).elim
  · cases mid with
    | nil => exact (List.cons.inj hmid).1.symm
    | cons x mid =>
        obtain ⟨rfl, -⟩ := List.cons.inj hmid
        exact (hi.not_spent (hj.spent h hw)).elim

end SingleUse

section Redeemed

variable {T : Type} [DecidableEq T]

/-- In the epoch `m` the call `i` returned that it has redeemed the key. -/
def Wins (es : List (Epoch T)) (ss : List (Shared T T)) (id : PreAuthKeyId) (m : ℕ) (i : T) :
    Prop :=
  ∃ e s, es[m]? = some e ∧ ss[m]? = some s ∧ (e.calls i).1 = .consumePreauthKey id ∧
    s.phase i = .returned (.ok (.consumed true))

variable [Chrono] {id : PreAuthKeyId} {doc : StoreDocument} {e : Epoch T} {es : List (Epoch T)}
  {s : Shared T T} {ss : List (Shared T T)} {kept : List (List T)} {m n : ℕ} {i j : T}

omit [DecidableEq T] in
/-- A returned winner has its place in the log of its epoch. -/
theorem Answered.wonAt (h : Answered e.calls doc s) (hcall : (e.calls i).1 = .consumePreauthKey id)
    (hi : s.phase i = .returned (.ok (.consumed true))) :
    ∃ before after, s.log = before ++ i :: after ∧ WonAt e.calls doc id before i := by
  obtain ⟨r, hr, before, after, hlog, hreply⟩ := h i _ hi
  obtain rfl := Except.ok.inj hr
  exact ⟨before, after, hlog, hcall, hreply.symm⟩

omit [DecidableEq T] in
/-- A spent key is not won in any later epoch. -/
theorem Outlives.not_wins (h : Outlives doc es ss kept) (hspent : Spent id doc)
    (hw : ∀ e ∈ es, ∀ i, (Call.mutate (e.calls i).1).writes id = none) : ¬ Wins es ss id m i := by
  induction h generalizing m with
  | nil =>
      rintro ⟨e, s, he, -⟩
      cases he
  | @cons doc e es s ss k rest hfront hnodup hack hanswered hrest ih =>
      have hwe := hw e List.mem_cons_self
      rintro ⟨e', s', he, hs, hcall, hi⟩
      cases m with
      | zero =>
          obtain rfl := Option.some.inj he
          obtain rfl := Option.some.inj hs
          obtain ⟨before, after, -, hwon⟩ := hanswered.wonAt hcall hi
          exact hwon.not_spent (hspent.docAfter hwe)
      | succ m =>
          exact ih (hspent.docAfter hwe) (fun e he => hw e (List.mem_cons_of_mem _ he))
            ⟨e', s', he, hs, hcall, hi⟩

omit [DecidableEq T] in
/-- A winner of an epoch has spent the key for the next one. -/
theorem spent_of_kept {k : List T} (hfront : k <+: s.log) (hnodup : s.log.Nodup)
    (hack : ∀ i, s.Acknowledged i → i ∈ k) (hanswered : Answered e.calls doc s)
    (hsingle : SingleUse id doc) (hw : ∀ i, (Call.mutate (e.calls i).1).writes id = none)
    (hcall : (e.calls i).1 = .consumePreauthKey id)
    (hi : s.phase i = .returned (.ok (.consumed true))) : Spent id (docAfter e.calls doc k) := by
  obtain ⟨before, after, hlog, hwon⟩ := hanswered.wonAt hcall hi
  have hmem : i ∈ k := hack i ⟨_, hi, rfl⟩
  -- the call stands in the log once, so the prefix that holds it goes past it
  have hnot : i ∉ before := by
    intro hi'
    rw [hlog] at hnodup
    exact (List.nodup_append.mp hnodup).2.2 i hi' i List.mem_cons_self rfl
  obtain ⟨tail, htail⟩ := hfront
  rcases List.append_eq_append_iff.mp (htail.trans hlog) with ⟨mid, rfl, -⟩ | ⟨mid, rfl, hmid⟩
  · exact absurd (List.mem_append_left _ hmem) hnot
  · cases mid with
    | nil => exact absurd (by simpa using hmem) hnot
    | cons x mid =>
        obtain ⟨rfl, -⟩ := List.cons.inj hmid
        exact hwon.spent hsingle hw

omit [DecidableEq T] in
/-- **Run.**  Over all the epochs there is at most one win. -/
theorem Outlives.one_win (h : Outlives doc es ss kept) (hsingle : SingleUse id doc)
    (hw : ∀ e ∈ es, ∀ i, (Call.mutate (e.calls i).1).writes id = none)
    (hi : Wins es ss id m i) (hj : Wins es ss id n j) : m = n ∧ i = j := by
  induction h generalizing m n with
  | nil =>
      obtain ⟨e, s, he, -⟩ := hi
      cases he
  | @cons doc e es s ss k rest hfront hnodup hack hanswered hrest ih =>
      have hwe := hw e List.mem_cons_self
      have hwes : ∀ e ∈ es, ∀ i, (Call.mutate (e.calls i).1).writes id = none :=
        fun e he => hw e (List.mem_cons_of_mem _ he)
      -- a winner in this epoch leaves nothing to win in a later one
      have hlater : ∀ m i j, Wins (e :: es) (s :: ss) id 0 i →
          ¬ Wins (e :: es) (s :: ss) id (m + 1) j := by
        rintro m i j ⟨e', s', he, hs, hcall, hphase⟩ hlate
        obtain rfl := Option.some.inj he
        obtain rfl := Option.some.inj hs
        exact hrest.not_wins
          (spent_of_kept hfront hnodup hack hanswered hsingle hwe hcall hphase) hwes hlate
      cases m with
      | zero =>
          cases n with
          | zero =>
              obtain ⟨e', s', he, hs, hcall, hphase⟩ := hi
              obtain rfl := Option.some.inj he
              obtain rfl := Option.some.inj hs
              obtain ⟨e', s', he, hs, hcall', hphase'⟩ := hj
              obtain rfl := Option.some.inj he
              obtain rfl := Option.some.inj hs
              obtain ⟨before, after, hlog, hwon⟩ := hanswered.wonAt hcall hphase
              obtain ⟨before', after', hlog', hwon'⟩ := hanswered.wonAt hcall' hphase'
              exact ⟨rfl, hwon.unique hwon' (hlog.symm.trans hlog') hsingle hwe⟩
          | succ n => exact absurd hj (hlater n i j hi)
      | succ m =>
          cases n with
          | zero => exact absurd hi (hlater m j i hj)
          | succ n =>
              obtain ⟨rfl, rfl⟩ := ih (hsingle.docAfter hwe) hwes hi hj
              exact ⟨rfl, rfl⟩

/-- **A single-use key is redeemed at most once, whatever the crashes.**  Over
all processes that open the path one after the other, at most one consume call
returns `true` for a key that serves once and is not written again. -/
theorem redeemed_once_across_crashes [Crates] (path : Path) (disk : Disk) (store : FileStore)
    (es : List (Epoch T)) (hopen : openStore Faults.none disk path = .ok store)
    (hok : OrderlyAll path disk es) (hsingle : SingleUse id store.memory)
    (hw : ∀ e ∈ es, ∀ i, (Call.mutate (e.calls i).1).writes id = none) (d : Disk)
    (hlive : live path disk es = .ok (some (ss, d))) :
    ∀ m n i j, Wins es ss id m i → Wins es ss id n j → m = n ∧ i = j := by
  intro m n i j hi hj
  obtain ⟨kept, h, -⟩ := outlives_of_live hopen hok hlive
  exact h.one_win hsingle hw hi hj

end Redeemed

/-! ### Two processes

The first one redeems a key and dies after the rename, the second one opens
the path and tries the key again. -/

section Example

def exampleKey : PreAuthKey :=
  ⟨⟨1⟩, ⟨1⟩, "00000000000b", "hash", false, false, false, none, []⟩

def exampleStore : FileStore :=
  ⟨⟨[], some "keys.json".toList⟩, .json, MemoryStore.upsertPreauthKey exampleKey MemoryStore.new,
    by decide⟩

def exampleCalls (_ : Unit) : Mutation × Instant := (.consumePreauthKey ⟨1⟩, 0)

theorem exists_two_processes :
    letI := Crates.flow
    letI := Chrono.unasked
    ∃ disk, ∃ es : List (Epoch Unit), ∃ ss d,
      openStore Faults.none disk exampleStore.path = .ok exampleStore ∧
      OrderlyAll exampleStore.path disk es ∧ (∀ e ∈ es, e.calls = exampleCalls) ∧
      live exampleStore.path disk es = .ok (some (ss, d)) ∧ Wins es ss ⟨1⟩ 0 () := by
  let _ := Crates.flow
  let _ := Chrono.unasked
  obtain ⟨bytes, hbytes⟩ : ∃ bytes, serialize .json exampleStore.memory = .ok bytes :=
    exists_serialize_iff.mpr fun h => by cases h
  let disk : Disk := fun _ => some bytes
  have hopen : openStore Faults.none disk exampleStore.path = .ok exampleStore :=
    openStore_serialized rfl rfl (deserialize_of_serialize hbytes)
  have hjson : ∀ m : StoreDocument, Format.json = .toml → m.FitsToml := fun _ h => by cases h
  -- the first process comes to the end of its flush
  obtain ⟨n, s, v, ⟨hrun, hok⟩, hphase⟩ : ∃ n s v,
      let xs := [Step.apply (), .snapshot (), .create (), .append () n, .rename ()]
      (Runs.exec (step exampleCalls id) (Shared.start exampleStore, Volume.ofDisk disk) xs =
          some (s, v) ∧
        Runs.Guarded (step exampleCalls id) Orderly
          (Shared.start exampleStore, Volume.ofDisk disk) xs) ∧
      s.phase () = .returned (.ok (.consumed true)) :=
    ⟨_, _, _, guarded_next trivial (.apply rfl) (guarded_next (hjson _) (.snapshot rfl rfl)
      (guarded_next (fun j hj => absurd rfl hj) (.create rfl) (guarded_next trivial (.append rfl)
      (guarded_next (fun j _ => show j ∈ [()] from List.mem_singleton_self _)
        (.rename rfl (Nat.zero_add _).ge rfl) ⟨rfl, trivial⟩)))), rfl⟩
  obtain ⟨e, he, hcommits, hlive⟩ := exists_epoch hopen hrun
  -- the second process only makes its change to the memory
  obtain ⟨kept, -, -, hreopen⟩ := reopens hopen hok hrun
  obtain ⟨s', hrun'⟩ : ∃ s', Runs.exec (step exampleCalls id)
      (Shared.start { exampleStore with memory := docAfter exampleCalls exampleStore.memory kept },
        Volume.ofDisk v.read) [.apply ()] = some (s', Volume.ofDisk v.read) :=
    ⟨_, exec_next (.apply rfl) rfl⟩
  obtain ⟨e', he', hcommits', hlive'⟩ := exists_epoch hreopen hrun'
  refine ⟨disk, [e, e'], [s, s'], _, hopen, ?_, ?_, live_cons hlive (live_cons hlive' rfl), ?_⟩
  · refine .cons hopen ?_ hlive (.cons hreopen ?_ hlive' trivial)
    · rw [he, hcommits]
      exact hok
    · rw [he', hcommits']
      exact ⟨trivial, fun _ _ => trivial⟩
  · simp [he, he']
  · exact ⟨e, s, rfl, rfl, by rw [he]; rfl, hphase⟩

/-- Both processes are durable. -/
theorem crashes_durable_two_processes :
    letI := Crates.flow
    letI := Chrono.unasked
    ∃ disk, ∃ es : List (Epoch Unit), ∃ ss d kept,
      live exampleStore.path disk es = .ok (some (ss, d)) ∧
      Outlives exampleStore.memory es ss kept ∧
      openStore Faults.none d exampleStore.path =
        .ok { exampleStore with memory := recovered exampleStore.memory es kept } := by
  let _ := Crates.flow
  let _ := Chrono.unasked
  obtain ⟨disk, es, ss, d, hopen, hok, -, hlive, -⟩ := exists_two_processes
  obtain ⟨r, hr, houtlives⟩ := crashes_durable exampleStore.path disk exampleStore es hopen hok
  obtain rfl := Except.ok.inj (hr.symm.trans hlive)
  obtain ⟨kept, h, hfinal⟩ := houtlives ss d rfl
  exact ⟨disk, es, ss, d, kept, hlive, h, hfinal⟩

/-- The key that the first process has redeemed is refused by the second. -/
theorem redeemed_once_two_processes :
    letI := Crates.flow
    letI := Chrono.unasked
    ∃ disk, ∃ es : List (Epoch Unit), ∃ ss d,
      live exampleStore.path disk es = .ok (some (ss, d)) ∧
      Wins es ss ⟨1⟩ 0 () ∧ ¬ Wins es ss ⟨1⟩ 1 () := by
  let _ := Crates.flow
  let _ := Chrono.unasked
  obtain ⟨disk, es, ss, d, hopen, hok, hcalls, hlive, hwin⟩ := exists_two_processes
  have hw : ∀ e ∈ es, ∀ i, (Call.mutate (e.calls i).1).writes ⟨1⟩ = none := by
    intro e he i
    rw [hcalls e he]
    rfl
  have hone := redeemed_once_across_crashes exampleStore.path disk exampleStore es hopen hok
    ⟨exampleKey, rfl, rfl⟩ hw d hlive
  exact ⟨disk, es, ss, d, hlive, hwin, fun h => absurd (hone 0 1 () () hwin h).1 (by decide)⟩

end Example

end Oxiscale

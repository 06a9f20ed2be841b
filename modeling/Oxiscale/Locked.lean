/-
Oxiscale/Locked.lean

Concurrent calls on a `FileStore`, with its lock turn by turn.

`Flush.lean` takes the change to the memory and the snapshot as one step
each.  In the source both are sections of the lock of the inner
`MemoryStore`: the change writes the document turn by turn and the snapshot
clones it field by field, while other calls are writing their files.
`locked` is the system with these turns; serialising reads nothing but the
clone, so it is counted to the end of the section.  The system refines `step`
in both directions (`locked_refines`), so that what is proved of the runs of
`step` holds of the source at this grain, and no call can be kept from
returning (`locked_returns`).
-/
import Oxiscale.Critical
import Oxiscale.Flush
import Oxiscale.Saved

namespace Oxiscale

open FileStore

deriving instance DecidableEq for Step

/-- The call that moves. -/
def Step.call {T : Type} : Step T → T
  | .apply i => i
  | .snapshot i => i
  | .create i => i
  | .append i _ => i
  | .rename i => i

/-- A move of a call, turn by turn. -/
abbrev Turn (T : Type) := Sections.Move (Step T)

/-- The calls on a store, some of them inside its lock. -/
abbrev Inside (T N : Type) :=
  Sections.Fine (Shared T N × Files N) (Step T) MemoryStore.Cursor

section Locked

variable {T N : Type} [DecidableEq T] [DecidableEq N] [Serde] [Chrono]
  (calls : T → Mutation × Instant) (name : T → N)

/-- The steps of the calls, those behind the lock as sections. -/
def locked :
    Sections.System (Shared T N × Files N) StoreDocument T (Step T) MemoryStore.Cursor where
  step := step calls name
  get a := a.1.store.memory
  set doc a := ({ a.1 with store := { a.1.store with memory := doc } }, a.2)
  who := Step.call
  kind
    | .apply _ => some .write
    | .snapshot _ => some .read
    | _ => none
  init a
    | .apply i =>
      match a.1.phase i with
      | .waiting => some (MemoryStore.enter (.mutate (calls i).1))
      | _ => none
    | .snapshot i =>
      match a.1.phase i with
      | .applied _ => some (.copy 0 MemoryStore.new)
      | _ => none
    | _ => none
  tick
    | .apply i, doc, k => MemoryStore.turn (.mutate (calls i).1, (calls i).2) doc k
    | .snapshot _, doc, k => (MemoryStore.copyTurn doc k).map fun k' => (doc, k')
    | _, _, _ => none
  commit
    | .apply i, .done reply, a =>
      ({ a.1.setPhase i (.afterApply reply) with log := a.1.log ++ [i] }, a.2)
    | .snapshot i, .copy _ copied, a =>
      match a.1.phase i with
      | .applied reply =>
        match serialize a.1.store.format copied with
        | .error e => (a.1.setPhase i (.returned (.error e)), a.2)
        | .ok bytes => (a.1.snap i reply bytes, a.2)
      | _ => a
    | _, _, a => a

variable {calls name} {a b : Shared T N × Files N} {x y : Step T}

/-- A call that does not move stays where it is. -/
theorem Next.phase_of_ne {i : T} (h : Next calls name a x b) (hne : x.call ≠ i) :
    b.1.phase i = a.1.phase i := by
  cases h <;> exact Function.update_of_ne (Ne.symm hne) _ _

theorem locked_lawful : (locked calls name).Lawful where
  get_set _ _ := rfl
  set_get _ := rfl
  set_set _ _ _ := rfl
  plain doc a x hkind := by
    obtain ⟨s, v⟩ := a
    -- the steps on the files do not look at the memory
    cases x with
    | apply i => cases hkind
    | snapshot i => cases hkind
    | create i =>
        simp only [locked, step]
        cases s.phase i <;> rfl
    | append i n =>
        simp only [locked, step]
        cases s.phase i <;> rfl
    | rename i =>
        simp only [locked, step]
        cases s.phase i with
        | writing reply bytes file done =>
            by_cases hdone : done < bytes.length
            · simp only [if_pos hdone]
              rfl
            · simp only [if_neg hdone]
              cases v.rename s.store.path.tmpPath s.store.path <;> rfl
        | _ => rfl
  init_set _ _ x := by cases x <;> rfl
  other a b x y hne h := by
    have hphase : b.1.phase y.call = a.1.phase y.call :=
      (step_eq_some_iff.mp h).phase_of_ne hne
    cases y with
    | apply i =>
        show (match b.1.phase i with | .waiting => _ | _ => none) = _
        rw [show b.1.phase i = a.1.phase i from hphase]
        rfl
    | snapshot i =>
        show (match b.1.phase i with | .applied _ => _ | _ => none) = _
        rw [show b.1.phase i = a.1.phase i from hphase]
        rfl
    | _ => rfl
  get_commit x k a := by
    cases x with
    | apply i => cases k <;> rfl
    | snapshot i =>
        cases k with
        | copy n copied =>
            simp only [locked]
            split
            · split <;> rfl
            · rfl
        | _ => rfl
    | _ => rfl
  read x doc k b hkind h := by
    cases x with
    | snapshot i =>
        obtain ⟨k', -, rfl⟩ := Option.map_eq_some_iff.mp h
        rfl
    | _ => cases hkind
  ready a x b hkind h := by
    cases step_eq_some_iff.mp h with
    | apply hi => simp [locked, hi]
    | refused hi _ => simp [locked, hi]
    | snapshot hi _ => simp [locked, hi]
    | _ => exact absurd rfl hkind
  runs a x k hkind hinit := by
    obtain ⟨s, v⟩ := a
    cases x with
    | apply i =>
        simp only [locked] at hinit
        split at hinit
        · rename_i hi
          obtain rfl := Option.some.inj hinit
          have hticks := MemoryStore.reaches_call s.store.memory (.mutate (calls i).1, (calls i).2)
          have hstep : step calls name (s, v) (.apply i) = some (s.apply calls i, v) :=
            step_eq_some_iff.mpr (.apply hi)
          exact ⟨_, _, hticks, MemoryStore.turn_done (x := (.mutate (calls i).1, (calls i).2)),
            hstep⟩
        · cases hinit
    | snapshot i =>
        simp only [locked] at hinit
        split at hinit
        · rename_i reply hi
          obtain rfl := Option.some.inj hinit
          refine ⟨_, _, MemoryStore.reaches_copy s.store.memory MemoryStore.new, rfl, ?_⟩
          rcases hser : serialize s.store.format s.store.memory with e | bytes <;>
            simp [step, locked, hi, hser]
        · cases hinit
    | _ => exact absurd rfl hkind

/-! ### Both directions -/

/-- An interleaving of the turns is one of the steps, in the order in which the
sections are left.  The two states differ in nothing but the memory, and only
while a writer is inside. -/
theorem exec_of_locked {store : FileStore} {v : Files N} {xs : List (Turn T)}
    {f : Inside T N}
    (hrun : Runs.exec (locked calls name).fine ⟨(Shared.start store, v), []⟩ xs = some f) :
    ∃ s, Runs.exec (step calls name) (Shared.start store, v) (xs.filterMap Sections.Move.commits) =
        some (s, f.state.2) ∧
      f.state.1 = { s with store := { s.store with memory := f.state.1.store.memory } } ∧
      ((∀ h ∈ f.holders, ∀ i, h.1 ≠ .apply i) → f.state.1 = s) := by
  obtain ⟨⟨s, w⟩, hs, hM⟩ := Sections.System.fine_refines locked_lawful
    (.start locked_lawful (Shared.start store, v)) hrun
  have hstate : f.state = ((locked calls name).set f.state.1.store.memory (s, w)) := hM.state
  obtain ⟨hfst, rfl⟩ := Prod.mk.inj (show (f.state.1, f.state.2) = _ from hstate)
  refine ⟨s, hs, hfst, fun hreaders => ?_⟩
  have hquiet : (locked calls name).Admits f.holders .read := by
    intro h hh
    rcases (hM.halfway h hh).kind with hkind | hkind
    · exact hkind
    · -- only a change to the memory writes behind the lock
      rcases hx : h.1 with i | i | i | ⟨i, n⟩ | i
      · exact absurd hx (hreaders h hh i)
      all_goals
        rw [hx] at hkind
        cases hkind
  rw [hM.eq_of_quiet locked_lawful hquiet]

/-- An interleaving of the steps is one of the turns. -/
theorem locked_of_exec {store : FileStore} {v : Files N} {l : List (Step T)}
    (hrun : Runs.exec (step calls name) (Shared.start store, v) l = some b) :
    ∃ xs, Runs.exec (locked calls name).fine ⟨(Shared.start store, v), []⟩ xs = some ⟨b, []⟩ ∧
      xs.filterMap Sections.Move.commits = l := by
  obtain ⟨xs, hxs, hcommits, -⟩ := Sections.System.fine_of_exec locked_lawful hrun
  exact ⟨xs, hxs, hcommits⟩

/-- **The lock makes the steps of `step` atomic.**  Every interleaving of the
turns is an interleaving of the steps in the order in which the sections are
left, with the same phases, log and files, and the same memory while no
writer is inside; and every interleaving of the steps is one of the turns. -/
theorem locked_refines (calls : T → Mutation × Instant) (name : T → N) (store : FileStore)
    (v : Files N) :
    (∀ xs f, Runs.exec (locked calls name).fine ⟨(Shared.start store, v), []⟩ xs = some f →
      ∃ s, Runs.exec (step calls name) (Shared.start store, v)
          (xs.filterMap Sections.Move.commits) = some (s, f.state.2) ∧
        f.state.1 = { s with store := { s.store with memory := f.state.1.store.memory } } ∧
        ((∀ h ∈ f.holders, ∀ i, h.1 ≠ .apply i) → f.state.1 = s)) ∧
    ∀ l b, Runs.exec (step calls name) (Shared.start store, v) l = some b →
      ∃ xs, Runs.exec (locked calls name).fine ⟨(Shared.start store, v), []⟩ xs = some ⟨b, []⟩ ∧
        xs.filterMap Sections.Move.commits = l :=
  ⟨fun _ _ hrun => exec_of_locked hrun, fun _ _ hrun => locked_of_exec hrun⟩

/-! ### Every call can return -/

variable (calls name) in
/-- The call can come to its end by steps of its own. -/
def Finishes (i : T) (a : Shared T N × Files N) : Prop := ∃ l b result,
  Runs.exec (step calls name) a l = some b ∧ b.1.phase i = .returned result ∧ ∀ x ∈ l, x.call = i

variable {i : T} {s : Shared T N} {v : Files N} {reply : Reply} {bytes : Bytes}
  {file : Volume.Inode Path N} {done : ℕ}

theorem Finishes.returned {result : Except StoreError Reply} (h : a.1.phase i = .returned result) :
    Finishes calls name i a :=
  ⟨[], a, result, rfl, h, by simp⟩

/-- One move of its own before it finishes. -/
theorem Finishes.next (hnext : Next calls name a x b) (hx : x.call = i)
    (h : Finishes calls name i b) : Finishes calls name i a := by
  obtain ⟨l, c, result, hrun, hc, hl⟩ := h
  exact ⟨x :: l, c, result, exec_next hnext hrun, hc, by simpa [hx] using hl⟩

theorem Finishes.written (hi : s.phase i = .writing reply bytes file done)
    (hdone : bytes.length ≤ done) : Finishes calls name i (s, v) := by
  rcases hv : v.rename s.store.path.tmpPath s.store.path with - | w
  · exact .next (.gone hi hdone hv) rfl (.returned (Shared.setPhase_self _ _ _))
  · exact .next (.rename hi hdone hv) rfl (.returned (Shared.setPhase_self _ _ _))

/-- The rest is written at once. -/
theorem Finishes.writing (hi : s.phase i = .writing reply bytes file done) :
    Finishes calls name i (s, v) :=
  .next (.append (n := bytes.length) hi) rfl
    (.written (Shared.setPhase_self _ _ _) (Nat.le_add_left _ _))

theorem Finishes.snapped (hi : s.phase i = .snapped reply bytes) : Finishes calls name i (s, v) :=
  .next (.create hi) rfl (.writing (Shared.setPhase_self _ _ _))

theorem Finishes.applied (hi : s.phase i = .applied reply) : Finishes calls name i (s, v) := by
  rcases hser : serialize s.store.format s.store.memory with e | bytes
  · exact .next (.refused hi hser) rfl (.returned (Shared.setPhase_self _ _ _))
  · exact .next (.snapshot hi hser) rfl (.snapped (Function.update_self _ _ _))

/-- From wherever it is, a call can take its remaining steps. -/
theorem finishes (i : T) (a : Shared T N × Files N) : Finishes calls name i a := by
  obtain ⟨s, v⟩ := a
  cases hi : s.phase i with
  | waiting =>
      have hself : (s.apply calls i).phase i =
          .afterApply (MemoryStore.mutate (calls i).2 s.store.memory (calls i).1).1 :=
        Function.update_self _ _ _
      refine .next (.apply hi) rfl ?_
      rw [Phase.afterApply] at hself
      split at hself
      · exact .applied hself
      · exact .returned hself
  | applied reply => exact .applied hi
  | snapped reply bytes => exact .snapped hi
  | writing reply bytes file done => exact .writing hi
  | returned result => exact .returned hi

/-- **No call is kept from returning.**  Whatever has happened so far, a call
returns after moves of its own and of the calls that are inside the lock. -/
theorem locked_returns (store : FileStore) (v : Files N) (xs : List (Turn T))
    (f : Inside T N)
    (hrun : Runs.exec (locked calls name).fine ⟨(Shared.start store, v), []⟩ xs = some f) (i : T) :
    ∃ more g result, Runs.exec (locked calls name).fine f more = some g ∧ g.holders = [] ∧
      g.state.1.phase i = .returned result ∧
      ∀ m ∈ more, m.label.call = i ∨ ∃ x ∈ f.holders.map Prod.fst, m.within = some x := by
  obtain ⟨b, -, hM⟩ := Sections.System.fine_refines locked_lawful
    (.start locked_lawful (Shared.start store, v)) hrun
  obtain ⟨ys, a, hys, hwithin⟩ := Sections.System.drain locked_lawful hM
  obtain ⟨l, c, result, hl, hc, hown⟩ : Finishes calls name i a := finishes i a
  obtain ⟨zs, hzs, -, hlabel⟩ := Sections.System.fine_of_exec locked_lawful hl
  refine ⟨ys ++ zs, ⟨c, []⟩, result, Runs.exec_append hys hzs, rfl, hc, ?_⟩
  intro m hm
  rcases List.mem_append.mp hm with hm | hm
  · exact Or.inr (hwithin m hm)
  · exact Or.inl (hown _ (hlabel m hm))

end Locked

/-- One call is in the middle of its change to the memory, and the other one
waits for the lock. -/
theorem locked_returns_waiting :
    letI := Crates.flow
    letI := Chrono.unasked
    let calls : Bool → Mutation × Instant
      | false => (.upsertUser ⟨⟨1⟩, ⟨1⟩, "ada", ""⟩, 0)
      | true => (.setPolicy ⟨1⟩ "accept", 0)
    let store : FileStore := ⟨⟨[], some "net.json".toList⟩, .json, MemoryStore.new, by decide⟩
    ∃ f more g result, Runs.exec (locked calls id).fine
        ⟨(Shared.start store, Volume.ofDisk fun _ => none), []⟩
        [.enter (.apply false), .tick (.apply false)] = some f ∧
      (locked calls id).fine f (.enter (.apply true)) = none ∧
      Runs.exec (locked calls id).fine f more = some g ∧
      g.state.1.phase true = .returned result ∧
      ∀ m ∈ more, m.label.call = true ∨ m.within = some (.apply false) := by
  let _ := Crates.flow
  let _ := Chrono.unasked
  intro calls store
  let start : Shared Bool Bool × Files Bool := (Shared.start store, Volume.ofDisk fun _ => none)
  obtain ⟨f, hrun, hholders, hnone⟩ : ∃ f, Runs.exec (locked calls id).fine ⟨start, []⟩
      [.enter (.apply false), .tick (.apply false)] = some f ∧
      f.holders.map Prod.fst = [.apply false] ∧
      (locked calls id).fine f (.enter (.apply true)) = none := ⟨_, rfl, rfl, rfl⟩
  obtain ⟨more, g, result, hmore, -, hg, hown⟩ := locked_returns store start.2 _ f hrun true
  refine ⟨f, more, g, result, hrun, hnone, hmore, hg, fun m hm => ?_⟩
  rcases hown m hm with h | ⟨x, hx, h⟩
  · exact Or.inl h
  · rw [hholders, List.mem_singleton] at hx
    exact Or.inr (hx ▸ h)

end Oxiscale

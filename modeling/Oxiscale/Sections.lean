/-
Oxiscale/Sections.lean

Critical sections under a readers-writer lock.

A `System` is a step system, a part of whose state stands behind a lock.  Some
of its labels are *sections*: what they do to that part is really done in
many small ticks, with the lock held for reading or for writing and other
threads ticking in between.  `fine` is the system with these ticks: a thread
enters a section, ticks, and leaves it, and the lock admits any number of
readers or one writer.

`Lawful` says what a section must promise: its ticks, made one after another,
end in what the step of its label does.  Then the lock makes each section
atomic at the moment it is left:

* `fine_refines`: every run of the fine system is matched by the run of the
  labels in the order of the leaves;
* `drain`: the sections that are open can always be finished;
* `fine_of_exec`: every run of the step system is one of the fine system.

`Matches` relates the two while sections are open.  A writer has already
changed the state where its step has not been taken yet, so the two agree only
up to the value behind the lock.
-/
import Mathlib.Logic.Relation
import Oxiscale.Keyed
import Oxiscale.Runs

namespace Sections

/-- How a section holds the lock. -/
inductive Kind
  | read
  | write
  deriving DecidableEq

/-- A step system with a value behind a lock.  A label of some kind is a
section: it starts at a cursor, ticks, and commits what the cursor has
found. -/
structure System (τ σ ι ℓ κ : Type*) where
  step : τ → ℓ → Option τ
  get : τ → σ
  set : σ → τ → τ
  who : ℓ → ι
  kind : ℓ → Option Kind
  init : τ → ℓ → Option κ
  tick : ℓ → σ → κ → Option (σ × κ)
  commit : ℓ → κ → τ → τ

/-- A move of the fine system. -/
inductive Move (ℓ : Type*)
  | plain (x : ℓ)
  | enter (x : ℓ)
  | tick (x : ℓ)
  | leave (x : ℓ)

/-- The label a move makes happen. -/
def Move.commits {ℓ : Type*} : Move ℓ → Option ℓ
  | .plain x => some x
  | .leave x => some x
  | _ => none

/-- The label a move is about. -/
def Move.label {ℓ : Type*} : Move ℓ → ℓ
  | .plain x => x
  | .enter x => x
  | .tick x => x
  | .leave x => x

/-- The label whose section goes on or ends in a move. -/
def Move.within {ℓ : Type*} : Move ℓ → Option ℓ
  | .tick x => some x
  | .leave x => some x
  | _ => none

/-- A state with the sections that are open, each at its cursor. -/
structure Fine (τ ℓ κ : Type*) where
  state : τ
  holders : List (ℓ × κ)

namespace System

variable {τ σ ι ℓ κ : Type*} (S : System τ σ ι ℓ κ)

/-- One tick of a section. -/
def Tick (x : ℓ) (a b : σ × κ) : Prop := S.tick x a.1 a.2 = some b

/-- Any number of ticks of a section. -/
def Ticks (x : ℓ) : σ × κ → σ × κ → Prop := Relation.ReflTransGen (S.Tick x)

/-- The thread has no section open. -/
def Outside (i : ι) (holders : List (ℓ × κ)) : Prop := ∀ h ∈ holders, S.who h.1 ≠ i

/-- A reader waits for the writer, a writer for everyone. -/
def Admits (holders : List (ℓ × κ)) : Kind → Prop
  | .read => ∀ h ∈ holders, S.kind h.1 = some .read
  | .write => holders = []

instance [DecidableEq ι] (i : ι) (holders : List (ℓ × κ)) : Decidable (S.Outside i holders) :=
  inferInstanceAs (Decidable (∀ h ∈ holders, S.who h.1 ≠ i))

instance (holders : List (ℓ × κ)) (kd : Kind) : Decidable (S.Admits holders kd) :=
  match kd with
  | .read => inferInstanceAs (Decidable (∀ h ∈ holders, S.kind h.1 = some .read))
  | .write => decidable_of_iff (holders.isEmpty = true) List.isEmpty_iff

section Fine

variable [DecidableEq ι] [DecidableEq ℓ]

/-- One move.  It is `none` where the thread is not at that point of its
section, or the lock does not admit it. -/
def fine : Fine τ ℓ κ → Move ℓ → Option (Fine τ ℓ κ)
  | ⟨s, holders⟩, .plain x =>
    if S.kind x = none ∧ S.Outside (S.who x) holders then
      (S.step s x).map fun t => ⟨t, holders⟩
    else none
  | ⟨s, holders⟩, .enter x =>
    match S.kind x, S.init s x with
    | some kd, some k =>
      if S.Admits holders kd ∧ S.Outside (S.who x) holders then
        some ⟨s, holders ++ [(x, k)]⟩
      else none
    | _, _ => none
  | ⟨s, holders⟩, .tick x =>
    match Keyed.get Prod.fst x holders with
    | none => none
    | some (_, k) =>
      (S.tick x (S.get s) k).map fun (v, k') =>
        ⟨S.set v s, Keyed.modify Prod.fst x (fun _ => (x, k')) holders⟩
  | ⟨s, holders⟩, .leave x =>
    match Keyed.get Prod.fst x holders with
    | none => none
    | some (_, k) =>
      if (S.tick x (S.get s) k).isSome then none
      else some ⟨S.commit x k s, Keyed.erase Prod.fst x holders⟩

/-- Everything a move can do. -/
inductive Next : Fine τ ℓ κ → Move ℓ → Fine τ ℓ κ → Prop
  | plain {s holders x t} (hkind : S.kind x = none) (hout : S.Outside (S.who x) holders)
      (hstep : S.step s x = some t) : Next ⟨s, holders⟩ (.plain x) ⟨t, holders⟩
  | enter {s holders x kd k} (hkind : S.kind x = some kd) (hinit : S.init s x = some k)
      (hadmits : S.Admits holders kd) (hout : S.Outside (S.who x) holders) :
      Next ⟨s, holders⟩ (.enter x) ⟨s, holders ++ [(x, k)]⟩
  | tick {s holders x k v k'} (hget : Keyed.get Prod.fst x holders = some (x, k))
      (htick : S.tick x (S.get s) k = some (v, k')) :
      Next ⟨s, holders⟩ (.tick x)
        ⟨S.set v s, Keyed.modify Prod.fst x (fun _ => (x, k')) holders⟩
  | leave {s holders x k} (hget : Keyed.get Prod.fst x holders = some (x, k))
      (htick : S.tick x (S.get s) k = none) :
      Next ⟨s, holders⟩ (.leave x) ⟨S.commit x k s, Keyed.erase Prod.fst x holders⟩

variable {S} {f g : Fine τ ℓ κ} {m : Move ℓ}

/-- **Step.**  The moves of the model are those of the relation. -/
theorem fine_eq_some_iff : S.fine f m = some g ↔ S.Next f m g := by
  obtain ⟨s, holders⟩ := f
  constructor
  · intro h
    cases m with
    | plain x =>
        simp only [fine] at h
        split at h
        · rename_i hx
          obtain ⟨t, ht, rfl⟩ := Option.map_eq_some_iff.mp h
          exact .plain hx.1 hx.2 ht
        · cases h
    | enter x =>
        simp only [fine] at h
        split at h
        · rename_i hkind hinit
          split at h
          · rename_i hx
            exact Option.some.inj h ▸ .enter hkind hinit hx.1 hx.2
          · cases h
        · cases h
    | tick x =>
        rcases hget : Keyed.get Prod.fst x holders with - | ⟨y, k⟩
        · simp [fine, hget] at h
        · obtain rfl : y = x := Keyed.key_of_get hget
          simp only [fine, hget] at h
          obtain ⟨⟨v, k'⟩, htick, rfl⟩ := Option.map_eq_some_iff.mp h
          exact .tick hget htick
    | leave x =>
        rcases hget : Keyed.get Prod.fst x holders with - | ⟨y, k⟩
        · simp [fine, hget] at h
        · obtain rfl : y = x := Keyed.key_of_get hget
          rcases htick : S.tick y (S.get s) k with - | b
          · simp only [fine, hget, htick] at h
            exact Option.some.inj h ▸ .leave hget htick
          · simp [fine, hget, htick] at h
  · rintro (⟨hkind, hout, hstep⟩ | ⟨hkind, hinit, hadmits, hout⟩ | ⟨hget, htick⟩ | ⟨hget, htick⟩)
    · simp [fine, hkind, hout, hstep]
    · simp [fine, hkind, hinit, hadmits, hout]
    · simp [fine, hget, htick]
    · simp [fine, hget, htick]

end Fine

/-! ### What a section promises -/

/-- The value behind the lock is a field of the state, a plain label neither
reads nor writes it, a reader leaves it as it is, and the ticks of a section
end in what the step of its label does. -/
structure Lawful : Prop where
  get_set : ∀ v s, S.get (S.set v s) = v
  set_get : ∀ s, S.set (S.get s) s = s
  set_set : ∀ v w s, S.set v (S.set w s) = S.set v s
  plain : ∀ v s x, S.kind x = none → S.step (S.set v s) x = (S.step s x).map (S.set v)
  init_set : ∀ v s x, S.init (S.set v s) x = S.init s x
  other : ∀ s t x y, S.who x ≠ S.who y → S.step s x = some t → S.init t y = S.init s y
  get_commit : ∀ x k s, S.get (S.commit x k s) = S.get s
  read : ∀ x v k b, S.kind x = some .read → S.tick x v k = some b → b.1 = v
  ready : ∀ s x t, S.kind x ≠ none → S.step s x = some t → (S.init s x).isSome
  runs : ∀ s x k, S.kind x ≠ none → S.init s x = some k → ∃ v k', S.Ticks x (S.get s, k) (v, k') ∧
    S.tick x v k' = none ∧ S.step s x = some (S.commit x k' (S.set v s))

variable {S} {x : ℓ} {a b c : σ × κ}

/-- A turn has one outcome at most. -/
theorem rightUnique_tick : Relator.RightUnique (S.Tick x) :=
  fun _ _ _ h h' => Option.some.inj (h.symm.trans h')

/-- A section that has stopped stays where it is. -/
theorem Ticks.stopped (h : S.Ticks x a b) (ha : S.tick x a.1 a.2 = none) : b = a := by
  rcases Relation.ReflTransGen.cases_head h with rfl | ⟨c, hac, -⟩
  · rfl
  · exact absurd (ha.symm.trans hac) (by simp)

/-- From wherever a section is, it goes on to the place where it stops. -/
theorem Ticks.toward (hab : S.Ticks x a b) (hac : S.Ticks x a c)
    (hc : S.tick x c.1 c.2 = none) : S.Ticks x b c := by
  rcases Relation.ReflTransGen.total_of_right_unique rightUnique_tick hab hac with h | h
  · exact h
  · rw [Ticks.stopped h hc]
    exact .refl

/-! ### The relation between the two systems -/

variable (S) in
/-- The section has begun in the state `s`, and its ticks have led to this
value and this cursor. -/
def Halfway (s : τ) (x : ℓ) (v : σ) (k : κ) : Prop :=
  S.kind x ≠ none ∧ ∃ k₀, S.init s x = some k₀ ∧ S.Ticks x (S.get s, k₀) (v, k)

variable (S) in
/-- The state of the step system is the one of the fine system without what an
open writer has done so far. -/
structure Matches (f : Fine τ ℓ κ) (s : τ) : Prop where
  state : f.state = S.set (S.get f.state) s
  nodup : (f.holders.map fun h => S.who h.1).Nodup
  halfway : ∀ h ∈ f.holders, S.Halfway s h.1 (S.get f.state) h.2
  quiet : S.Admits f.holders .read → S.get f.state = S.get s
  alone : ∀ h ∈ f.holders, S.kind h.1 = some .write → f.holders = [h]

theorem Matches.start (hS : S.Lawful) (s : τ) : S.Matches ⟨s, []⟩ s where
  state := (hS.set_get s).symm
  nodup := List.nodup_nil
  halfway _ hh := absurd hh List.not_mem_nil
  quiet _ := rfl
  alone _ hh := absurd hh List.not_mem_nil

/-- With nobody writing the two states are the same. -/
theorem Matches.eq_of_quiet (hS : S.Lawful) {f : Fine τ ℓ κ} {s : τ} (h : S.Matches f s)
    (hquiet : S.Admits f.holders .read) : f.state = s := by
  rw [h.state, h.quiet hquiet, hS.set_get]

variable {f : Fine τ ℓ κ} {s t : τ} {v v' : σ} {k k' : κ} {holders : List (ℓ × κ)} {y : ℓ}

/-- A section is where it was after a step of another thread that leaves the
value behind the lock. -/
theorem Halfway.frame (hS : S.Lawful) (h : S.Halfway s y v k) (hne : S.who x ≠ S.who y)
    (hstep : S.step s x = some t) (hget : S.get t = S.get s) : S.Halfway t y v k := by
  obtain ⟨hkind, k₀, hinit, hticks⟩ := h
  exact ⟨hkind, k₀, (hS.other s t x y hne hstep).trans hinit, hget ▸ hticks⟩

theorem Halfway.tick (h : S.Halfway s x v k) (htick : S.tick x v k = some (v', k')) :
    S.Halfway s x v' k' := by
  obtain ⟨hkind, k₀, hinit, hticks⟩ := h
  exact ⟨hkind, k₀, hinit, hticks.tail htick⟩

/-- A section that has stopped has done what the step of its label does. -/
theorem Halfway.step (hS : S.Lawful) (h : S.Halfway s x v k) (htick : S.tick x v k = none) :
    S.step s x = some (S.commit x k (S.set v s)) := by
  obtain ⟨hkind, k₀, hinit, hticks⟩ := h
  obtain ⟨w, k', hruns, hstop, hstep⟩ := hS.runs s x k₀ hkind hinit
  have hsame : (w, k') = (v, k) := Ticks.stopped (hticks.toward hruns hstop) htick
  obtain ⟨rfl, rfl⟩ := Prod.mk.inj hsame
  exact hstep

/-- A section can go on until it stops. -/
theorem Halfway.stops (hS : S.Lawful) (h : S.Halfway s x v k) :
    ∃ v' k', S.Ticks x (v, k) (v', k') ∧ S.tick x v' k' = none := by
  obtain ⟨hkind, k₀, hinit, hticks⟩ := h
  obtain ⟨w, k', hruns, hstop, -⟩ := hS.runs s x k₀ hkind hinit
  exact ⟨w, k', hticks.toward hruns hstop, hstop⟩

/-- A section has some kind; one that is not a reader is a writer. -/
theorem Halfway.kind (h : S.Halfway s x v k) : S.kind x = some .read ∨ S.kind x = some .write := by
  rcases hkind : S.kind x with - | - | -
  · exact absurd hkind h.1
  · exact Or.inl rfl
  · exact Or.inr rfl

/-- A move without a section leaves the memory alone. -/
theorem get_step (hS : S.Lawful) (hkind : S.kind x = none) (hstep : S.step s x = some t) :
    S.get t = S.get s := by
  have h := hS.plain (S.get s) s x hkind
  rw [hS.set_get, hstep, Option.map_some, Option.some.injEq] at h
  rw [h, hS.get_set]

/-! ### One move -/

/-- A thread outside every section takes a plain step, whatever an open writer
has done so far. -/
theorem Matches.plain (hS : S.Lawful) (hM : S.Matches f s) (hkind : S.kind x = none)
    (hout : S.Outside (S.who x) f.holders) (hstep : S.step f.state x = some t) :
    ∃ u, S.step s x = some u ∧ S.Matches ⟨t, f.holders⟩ u := by
  rw [hM.state, hS.plain _ _ _ hkind] at hstep
  obtain ⟨u, hu, rfl⟩ := Option.map_eq_some_iff.mp hstep
  have hget : S.get u = S.get s := get_step hS hkind hu
  have hvalue : S.get (S.set (S.get f.state) u) = S.get f.state := hS.get_set _ _
  refine ⟨u, hu, ?_, hM.nodup, ?_, ?_, hM.alone⟩
  · show S.set (S.get f.state) u = S.set (S.get (S.set (S.get f.state) u)) u
    rw [hvalue]
  · intro h hh
    show S.Halfway u h.1 (S.get (S.set (S.get f.state) u)) h.2
    rw [hvalue]
    exact (hM.halfway h hh).frame hS (Ne.symm (hout h hh)) hu hget
  · intro hquiet
    show S.get (S.set (S.get f.state) u) = S.get u
    rw [hvalue, hget]
    exact hM.quiet hquiet

/-- A section is entered only where no writer is open, so it begins in the
state of the step system. -/
theorem Matches.enter (hS : S.Lawful) (hM : S.Matches f s) {kd : Kind} (hkind : S.kind x = some kd)
    (hinit : S.init f.state x = some k) (hadmits : S.Admits f.holders kd)
    (hout : S.Outside (S.who x) f.holders) : S.Matches ⟨f.state, f.holders ++ [(x, k)]⟩ s := by
  have hquiet : S.Admits f.holders .read := by
    cases kd with
    | read => exact hadmits
    | write =>
        have hnil : f.holders = [] := hadmits
        rw [hnil]
        exact fun h hh => absurd hh List.not_mem_nil
  have hstate : f.state = s := hM.eq_of_quiet hS hquiet
  refine ⟨hM.state, ?_, ?_, fun _ => hM.quiet hquiet, ?_⟩
  · show ((f.holders ++ [(x, k)]).map fun h => S.who h.1).Nodup
    rw [List.map_append]
    refine hM.nodup.append (List.nodup_singleton _) ?_
    intro i hi hi'
    obtain ⟨h, hh, rfl⟩ := List.mem_map.mp hi
    exact hout h hh (List.mem_singleton.mp hi')
  · intro h hh
    rcases List.mem_append.mp hh with hh | hh
    · exact hM.halfway h hh
    · obtain rfl := List.mem_singleton.mp hh
      refine ⟨by rw [hkind]; simp, k, hstate ▸ hinit, ?_⟩
      show S.Ticks x (S.get s, k) (S.get f.state, k)
      rw [hstate]
      exact .refl
  · intro h hh hw
    rcases List.mem_append.mp hh with hh' | hh'
    · exact absurd (hw.symm.trans (hquiet h hh')) (by simp)
    · obtain rfl := List.mem_singleton.mp hh'
      obtain rfl : kd = .write := Option.some.inj (hkind.symm.trans hw)
      have hnil : f.holders = [] := hadmits
      show f.holders ++ _ = _
      rw [hnil, List.nil_append]

section Fine

variable [DecidableEq ι] [DecidableEq ℓ]

omit [DecidableEq ι] in
/-- A turn changes the cursor of its own section only. -/
theorem Matches.mem_modify {h : ℓ × κ} (hM : S.Matches ⟨s, holders⟩ t)
    (hget : Keyed.get Prod.fst x holders = some (x, k))
    (hh : h ∈ Keyed.modify Prod.fst x (fun _ => (x, k')) holders) :
    h = (x, k') ∨ (h ∈ holders ∧ S.who h.1 ≠ S.who x) := by
  obtain ⟨l₁, l₂, rfl, hmod⟩ := Keyed.exists_modify_eq (f := fun _ => (x, k')) hget
  rw [hmod] at hh
  have hnodup := hM.nodup
  simp only [List.map_append, List.map_cons, List.nodup_append, List.nodup_cons] at hnodup
  obtain ⟨-, ⟨hx₂, -⟩, hx₁⟩ := hnodup
  rcases List.mem_append.mp hh with hh | hh
  · exact Or.inr ⟨List.mem_append_left _ hh,
      hx₁ _ (List.mem_map_of_mem hh) _ List.mem_cons_self⟩
  · rcases List.mem_cons.mp hh with rfl | hh
    · exact Or.inl rfl
    · refine Or.inr ⟨List.mem_append_right _ (List.mem_cons_of_mem _ hh), fun hwho => hx₂ ?_⟩
      rw [← hwho]
      exact List.mem_map_of_mem hh

omit [DecidableEq ι] in
theorem Matches.who_modify (hget : Keyed.get Prod.fst x holders = some (x, k)) :
    (Keyed.modify Prod.fst x (fun _ => (x, k')) holders).map (fun h => S.who h.1) =
      holders.map fun h => S.who h.1 := by
  obtain ⟨l₁, l₂, rfl, hmod⟩ := Keyed.exists_modify_eq (f := fun _ => (x, k')) hget
  rw [hmod]
  simp

omit [DecidableEq ι] in
/-- A tick of a reader changes its cursor, a tick of a writer the value behind
the lock as well; the step system does not move. -/
theorem Matches.tick (hS : S.Lawful) (hM : S.Matches ⟨s, holders⟩ t)
    (hget : Keyed.get Prod.fst x holders = some (x, k))
    (htick : S.tick x (S.get s) k = some (v, k')) :
    S.Matches ⟨S.set v s, Keyed.modify Prod.fst x (fun _ => (x, k')) holders⟩ t := by
  have hmem : (x, k) ∈ holders := Keyed.mem_of_get hget
  have hhalf : S.Halfway t x v k' := (hM.halfway _ hmem).tick htick
  have hstate : S.set v s = S.set v t := by
    have h : s = S.set (S.get s) t := hM.state
    rw [h, hS.set_set]
  have hvalue : S.get (S.set v s) = v := hS.get_set v s
  have hnodup : ((Keyed.modify Prod.fst x (fun _ => (x, k')) holders).map
      fun h => S.who h.1).Nodup := by
    rw [Matches.who_modify hget]
    exact hM.nodup
  have hset : S.set v s = S.set (S.get (S.set v s)) t := by
    rw [hvalue]
    exact hstate
  rcases (hM.halfway _ hmem).kind with hkind | hkind
  · -- a reader has left the value, so every section is where it was
    obtain rfl : v = S.get s := hS.read x _ _ _ hkind htick
    refine ⟨hset, hnodup, ?_, ?_, ?_⟩
    · intro h hh
      show S.Halfway t h.1 (S.get (S.set (S.get s) s)) h.2
      rw [hvalue]
      rcases hM.mem_modify hget hh with rfl | ⟨hh, -⟩
      · exact hhalf
      · exact hM.halfway h hh
    · intro hquiet
      show S.get (S.set (S.get s) s) = S.get t
      rw [hvalue]
      refine hM.quiet fun h hh => ?_
      obtain ⟨l₁, l₂, rfl, hmod⟩ := Keyed.exists_modify_eq (f := fun _ => (x, k')) hget
      rcases List.mem_append.mp hh with hh | hh
      · refine hquiet h ?_
        show h ∈ Keyed.modify _ _ _ _
        rw [hmod]
        exact List.mem_append_left _ hh
      · rcases List.mem_cons.mp hh with rfl | hh
        · exact hkind
        · refine hquiet h ?_
          show h ∈ Keyed.modify _ _ _ _
          rw [hmod]
          exact List.mem_append_right _ (List.mem_cons_of_mem _ hh)
    · intro h hh hw
      rcases hM.mem_modify hget hh with rfl | ⟨hh', -⟩
      · exact absurd (hw.symm.trans hkind) (by simp)
      · have hone := hM.alone h hh' hw
        rw [show holders = [h] from hone, List.mem_singleton] at hmem
        exact absurd (hw.symm.trans (hmem ▸ hkind)) (by simp)
  · -- a writer is the only section
    have hone : holders = [(x, k)] := hM.alone _ hmem hkind
    subst hone
    have hmod : Keyed.modify Prod.fst x (fun _ => (x, k')) [(x, k)] = [(x, k')] := by
      rw [Keyed.modify_cons, if_pos rfl]
    rw [hmod] at hnodup ⊢
    refine ⟨hset, hnodup, ?_, ?_, ?_⟩
    · intro h hh
      obtain rfl := List.mem_singleton.mp hh
      show S.Halfway t x (S.get (S.set v s)) k'
      rw [hvalue]
      exact hhalf
    · intro hquiet
      exact absurd (hkind.symm.trans (hquiet (x, k') List.mem_cons_self)) (by simp)
    · intro h hh _
      obtain rfl := List.mem_singleton.mp hh
      rfl

omit [DecidableEq ι] in
/-- A section that is left has done what the step of its label does, and that
step is taken now. -/
theorem Matches.leave (hS : S.Lawful) (hM : S.Matches ⟨s, holders⟩ t)
    (hget : Keyed.get Prod.fst x holders = some (x, k)) (htick : S.tick x (S.get s) k = none) :
    ∃ u, S.step t x = some u ∧
      S.Matches ⟨S.commit x k s, Keyed.erase Prod.fst x holders⟩ u := by
  have hmem : (x, k) ∈ holders := Keyed.mem_of_get hget
  have hstate : S.set (S.get s) t = s := hM.state.symm
  have hstep : S.step t x = some (S.commit x k s) := by
    rw [(hM.halfway _ hmem).step hS htick, show S.set (S.get s) t = s from hstate]
  have hvalue : S.get (S.commit x k s) = S.get s := hS.get_commit x k s
  have hother : ∀ h ∈ Keyed.erase Prod.fst x holders, h ∈ holders ∧ S.who x ≠ S.who h.1 := by
    intro h hh
    obtain ⟨hh', hne⟩ := List.mem_filter.mp hh
    refine ⟨hh', fun hwho => ?_⟩
    have hsame : (x, k) = h := List.inj_on_of_nodup_map hM.nodup hmem hh' hwho
    simp [← hsame] at hne
  refine ⟨_, hstep, (hS.set_get _).symm, ?_, ?_, fun _ => rfl, ?_⟩
  · exact hM.nodup.sublist (List.filter_sublist.map _)
  · intro h hh
    obtain ⟨hh', hne⟩ := hother h hh
    -- no writer is left: a writer would have been the only section
    have hget' : S.get s = S.get t := by
      refine hM.quiet fun r hr => ?_
      rcases (hM.halfway r hr).kind with hkind | hkind
      · exact hkind
      · have hone : holders = [r] := hM.alone r hr hkind
        rw [hone, List.mem_singleton] at hmem hh'
        exact absurd (by rw [hh', ← hmem]) hne
    show S.Halfway (S.commit x k s) h.1 (S.get (S.commit x k s)) h.2
    rw [hvalue]
    exact (hM.halfway h hh').frame hS hne hstep (hvalue.trans hget')
  · intro h hh hw
    obtain ⟨hh', hne⟩ := hother h hh
    have hone : holders = [h] := hM.alone h hh' hw
    rw [hone, List.mem_singleton] at hmem
    exact absurd (by rw [← hmem]) hne

/-- **Step.**  A move that commits a label is matched by its step, any other
move by none. -/
theorem Matches.fine (hS : S.Lawful) {f g : Fine τ ℓ κ} {m : Move ℓ} (hM : S.Matches f s)
    (h : S.fine f m = some g) :
    ∃ t, Runs.exec S.step s m.commits.toList = some t ∧ S.Matches g t := by
  cases fine_eq_some_iff.mp h with
  | plain hkind hout hstep =>
      obtain ⟨u, hu, hMu⟩ := hM.plain hS hkind hout hstep
      exact ⟨u, Runs.exec_cons_some.mpr ⟨u, hu, rfl⟩, hMu⟩
  | enter hkind hinit hadmits hout => exact ⟨s, rfl, hM.enter hS hkind hinit hadmits hout⟩
  | tick hget htick => exact ⟨s, rfl, hM.tick hS hget htick⟩
  | leave hget htick =>
      obtain ⟨u, hu, hMu⟩ := hM.leave hS hget htick
      exact ⟨u, Runs.exec_cons_some.mpr ⟨u, hu, rfl⟩, hMu⟩

/-! ### Runs -/

variable {xs ys : List (Move ℓ)}

/-- **Refinement.**  A run of the fine system is matched by the run of the
labels in the order in which their sections are left. -/
theorem fine_refines (hS : S.Lawful) (hM : S.Matches f s) {g : Fine τ ℓ κ}
    (hrun : Runs.exec S.fine f xs = some g) :
    ∃ t, Runs.exec S.step s (xs.filterMap Move.commits) = some t ∧ S.Matches g t :=
  Runs.exec_refines Move.commits (fun _ _ _ _ hR h => Matches.fine hS hR h) hM hrun

/-- The first open section can tick until it stops. -/
theorem exec_ticks {a b : σ × κ} (hticks : S.Ticks x a b) (hS : S.Lawful) (s : τ)
    (holders : List (ℓ × κ)) (ha : S.get s = a.1) :
    ∃ n, Runs.exec S.fine ⟨s, (x, a.2) :: holders⟩ (List.replicate n (.tick x)) =
      some ⟨S.set b.1 s, (x, b.2) :: holders⟩ := by
  induction hticks using Relation.ReflTransGen.head_induction_on generalizing s with
  | refl => exact ⟨0, by rw [← ha, hS.set_get]; rfl⟩
  | @head a c hac _ ih =>
      obtain ⟨n, hn⟩ := ih (S.set c.1 s) (hS.get_set _ _)
      rw [hS.set_set] at hn
      refine ⟨n + 1, ?_⟩
      rw [List.replicate_succ, Runs.exec_cons_some]
      have hget : Keyed.get Prod.fst x ((x, a.2) :: holders) = some (x, a.2) := by
        rw [Keyed.get_cons, if_pos rfl]
      have hmod : Keyed.modify Prod.fst x (fun _ => (x, c.2)) ((x, a.2) :: holders) =
          (x, c.2) :: holders := by
        rw [Keyed.modify_cons, if_pos rfl]
      exact ⟨_, fine_eq_some_iff.mpr (.tick hget (ha ▸ hac)), hmod ▸ hn⟩

/-- The first open section can go on to its end and leave. -/
theorem exec_finish (hS : S.Lawful) (hticks : S.Ticks x (S.get s, k) (v, k'))
    (hstop : S.tick x v k' = none) (hrest : ∀ h ∈ holders, h.1 ≠ x) :
    ∃ n, Runs.exec S.fine ⟨s, (x, k) :: holders⟩ (List.replicate n (.tick x) ++ [.leave x]) =
      some ⟨S.commit x k' (S.set v s), holders⟩ := by
  obtain ⟨n, hn⟩ := exec_ticks hticks hS s holders rfl
  have hget : Keyed.get Prod.fst x ((x, k') :: holders) = some (x, k') := by
    rw [Keyed.get_cons, if_pos rfl]
  have herase : Keyed.erase Prod.fst x ((x, k') :: holders) = holders := by
    rw [Keyed.erase_cons, if_pos rfl, Keyed.erase_eq_self_iff]
    exact Keyed.get_eq_none_iff.mpr hrest
  have hleave : S.fine ⟨S.set v s, (x, k') :: holders⟩ (.leave x) =
      some ⟨S.commit x k' (S.set v s), Keyed.erase Prod.fst x ((x, k') :: holders)⟩ :=
    fine_eq_some_iff.mpr (.leave hget ((hS.get_set v s).symm ▸ hstop))
  rw [herase] at hleave
  exact ⟨n, Runs.exec_snoc hn hleave⟩

/-- **No section is stuck.**  The open sections can be finished, and nobody
else needs to move for it. -/
theorem drain (hS : S.Lawful) (hM : S.Matches f s) :
    ∃ ys t, Runs.exec S.fine f ys = some ⟨t, []⟩ ∧
      ∀ m ∈ ys, ∃ x ∈ f.holders.map Prod.fst, m.within = some x := by
  induction hn : f.holders.length generalizing f s with
  | zero =>
      obtain ⟨state, holders⟩ := f
      obtain rfl : holders = [] := List.eq_nil_of_length_eq_zero hn
      exact ⟨[], state, rfl, by simp⟩
  | succ n ih =>
      obtain ⟨state, holders⟩ := f
      obtain ⟨⟨x, k⟩, rest, rfl⟩ := List.exists_cons_of_length_eq_add_one hn
      -- the first one ticks until it stops and leaves; the others remain
      obtain ⟨v, k', hticks, hstop⟩ := (hM.halfway (x, k) List.mem_cons_self).stops hS
      have hrest : ∀ h ∈ rest, h.1 ≠ x := by
        intro h hh hx
        have hnodup := hM.nodup
        rw [List.map_cons, List.nodup_cons] at hnodup
        exact hnodup.1 (List.mem_map.mpr ⟨h, hh, by rw [hx]⟩)
      obtain ⟨n, hfirst⟩ := exec_finish hS hticks hstop hrest
      obtain ⟨t, -, hMt⟩ := fine_refines hS hM hfirst
      obtain ⟨ys, u, hys, hwithin⟩ := ih hMt (by simpa using hn)
      refine ⟨_, u, Runs.exec_append hfirst hys, ?_⟩
      intro mv hmv
      rw [List.mem_append, List.mem_append, List.mem_replicate, List.mem_singleton] at hmv
      rcases hmv with (⟨-, rfl⟩ | rfl) | hmv
      · exact ⟨x, List.mem_cons_self, rfl⟩
      · exact ⟨x, List.mem_cons_self, rfl⟩
      · obtain ⟨y, hy, hwy⟩ := hwithin mv hmv
        exact ⟨y, List.mem_cons_of_mem _ hy, hwy⟩

/-- A step is made by a thread alone: it enters, ticks and leaves. -/
theorem fine_of_step (hS : S.Lawful) (hstep : S.step s x = some t) :
    ∃ ys, Runs.exec S.fine ⟨s, []⟩ ys = some ⟨t, []⟩ ∧ ys.filterMap Move.commits = [x] ∧
      ∀ m ∈ ys, m.label = x := by
  have hout : S.Outside (S.who x) ([] : List (ℓ × κ)) := fun h hh => absurd hh List.not_mem_nil
  rcases hkind : S.kind x with - | kd
  · exact ⟨[.plain x], Runs.exec_cons_some.mpr
      ⟨_, fine_eq_some_iff.mpr (.plain hkind hout hstep), rfl⟩, rfl, by simp [Move.label]⟩
  · have hsome : S.kind x ≠ none := by simp [hkind]
    obtain ⟨k, hinit⟩ := Option.isSome_iff_exists.mp (hS.ready s x t hsome hstep)
    obtain ⟨v, k', hticks, hstop, hruns⟩ := hS.runs s x k hsome hinit
    obtain rfl : t = S.commit x k' (S.set v s) := Option.some.inj (hstep.symm.trans hruns)
    have hnone : ∀ h ∈ ([] : List (ℓ × κ)), h.1 ≠ x := fun h hh => absurd hh List.not_mem_nil
    obtain ⟨n, hn⟩ := exec_finish hS hticks hstop hnone
    have hadmits : S.Admits ([] : List (ℓ × κ)) kd := by
      cases kd with
      | read => exact fun h hh => absurd hh List.not_mem_nil
      | write => rfl
    have henter : S.fine ⟨s, []⟩ (.enter x) = some ⟨s, [(x, k)]⟩ :=
      fine_eq_some_iff.mpr (.enter hkind hinit hadmits hout)
    refine ⟨.enter x :: (List.replicate n (.tick x) ++ [.leave x]), ?_, ?_, ?_⟩
    · exact Runs.exec_cons_some.mpr ⟨_, henter, hn⟩
    · have hticks : (List.replicate n (Move.tick x)).filterMap Move.commits = [] := by
        rw [List.filterMap_replicate_of_none rfl]
      rw [List.filterMap_cons_none rfl, List.filterMap_append, hticks]
      rfl
    · intro m hm
      simp only [List.mem_cons, List.mem_append, List.mem_replicate, List.not_mem_nil,
        or_false] at hm
      rcases hm with rfl | ⟨-, rfl⟩ | rfl <;> rfl

/-- **Completeness.**  Every run of the step system is one of the fine system,
with the same labels in the same order. -/
theorem fine_of_exec (hS : S.Lawful) {l : List ℓ} (hrun : Runs.exec S.step s l = some t) :
    ∃ ys, Runs.exec S.fine ⟨s, []⟩ ys = some ⟨t, []⟩ ∧ ys.filterMap Move.commits = l ∧
      ∀ m ∈ ys, m.label ∈ l := by
  induction l generalizing s with
  | nil =>
      obtain rfl := Option.some.inj hrun
      exact ⟨[], rfl, rfl, by simp⟩
  | cons x l ih =>
      obtain ⟨u, hu, hrest⟩ := Runs.exec_cons_some.mp hrun
      obtain ⟨ys, hys, hcommits, hlabel⟩ := fine_of_step hS hu
      obtain ⟨zs, hzs, hcommits', hlabel'⟩ := ih hrest
      refine ⟨ys ++ zs, Runs.exec_append hys hzs, ?_, ?_⟩
      · rw [List.filterMap_append, hcommits, hcommits']
        rfl
      · intro m hm
        rcases List.mem_append.mp hm with hm | hm
        · exact hlabel m hm ▸ List.mem_cons_self
        · exact List.mem_cons_of_mem _ (hlabel' m hm)

end Fine

end System

end Sections

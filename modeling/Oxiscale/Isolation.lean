/-
Oxiscale/Isolation.lean

Two stores on one file system.

Each store works in a region of the volume: its target, its temp file and the
files its calls create.  Where the regions of two stores are apart, a run of
both is, for each of them, the run without the calls of the other one.  They
are apart unless the stores have one temp path, and then a call of one can
take away the file a call of the other is about to rename.
-/
import Oxiscale.Flush
import Oxiscale.Restart

namespace Oxiscale

open FileStore

/-! ### One store in its region -/

/-- A call that is writing writes to one of these files. -/
def Phase.Holds {N : Type} (files : Set (Volume.Inode Path N)) : Phase N → Prop
  | .writing _ _ file _ => file ∈ files
  | _ => True

theorem Phase.holds_afterApply {N : Type} {files : Set (Volume.Inode Path N)} (reply : Reply) :
    (Phase.afterApply reply).Holds files := by
  rw [afterApply]
  split <;> trivial

section Within

variable {T N : Type} [DecidableEq T] [DecidableEq N] [Serde] [Chrono]
  {calls : T → Mutation × Instant} {name : T → N} {R S : Volume.Region Path N}
  {a b : Shared T N × Files N} {x : Step T} {w : Files N}

variable (name R a) in
/-- The store works inside the region. -/
structure Within : Prop where
  path : a.1.store.path ∈ R.names
  tmp : a.1.store.path.tmpPath ∈ R.names
  made : ∀ i, .made (name i) ∈ R.files
  owns : R.Owns a.2
  holds : ∀ i, (a.1.phase i).Holds R.files

omit [DecidableEq N] [Serde] [Chrono] in
/-- A move that stays in its region leaves the store there. -/
theorem Within.setPhase {s s' : Shared T N} {v : Files N} {i : T} {ph : Phase N}
    (h : Within name R (s, v)) (hstore : s'.store.path = s.store.path)
    (hphase : s'.phase = Function.update s.phase i ph) (howns : R.Owns w)
    (hph : ph.Holds R.files) : Within name R (s', w) := by
  refine ⟨?_, ?_, h.made, howns, ?_⟩
  · show s'.store.path ∈ R.names
    rw [hstore]
    exact h.path
  · show s'.store.path.tmpPath ∈ R.names
    rw [hstore]
    exact h.tmp
  · show ∀ j, (s'.phase j).Holds R.files
    rw [hphase, Function.forall_update_iff s.phase (p := fun _ ph => ph.Holds R.files)]
    exact ⟨hph, fun j _ => h.holds j⟩

/-- **Step.**  A store never leaves its region. -/
theorem Within.next (h : Within name R a) (hnext : Next calls name a x b) :
    Within name R b := by
  cases hnext with
  | apply hi => exact h.setPhase rfl rfl h.owns (Phase.holds_afterApply _)
  | refused hi hser => exact h.setPhase rfl rfl h.owns trivial
  | snapshot hi hser => exact h.setPhase rfl rfl h.owns trivial
  | @create s v i reply bytes hi =>
      exact h.setPhase rfl rfl (h.owns.create h.tmp (h.made i))
        (h.owns.create_mem h.tmp (h.made i))
  | @append s v i n reply bytes file done hi =>
      have hfile : (s.phase i).Holds R.files := h.holds i
      rw [hi] at hfile
      exact h.setPhase rfl rfl h.owns hfile
  | gone hi hdone hv => exact h.setPhase rfl rfl h.owns trivial
  | rename hi hdone hv => exact h.setPhase rfl rfl (h.owns.rename h.tmp hv) trivial

/-- A store that works inside a region does the same on every volume that
looks the same from inside. -/
theorem Next.agree (h : Within name R a) (hw : R.Agree a.2 w) (hnext : Next calls name a x b) :
    ∃ w', Next calls name (a.1, w) x (b.1, w') ∧ R.Agree b.2 w' := by
  cases hnext with
  | apply hi => exact ⟨w, .apply hi, hw⟩
  | refused hi hser => exact ⟨w, .refused hi hser, hw⟩
  | snapshot hi hser => exact ⟨w, .snapshot hi hser, hw⟩
  | @create s v i reply bytes hi =>
      refine ⟨(w.create (name i) s.store.path.tmpPath).2, ?_, hw.create h.tmp⟩
      rw [hw.create_eq h.tmp]
      exact .create hi
  | append hi => exact ⟨_, .append hi, hw.append⟩
  | @gone s v i reply bytes file done hi hdone hv =>
      refine ⟨w, .gone hi hdone ?_, hw⟩
      -- the temp path is in the region, so it has gone on both volumes
      rw [Volume.rename_eq_none_iff] at hv ⊢
      exact (hw.dir _ h.tmp).symm.trans hv
  | rename hi hdone hv =>
      obtain ⟨w', hw', hagree⟩ := hw.rename h.tmp hv
      exact ⟨w', .rename hi hdone hw', hagree⟩

/-- A store that works inside a region leaves alone what is apart from it. -/
theorem Next.outside (h : Within name R a) (hRS : R.Apart S) (hnext : Next calls name a x b) :
    S.Agree a.2 b.2 := by
  cases hnext with
  | @create s v i reply bytes hi =>
      exact Volume.agree_create (hRS.names _ h.tmp)
        (hRS.files _ (h.owns.create_mem h.tmp (h.made i)))
  | @append s v i n reply bytes file done hi =>
      have hholds : (s.phase i).Holds R.files := h.holds i
      rw [hi] at hholds
      exact Volume.agree_append (hRS.files _ hholds)
  | rename hi hdone hv => exact Volume.agree_rename (hRS.names _ h.tmp) (hRS.names _ h.path) hv
  | _ => exact .refl S _

end Within

/-! ### Two stores -/

/-- Both stores, each with the calls made on it, and the volume they share. -/
abbrev Pair (T : Type) := (Bool → Shared T (Bool × T)) × Files (Bool × T)

section Pairs

variable {T : Type} [DecidableEq T] [Serde] [Chrono] (calls : Bool → T → Mutation × Instant)

/-- A move of a call on one of the stores. -/
def stepSide : Pair T → Bool × Step T → Option (Pair T)
  | (s, v), (side, x) =>
    (step (calls side) (Prod.mk side) (s side, v) x).map fun r =>
      (Function.update s side r.1, r.2)

/-- The target, the temp file and what the calls of the side create. -/
def region (path : Path) (side : Bool) : Volume.Region Path (Bool × T) where
  names := {p | p = path ∨ p = path.tmpPath}
  files := {f | f = .initial path ∨ f = .initial path.tmpPath ∨ ∃ i, f = .made (side, i)}

variable {calls} {a b : Pair T} {side : Bool} {x : Step T} {u : Shared T (Bool × T) × Files (Bool × T)}

/-- A move of one side is a move of its store over the common files. -/
theorem stepSide_eq_some_iff : stepSide calls a (side, x) = some b ↔
    ∃ u, Next (calls side) (Prod.mk side) (a.1 side, a.2) x u ∧
      b = (Function.update a.1 side u.1, u.2) := by
  show (step _ _ (a.1 side, a.2) x).map _ = some b ↔ _
  rw [Option.map_eq_some_iff]
  exact exists_congr fun u => and_congr step_eq_some_iff eq_comm

omit [DecidableEq T] [Serde] [Chrono] in
theorem within_start (store : FileStore) (disk : Disk) :
    Within (Prod.mk side) (region store.path side)
      ((Shared.start store : Shared T (Bool × T)), Volume.ofDisk disk) where
  path := Or.inl rfl
  tmp := Or.inr rfl
  made i := Or.inr (Or.inr ⟨i, rfl⟩)
  owns p hp f hf := by
    obtain ⟨bytes, -, rfl⟩ := Option.map_eq_some_iff.mp hf
    rcases hp with rfl | rfl
    · exact Or.inl rfl
    · exact Or.inr (Or.inl rfl)
  holds i := trivial

omit [DecidableEq T] [Serde] [Chrono] in
/-- The regions of two stores are apart unless the stores have one temp
path. -/
theorem region_apart {p q : Path} {side' : Bool} (hp : (Format.fromPath p).isSome)
    (hq : (Format.fromPath q).isSome) (hpq : p ≠ q) (htmp : p.tmpPath ≠ q.tmpPath)
    (hside : side ≠ side') :
    (region p side : Volume.Region Path (Bool × T)).Apart (region q side') := by
  have hqp : p ≠ q.tmpPath := (tmpPath_ne hq hp).symm
  constructor
  · rintro r (rfl | rfl) (h | h)
    · exact hpq h
    · exact hqp h
    · exact tmpPath_ne hp hq h
    · exact htmp h
  · rintro f (rfl | rfl | ⟨i, rfl⟩) (h | h | ⟨j, h⟩)
    · exact hpq (Volume.Inode.initial.inj h)
    · exact hqp (Volume.Inode.initial.inj h)
    · cases h
    · exact tmpPath_ne hp hq (Volume.Inode.initial.inj h)
    · exact htmp (Volume.Inode.initial.inj h)
    · cases h
    · cases h
    · cases h
    · exact hside (Prod.mk.inj (Volume.Inode.made.inj h)).1

/-- A run of both stores begins with its first move. -/
theorem exec_side {c : Pair T} {xs : List (Bool × Step T)}
    (h : Next (calls side) (Prod.mk side) (a.1 side, a.2) x u)
    (hrest : Runs.exec (stepSide calls) (Function.update a.1 side u.1, u.2) xs = some c) :
    Runs.exec (stepSide calls) a ((side, x) :: xs) = some c :=
  Runs.exec_cons_some.mpr ⟨_, stepSide_eq_some_iff.mpr ⟨u, h, rfl⟩, hrest⟩

variable {store : Bool → FileStore} {disk : Disk}

variable (T store) in
/-- The two stores work apart from each other. -/
def RegionsApart : Prop := ∀ s s', s ≠ s' →
  (region (store s).path s : Volume.Region Path (Bool × T)).Apart (region (store s').path s')

/-- Two runs that look the same to one side. -/
structure Alike (store : Bool → FileStore) (side : Bool) (a b : Pair T) : Prop where
  within : ∀ side, Within (Prod.mk side) (region (store side).path side) (a.1 side, a.2)
  shared : a.1 side = b.1 side
  agree : (region (store side).path side).Agree a.2 b.2

omit [DecidableEq T] [Serde] [Chrono] in
theorem Alike.start (store : Bool → FileStore) (disk : Disk) (side : Bool) :
    Alike store side ((fun s => Shared.start (store s), Volume.ofDisk disk) : Pair T)
      (fun s => Shared.start (store s), Volume.ofDisk disk) where
  within s := within_start (store s) disk
  shared := rfl
  agree := .refl _ _

/-- A move of either side keeps both stores in their regions. -/
theorem Within.stepSide (h : ∀ s, Within (Prod.mk s) (region (store s).path s) (a.1 s, a.2))
    (hapart : RegionsApart T store)
    (hnext : Next (calls side) (Prod.mk side) (a.1 side, a.2) x u) (s : Bool) :
    Within (Prod.mk s) (region (store s).path s) (Function.update a.1 side u.1 s, u.2) := by
  rcases eq_or_ne s side with rfl | hs
  · rw [Function.update_self]
    exact (h s).next hnext
  · rw [Function.update_of_ne hs]
    have hsame := hnext.outside (h side) (hapart side s hs.symm)
    exact ⟨(h s).path, (h s).tmp, (h s).made, (h s).owns.congr hsame, (h s).holds⟩

/-- **Step**: a move of the side is matched, and a move of the other side is
not seen. -/
theorem Alike.next {c : Pair T} {l : Bool × Step T} (h : Alike store side a b)
    (hapart : RegionsApart T store) (hstep : stepSide calls a l = some c) :
    (l.1 = side → ∃ d, stepSide calls b l = some d ∧ Alike store side c d) ∧
    (l.1 ≠ side → Alike store side c b) := by
  obtain ⟨s, x⟩ := l
  obtain ⟨u, hnext, rfl⟩ := stepSide_eq_some_iff.mp hstep
  have hwithin := Within.stepSide h.within hapart hnext
  constructor
  · rintro rfl
    obtain ⟨w, hw, hagree⟩ := hnext.agree (h.within s) h.agree
    rw [h.shared] at hw
    refine ⟨_, stepSide_eq_some_iff.mpr ⟨_, hw, rfl⟩, hwithin, ?_, hagree⟩
    show Function.update a.1 s u.1 s = Function.update b.1 s u.1 s
    rw [Function.update_self, Function.update_self]
  · intro hs
    refine ⟨hwithin, ?_, ?_⟩
    · show Function.update a.1 s u.1 side = b.1 side
      rw [Function.update_of_ne (Ne.symm hs)]
      exact h.shared
    · exact (hnext.outside (h.within s) (hapart s side hs)).symm.trans h.agree

end Pairs

/-! ### Isolation -/

section Isolated

variable [Serde] [Chrono]

/-- A store opened on the path, maybe with another format. -/
def OpenedOn (disk : Disk) (path : Path) (store : FileStore) : Prop :=
  ∃ opened, openStore Faults.none disk path = .ok opened ∧
    (store = opened ∨ ∃ format, store = withFormat format opened)

/-- Whatever two stores on these paths do, the calls of each return what they
return, and its target is what it is, when the other store makes no calls. -/
def Isolated (p q : Path) : Prop :=
  ∀ (T : Type) [DecidableEq T] (disk : Disk) (store : Bool → FileStore)
    (calls : Bool → T → Mutation × Instant) (xs : List (Bool × Step T)) (a : Pair T),
    OpenedOn disk p (store false) → OpenedOn disk q (store true) →
    Runs.exec (stepSide calls) (fun s => Shared.start (store s), Volume.ofDisk disk) xs = some a →
    ∀ side, ∃ b, Runs.exec (stepSide calls) (fun s => Shared.start (store s), Volume.ofDisk disk)
        (xs.filter fun l => l.1 = side) = some b ∧
      (∀ i result, (a.1 side).phase i = .returned result ↔ (b.1 side).phase i = .returned result) ∧
      a.2.read (store side).path = b.2.read (store side).path

omit [Chrono] in
theorem path_of_openedOn {disk : Disk} {path : Path} {store : FileStore}
    (h : OpenedOn disk path store) : store.path = path := by
  obtain ⟨opened, hopen, rfl | ⟨format, rfl⟩⟩ := h
  · exact (format_of_openStore hopen).1
  · exact (format_of_openStore hopen).1

variable {p q : Path}

/-- Paths with different temp files are isolated. -/
theorem isolated_of_tmpPath_ne (hpq : p ≠ q) (htmp : p.tmpPath ≠ q.tmpPath) : Isolated p q := by
  intro T _ disk store calls xs a hp hq hrun side
  obtain rfl := path_of_openedOn hp
  obtain rfl := path_of_openedOn hq
  -- with other paths and other temp paths the two regions do not meet
  have hapart : RegionsApart T store := by
    intro s s' hs
    refine region_apart (store s).accepted (store s').accepted ?_ ?_ hs
    · rcases s <;> rcases s'
      exacts [absurd rfl hs, hpq, hpq.symm, absurd rfl hs]
    · rcases s <;> rcases s'
      exacts [absurd rfl hs, htmp, htmp.symm, absurd rfl hs]
  have hkeep : ∀ (a b : Pair T) (l : Bool × Step T) (c : Pair T), Alike store side a b →
      decide (l.1 = side) = true → stepSide calls a l = some c →
        ∃ d, stepSide calls b l = some d ∧ Alike store side c d :=
    fun a b l c h hl hstep => (h.next hapart hstep).1 (of_decide_eq_true hl)
  have hdrop : ∀ (a b : Pair T) (l : Bool × Step T) (c : Pair T), Alike store side a b →
      decide (l.1 = side) = false → stepSide calls a l = some c → Alike store side c b :=
    fun a b l c h hl hstep => (h.next hapart hstep).2 (of_decide_eq_false hl)
  obtain ⟨b, hb, halike⟩ := Runs.exec_purge _ hkeep hdrop (Alike.start store disk side) hrun
  refine ⟨b, hb, fun i result => ?_, ?_⟩
  · rw [halike.shared]
  · exact halike.agree.read (halike.within side).owns (Or.inl rfl)

end Isolated

/-- Where two stores have one temp path, a call on one may rename the file that
a call on the other has just written. -/
theorem not_isolated [Crates] [Chrono] {p q : Path} (hp : (Format.fromPath p).isSome)
    (hq : (Format.fromPath q).isSome) (htmp : p.tmpPath = q.tmpPath) : ¬ Isolated p q := by
  intro h
  obtain ⟨fp, hfp⟩ := Option.isSome_iff_exists.mp hp
  obtain ⟨fq, hfq⟩ := Option.isSome_iff_exists.mp hq
  obtain ⟨bytes, hbytes⟩ : ∃ bytes, serialize fp MemoryStore.new = .ok bytes :=
    exists_serialize_iff.mpr fun _ => fitsToml_new
  obtain ⟨bytes', hbytes'⟩ : ∃ bytes', serialize fq MemoryStore.new = .ok bytes' :=
    exists_serialize_iff.mpr fun _ => fitsToml_new
  let store (s : Bool) : FileStore :=
    bif s then ⟨q, fq, MemoryStore.new, hq⟩ else ⟨p, fp, MemoryStore.new, hp⟩
  let calls : Bool → Unit → Mutation × Instant := fun _ _ => (.deleteNode ⟨0⟩, 0)
  let start : Pair Unit := (fun s => Shared.start (store s), Volume.ofDisk fun _ => none)
  -- once the other store has renamed, nothing is left to rename
  have hgone : ∀ {v w : Files (Bool × Unit)}, v.rename q.tmpPath q = some w →
      w.rename p.tmpPath p = none := fun hv => by
    rw [Volume.rename_eq_none_iff, htmp]
    exact Volume.dir_rename_src hv (tmpPath_ne hq hq)
  have hboth : ∃ a, Runs.exec (stepSide calls) start
      [(false, .apply ()), (false, .snapshot ()), (false, .create ()),
        (false, .append () bytes.length), (true, .apply ()), (true, .snapshot ()),
        (true, .create ()), (true, .append () bytes'.length), (true, .rename ()),
        (false, .rename ())] = some a ∧
      (a.1 false).phase () = .returned (.error (.io .notFound)) :=
    ⟨_, exec_side (.apply rfl) (exec_side (.snapshot rfl hbytes) (exec_side (.create rfl)
      (exec_side (.append rfl) (exec_side (.apply rfl) (exec_side (.snapshot rfl hbytes')
      (exec_side (.create rfl) (exec_side (.append rfl) (exec_side (.rename rfl (Nat.zero_add _).ge
        (Volume.rename_eq_some Volume.dir_create_self)) (exec_side (.gone rfl (Nat.zero_add _).ge
          (hgone (Volume.rename_eq_some Volume.dir_create_self))) rfl))))))))), rfl⟩
  have halone : ∃ b, Runs.exec (stepSide calls) start
      [(false, .apply ()), (false, .snapshot ()), (false, .create ()),
        (false, .append () bytes.length), (false, .rename ())] = some b ∧
      (b.1 false).phase () = .returned (.ok .unit) :=
    ⟨_, exec_side (.apply rfl) (exec_side (.snapshot rfl hbytes) (exec_side (.create rfl)
      (exec_side (.append rfl) (exec_side (.rename rfl (Nat.zero_add _).ge
        (Volume.rename_eq_some Volume.dir_create_self)) rfl)))), rfl⟩
  obtain ⟨a, hruna, hfailed⟩ := hboth
  obtain ⟨b, hrunb, hok⟩ := halone
  obtain ⟨b', hrunb', hsame, -⟩ := h Unit (fun _ => none) store calls _ a
    ⟨_, openStore_eq _ hfp, Or.inl rfl⟩ ⟨_, openStore_eq _ hfq, Or.inl rfl⟩ hruna false
  obtain rfl : b = b' := Option.some.inj (hrunb.symm.trans hrunb')
  have hfailed' := (hsame () _).mp hfailed
  rw [hok] at hfailed'
  cases hfailed'

/-- The stores of `net.json` and `net.yaml` both write `net.tmp`. -/
theorem json_and_yaml_not_isolated :
    letI := Crates.flow
    letI := Chrono.unasked
    ¬ ∀ p q : Path, (Format.fromPath p).isSome → (Format.fromPath q).isSome → p ≠ q →
      Isolated p q := by
  let _ := Crates.flow
  let _ := Chrono.unasked
  intro h
  have hjson : (Format.fromPath ⟨[], some "net.json".toList⟩).isSome := by decide
  have hyaml : (Format.fromPath ⟨[], some "net.yaml".toList⟩).isSome := by decide
  exact not_isolated hjson hyaml (by decide) (h _ _ hjson hyaml (by decide))

/-- **Stores on different files are isolated** exactly when the paths differ in
more than the extension. -/
theorem isolated_iff [Crates] [Chrono] (p q : Path) (hp : (Format.fromPath p).isSome)
    (hq : (Format.fromPath q).isSome) (hpq : p ≠ q) :
    Isolated p q ↔ ¬ (p.parent = q.parent ∧ p.fileStem = q.fileStem) := by
  rw [← tmpPath_eq_iff hp hq]
  constructor
  · intro h htmp
    exact not_isolated hp hq htmp h
  · intro htmp
    exact isolated_of_tmpPath_ne hpq htmp

/-- Two stems. -/
theorem isolated_net_users :
    letI := Crates.flow
    letI := Chrono.unasked
    Isolated ⟨[], some "net.json".toList⟩ ⟨[], some "users.json".toList⟩ := by
  let _ := Crates.flow
  let _ := Chrono.unasked
  exact (isolated_iff _ _ (by decide) (by decide) (by decide)).mpr (by decide)

end Oxiscale

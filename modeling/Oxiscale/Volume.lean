/-
Oxiscale/Volume.lean

A volume: a directory of names and the files they stand for.

A file is not its name.  Whoever has opened a file goes on writing to it when
the name has been given to another file, and renaming moves a name and
touches no file.  Files present at the start are called after their path, and
a new file is called after whoever creates it.

`open` with truncation (`create`), `append` and `rename` are the operations;
`read` is what stands under a name.  Two facts make reasoning by name
possible: no file has two names (`NoAlias`), and the file somebody will
create has no name yet (`Fresh`).

A `Region` is a set of names with a set of files.  A region that owns the
files of its names is a volume of its own: what is done inside depends on
nothing outside (`Agree`), and what is done outside changes nothing inside.
-/
import Mathlib.Data.Set.Defs
import Mathlib.Logic.Function.Basic

/-- A file of a volume with names `P`, created by one of `N` if not there at
the start. -/
inductive Volume.Inode (P N : Type)
  | initial (p : P)
  | made (n : N)
deriving DecidableEq

/-- Which file each name stands for, and the content of each file. -/
structure Volume (P N β : Type) where
  dir : P → Option (Volume.Inode P N)
  data : Volume.Inode P N → List β

namespace Volume

variable {P N β : Type} [DecidableEq P] [DecidableEq N]

/-! ### Operations -/

omit [DecidableEq P] [DecidableEq N] in
/-- A volume with the given contents. -/
def ofDisk (d : P → Option (List β)) : Volume P N β where
  dir p := (d p).map fun _ => .initial p
  data
    | .initial p => (d p).getD []
    | .made _ => []

omit [DecidableEq P] [DecidableEq N] in
/-- The content that stands under a name. -/
def read (v : Volume P N β) (p : P) : Option (List β) := (v.dir p).map v.data

/-- Open for writing: a file that exists is truncated, otherwise a new one
gets the name. -/
def create (n : N) (p : P) (v : Volume P N β) : Inode P N × Volume P N β :=
  let i := (v.dir p).getD (.made n)
  (i, ⟨Function.update v.dir p (some i), Function.update v.data i []⟩)

def append (i : Inode P N) (xs : List β) (v : Volume P N β) : Volume P N β :=
  { v with data := Function.update v.data i (v.data i ++ xs) }

omit [DecidableEq N] in
/-- Move a name; `none` if nothing stands under it. -/
def rename (src dst : P) (v : Volume P N β) : Option (Volume P N β) :=
  match v.dir src with
  | none => none
  | some i => some { v with dir := Function.update (Function.update v.dir src none) dst (some i) }

/-! ### Names -/

/-- No file has two names. -/
def NoAlias (v : Volume P N β) : Prop := ∀ p q i, v.dir p = some i → v.dir q = some i → p = q

/-- The file `n` would create has no name. -/
def Fresh (n : N) (v : Volume P N β) : Prop := ∀ p, v.dir p ≠ some (.made n)

variable {v w : Volume P N β} {n m : N} {p q src dst : P} {i : Inode P N} {xs : List β}

omit [DecidableEq P] [DecidableEq N] in
theorem noAlias_ofDisk (d : P → Option (List β)) : (ofDisk d : Volume P N β).NoAlias := by
  intro p q i hp hq
  rcases hd : d p with - | xs
  · simp [ofDisk, hd] at hp
  · rcases hd' : d q with - | ys
    · simp [ofDisk, hd'] at hq
    · obtain rfl : .initial p = i := by simpa [ofDisk, hd] using hp
      simpa [ofDisk, hd', eq_comm] using hq

omit [DecidableEq P] [DecidableEq N] in
theorem fresh_ofDisk (d : P → Option (List β)) : (ofDisk d : Volume P N β).Fresh n := by
  intro p hp
  rcases hd : d p with - | xs <;> simp [ofDisk, hd] at hp

omit [DecidableEq P] [DecidableEq N] in
/-- The content under each path is that of the disk. -/
@[simp] theorem read_ofDisk (d : P → Option (List β)) : (ofDisk d : Volume P N β).read = d := by
  funext p
  rcases hd : d p with - | xs <;> simp [read, ofDisk, hd]

omit [DecidableEq P] [DecidableEq N] in
/-- Under another name stands another file. -/
theorem NoAlias.dir_ne (h : v.NoAlias) (hp : v.dir p = some i) (hq : q ≠ p) :
    v.dir q ≠ some i :=
  fun hi => hq (h q p i hi hp)

/-! ### Creating -/

theorem dir_create_self : (v.create n p).2.dir p = some (v.create n p).1 :=
  Function.update_self _ _ _

theorem dir_create_of_ne (hq : q ≠ p) : (v.create n p).2.dir q = v.dir q :=
  Function.update_of_ne hq _ _

theorem data_create_self : (v.create n p).2.data (v.create n p).1 = [] :=
  Function.update_self _ _ _

/-- The created file stands under no other name. -/
theorem dir_ne_create (h : v.NoAlias) (hn : v.Fresh n) (hq : q ≠ p) :
    v.dir q ≠ some (v.create n p).1 := by
  rcases hp : v.dir p with - | i
  · show v.dir q ≠ some ((v.dir p).getD (.made n))
    rw [hp]
    exact hn q
  · show v.dir q ≠ some ((v.dir p).getD (.made n))
    rw [hp]
    exact h.dir_ne hp hq

theorem NoAlias.create (h : v.NoAlias) (hn : v.Fresh n) : (v.create n p).2.NoAlias := by
  -- a created file is fresh, or the one that stands under this name alone
  intro q r i hq hr
  rcases eq_or_ne q p with rfl | hqp
  · rcases eq_or_ne r q with rfl | hrq
    · rfl
    · rw [dir_create_self] at hq
      rw [dir_create_of_ne hrq, ← hq] at hr
      exact absurd hr (dir_ne_create h hn hrq)
  · rw [dir_create_of_ne hqp] at hq
    rcases eq_or_ne r p with rfl | hrp
    · rw [dir_create_self] at hr
      rw [← hr] at hq
      exact absurd hq (dir_ne_create h hn hqp)
    · rw [dir_create_of_ne hrp] at hr
      exact h q r i hq hr

theorem Fresh.create (h : v.Fresh m) (hne : m ≠ n) : (v.create n p).2.Fresh m := by
  intro q
  rcases eq_or_ne q p with rfl | hq
  · rw [dir_create_self]
    show some ((v.dir q).getD (.made n)) ≠ _
    rcases hd : v.dir q with - | i
    · simpa using hne.symm
    · rw [Option.getD_some, ← hd]
      exact h q
  · rw [dir_create_of_ne hq]
    exact h q

/-- Creating changes what stands under one name. -/
theorem read_create_of_ne (h : v.NoAlias) (hn : v.Fresh n) (hq : q ≠ p) :
    (v.create n p).2.read q = v.read q := by
  rw [read, dir_create_of_ne hq, read]
  rcases hd : v.dir q with - | i
  · rfl
  · have hi : i ≠ (v.create n p).1 := by
      rintro rfl
      exact dir_ne_create h hn hq hd
    exact congrArg some (Function.update_of_ne hi _ _)

/-! ### Appending -/

omit [DecidableEq P] [DecidableEq N] in
theorem read_of_dir (h : v.dir p = some i) : v.read p = some (v.data i) := by
  rw [read, h]
  rfl

theorem data_append_self : (v.append i xs).data i = v.data i ++ xs := Function.update_self _ _ _

theorem NoAlias.append (h : v.NoAlias) : (v.append i xs).NoAlias := h

theorem Fresh.append (h : v.Fresh n) : (v.append i xs).Fresh n := h

/-- Appending to a file changes nothing under a name of another file. -/
theorem read_append_of_ne (hq : v.dir q ≠ some i) : (v.append i xs).read q = v.read q := by
  show (v.dir q).map _ = (v.dir q).map _
  rcases hd : v.dir q with - | j
  · rfl
  · have hj : j ≠ i := by
      rintro rfl
      exact hq hd
    exact congrArg some (Function.update_of_ne hj _ _)

@[simp] theorem append_nil : v.append i [] = v := by
  rw [append, List.append_nil, Function.update_eq_self]

/-! ### Renaming -/

omit [DecidableEq N] in
/-- A rename fails exactly without a source. -/
theorem rename_eq_none_iff : v.rename src dst = none ↔ v.dir src = none := by
  rcases hd : v.dir src with - | i <;> simp [rename, hd]

omit [DecidableEq N] in
theorem rename_eq_some (h : v.dir src = some i) : v.rename src dst =
    some { v with dir := Function.update (Function.update v.dir src none) dst (some i) } := by
  rw [rename, h]

omit [DecidableEq N] in
theorem exists_of_rename (h : v.rename src dst = some w) : ∃ i, v.dir src = some i ∧
    w = { v with dir := Function.update (Function.update v.dir src none) dst (some i) } := by
  rcases hd : v.dir src with - | i
  · simp [rename, hd] at h
  · exact ⟨i, rfl, by simpa [rename, hd, eq_comm] using h⟩

omit [DecidableEq N] in
/-- The target has the content of the source, and the source is gone. -/
theorem read_rename (h : v.rename src dst = some w) (hne : src ≠ dst) : w.read dst = v.read src ∧
    w.read src = none ∧ ∀ q, q ≠ src → q ≠ dst → w.read q = v.read q := by
  obtain ⟨i, hi, rfl⟩ := exists_of_rename h
  refine ⟨?_, ?_, fun q hsrc hdst => ?_⟩
  · simp [read, hi]
  · simp [read, hne]
  · simp [read, hsrc, hdst]

omit [DecidableEq N] in
theorem dir_rename_src (h : v.rename src dst = some w) (hne : src ≠ dst) : w.dir src = none := by
  obtain ⟨i, hi, rfl⟩ := exists_of_rename h
  show Function.update (Function.update v.dir src none) dst (some i) src = none
  rw [Function.update_of_ne hne, Function.update_self]

omit [DecidableEq N] in
theorem NoAlias.rename (hv : v.NoAlias) (h : v.rename src dst = some w) : w.NoAlias := by
  obtain ⟨i, hi, rfl⟩ := exists_of_rename h
  -- afterwards a file stands under the new name or where it stood
  have hname : ∀ q j, Function.update (Function.update v.dir src none) dst (some i) q = some j →
      (q = dst ∧ j = i) ∨ (q ≠ src ∧ v.dir q = some j) := by
    intro q j hq
    rcases eq_or_ne q dst with rfl | hdst
    · rw [Function.update_self] at hq
      exact Or.inl ⟨rfl, (Option.some.inj hq).symm⟩
    · rcases eq_or_ne q src with rfl | hsrc
      · simp [hdst] at hq
      · exact Or.inr ⟨hsrc, by simpa [hdst, hsrc] using hq⟩
  intro p q j hp hq
  rcases hname p j hp with ⟨rfl, rfl⟩ | ⟨hpsrc, hp'⟩
  · rcases hname q j hq with ⟨rfl, -⟩ | ⟨hqsrc, hq'⟩
    · rfl
    · exact absurd (hv q src j hq' hi) hqsrc
  · rcases hname q j hq with ⟨rfl, rfl⟩ | ⟨hqsrc, hq'⟩
    · exact absurd (hv p src j hp' hi) hpsrc
    · exact hv p q j hp' hq'

omit [DecidableEq N] in
theorem Fresh.rename (hv : v.Fresh n) (h : v.rename src dst = some w) : w.Fresh n := by
  obtain ⟨i, hi, rfl⟩ := exists_of_rename h
  intro q
  rcases eq_or_ne q dst with rfl | hdst
  · rw [← hi] at *
    simpa using hv src
  · rcases eq_or_ne q src with rfl | hsrc
    · simp [hdst]
    · simpa [hdst, hsrc] using hv q

/-! ### Regions -/

variable (P N) in
/-- Names and files. -/
structure Region where
  names : Set P
  files : Set (Inode P N)

/-- The names of the region stand for its files. -/
def Region.Owns (R : Region P N) (v : Volume P N β) : Prop :=
  ∀ p ∈ R.names, ∀ i, v.dir p = some i → i ∈ R.files

/-- Two volumes look the same from inside. -/
structure Region.Agree (R : Region P N) (v w : Volume P N β) : Prop where
  dir : ∀ p ∈ R.names, v.dir p = w.dir p
  data : ∀ i ∈ R.files, v.data i = w.data i

structure Region.Apart (R S : Region P N) : Prop where
  names : ∀ p ∈ R.names, p ∉ S.names
  files : ∀ i ∈ R.files, i ∉ S.files

variable {R S : Region P N} {v' : Volume P N β}

omit [DecidableEq P] [DecidableEq N] in
theorem Region.Agree.refl (R : Region P N) (v : Volume P N β) : R.Agree v v :=
  ⟨fun _ _ => rfl, fun _ _ => rfl⟩

omit [DecidableEq P] [DecidableEq N] in
theorem Region.Agree.symm (h : R.Agree v w) : R.Agree w v :=
  ⟨fun p hp => (h.dir p hp).symm, fun i hi => (h.data i hi).symm⟩

omit [DecidableEq P] [DecidableEq N] in
theorem Region.Agree.trans (h : R.Agree v w) (h' : R.Agree w w') : R.Agree v w' :=
  ⟨fun p hp => (h.dir p hp).trans (h'.dir p hp), fun i hi => (h.data i hi).trans (h'.data i hi)⟩

omit [DecidableEq P] [DecidableEq N] in
/-- Which files a region owns is seen from inside. -/
theorem Region.Owns.congr (h : R.Owns v) (hvw : R.Agree v w) : R.Owns w :=
  fun p hp i hi => h p hp i ((hvw.dir p hp).trans hi)

omit [DecidableEq P] [DecidableEq N] in
/-- What is read inside does not depend on what is outside. -/
theorem Region.Agree.read (h : R.Agree v w) (hv : R.Owns v) (hp : p ∈ R.names) :
    v.read p = w.read p := by
  rw [Volume.read, Volume.read, ← h.dir p hp]
  rcases hd : v.dir p with - | i
  · rfl
  · exact congrArg some (h.data i (hv p hp i hd))

/-! #### Work inside a region -/

/-- A file created inside stays inside. -/
theorem Region.Owns.create_mem (hv : R.Owns v) (hp : p ∈ R.names) (hn : .made n ∈ R.files) :
    (v.create n p).1 ∈ R.files := by
  show (v.dir p).getD (.made n) ∈ R.files
  rcases hd : v.dir p with - | i
  · exact hn
  · exact hv p hp i hd

theorem Region.Owns.create (hv : R.Owns v) (hp : p ∈ R.names) (hn : .made n ∈ R.files) :
    R.Owns (v.create n p).2 := by
  intro q hq i hi
  rcases eq_or_ne q p with rfl | hqp
  · rw [dir_create_self] at hi
    obtain rfl := Option.some.inj hi
    exact hv.create_mem hp hn
  · rw [dir_create_of_ne hqp] at hi
    exact hv q hq i hi

/-- The file created is the same in both. -/
theorem Region.Agree.create_eq (h : R.Agree v w) (hp : p ∈ R.names) :
    (v.create n p).1 = (w.create n p).1 := by
  show (v.dir p).getD _ = (w.dir p).getD _
  rw [h.dir p hp]

theorem Region.Agree.create (h : R.Agree v w) (hp : p ∈ R.names) :
    R.Agree (v.create n p).2 (w.create n p).2 := by
  have hsame : (v.create n p).1 = (w.create n p).1 := h.create_eq hp
  constructor
  · intro q hq
    show Function.update v.dir p (some (v.create n p).1) q =
      Function.update w.dir p (some (w.create n p).1) q
    rcases eq_or_ne q p with rfl | hqp
    · rw [Function.update_self, Function.update_self, hsame]
    · rw [Function.update_of_ne hqp, Function.update_of_ne hqp, h.dir q hq]
  · intro j hj
    show Function.update v.data (v.create n p).1 [] j =
      Function.update w.data (w.create n p).1 [] j
    rw [hsame]
    rcases eq_or_ne j (w.create n p).1 with rfl | hji
    · rw [Function.update_self, Function.update_self]
    · rw [Function.update_of_ne hji, Function.update_of_ne hji, h.data j hj]

theorem Region.Agree.append (h : R.Agree v w) : R.Agree (v.append i xs) (w.append i xs) := by
  refine ⟨h.dir, fun j hj => ?_⟩
  show Function.update v.data i _ j = Function.update w.data i _ j
  rcases eq_or_ne j i with rfl | hji
  · rw [Function.update_self, Function.update_self, h.data j hj]
  · rw [Function.update_of_ne hji, Function.update_of_ne hji, h.data j hj]

omit [DecidableEq N] in
/-- A rename inside moves no file out. -/
theorem Region.Owns.rename (hv : R.Owns v) (hsrc : src ∈ R.names)
    (h : v.rename src dst = some v') : R.Owns v' := by
  obtain ⟨i, hi, rfl⟩ := exists_of_rename h
  intro q hq j hj
  have hj' : Function.update (Function.update v.dir src none) dst (some i) q = some j := hj
  rcases eq_or_ne q dst with rfl | hdst
  · rw [Function.update_self] at hj'
    obtain rfl := Option.some.inj hj'
    exact hv src hsrc i hi
  · rw [Function.update_of_ne hdst] at hj'
    rcases eq_or_ne q src with rfl | hqsrc
    · rw [Function.update_self] at hj'
      cases hj'
    · rw [Function.update_of_ne hqsrc] at hj'
      exact hv q hq j hj'

omit [DecidableEq N] in
/-- A rename inside has the same effect in both. -/
theorem Region.Agree.rename (h : R.Agree v w) (hsrc : src ∈ R.names)
    (hv : v.rename src dst = some v') : ∃ w', w.rename src dst = some w' ∧ R.Agree v' w' := by
  obtain ⟨i, hi, rfl⟩ := exists_of_rename hv
  rw [h.dir src hsrc] at hi
  refine ⟨_, rename_eq_some hi, fun q hq => ?_, h.data⟩
  show Function.update (Function.update v.dir src none) dst (some i) q =
    Function.update (Function.update w.dir src none) dst (some i) q
  rcases eq_or_ne q dst with rfl | hdst
  · rw [Function.update_self, Function.update_self]
  · rw [Function.update_of_ne hdst, Function.update_of_ne hdst]
    rcases eq_or_ne q src with rfl | hqsrc
    · rw [Function.update_self, Function.update_self]
    · rw [Function.update_of_ne hqsrc, Function.update_of_ne hqsrc, h.dir q hq]

/-! #### Work outside a region -/

/-- Creating a file outside changes nothing inside. -/
theorem agree_create (hp : p ∉ S.names) (hi : (v.create n p).1 ∉ S.files) :
    S.Agree v (v.create n p).2 := by
  constructor
  · intro q hq
    exact (dir_create_of_ne fun h : q = p => hp (h ▸ hq)).symm
  · intro j hj
    exact (Function.update_of_ne (fun h : j = (v.create n p).1 => hi (h ▸ hj)) _ _).symm

theorem agree_append (hi : i ∉ S.files) : S.Agree v (v.append i xs) :=
  ⟨fun _ _ => rfl, fun _ hj => (Function.update_of_ne (fun h : _ = i => hi (h ▸ hj)) _ _).symm⟩

omit [DecidableEq N] in
theorem agree_rename (hsrc : src ∉ S.names) (hdst : dst ∉ S.names)
    (h : v.rename src dst = some w) : S.Agree v w := by
  obtain ⟨i, hi, rfl⟩ := exists_of_rename h
  refine ⟨fun q hq => ?_, fun _ _ => rfl⟩
  have hqsrc : q ≠ src := fun h => hsrc (h ▸ hq)
  have hqdst : q ≠ dst := fun h => hdst (h ▸ hq)
  show v.dir q = Function.update (Function.update v.dir src none) dst (some i) q
  rw [Function.update_of_ne hqdst, Function.update_of_ne hqsrc]

end Volume

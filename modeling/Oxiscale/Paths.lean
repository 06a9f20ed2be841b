/-
Oxiscale/Paths.lean

Paths, as far as the file store looks at them: `Format::from_path` reads the
extension and `flush` replaces it by `tmp`.

A path is its leading components and its file name, which is absent for `/`
and for paths that end in `..`.  It is the canonical name of a file: no
component is `.` or `..` and none is a link, so that different paths are
different files.  `Disk` and `Volume` have one entry a path and rely on it.

Splitting a file name at its last dot follows the standard library: a name
without a dot, and a name whose only dot is the first character, have no
extension and are their own stem.

The two facts used later are that the temp path never is a path the store
accepts (`tmpPath_ne`) and that it forgets the extension, so that two
accepted paths have the same temp path exactly when they agree on directory
and stem (`tmpPath_eq_iff`).
-/
import Mathlib.Data.List.Basic

namespace Oxiscale

/-- One character for each unit of the platform's encoding. -/
abbrev OsStr := List Char

structure Path where
  parent : List OsStr
  fileName : Option OsStr
deriving DecidableEq

/-- Split at the last occurrence of `c`, which belongs to neither part. -/
def splitLast (c : Char) : OsStr → Option (OsStr × OsStr)
  | [] => none
  | x :: xs =>
    match splitLast c xs with
    | some (before, after) => some (x :: before, after)
    | none => if x = c then some ([], xs) else none

/-- Stem and extension of a file name. -/
def rsplitFileAtDot (file : OsStr) : Option OsStr × Option OsStr :=
  if file = ['.', '.'] then (some file, none)
  else
    match splitLast '.' file with
    | none => (none, some file)
    | some ([], _) => (some file, none)
    | some (before, after) => (some before, some after)

namespace Path

def extension (p : Path) : Option OsStr :=
  p.fileName.bind fun file =>
    match rsplitFileAtDot file with
    | (some _, after) => after
    | (none, _) => none

def fileStem (p : Path) : Option OsStr :=
  p.fileName.bind fun file =>
    match rsplitFileAtDot file with
    | (some before, _) => some before
    | (none, after) => after

/-- `with_extension`, as documented: a path without a file name is left as it
is, and otherwise the name is the stem, a dot and the extension.  One name is
an exception in the library: it cuts the old extension off first, which makes
`..json` into `..`, and that has no file name. -/
def withExtension (ext : OsStr) (p : Path) : Path :=
  match p.fileStem with
  | none => p
  | some stem =>
    { p with fileName := some (if ext = [] then stem else stem ++ '.' :: ext) }

end Path

/-- Snapshot file format. -/
inductive Format
  | json
  | yaml
  | toml
deriving DecidableEq

/-- By the extension, in lower case only. -/
def Format.fromPath (path : Path) : Option Format :=
  match path.extension with
  | none => none
  | some ext =>
    if ext = "json".toList then some .json
    else if ext = "yaml".toList ∨ ext = "yml".toList then some .yaml
    else if ext = "toml".toList then some .toml
    else none

/-- Where `flush` writes before it renames. -/
def Path.tmpPath (p : Path) : Path := p.withExtension "tmp".toList

/-! ### Splitting -/

variable {c : Char} {l before after : OsStr}

/-- There is nothing to split without the character. -/
theorem splitLast_eq_none_iff : splitLast c l = none ↔ c ∉ l := by
  induction l with
  | nil => simp [splitLast]
  | cons x xs ih =>
      rcases hxs : splitLast c xs with - | ⟨b, a⟩
      · have hnot : c ∉ xs := ih.mp hxs
        by_cases hx : x = c
        · simp [splitLast, hxs, hx]
        · simp [splitLast, hxs, hx, hnot, Ne.symm hx]
      · have hmem : c ∈ xs := by
          by_contra hnot
          simp [ih.mpr hnot] at hxs
        simp [splitLast, hxs, hmem]

theorem splitLast_append (h : c ∉ after) :
    splitLast c (before ++ c :: after) = some (before, after) := by
  induction before with
  | nil => simp [splitLast, splitLast_eq_none_iff.mpr h]
  | cons x xs ih => simp [splitLast, ih]

theorem eq_append_of_splitLast (h : splitLast c l = some (before, after)) :
    l = before ++ c :: after ∧ c ∉ after := by
  induction l generalizing before with
  | nil => simp [splitLast] at h
  | cons x xs ih =>
      rcases hxs : splitLast c xs with - | ⟨b, a⟩
      · by_cases hx : x = c
        · obtain ⟨rfl, rfl⟩ : before = [] ∧ after = xs := by
            simpa [splitLast, hxs, hx, eq_comm] using h
          exact ⟨by rw [hx]; rfl, splitLast_eq_none_iff.mp hxs⟩
        · simp [splitLast, hxs, hx] at h
      · obtain ⟨rfl, rfl⟩ : before = x :: b ∧ after = a := by
          simpa [splitLast, hxs, eq_comm] using h
        obtain ⟨rfl, ha⟩ := ih hxs
        exact ⟨rfl, ha⟩

theorem rsplitFileAtDot_append {stem ext : OsStr} (hstem : stem ≠ []) (hext : ext ≠ [])
    (hdot : '.' ∉ ext) : rsplitFileAtDot (stem ++ '.' :: ext) = (some stem, some ext) := by
  have hdots : stem ++ '.' :: ext ≠ ['.', '.'] := by
    intro h
    rcases stem with - | ⟨x, - | ⟨y, rest⟩⟩
    · exact hstem rfl
    · exact hext (List.cons.inj (List.cons.inj h).2).2
    · simp at h
  rcases stem with - | ⟨x, rest⟩
  · exact absurd rfl hstem
  · simp only [rsplitFileAtDot, if_neg hdots, splitLast_append hdot]

namespace Path

variable {p q : Path} {stem ext : OsStr}

theorem extension_of_fileName (h : p.fileName = some (stem ++ '.' :: ext)) (hstem : stem ≠ [])
    (hext : ext ≠ []) (hdot : '.' ∉ ext) : p.extension = some ext := by
  simp [extension, h, rsplitFileAtDot_append hstem hext hdot]

theorem fileStem_of_fileName (h : p.fileName = some (stem ++ '.' :: ext)) (hstem : stem ≠ [])
    (hext : ext ≠ []) (hdot : '.' ∉ ext) : p.fileStem = some stem := by
  simp [fileStem, h, rsplitFileAtDot_append hstem hext hdot]

/-- A name with an extension is a stem that is not empty, a dot, and the
extension. -/
theorem fileName_of_extension (h : p.extension = some ext) :
    ∃ stem, stem ≠ [] ∧ p.fileName = some (stem ++ '.' :: ext) ∧ '.' ∉ ext := by
  obtain ⟨file, hfile, hext⟩ := Option.bind_eq_some_iff.mp h
  by_cases hdots : file = ['.', '.']
  · simp [rsplitFileAtDot, hdots] at hext
  · rcases hs : splitLast '.' file with - | ⟨- | ⟨x, rest⟩, after⟩
    · simp [rsplitFileAtDot, hdots, hs] at hext
    · simp [rsplitFileAtDot, hdots, hs] at hext
    · obtain rfl : after = ext := by simpa [rsplitFileAtDot, hdots, hs] using hext
      obtain ⟨rfl, hdot⟩ := eq_append_of_splitLast hs
      exact ⟨x :: rest, by simp, hfile, hdot⟩

end Path

/-! ### Accepted paths and their temp paths -/

/-- The extensions the store accepts. -/
def acceptedExtensions : List OsStr :=
  ["json".toList, "yaml".toList, "yml".toList, "toml".toList]

/-- A path is accepted exactly for its extension. -/
theorem Format.fromPath_isSome_iff {p : Path} :
    (Format.fromPath p).isSome ↔ ∃ ext ∈ acceptedExtensions, p.extension = some ext := by
  rcases h : p.extension with - | ext
  · simp [Format.fromPath, h]
  · by_cases hj : ext = "json".toList
    · simp [Format.fromPath, h, hj, acceptedExtensions]
    · by_cases hy : ext = "yaml".toList ∨ ext = "yml".toList
      · rcases hy with rfl | rfl <;> simp [Format.fromPath, h, acceptedExtensions]
      · rw [not_or] at hy
        by_cases ht : ext = "toml".toList
        · simp [Format.fromPath, h, ht, acceptedExtensions]
        · simp only [Format.fromPath, h, hj, hy, ht, acceptedExtensions]
          simpa using ⟨hj, hy.1, hy.2, ht⟩

section Accepted

variable {p q : Path}

/-- An accepted file name is a nonempty stem, a dot and an extension. -/
theorem exists_stem (hp : (Format.fromPath p).isSome) :
    ∃ stem, stem ≠ [] ∧ p.fileStem = some stem ∧
      p.tmpPath = ⟨p.parent, some (stem ++ '.' :: "tmp".toList)⟩ := by
  obtain ⟨ext, hmem, hext⟩ := Format.fromPath_isSome_iff.mp hp
  obtain ⟨stem, hstem, hfile, hdot⟩ := Path.fileName_of_extension hext
  have hne : ext ≠ [] := by
    rintro rfl
    exact absurd hmem (by decide)
  have hstem' := Path.fileStem_of_fileName hfile hstem hne hdot
  exact ⟨stem, hstem, hstem', by simp [Path.tmpPath, Path.withExtension, hstem']⟩

/-- A temp path is never a path the store accepts, so no target file is
another store's temp file. -/
theorem tmpPath_ne (hp : (Format.fromPath p).isSome) (hq : (Format.fromPath q).isSome) :
    p.tmpPath ≠ q := by
  rintro rfl
  obtain ⟨stem, hstem, -, htmp⟩ := exists_stem hp
  have hext : p.tmpPath.extension = some "tmp".toList :=
    Path.extension_of_fileName (by rw [htmp]) hstem (by decide) (by decide)
  obtain ⟨ext, hmem, hext'⟩ := Format.fromPath_isSome_iff.mp hq
  obtain rfl := Option.some.inj (hext.symm.trans hext')
  exact absurd hmem (by decide)

/-- The temp path forgets the extension and nothing else. -/
theorem tmpPath_eq_iff (hp : (Format.fromPath p).isSome) (hq : (Format.fromPath q).isSome) :
    p.tmpPath = q.tmpPath ↔ p.parent = q.parent ∧ p.fileStem = q.fileStem := by
  obtain ⟨stem, -, hstem, htmp⟩ := exists_stem hp
  obtain ⟨stem', -, hstem', htmp'⟩ := exists_stem hq
  rw [htmp, htmp', hstem, hstem']
  simp

example : Path.tmpPath ⟨["etc".toList], some "net.json".toList⟩ =
    Path.tmpPath ⟨["etc".toList], some "net.yaml".toList⟩ := by decide

end Accepted

end Oxiscale

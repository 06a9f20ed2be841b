/-
Oxiscale/Keyed.lean

Lists of records addressed by a key: the vectors that stand behind an
in-memory table.  Nothing here is about a particular program.

The concrete side is what a program does with such a vector:

* `get` finds the first record with a key;
* `put` overwrites the first record with the same key in place, and pushes
  when there is none;
* `modify` rewrites the first record with a key in place;
* `erase` retains the records with another key.

The abstract side is a history of such operations and says what a keyed
table is for: `lastWritten` is the content under a key, `insertedAt` the time
of its first write since its last erasure.  A list `Represents` a history
when it holds exactly the last written records, in the order of their
insertion.  Every concrete operation extends the history by the operation of
the same name (`Represents.put`, `Represents.modify`, `Represents.erase`),
and a filtered view of the list is then exactly the filtered history
(`Represents.filter`).
-/
import Mathlib.Data.List.Nodup
import Mathlib.Data.List.Sort

namespace Keyed

variable {α κ : Type*} [DecidableEq κ]

/-! ### The concrete operations -/

/-- Rewrite the first element that satisfies `p`. -/
def modifyFirst (p : α → Bool) (f : α → α) : List α → List α
  | [] => []
  | a :: l => if p a then f a :: l else a :: modifyFirst p f l

/-- The first record with key `k`. -/
def get (key : α → κ) (k : κ) (l : List α) : Option α :=
  l.find? fun a => key a = k

/-- Rewrite the first record with key `k` in place. -/
def modify (key : α → κ) (k : κ) (f : α → α) (l : List α) : List α :=
  modifyFirst (fun a => key a = k) f l

/-- Overwrite the first record with the key of `a`; push `a` when there is
none. -/
def put (key : α → κ) (a : α) (l : List α) : List α :=
  match get key (key a) l with
  | some _ => modify key (key a) (fun _ => a) l
  | none => l ++ [a]

/-- Retain the records whose key is not `k`. -/
def erase (key : α → κ) (k : κ) (l : List α) : List α :=
  l.filter fun a => key a ≠ k

variable {key : α → κ} {k k' : κ} {a b : α} {f : α → α} {l : List α}

/-! ### Reading -/

@[simp] theorem get_nil : get key k [] = none := rfl

theorem get_cons : get key k (a :: l) = if key a = k then some a else get key k l := by
  by_cases h : key a = k <;> simp [get, h]

theorem get_append : get key k (l ++ [a]) =
    (get key k l).or (if key a = k then some a else none) := by
  by_cases h : key a = k <;> simp [get, h]

theorem key_of_get (h : get key k l = some a) : key a = k := by
  simpa using List.find?_some h

theorem mem_of_get (h : get key k l = some a) : a ∈ l :=
  List.mem_of_find?_eq_some h

/-- Nothing is found exactly when no record has the key. -/
theorem get_eq_none_iff : get key k l = none ↔ ∀ a ∈ l, key a ≠ k := by
  simp [get]

/-- With distinct keys the record found under a key is the only one there. -/
theorem get_eq_some_iff (hl : (l.map key).Nodup) :
    get key k l = some a ↔ a ∈ l ∧ key a = k := by
  constructor
  · intro h
    exact ⟨mem_of_get h, key_of_get h⟩
  · rintro ⟨ha, rfl⟩
    rcases h : get key (key a) l with - | b
    · exact absurd rfl (get_eq_none_iff.mp h a ha)
    · rw [List.inj_on_of_nodup_map hl (mem_of_get h) ha (key_of_get h)]

/-! ### Rewriting in place -/

@[simp] theorem modify_nil : modify key k f [] = [] := rfl

theorem modify_cons : modify key k f (a :: l) =
    if key a = k then f a :: l else a :: modify key k f l := by
  by_cases h : key a = k <;> simp [modify, modifyFirst, h]

/-- Changing a record in place leaves the keys, and their order. -/
theorem map_key_modify (hf : ∀ a ∈ get key k l, key (f a) = k) :
    (modify key k f l).map key = l.map key := by
  induction l with
  | nil => rfl
  | cons b l ih =>
      by_cases hb : key b = k
      · have hfb : key (f b) = k := hf b (by simp [get_cons, hb])
        simp [modify_cons, hb, hfb]
      · have ih' := ih fun a ha => hf a (by simpa [get_cons, hb] using ha)
        simp [modify_cons, hb, ih']

/-- The record found is the changed one. -/
theorem get_modify_self (hf : ∀ a ∈ get key k l, key (f a) = k) :
    get key k (modify key k f l) = (get key k l).map f := by
  induction l with
  | nil => rfl
  | cons b l ih =>
      by_cases hb : key b = k
      · have hfb : key (f b) = k := hf b (by simp [get_cons, hb])
        simp [modify_cons, get_cons, hb, hfb]
      · have ih' := ih fun a ha => hf a (by simpa [get_cons, hb] using ha)
        simp [modify_cons, get_cons, hb, ih']

theorem get_modify_of_ne (hf : ∀ a ∈ get key k l, key (f a) = k) (hk : k' ≠ k) :
    get key k' (modify key k f l) = get key k' l := by
  induction l with
  | nil => rfl
  | cons b l ih =>
      by_cases hb : key b = k
      · have hfb : key (f b) = k := hf b (by simp [get_cons, hb])
        simp [modify_cons, get_cons, hb, hfb, hk.symm]
      · have ih' := ih fun a ha => hf a (by simpa [get_cons, hb] using ha)
        simp [modify_cons, get_cons, hb, ih']

/-- Rewriting changes nothing exactly when it leaves the found record as it
is. -/
theorem modify_eq_self_iff :
    modify key k f l = l ↔ ∀ a ∈ get key k l, f a = a := by
  induction l with
  | nil => simp
  | cons b l ih =>
      by_cases hb : key b = k
      · simp [modify_cons, get_cons, hb]
      · simp [modify_cons, get_cons, hb, ih]

/-- The rewritten record is the first one with its key, and nothing else
moves. -/
theorem exists_modify_eq (h : get key k l = some a) :
    ∃ l₁ l₂, l = l₁ ++ a :: l₂ ∧ modify key k f l = l₁ ++ f a :: l₂ := by
  induction l with
  | nil => simp at h
  | cons b l ih =>
      by_cases hb : key b = k
      · obtain rfl : b = a := by simpa [get_cons, hb] using h
        exact ⟨[], l, rfl, by simp [modify_cons, hb]⟩
      · obtain ⟨l₁, l₂, rfl, hmod⟩ := ih (by simpa [get_cons, hb] using h)
        exact ⟨b :: l₁, l₂, rfl, by simp [modify_cons, hb, hmod]⟩

/-- The same with its place: the records before it have other keys. -/
theorem exists_index (h : get key k l = some a) :
    ∃ n, l[n]? = some a ∧ (∀ m < n, ∀ b ∈ l[m]?, key b ≠ k) ∧
      ∀ f, modify key k f l = l.set n (f a) := by
  induction l with
  | nil => simp at h
  | cons b l ih =>
      by_cases hb : key b = k
      · obtain rfl : b = a := by simpa [get_cons, hb] using h
        exact ⟨0, rfl, by simp, fun f => by simp [modify_cons, hb]⟩
      · obtain ⟨n, hn, hbefore, hmod⟩ := ih (by simpa [get_cons, hb] using h)
        refine ⟨n + 1, by simpa using hn, ?_, fun f => by simp [modify_cons, hb, hmod]⟩
        intro m hm c hc
        cases m with
        | zero =>
            obtain rfl : b = c := by simpa using hc
            exact hb
        | succ m => exact hbefore m (by omega) c (by simpa using hc)

theorem modify_congr {g : α → α} (h : ∀ a ∈ get key k l, f a = g a) :
    modify key k f l = modify key k g l := by
  induction l with
  | nil => rfl
  | cons b l ih =>
      by_cases hb : key b = k
      · have hfb : f b = g b := h b (by simp [get_cons, hb])
        simp [modify_cons, hb, hfb]
      · have ih' := ih fun a ha => h a (by simpa [get_cons, hb] using ha)
        simp [modify_cons, hb, ih']

/-! ### Erasing -/

@[simp] theorem erase_nil : erase key k [] = [] := rfl

theorem erase_cons : erase key k (a :: l) =
    if key a = k then erase key k l else a :: erase key k l := by
  by_cases h : key a = k <;> simp [erase, h]

theorem get_erase_self : get key k (erase key k l) = none := by
  simp [get_eq_none_iff, erase]

theorem get_erase_of_ne (hk : k' ≠ k) : get key k' (erase key k l) = get key k' l := by
  induction l with
  | nil => rfl
  | cons b l ih =>
      by_cases hb : key b = k
      · have hbk' : key b ≠ k' := fun h => hk (h ▸ hb)
        rw [erase_cons, if_pos hb, ih, get_cons, if_neg hbk']
      · rw [erase_cons, if_neg hb, get_cons, get_cons, ih]

/-- Erasing leaves the list alone exactly when there is nothing to erase. -/
theorem erase_eq_self_iff : erase key k l = l ↔ get key k l = none := by
  rw [erase, List.filter_eq_self, get_eq_none_iff]
  simp

theorem erase_erase : erase key k (erase key k l) = erase key k l := by
  simp [erase]

/-- The records under other keys keep their content and their order. -/
theorem erase_modify (hf : ∀ a ∈ get key k l, key (f a) = k) :
    erase key k (modify key k f l) = erase key k l := by
  induction l with
  | nil => rfl
  | cons b l ih =>
      by_cases hb : key b = k
      · have hfb : key (f b) = k := hf b (by simp [get_cons, hb])
        simp [modify_cons, erase_cons, hb, hfb]
      · have ih' := ih fun a ha => hf a (by simpa [get_cons, hb] using ha)
        simp [modify_cons, erase_cons, hb, ih']

/-! ### Overwriting or pushing -/

/-- A record that exists is replaced where it stands. -/
theorem put_of_some (h : get key (key a) l = some b) :
    put key a l = modify key (key a) (fun _ => a) l := by
  simp [put, h]

theorem put_of_none (h : get key (key a) l = none) : put key a l = l ++ [a] := by
  simp [put, h]

theorem get_put_self : get key (key a) (put key a l) = some a := by
  rcases h : get key (key a) l with - | b
  · rw [put_of_none h, get_append, h]
    simp
  · rw [put_of_some h, get_modify_self (fun _ _ => rfl), h]
    rfl

theorem get_put_of_ne (hk : k ≠ key a) : get key k (put key a l) = get key k l := by
  rcases h : get key (key a) l with - | b
  · rw [put_of_none h, get_append, if_neg hk.symm, Option.or_none]
  · rw [put_of_some h, get_modify_of_ne (fun _ _ => rfl) hk]

theorem get_put : get key k (put key a l) = if key a = k then some a else get key k l := by
  by_cases hk : key a = k
  · subst hk
    rw [get_put_self, if_pos rfl]
  · rw [get_put_of_ne (Ne.symm hk), if_neg hk]

/-- An upsert that changes nothing writes the record that is there. -/
theorem put_eq_self_iff : put key a l = l ↔ get key (key a) l = some a := by
  rcases h : get key (key a) l with - | b
  · rw [put_of_none h]
    simp
  · rw [put_of_some h, modify_eq_self_iff, h]
    simp [eq_comm]

/-- Overwriting leaves the records under other keys in content and order. -/
theorem erase_put : erase key (key a) (put key a l) = erase key (key a) l := by
  rcases h : get key (key a) l with - | b
  · rw [put_of_none h]
    simp [erase]
  · rw [put_of_some h, erase_modify fun _ _ => rfl]

/-! ### Distinct keys are kept -/

theorem nodup_modify (hl : (l.map key).Nodup) (hf : ∀ a ∈ get key k l, key (f a) = k) :
    ((modify key k f l).map key).Nodup := by
  rwa [map_key_modify hf]

theorem nodup_put (hl : (l.map key).Nodup) : ((put key a l).map key).Nodup := by
  rcases h : get key (key a) l with - | b
  · have hnot : key a ∉ l.map key := by
      simpa [eq_comm] using get_eq_none_iff.mp h
    rw [put_of_none h, List.map_append, List.map_singleton]
    exact List.nodup_append_comm.mp (by simpa using ⟨by simpa using hnot, hl⟩)
  · rw [put_of_some h]
    exact nodup_modify hl fun _ _ => rfl

theorem nodup_erase (hl : (l.map key).Nodup) : ((erase key k l).map key).Nodup :=
  hl.sublist (List.filter_sublist.map key)

/-! ### Views

A view is a filtered list.  An operation acts on the view when the records
under its key are all in it, and passes it by when none of them is. -/

section Views

variable {p : α → Bool}

theorem get_filter_of_not (h : ∀ b ∈ l, key b = k → p b = false) :
    get key k (l.filter p) = none := by
  rw [get_eq_none_iff]
  intro b hb hk
  obtain ⟨hbl, hpb⟩ := List.mem_filter.mp hb
  exact absurd hpb (by simp [h b hbl hk])

/-- A filter that keeps everything under a key keeps what is found there. -/
theorem get_filter (h : ∀ b ∈ l, key b = k → p b = true) :
    get key k (l.filter p) = get key k l := by
  induction l with
  | nil => rfl
  | cons b l ih =>
      have ih := ih fun c hc => h c (List.mem_cons_of_mem b hc)
      rcases hp : p b with - | -
      · have hb : key b ≠ k := fun hb => by simp [h b List.mem_cons_self hb] at hp
        rw [List.filter_cons_of_neg (by simp [hp]), ih, get_cons, if_neg hb]
      · rw [List.filter_cons_of_pos hp, get_cons, get_cons, ih]

/-- A change and a filter commute where the filter keeps the record before and
after. -/
theorem filter_modify (h : ∀ b ∈ l, key b = k → p b = true)
    (hf : ∀ b ∈ l, key b = k → p (f b) = true) :
    (modify key k f l).filter p = modify key k f (l.filter p) := by
  induction l with
  | nil => rfl
  | cons b l ih =>
      have ih := ih (fun c hc => h c (List.mem_cons_of_mem b hc))
        fun c hc => hf c (List.mem_cons_of_mem b hc)
      by_cases hb : key b = k
      · rw [modify_cons, if_pos hb, List.filter_cons_of_pos (hf b List.mem_cons_self hb),
          List.filter_cons_of_pos (h b List.mem_cons_self hb), modify_cons, if_pos hb]
      · rw [modify_cons, if_neg hb]
        rcases hp : p b with - | -
        · rw [List.filter_cons_of_neg (by simp [hp]), List.filter_cons_of_neg (by simp [hp]), ih]
        · rw [List.filter_cons_of_pos hp, List.filter_cons_of_pos hp, modify_cons, if_neg hb, ih]

/-- A change of a record that is filtered out before and after does not show. -/
theorem filter_modify_of_not (h : ∀ b ∈ l, key b = k → p b = false)
    (hf : ∀ b ∈ l, key b = k → p (f b) = false) :
    (modify key k f l).filter p = l.filter p := by
  induction l with
  | nil => rfl
  | cons b l ih =>
      have ih := ih (fun c hc => h c (List.mem_cons_of_mem b hc))
        fun c hc => hf c (List.mem_cons_of_mem b hc)
      by_cases hb : key b = k
      · rw [modify_cons, if_pos hb,
          List.filter_cons_of_neg (by simp [hf b List.mem_cons_self hb]),
          List.filter_cons_of_neg (by simp [h b List.mem_cons_self hb])]
      · rw [modify_cons, if_neg hb, List.filter_cons, List.filter_cons, ih]

/-- An upsert and a filter commute where the filter keeps the old record and
the new one. -/
theorem filter_put (ha : p a = true) (h : ∀ b ∈ l, key b = key a → p b = true) :
    (put key a l).filter p = put key a (l.filter p) := by
  have hget := get_filter h
  rcases hg : get key (key a) l with - | b
  · rw [put_of_none hg, put_of_none (hget.trans hg), List.filter_append,
      List.filter_cons_of_pos ha, List.filter_nil]
  · rw [put_of_some hg, put_of_some (hget.trans hg), filter_modify h fun _ _ _ => ha]

/-- An upsert of a record that is filtered out, and replaces such a one, does
not show. -/
theorem filter_put_of_not (ha : p a = false) (h : ∀ b ∈ l, key b = key a → p b = false) :
    (put key a l).filter p = l.filter p := by
  rcases hg : get key (key a) l with - | b
  · rw [put_of_none hg, List.filter_append, List.filter_cons_of_neg (by simp [ha]),
      List.filter_nil, List.append_nil]
  · rw [put_of_some hg, filter_modify_of_not h fun _ _ _ => ha]

theorem filter_erase : (erase key k l).filter p = erase key k (l.filter p) := by
  rw [erase, erase, List.filter_filter, List.filter_filter]
  simp only [Bool.and_comm]

theorem filter_erase_of_not (h : ∀ b ∈ l, key b = k → p b = false) :
    (erase key k l).filter p = l.filter p := by
  rw [filter_erase, erase_eq_self_iff]
  exact get_filter_of_not h

omit [DecidableEq κ] in
/-- With distinct keys, what holds of the record found under a key holds of
every record there. -/
theorem forall_key (hl : (l.map key).Nodup) (ha : a ∈ l) (hk : key a = k) {P : α → Prop}
    (hP : P a) : ∀ b ∈ l, key b = k → P b := by
  intro b hb hbk
  rwa [List.inj_on_of_nodup_map hl hb ha (hbk.trans hk.symm)]

/-- With distinct keys, a record is the only one under its key. -/
theorem filter_key (hl : (l.map key).Nodup) (h : get key k l = some a) :
    l.filter (fun b => key b = k) = [a] := by
  induction l with
  | nil => cases h
  | cons b l ih =>
      rw [List.map_cons, List.nodup_cons] at hl
      rw [get_cons] at h
      by_cases hb : key b = k
      · rw [if_pos hb] at h
        have hrest : l.filter (fun b => key b = k) = [] := by
          rw [List.filter_eq_nil_iff]
          intro c hc hck
          refine hl.1 (List.mem_map.mpr ⟨c, hc, ?_⟩)
          rw [of_decide_eq_true hck, hb]
        rw [List.filter_cons_of_pos (by simpa using hb), hrest, Option.some.inj h]
      · rw [if_neg hb] at h
        rw [List.filter_cons_of_neg (by simpa using hb), ih hl.2 h]

/-- In a view it stands once or not at all. -/
theorem filter_filter_key (hl : (l.map key).Nodup) (h : get key k l = some a) :
    (l.filter p).filter (fun b => key b = k) = if p a then [a] else [] := by
  rw [List.filter_comm, filter_key hl h, List.filter_cons]
  rfl

end Views

/-! ### Related lists

Two lists with related records, whose keys agree where they are used. -/

section Related

variable {β κ' : Type*} [DecidableEq κ'] {R : β → α → Prop} {key' : β → κ'} {m : κ'} {l' : List β}

theorem get_eq_none_of_forall₂ (h : List.Forall₂ R l' l)
    (hkey : ∀ b a, R b a → (key' b = m ↔ key a = k)) :
    get key' m l' = none ↔ get key k l = none := by
  induction h with
  | nil => exact ⟨fun _ => rfl, fun _ => rfl⟩
  | @cons b a _ _ hab _ ih =>
      rw [get_cons, get_cons]
      by_cases hk : key a = k
      · rw [if_pos hk, if_pos ((hkey _ _ hab).mpr hk)]
        constructor
        · intro h
          cases h
        · intro h
          cases h
      · rw [if_neg hk, if_neg fun h => hk ((hkey _ _ hab).mp h)]
        exact ih

/-- Related changes of related lists. -/
theorem forall₂_modify {g : β → β} (h : List.Forall₂ R l' l)
    (hkey : ∀ b a, R b a → (key' b = m ↔ key a = k))
    (hf : ∀ b a, R b a → key a = k → R (g b) (f a)) :
    List.Forall₂ R (modify key' m g l') (modify key k f l) := by
  induction h with
  | nil => exact .nil
  | @cons b a _ _ hab hrest ih =>
      rw [modify_cons, modify_cons]
      by_cases hk : key a = k
      · rw [if_pos hk, if_pos ((hkey _ _ hab).mpr hk)]
        exact .cons (hf _ _ hab hk) hrest
      · rw [if_neg hk, if_neg fun h => hk ((hkey _ _ hab).mp h)]
        exact .cons hab ih

theorem forall₂_erase (h : List.Forall₂ R l' l)
    (hkey : ∀ b a, R b a → (key' b = m ↔ key a = k)) :
    List.Forall₂ R (erase key' m l') (erase key k l) := by
  induction h with
  | nil => exact .nil
  | @cons b a _ _ hab hrest ih =>
      rw [erase_cons, erase_cons]
      by_cases hk : key a = k
      · rw [if_pos hk, if_pos ((hkey _ _ hab).mpr hk)]
        exact ih
      · rw [if_neg hk, if_neg fun h => hk ((hkey _ _ hab).mp h)]
        exact .cons hab ih

theorem forall₂_put {c : β} (h : List.Forall₂ R l' l) (hnew : R c a)
    (hkey : ∀ b a', R b a' → (key' b = key' c ↔ key a' = key a)) :
    List.Forall₂ R (put key' c l') (put key a l) := by
  have hnone := get_eq_none_of_forall₂ h hkey
  rcases hg : get key (key a) l with - | b
  · rw [put_of_none hg, put_of_none (hnone.mpr hg)]
    exact List.rel_append h (.cons hnew .nil)
  · rcases hg' : get key' (key' c) l' with - | b'
    · rw [hnone.mp hg'] at hg
      cases hg
    · rw [put_of_some hg, put_of_some hg']
      exact forall₂_modify h hkey fun _ _ _ _ => hnew

end Related

/-! ### The abstract side: what a history of operations leaves -/

/-- An operation on a keyed table. -/
inductive Event (α κ : Type*)
  | put (a : α)
  | modify (k : κ) (f : α → α)
  | erase (k : κ)

/-- The content under `k` after a history, newest event first: what was last
written there, with the later modifications, and nothing once erased. -/
def lastWritten (key : α → κ) (k : κ) : List (Event α κ) → Option α
  | [] => none
  | .put a :: es => if key a = k then some a else lastWritten key k es
  | .modify k' f :: es =>
    if k' = k then (lastWritten key k es).map f else lastWritten key k es
  | .erase k' :: es => if k' = k then none else lastWritten key k es

/-- The number of events before the one that inserted `k`: the first `put` of
`k` since its last erasure (newest event first). -/
def insertedAt (key : α → κ) (k : κ) : List (Event α κ) → ℕ
  | [] => 0
  | .put a :: es =>
    if key a = k ∧ lastWritten key k es = none then es.length else insertedAt key k es
  | .modify _ _ :: es => insertedAt key k es
  | .erase _ :: es => insertedAt key k es

/-- The list holds exactly what the history left, in the order of insertion. -/
structure Represents (key : α → κ) (es : List (Event α κ)) (l : List α) : Prop where
  get_eq : ∀ k, get key k l = lastWritten key k es
  sorted : (l.map key).Pairwise fun k k' => insertedAt key k es < insertedAt key k' es
  inserted_lt : ∀ k ∈ l.map key, insertedAt key k es < es.length

/-- A view of a history: exactly the last written records that satisfy `p`,
in the order of insertion (and so each of them once). -/
structure ListsExactly (key : α → κ) (es : List (Event α κ)) (p : α → Bool) (l : List α) :
    Prop where
  mem_iff : ∀ a, a ∈ l ↔ lastWritten key (key a) es = some a ∧ p a = true
  ordered : l.Pairwise fun a b => insertedAt key (key a) es < insertedAt key (key b) es

namespace Represents

variable {es : List (Event α κ)}

/-- What a history describes has distinct keys. -/
theorem nodup (h : Represents key es l) : (l.map key).Nodup :=
  h.sorted.imp fun {k k'} hlt heq => by
    subst heq
    exact lt_irrefl _ hlt

/-- A record is in the list exactly if it is what was last written under its
key. -/
theorem mem_iff (h : Represents key es l) : a ∈ l ↔ lastWritten key (key a) es = some a := by
  rw [← h.get_eq, get_eq_some_iff h.nodup]
  simp

/-- Filtering the list is filtering the history. -/
theorem filter (h : Represents key es l) (p : α → Bool) : ListsExactly key es p (l.filter p) where
  mem_iff a := by rw [List.mem_filter, h.mem_iff]
  ordered := (List.pairwise_map (R := fun k k' => insertedAt key k es < insertedAt key k' es).mp
    h.sorted).sublist List.filter_sublist

theorem nil : Represents key ([] : List (Event α κ)) [] :=
  ⟨fun _ => rfl, List.Pairwise.nil, by simp⟩

theorem put (h : Represents key es l) :
    Represents key (.put a :: es) (Keyed.put key a l) := by
  -- a put is an insertion if the key is new and a replacement otherwise
  have hget : ∀ k, Keyed.get key k (Keyed.put key a l) = lastWritten key k (.put a :: es) := by
    intro k
    rw [get_put, lastWritten, h.get_eq]
  rcases hc : Keyed.get key (key a) l with - | b
  · -- a new key goes to the end, and its insertion is the latest
    have habs : lastWritten key (key a) es = none := by rw [← h.get_eq, hc]
    have hne : ∀ k ∈ l.map key, key a ≠ k := by
      intro k hk heq
      obtain ⟨b, hb, rfl⟩ := List.mem_map.mp hk
      exact get_eq_none_iff.mp hc b hb heq.symm
    have hkeep : ∀ k ∈ l.map key, insertedAt key k (.put a :: es) = insertedAt key k es := by
      intro k hk
      rw [insertedAt, if_neg fun hk' => hne k hk hk'.1]
    have hnew : insertedAt key (key a) (.put a :: es) = es.length := by
      rw [insertedAt, if_pos ⟨rfl, habs⟩]
    refine ⟨hget, ?_, ?_⟩
    · rw [put_of_none hc, List.map_append, List.pairwise_append]
      refine ⟨h.sorted.imp_of_mem fun hk hk' hlt => ?_, by simp, ?_⟩
      · rwa [hkeep _ hk, hkeep _ hk']
      · intro k hk k' hk'
        obtain rfl : k' = key a := by simpa using hk'
        rw [hkeep k hk, hnew]
        exact h.inserted_lt k hk
    · rw [put_of_none hc, List.map_append]
      intro k hk
      rcases List.mem_append.mp hk with hk | hk
      · rw [hkeep k hk]
        exact Nat.lt_succ_of_lt (h.inserted_lt k hk)
      · obtain rfl : k = key a := by simpa using hk
        rw [hnew]
        exact Nat.lt_succ_self _
  · -- a present key keeps its place
    have hpres : lastWritten key (key a) es = some b := by rw [← h.get_eq, hc]
    have hkeep : ∀ k, insertedAt key k (.put a :: es) = insertedAt key k es := by
      intro k
      rw [insertedAt, if_neg]
      rintro ⟨rfl, habs⟩
      simp [hpres] at habs
    have hmap : (Keyed.put key a l).map key = l.map key := by
      rw [put_of_some hc, map_key_modify fun _ _ => rfl]
    refine ⟨hget, ?_, ?_⟩
    · rw [hmap]
      simpa only [hkeep] using h.sorted
    · rw [hmap]
      intro k hk
      rw [hkeep]
      exact Nat.lt_succ_of_lt (h.inserted_lt k hk)

theorem modify (h : Represents key es l) (hf : ∀ a ∈ Keyed.get key k l, key (f a) = k) :
    Represents key (.modify k f :: es) (Keyed.modify key k f l) := by
  have hmap := map_key_modify hf
  refine ⟨fun k' => ?_, ?_, ?_⟩
  · by_cases hk : k = k'
    · subst hk
      rw [get_modify_self hf, lastWritten, if_pos rfl, h.get_eq]
    · rw [get_modify_of_ne hf (Ne.symm hk), lastWritten, if_neg hk, h.get_eq]
  · rw [hmap]
    exact h.sorted
  · rw [hmap]
    exact fun k' hk' => Nat.lt_succ_of_lt (h.inserted_lt k' hk')

theorem erase (h : Represents key es l) :
    Represents key (.erase k :: es) (Keyed.erase key k l) := by
  have hsub : ((Keyed.erase key k l).map key).Sublist (l.map key) :=
    List.filter_sublist.map key
  refine ⟨fun k' => ?_, h.sorted.sublist hsub, ?_⟩
  · by_cases hk : k = k'
    · subst hk
      rw [get_erase_self, lastWritten, if_pos rfl]
    · rw [get_erase_of_ne (Ne.symm hk), lastWritten, if_neg hk, h.get_eq]
  · exact fun k' hk' => Nat.lt_succ_of_lt (h.inserted_lt k' (hsub.subset hk'))

end Represents

end Keyed

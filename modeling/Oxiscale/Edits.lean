/-
Oxiscale/Edits.lean

Pre-auth keys that are redeemed while they are being edited.

An edit is two calls: a client lists the keys, and later writes one of the
listed records back with other tags or another expiry.  The record written
back carries the `used` flag that was read, so a consume that falls between
the two calls is undone (`edited_key_redeemed_twice`).

What does hold is relative to one id: as long as no consume of it wins
between the read and the write-back of an edit of it (`NotOvertaken`), the
flag is monotone and a single-use key is redeemed at most once.  The
invariant `EditInv` ties every edit in progress to the stored record: they
agree on `reusable`, and on `used` unless the id has been won since the read.
-/
import Oxiscale.Redeem

namespace Oxiscale

open MemoryStore

variable {C : Type*}

/-! ### Clients of one store -/

/-- The store and its clients.  `editing c` is the record client `c` has read
and not written back, with the number of wins of its id at the read; `won`
lists the ids of the consume calls that returned `true`.  The numbers of wins
are history and decide no step. -/
structure Clients (C : Type*) where
  doc : StoreDocument
  editing : C → Option (PreAuthKey × ℕ)
  won : List PreAuthKeyId

def Clients.start (doc : StoreDocument) : Clients C := ⟨doc, fun _ => none, []⟩

/-- The record a client writes back. -/
def PreAuthKey.edited (key : PreAuthKey) (tags : List String) (expiresAt : Option String) :
    PreAuthKey :=
  { key with tags := tags, expiresAt := expiresAt }

/-- One call of one client. -/
inductive Move (C : Type*)
  | consume (now : Instant) (id : PreAuthKeyId)
  | create (key : PreAuthKey)
  | read (c : C) (network : NetworkId) (key : PreAuthKey)
  | write (c : C) (tags : List String) (expiresAt : Option String)

/-- A key is created under a fresh id, a client reads a record by listing its
network, and a write-back changes the tags and the expiry only. -/
def Clients.step [Chrono] [DecidableEq C] (s : Clients C) : Move C → Option (Clients C)
  | .consume now id =>
    let (won, doc) := consumePreauthKey now id s.doc
    some { s with doc := doc, won := if won then id :: s.won else s.won }
  | .create key =>
    if Keyed.get PreAuthKey.id key.id s.doc.preauthKeys = none then
      some { s with doc := upsertPreauthKey key s.doc }
    else none
  | .read c network key =>
    if key ∈ listPreauthKeys network s.doc then
      some { s with
        editing := Function.update s.editing c (some (key, s.won.count key.id)) }
    else none
  | .write c tags expiresAt =>
    (s.editing c).map fun e =>
      { s with
        doc := upsertPreauthKey (e.1.edited tags expiresAt) s.doc
        editing := Function.update s.editing c none }

/-- No consume of `id` has returned `true` since the record that is written
back was read. -/
def NotOvertaken (id : PreAuthKeyId) (s : Clients C) : Move C → Prop
  | .write c _ _ => ∀ e ∈ s.editing c, e.1.id = id → s.won.count id = e.2
  | _ => True

/-! ### The invariant -/

/-- Edits in progress agree with the stored record of `id`, and its wins are
counted by its `used` flag. -/
structure EditInv (id : PreAuthKeyId) (s : Clients C) : Prop where
  nodup : (s.doc.preauthKeys.map PreAuthKey.id).Nodup
  editing : ∀ c, ∀ e ∈ s.editing c, e.1.id = id → ∃ key,
    Keyed.get PreAuthKey.id id s.doc.preauthKeys = some key ∧
    key.reusable = e.1.reusable ∧ e.2 ≤ s.won.count id ∧
    (s.won.count id = e.2 → key.used = e.1.used)
  wins : ∀ key, Keyed.get PreAuthKey.id id s.doc.preauthKeys = some key →
    key.reusable = false → s.won.count id ≤ if key.used then 1 else 0
  absent : Keyed.get PreAuthKey.id id s.doc.preauthKeys = none → s.won.count id = 0

namespace EditInv

variable {id : PreAuthKeyId} {s t : Clients C}

theorem start {doc : StoreDocument} (hd : (doc.preauthKeys.map PreAuthKey.id).Nodup) :
    EditInv id (Clients.start doc : Clients C) :=
  ⟨hd, by simp [Clients.start], by simp [Clients.start], fun _ => rfl⟩

/-- Calls that leave the record of `id` and its wins alone keep the
invariant. -/
theorem of_same (h : EditInv id s) (hnodup : (t.doc.preauthKeys.map PreAuthKey.id).Nodup)
    (hget : Keyed.get PreAuthKey.id id t.doc.preauthKeys =
      Keyed.get PreAuthKey.id id s.doc.preauthKeys)
    (hwon : t.won.count id = s.won.count id)
    (hedit : ∀ c, ∀ e ∈ t.editing c, e.1.id = id → e ∈ s.editing c) : EditInv id t := by
  refine ⟨hnodup, fun c e he hid => ?_, ?_, ?_⟩
  · rw [hget, hwon]
    exact h.editing c e (hedit c e he hid) hid
  · rw [hget, hwon]
    exact h.wins
  · rw [hget, hwon]
    exact h.absent

/-- A consume marks the key it wins, unless that may be won again. -/
theorem consume [Chrono] (h : EditInv id s) (now : Instant) (id' : PreAuthKeyId)
    {won : Bool} {doc : StoreDocument} (hc : consumePreauthKey now id' s.doc = (won, doc)) :
    EditInv id { s with doc := doc, won := if won then id' :: s.won else s.won } := by
  rcases consumePreauthKey_cases now id' s.doc with
    ⟨h', -⟩ | ⟨key, hg, -, hr, h'⟩ | ⟨key, hg, -, hr, hu, h'⟩ <;>
    obtain ⟨rfl, rfl⟩ := Prod.mk.inj (hc.symm.trans h')
  · exact h.of_same h.nodup rfl rfl fun _ _ he _ => he
  · -- a key that serves many times: only the number of wins changes
    refine ⟨h.nodup, fun c e he hid => ?_, fun k hk hkr => ?_, fun hnone => ?_⟩
    · obtain ⟨k, hk, hreu, hle, hused⟩ := h.editing c e he hid
      have hcount : s.won.count id ≤ (id' :: s.won).count id := List.count_le_count_cons
      refine ⟨k, hk, hreu, hle.trans hcount, fun heq => hused ?_⟩
      exact le_antisymm (hcount.trans_eq heq) hle
    · have hne : id' ≠ id := by
        rintro rfl
        obtain rfl := Option.some.inj (hg.symm.trans hk)
        simp [hr] at hkr
      simpa [List.count_cons_of_ne hne] using h.wins k hk hkr
    · have hne : id' ≠ id := by
        rintro rfl
        simp [hg] at hnone
      simpa [List.count_cons_of_ne hne] using h.absent hnone
  · -- a single-use key: its flag goes up together with the number of wins
    have hnodup := Keyed.nodup_modify (k := id') h.nodup markUsed_id_of_get
    by_cases hne : id' = id
    · subst hne
      have hget : Keyed.get PreAuthKey.id id'
          (Keyed.modify PreAuthKey.id id' markUsed s.doc.preauthKeys) = some (markUsed key) := by
        rw [Keyed.get_modify_self markUsed_id_of_get, hg]
        rfl
      refine ⟨hnodup, fun c e he hid => ?_, fun k hk hkr => ?_, fun hnone => ?_⟩
      · obtain ⟨k, hk, hreu, hle, -⟩ := h.editing c e he hid
        obtain rfl := Option.some.inj (hg.symm.trans hk)
        refine ⟨markUsed key, hget, hreu, ?_, fun heq => ?_⟩
        · simpa using Nat.le_succ_of_le hle
        · exact absurd heq (by simp; omega)
      · obtain rfl := Option.some.inj (hget.symm.trans hk)
        have hzero : s.won.count id' ≤ 0 := by simpa [hu] using h.wins key hg hr
        simpa [markUsed] using hzero
      · simp [hget] at hnone
    · have hget : Keyed.get PreAuthKey.id id
          (Keyed.modify PreAuthKey.id id' markUsed s.doc.preauthKeys) =
          Keyed.get PreAuthKey.id id s.doc.preauthKeys :=
        Keyed.get_modify_of_ne markUsed_id_of_get (Ne.symm hne)
      exact h.of_same hnodup hget (List.count_cons_of_ne hne) fun _ _ he _ => he

theorem create (h : EditInv id s) (key : PreAuthKey)
    (hfresh : Keyed.get PreAuthKey.id key.id s.doc.preauthKeys = none) :
    EditInv id { s with doc := upsertPreauthKey key s.doc } := by
  have hnodup := Keyed.nodup_put (a := key) h.nodup
  by_cases hne : key.id = id
  · subst hne
    have hget : Keyed.get PreAuthKey.id key.id (Keyed.put PreAuthKey.id key s.doc.preauthKeys) =
        some key := Keyed.get_put_self
    have hzero := h.absent hfresh
    refine ⟨hnodup, fun c e he hid => ?_, fun k _ _ => ?_, fun _ => hzero⟩
    · obtain ⟨k, hk, -⟩ := h.editing c e he hid
      simp [hfresh] at hk
    · simp [hzero]
  · exact h.of_same hnodup (Keyed.get_put_of_ne (Ne.symm hne)) rfl fun _ _ he _ => he

/-- An edit remembers how often its key had been won when it was read. -/
theorem read [DecidableEq C] (h : EditInv id s) (c : C) (network : NetworkId)
    (key : PreAuthKey) (hmem : key ∈ listPreauthKeys network s.doc) :
    EditInv id { s with
      editing := Function.update s.editing c (some (key, s.won.count key.id)) } := by
  refine ⟨h.nodup, fun c' e he hid => ?_, h.wins, h.absent⟩
  rcases eq_or_ne c' c with rfl | hne
  · obtain rfl : (key, s.won.count key.id) = e := by simpa using he
    have hget := (Keyed.get_eq_some_iff h.nodup).mpr ⟨List.mem_of_mem_filter hmem, hid⟩
    exact ⟨key, hget, rfl, by simp [← hid], fun _ => rfl⟩
  · have he' : e ∈ s.editing c' := by simpa [Function.update_of_ne hne] using he
    exact h.editing c' e he' hid

/-- An edit that is not overtaken writes back the use it has read. -/
theorem write [DecidableEq C] (h : EditInv id s) (c : C) (tags : List String)
    (expiresAt : Option String) (e : PreAuthKey × ℕ) (he : s.editing c = some e)
    (hok : e.1.id = id → s.won.count id = e.2) :
    EditInv id { s with
      doc := upsertPreauthKey (e.1.edited tags expiresAt) s.doc
      editing := Function.update s.editing c none } := by
  have hnodup : ((upsertPreauthKey (e.1.edited tags expiresAt)
      s.doc).preauthKeys.map PreAuthKey.id).Nodup := Keyed.nodup_put h.nodup
  have hedit : ∀ c', ∀ e' ∈ Function.update s.editing c none c', e' ∈ s.editing c' := by
    intro c' e' he'
    rcases eq_or_ne c' c with rfl | hne
    · simp at he'
    · rwa [Function.update_of_ne hne] at he'
  -- either this key is written back, with its record as it is stored, or another one
  by_cases hid : e.1.id = id
  · obtain ⟨key, hget, hreu, -, hused⟩ := h.editing c e he hid
    have husedEq := hused (hok hid)
    have hput : Keyed.get PreAuthKey.id id
        (upsertPreauthKey (e.1.edited tags expiresAt) s.doc).preauthKeys =
        some (e.1.edited tags expiresAt) := by
      rw [getKey_upsert, if_pos (show (e.1.edited tags expiresAt).id = id from hid)]
    refine ⟨hnodup, fun c' e' he' hid' => ?_, fun k hk hkr => ?_, fun hnone => ?_⟩
    · obtain ⟨k, hk, hreu', hle', hused'⟩ := h.editing c' e' (hedit c' e' he') hid'
      obtain rfl := Option.some.inj (hget.symm.trans hk)
      exact ⟨_, hput, hreu.symm.trans hreu', hle', fun heq => husedEq.symm.trans (hused' heq)⟩
    · obtain rfl := Option.some.inj (hput.symm.trans hk)
      have hwins := h.wins key hget (hreu.trans hkr)
      rwa [husedEq] at hwins
    · simp [hput] at hnone
  · have hget : Keyed.get PreAuthKey.id id
        (upsertPreauthKey (e.1.edited tags expiresAt) s.doc).preauthKeys =
        Keyed.get PreAuthKey.id id s.doc.preauthKeys := by
      rw [getKey_upsert, if_neg (show (e.1.edited tags expiresAt).id ≠ id from hid)]
    exact h.of_same hnodup hget rfl fun c' e' he' _ => hedit c' e' he'

/-- **Step lemma.** -/
theorem step [Chrono] [DecidableEq C] (h : EditInv id s) {m : Move C}
    (hok : NotOvertaken id s m) (hstep : s.step m = some t) : EditInv id t := by
  cases m with
  | consume now id' =>
      obtain rfl := Option.some.inj hstep
      exact h.consume now id' rfl
  | create key =>
      rw [Clients.step] at hstep
      split at hstep
      · obtain rfl := Option.some.inj hstep
        exact h.create key ‹_›
      · cases hstep
  | read c network key =>
      rw [Clients.step] at hstep
      split at hstep
      · obtain rfl := Option.some.inj hstep
        exact h.read c network key ‹_›
      · cases hstep
  | write c tags expiresAt =>
      obtain ⟨e, he, rfl⟩ := Option.map_eq_some_iff.mp hstep
      exact h.write c tags expiresAt e he (hok e he)

end EditInv

/-! ### The flag is monotone -/

/-- The stored record of `id` is marked as used. -/
def MarkedUsed (id : PreAuthKeyId) (doc : StoreDocument) : Prop :=
  ∃ key, Keyed.get PreAuthKey.id id doc.preauthKeys = some key ∧ key.used = true

section Monotone

variable [Chrono] {id : PreAuthKeyId}

/-- No consume makes a used key unused. -/
theorem markedUsed_consume {doc : StoreDocument} (h : MarkedUsed id doc) (now : Instant)
    (id' : PreAuthKeyId) : MarkedUsed id (consumePreauthKey now id' doc).2 := by
  obtain ⟨key, hget, hused⟩ := h
  have hcall := @getKey_call _ doc id (.mutate (.consumePreauthKey id'), now)
  rw [hget] at hcall
  refine ⟨_, hcall, ?_⟩
  split
  · rcases hr : key.reusable with - | - <;> simp [redeem, markUsed, hr, hused]
  · exact hused

theorem markedUsed_step [DecidableEq C] {s t : Clients C} {m : Move C} (hinv : EditInv id s)
    (hok : NotOvertaken id s m) (h : MarkedUsed id s.doc) (hstep : s.step m = some t) :
    MarkedUsed id t.doc := by
  obtain ⟨key, hget, hused⟩ := h
  cases m with
  | consume now id' =>
      obtain rfl := Option.some.inj hstep
      exact markedUsed_consume ⟨key, hget, hused⟩ now id'
  | create key' =>
      rw [Clients.step] at hstep
      split at hstep
      · rename_i hfresh
        obtain rfl := Option.some.inj hstep
        have hne : id ≠ key'.id := by
          rintro rfl
          simp [hfresh] at hget
        exact ⟨key, (Keyed.get_put_of_ne hne).trans hget, hused⟩
      · cases hstep
  | read c network key' =>
      rw [Clients.step] at hstep
      split at hstep
      · obtain rfl := Option.some.inj hstep
        exact ⟨key, hget, hused⟩
      · cases hstep
  | write c tags expiresAt =>
      obtain ⟨e, he, rfl⟩ := Option.map_eq_some_iff.mp hstep
      by_cases hid : e.1.id = id
      · -- the record written back agrees with the stored one on `used`
        obtain ⟨k, hk, -, -, hagree⟩ := hinv.editing c e he hid
        obtain rfl := Option.some.inj (hget.symm.trans hk)
        refine ⟨e.1.edited tags expiresAt, ?_, (hagree (hok e he hid)).symm.trans hused⟩
        rw [getKey_upsert, if_pos (show (e.1.edited tags expiresAt).id = id from hid)]
      · refine ⟨key, ?_, hused⟩
        rw [getKey_upsert, if_neg (show (e.1.edited tags expiresAt).id ≠ id from hid)]
        exact hget

end Monotone

/-! ### At most one redemption -/

/-- An edit that reads before a consume and writes back after it makes a
redeemed single-use key redeemable again. -/
theorem edited_key_redeemed_twice :
    ¬ ∀ (moves : List (Move Unit)) (s : Clients Unit),
      Runs.exec (@Clients.step Unit Chrono.unasked _) (Clients.start new) moves = some s →
      ∀ id key, Keyed.get PreAuthKey.id id s.doc.preauthKeys = some key →
        key.reusable = false → s.won.count id ≤ 1 := by
  intro h
  let key : PreAuthKey := ⟨⟨1⟩, ⟨1⟩, "000000000001", "hash", false, false, false, none, []⟩
  have hcount := h [.create key, .read () ⟨1⟩ key, .consume 0 ⟨1⟩, .write () ["tag:a"] none,
    .consume 0 ⟨1⟩] _ rfl ⟨1⟩ _ rfl rfl
  exact absurd hcount (by decide)

/-- **A single-use key is redeemed at most once while keys are being edited**,
in every run from a store that any calls have led to in which no consume of
that id wins between the read and the write-back of an edit of it; and a
record once marked as used stays marked. -/
theorem redeemed_at_most_once [Chrono] [DecidableEq C] (calls : List (Call × Instant))
    (id : PreAuthKeyId) (moves more : List (Move C)) (s t : Clients C)
    (hok : Runs.Guarded Clients.step (NotOvertaken id)
      (Clients.start (Runs.final call new calls)) (moves ++ more))
    (hmoves : Runs.exec Clients.step (Clients.start (Runs.final call new calls)) moves = some s)
    (hmore : Runs.exec Clients.step s more = some t) :
    (∀ key, Keyed.get PreAuthKey.id id t.doc.preauthKeys = some key → key.reusable = false →
      t.won.count id ≤ 1) ∧
    (MarkedUsed id s.doc → MarkedUsed id t.doc) := by
  have hstart : EditInv id (Clients.start (Runs.final call new calls) : Clients C) :=
    EditInv.start (Ordered.run calls).preauthKeys.nodup
  have hs : EditInv id s :=
    Runs.exec_invariant (fun _ _ _ h hok hstep => h.step hok hstep) hstart hok.left hmoves
  have ht : EditInv id t := Runs.exec_invariant (fun _ _ _ h hok hstep => h.step hok hstep) hs
    (hok.right hmoves) hmore
  refine ⟨fun key hget hr => (ht.wins key hget hr).trans (by split <;> simp), fun hused => ?_⟩
  refine (Runs.exec_invariant (P := fun u : Clients C => EditInv id u ∧ MarkedUsed id u.doc)
    ?_ ⟨hs, hused⟩ (hok.right hmoves) hmore).2
  rintro u m v ⟨hu, hmark⟩ hm hstep
  exact ⟨hu.step hm hstep, markedUsed_step hu hm hmark hstep⟩

/-- A key is created, edited and redeemed; redeeming it again fails. -/
theorem redeemed_at_most_once_after_edit :
    letI := Chrono.unasked
    let key : PreAuthKey := ⟨⟨1⟩, ⟨1⟩, "000000000001", "hash", false, false, false, none, []⟩
    ∃ s t : Clients Unit,
      Runs.exec Clients.step (Clients.start new)
        [.create key, .read () ⟨1⟩ key, .write () ["tag:a"] none, .consume 0 ⟨1⟩] = some s ∧
      Runs.exec Clients.step s [.consume 0 ⟨1⟩] = some t ∧
      t.won.count ⟨1⟩ ≤ 1 ∧ (MarkedUsed ⟨1⟩ s.doc → MarkedUsed ⟨1⟩ t.doc) := by
  let _ := Chrono.unasked
  intro key
  refine ⟨_, _, rfl, rfl, ?_⟩
  have hok : Runs.Guarded Clients.step (NotOvertaken ⟨1⟩)
      (Clients.start (Runs.final call new []) : Clients Unit)
      ([.create key, .read () ⟨1⟩ key, .write () ["tag:a"] none, .consume 0 ⟨1⟩] ++
        [.consume 0 ⟨1⟩]) := by
    refine .cons trivial rfl (.cons trivial rfl (.cons ?_ rfl (.cons trivial rfl
      (.cons trivial rfl trivial))))
    rintro e he -
    obtain rfl := Option.some.inj he
    rfl
  have hmain := redeemed_at_most_once [] ⟨1⟩ _ _ _ _ hok rfl rfl
  exact ⟨hmain.1 _ rfl rfl, hmain.2⟩

end Oxiscale

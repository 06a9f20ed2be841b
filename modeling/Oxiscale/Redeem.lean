/-
Oxiscale/Redeem.lean

The history semantics of `consume_preauth_key`.

Whether a call redeems a key is decided by three things only: the record as
it was last written, the clock reading of that call, and whether an earlier
call has redeemed the key since that write.  `keyWritten` and `wonSince` read
the first and the last of these from the history of calls, newest first; the
invariant (`getKey_run`) is that the stored record is the written one,
redeemed if it has been won since.

A key that was written with `used = true` is not redeemable although nobody
has won it, and a key that serves many times is never marked: `redeem` and
`Redeemable` cover both, so neither needs a case of its own in the proofs.
-/
import Oxiscale.Ordered

namespace Oxiscale

open MemoryStore

/-! ### Reading the history -/

/-- The record a call writes under `id`, if it writes one. -/
def Call.writes (id : PreAuthKeyId) : Call → Option PreAuthKey
  | .mutate (.upsertPreauthKey key) => if key.id = id then some key else none
  | _ => none

/-- A consume of `id` that returned `true`. -/
def isWin (id : PreAuthKeyId) : Entry → Bool
  | ((.mutate (.consumePreauthKey id'), _), .consumed true) => id' = id
  | _ => false

/-- The record of `id` as last written: by the latest upsert of it, or in the
document at the start. -/
def keyWritten (doc : StoreDocument) (id : PreAuthKeyId) : List Entry → Option PreAuthKey
  | [] => Keyed.get PreAuthKey.id id doc.preauthKeys
  | e :: h => (e.1.1.writes id).or (keyWritten doc id h)

/-- Some consume of `id` has returned `true` since `id` was last written. -/
def wonSince (id : PreAuthKeyId) : List Entry → Bool
  | [] => false
  | e :: h => (e.1.1.writes id).isNone && (isWin id e || wonSince id h)

/-! ### The stored record -/

theorem redeem_redeem (key : PreAuthKey) : redeem (redeem key) = redeem key := by
  rcases hr : key.reusable with - | - <;> simp [redeem, markUsed, hr]

variable [Chrono] {doc : StoreDocument} {id : PreAuthKeyId} {now : Instant}

/-- A key that was redeemed can be so again only if it is reusable. -/
theorem redeemable_redeem {key : PreAuthKey} :
    Redeemable now (redeem key) ↔ preauthKeyExpired now key = false ∧ key.reusable = true := by
  rcases hr : key.reusable with - | - <;>
    simp [Redeemable, redeem, markUsed, preauthKeyExpired, hr]

/-- **Step lemma.**  A call leaves under `id` the record it writes there, or
else the record it found, redeemed if the call won it. -/
theorem getKey_call (x : Call × Instant) :
    Keyed.get PreAuthKey.id id (call doc x).2.preauthKeys =
      (x.1.writes id).or ((Keyed.get PreAuthKey.id id doc.preauthKeys).map
        (if isWin id (x, (call doc x).1) then redeem else fun key => key)) := by
  obtain ⟨c, now⟩ := x
  cases c with
  | query q => simp [call, Call.writes, isWin]
  | mutate m =>
      cases m with
      | upsertPreauthKey key =>
          show Keyed.get _ _ (Keyed.put _ key doc.preauthKeys) = _
          rw [Keyed.get_put]
          by_cases hk : key.id = id <;> simp [Call.writes, isWin, hk]
      | consumePreauthKey id' =>
          show Keyed.get _ _ (consumePreauthKey now id' doc).2.preauthKeys = _
          rw [consumePreauthKey_snd]
          rcases hw : (consumePreauthKey now id' doc).1 with - | -
          · simp [Call.writes, isWin, call, mutate, hw]
          -- a win changes the record of the key that was consumed, and no other
          · by_cases hk : id' = id
            · subst hk
              simp only [if_pos]
              rw [Keyed.get_modify_self redeem_id_of_get]
              simp [Call.writes, isWin, call, mutate, hw]
            · simp only [if_pos]
              rw [Keyed.get_modify_of_ne redeem_id_of_get (Ne.symm hk)]
              simp [Call.writes, isWin, call, mutate, hw, hk]
      | _ => simp [call, mutate, Call.writes, isWin, upsertNetwork, upsertUser, upsertNode,
          deleteNode, setPolicy]

/-- **Run lemma.**  The stored record is the one last written, redeemed if it
has been won since. -/
theorem getKey_run (calls : List (Call × Instant)) :
    Keyed.get PreAuthKey.id id (Runs.final call doc calls).preauthKeys =
      (keyWritten doc id (Runs.history call doc calls)).map
        (if wonSince id (Runs.history call doc calls) then redeem else fun key => key) := by
  refine Runs.history_invariant (P := fun (d : StoreDocument) h => Keyed.get PreAuthKey.id id d.preauthKeys =
    (keyWritten doc id h).map (if wonSince id h then redeem else fun key => key)) ?_ ?_
  · intro d h x hd
    rw [getKey_call, hd, keyWritten, wonSince]
    rcases x.1.writes id with - | key
    · -- not written: one more redemption of an already redeemed record shows nothing
      rcases isWin id (x, (call d x).1) with - | - <;> rcases wonSince id h with - | - <;>
        simp [Function.comp_def, redeem_redeem]
    · simp
  · simp [keyWritten, wonSince]

/-! ### When a consume wins -/

/-- A consume wins exactly when the record last written has not expired and
either serves many times or was written unused and not won since. -/
theorem consume_true_iff (calls : List (Call × Instant)) :
    (consumePreauthKey now id (Runs.final call doc calls)).1 = true ↔
      ∃ key, keyWritten doc id (Runs.history call doc calls) = some key ∧
        preauthKeyExpired now key = false ∧
        (key.reusable = true ∨
          key.used = false ∧ wonSince id (Runs.history call doc calls) = false) := by
  rw [consumePreauthKey_fst, getKey_run]
  rcases keyWritten doc id (Runs.history call doc calls) with - | key
  · simp
  · rcases wonSince id (Runs.history call doc calls) with - | -
    · simp [Redeemable]
    · simp [redeemable_redeem]

theorem isWin_call {d : StoreDocument} {x : Call × Instant}
    (hx : isWin id (x, (call d x).1) = true) :
    (consumePreauthKey x.2 id d).1 = true := by
  obtain ⟨c, now⟩ := x
  rcases c with m | q
  · cases m with
    | consumePreauthKey id' =>
        rcases hw : (consumePreauthKey now id' d).1 with - | -
        · simp [call, mutate, isWin, hw] at hx
        · obtain rfl : id' = id := by simpa [call, mutate, isWin, hw] using hx
          exact hw
    | _ => simp [isWin] at hx
  · simp [isWin] at hx

omit [Chrono] in
/-- Without a write in between, a won key shows in the history as such. -/
theorem wonSince_eq_any {h : List Entry} (hw : ∀ e ∈ h, e.1.1.writes id = none) :
    wonSince id h = h.any (isWin id) := by
  induction h with
  | nil => rfl
  | cons e h ih =>
      rw [wonSince, hw e (by simp), ih fun e' he' => hw e' (by simp [he'])]
      simp

omit [Chrono] in
/-- A key that no call has written is the one that was opened. -/
theorem keyWritten_of_not_written {h : List Entry} (hw : ∀ e ∈ h, e.1.1.writes id = none) :
    keyWritten doc id h = Keyed.get PreAuthKey.id id doc.preauthKeys := by
  induction h with
  | nil => rfl
  | cons e h ih =>
      rw [keyWritten, hw e (by simp), ih fun e' he' => hw e' (by simp [he'])]
      rfl

/-- Between two writes of a single-use key at most one call wins. -/
theorem wins_le_one {key : PreAuthKey} (calls : List (Call × Instant))
    (hw : ∀ x ∈ calls, x.1.writes id = none)
    (hget : Keyed.get PreAuthKey.id id doc.preauthKeys = some key)
    (hr : key.reusable = false) :
    (Runs.history call doc calls).countP (isWin id) ≤ 1 := by
  induction calls using List.reverseRecOn with
  | nil => simp [Runs.history]
  | append_singleton calls x ih =>
      have hcalls : ∀ x ∈ calls, x.1.writes id = none := fun y hy => hw y (by simp [hy])
      have hhist : ∀ e ∈ Runs.history call doc calls, e.1.1.writes id = none :=
        fun e he => hcalls e.1 (Runs.mem_of_mem_history he)
      rw [Runs.history_snoc, List.countP_cons]
      rcases hx : isWin id (x, (call (Runs.final call doc calls) x).1) with - | -
      · simpa using ih hcalls
      · -- a winner finds the key not won before
        obtain ⟨key', hkey', -, hred⟩ := (consume_true_iff calls).mp (isWin_call hx)
        rw [keyWritten_of_not_written hhist, hget] at hkey'
        obtain rfl := Option.some.inj hkey'
        have hnone : (Runs.history call doc calls).any (isWin id) = false := by
          rw [← wonSince_eq_any hhist]
          simpa [hr] using hred.imp_right And.right
        have hzero : (Runs.history call doc calls).countP (isWin id) = 0 := by
          rw [List.countP_eq_zero]
          simpa using hnone
        simp [hzero]

/-- **History semantics of consuming a key.**  In every interleaving of calls
on any document, a consume returns `true` exactly when the record last
written for the id has not expired at its own clock reading and either serves
many times or was written unused with no winner since.  A refused consume and
one of a key that serves many times change nothing, a winner of a single-use
key sets the `used` flag of that one record, and without a write in between a
single-use key has at most one winner. -/
theorem consume_history (doc : StoreDocument) (calls : List (Call × Instant))
    (id : PreAuthKeyId) (now : Instant) :
    let d := Runs.final call doc calls
    let h := Runs.history call doc calls
    ((consumePreauthKey now id d).1 = true ↔
      ∃ key, keyWritten doc id h = some key ∧
        (key.expiresAt = none ∨ ∃ ts expiry, key.expiresAt = some ts ∧
          Chrono.parseFromRfc3339 ts = some expiry ∧ now < expiry) ∧
        (key.reusable = true ∨ key.used = false ∧ wonSince id h = false)) ∧
    ((consumePreauthKey now id d).1 = false → (consumePreauthKey now id d).2 = d) ∧
    (∀ key, Keyed.get PreAuthKey.id id d.preauthKeys = some key → key.reusable = true →
      (consumePreauthKey now id d).2 = d) ∧
    (∀ key, Keyed.get PreAuthKey.id id d.preauthKeys = some key → key.reusable = false →
      (consumePreauthKey now id d).1 = true →
      ∃ l₁ l₂, d.preauthKeys = l₁ ++ key :: l₂ ∧
        (consumePreauthKey now id d).2 =
          { d with preauthKeys := l₁ ++ { key with used := true } :: l₂ }) ∧
    (∀ key more, Keyed.get PreAuthKey.id id d.preauthKeys = some key → key.reusable = false →
      (∀ x ∈ more, x.1.writes id = none) →
      (Runs.history call d more).countP (isWin id) ≤ 1) := by
  intro d h
  refine ⟨?_, ?_, ?_, ?_, fun key more hget hr hw => wins_le_one more hw hget hr⟩
  · simpa only [preauthKeyExpired_eq_false_iff] using consume_true_iff calls
  · intro hfalse
    rw [consumePreauthKey_snd, hfalse]
    rfl
  · intro key hget hr
    rw [consumePreauthKey_snd, Keyed.modify_eq_self_iff.mpr, ite_self]
    rw [hget]
    simp [redeem, hr]
  · intro key hget hr htrue
    obtain ⟨l₁, l₂, hl, hmod⟩ := Keyed.exists_modify_eq (f := redeem) hget
    refine ⟨l₁, l₂, hl, ?_⟩
    rw [consumePreauthKey_snd, htrue, if_pos rfl, hmod]
    simp [redeem, hr, markUsed]

end Oxiscale

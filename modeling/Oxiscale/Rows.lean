/-
Oxiscale/Rows.lean

The rows of a `MemoryStore` are independent objects.

`StoreDocument.cell` is what one row holds, and `Call.row` the row a call is
about: the one it may write, or the one that `get_node` and `get_policy`
read.  A call about another row leaves the cell as it is (`cell_call_of_ne`),
and a call about the row looks at its cell alone (`call_congr`).  So in every
interleaving the calls about a row get the replies they get when nobody uses
the rest of the store: the two facts are the hypotheses of the purge rule.

The second part reads one row, a pre-auth key, along such a history.  With a
clock that does not go back, its consumers are first accepted and then
refused: a refusal is for good until the key is written again.
-/
import Oxiscale.Redeem

namespace Oxiscale

open MemoryStore

/-! ### What a row holds -/

inductive Cell
  | network (net : Network)
  | user (user : User)
  | node (node : Node)
  | preauthKey (key : PreAuthKey)
  | policy (text : String)

/-- What the document holds in a row: the first record with that id, or the
policy of that network. -/
def StoreDocument.cell (doc : StoreDocument) : Row → Option Cell
  | .network id => (Keyed.get Network.id id doc.networks).map .network
  | .user id => (Keyed.get User.id id doc.users).map .user
  | .node id => (Keyed.get Node.id id doc.nodes).map .node
  | .preauthKey id => (Keyed.get PreAuthKey.id id doc.preauthKeys).map .preauthKey
  | .policy network => (doc.policies.lookup network).map .policy

/-- The row a call is about.  A listing is about no row. -/
def Call.row : Call → Option Row
  | .query (.getNode id) => some (.node id)
  | .query (.getPolicy network) => some (.policy network)
  | c => c.target

/-- A call is about the row it changes. -/
theorem Call.row_of_target {c : Call} {row : Row} (h : c.target = some row) :
    c.row = some row := by
  cases c with
  | mutate m => exact h
  | query q => cases h

section Cells

variable {doc doc' : StoreDocument}

theorem cell_node {id : NodeId} (h : doc.cell (.node id) = doc'.cell (.node id)) :
    Keyed.get Node.id id doc.nodes = Keyed.get Node.id id doc'.nodes :=
  Option.map_injective (fun _ _ => Cell.node.inj) h

theorem cell_preauthKey {id : PreAuthKeyId}
    (h : doc.cell (.preauthKey id) = doc'.cell (.preauthKey id)) :
    Keyed.get PreAuthKey.id id doc.preauthKeys = Keyed.get PreAuthKey.id id doc'.preauthKeys :=
  Option.map_injective (fun _ _ => Cell.preauthKey.inj) h

theorem cell_policy {network : NetworkId}
    (h : doc.cell (.policy network) = doc'.cell (.policy network)) :
    doc.policies.lookup network = doc'.policies.lookup network :=
  Option.map_injective (fun _ _ => Cell.policy.inj) h

end Cells

/-! ### One call and one row -/

section Steps

variable [Chrono] {doc doc' : StoreDocument} {row : Row} {x : Call × Instant}

/-- A call that does not write a row leaves it as it is. -/
theorem cell_call_of_ne (hx : x.1.target ≠ some row) : (call doc x).2.cell row = doc.cell row := by
  obtain ⟨c, now⟩ := x
  cases c with
  | query q => rfl
  | mutate m =>
      -- rows of another aggregate are left by definition
      cases m with
      | upsertNetwork net =>
          cases row with
          | network id =>
              have hne : id ≠ net.id := fun h => hx (congrArg (some ∘ Row.network) h.symm)
              exact congrArg (Option.map Cell.network) (Keyed.get_put_of_ne hne)
          | _ => rfl
      | upsertUser user =>
          cases row with
          | user id =>
              have hne : id ≠ user.id := fun h => hx (congrArg (some ∘ Row.user) h.symm)
              exact congrArg (Option.map Cell.user) (Keyed.get_put_of_ne hne)
          | _ => rfl
      | upsertNode node =>
          cases row with
          | node id =>
              have hne : id ≠ node.id := fun h => hx (congrArg (some ∘ Row.node) h.symm)
              exact congrArg (Option.map Cell.node) (Keyed.get_put_of_ne hne)
          | _ => rfl
      | deleteNode id' =>
          cases row with
          | node id =>
              have hne : id ≠ id' := fun h => hx (congrArg (some ∘ Row.node) h.symm)
              exact congrArg (Option.map Cell.node) (Keyed.get_erase_of_ne hne)
          | _ => rfl
      | upsertPreauthKey key =>
          cases row with
          | preauthKey id =>
              have hne : id ≠ key.id := fun h => hx (congrArg (some ∘ Row.preauthKey) h.symm)
              exact congrArg (Option.map Cell.preauthKey) (Keyed.get_put_of_ne hne)
          | _ => rfl
      | consumePreauthKey id' =>
          show (consumePreauthKey now id' doc).2.cell row = doc.cell row
          rw [consumePreauthKey_snd]
          cases row with
          | preauthKey id =>
              have hne : id ≠ id' := fun h => hx (congrArg (some ∘ Row.preauthKey) h.symm)
              apply congrArg (Option.map Cell.preauthKey)
              dsimp only
              split
              · exact Keyed.get_modify_of_ne redeem_id_of_get hne
              · rfl
          | _ => rfl
      | setPolicy network policy =>
          cases row with
          | policy network' =>
              have hne : network' ≠ network := fun h => hx (congrArg (some ∘ Row.policy) h.symm)
              exact congrArg (Option.map Cell.policy) (Finmap.lookup_insert_of_ne _ hne)
          | _ => rfl

/-- What a write leaves in its row, it leaves there whatever else the document
holds. -/
theorem cell_call_congr (hx : x.1.target = some row) (hcell : doc.cell row = doc'.cell row) :
    (call doc x).1 = (call doc' x).1 ∧ (call doc x).2.cell row = (call doc' x).2.cell row := by
  obtain ⟨c, now⟩ := x
  cases c with
  | query q => cases hx
  | mutate m =>
      cases m with
      | upsertNetwork net =>
          obtain rfl := Option.some.inj hx
          refine ⟨rfl, congrArg (Option.map Cell.network) ?_⟩
          exact Keyed.get_put_self.trans Keyed.get_put_self.symm
      | upsertUser user =>
          obtain rfl := Option.some.inj hx
          refine ⟨rfl, congrArg (Option.map Cell.user) ?_⟩
          exact Keyed.get_put_self.trans Keyed.get_put_self.symm
      | upsertNode node =>
          obtain rfl := Option.some.inj hx
          refine ⟨rfl, congrArg (Option.map Cell.node) ?_⟩
          exact Keyed.get_put_self.trans Keyed.get_put_self.symm
      | deleteNode id =>
          obtain rfl := Option.some.inj hx
          refine ⟨rfl, congrArg (Option.map Cell.node) ?_⟩
          exact Keyed.get_erase_self.trans Keyed.get_erase_self.symm
      | upsertPreauthKey key =>
          obtain rfl := Option.some.inj hx
          refine ⟨rfl, congrArg (Option.map Cell.preauthKey) ?_⟩
          exact Keyed.get_put_self.trans Keyed.get_put_self.symm
      | consumePreauthKey id =>
          obtain rfl := Option.some.inj hx
          have hget := cell_preauthKey hcell
          have hwon := consumePreauthKey_fst_congr now id doc hget
          refine ⟨congrArg Reply.consumed hwon, congrArg (Option.map Cell.preauthKey) ?_⟩
          show Keyed.get _ _ (consumePreauthKey now id doc).2.preauthKeys =
            Keyed.get _ _ (consumePreauthKey now id doc').2.preauthKeys
          rw [consumePreauthKey_snd, consumePreauthKey_snd, ← hwon]
          dsimp only
          split
          · rw [Keyed.get_modify_self redeem_id_of_get, Keyed.get_modify_self redeem_id_of_get,
              hget]
          · exact hget
      | setPolicy network policy =>
          obtain rfl := Option.some.inj hx
          refine ⟨rfl, congrArg (Option.map Cell.policy) ?_⟩
          exact (Finmap.lookup_insert doc.policies).trans (Finmap.lookup_insert doc'.policies).symm

/-- A call about a row looks at its cell alone, and so does what it leaves
there. -/
theorem call_congr (hx : x.1.row = some row) (hcell : doc.cell row = doc'.cell row) :
    (call doc x).1 = (call doc' x).1 ∧ (call doc x).2.cell row = (call doc' x).2.cell row := by
  obtain ⟨c, now⟩ := x
  cases c with
  | mutate m => exact cell_call_congr (x := (.mutate m, now)) hx hcell
  | query q =>
      refine ⟨?_, hcell⟩
      cases q with
      | getNode id =>
          obtain rfl := Option.some.inj hx
          exact congrArg Reply.node (cell_node hcell)
      | getPolicy network =>
          obtain rfl := Option.some.inj hx
          exact congrArg Reply.policy (cell_policy hcell)
      | _ => cases hx

end Steps

/-! ### One row along a history -/

/-- Is the call about the row? -/
def about (row : Row) (x : Call × Instant) : Bool := x.1.row = some row

section Histories

variable [Chrono] {doc doc' : StoreDocument} {row : Row} {calls : List (Call × Instant)}

omit [Chrono] in
@[simp] theorem about_iff {x : Call × Instant} : about row x = true ↔ x.1.row = some row :=
  decide_eq_true_iff

/-- **Step.**  Other calls leave the row alone. -/
theorem cell_call_of_not_about {x : Call × Instant} (hx : about row x = false) :
    (call doc x).2.cell row = doc.cell row := by
  refine cell_call_of_ne fun h => ?_
  simp [about, Call.row_of_target h] at hx

variable (calls) in
/-- The calls about a row, among any others, run as they run alone. -/
theorem history_about (hcell : doc.cell row = doc'.cell row) :
    (Runs.history call doc calls).filter (fun e => about row e.1) =
        Runs.history call doc' (calls.filter (about row)) ∧
      (Runs.final call doc calls).cell row =
        (Runs.final call doc' (calls.filter (about row))).cell row := by
  refine Runs.history_purge (R := fun d d' : StoreDocument => d.cell row = d'.cell row) (about row)
    ?_ ?_ hcell
  · intro d d' x h hx
    exact call_congr (about_iff.mp hx) h
  · intro d d' x h hx
    exact (cell_call_of_not_about hx).trans h

/-- **Rows are independent.**  Take two stores that agree on one row, and two
sequences of calls in which the same calls about that row come in the same
order, among any others.  Then these calls get the same replies, and the row
ends with the same content. -/
theorem rows_independent (doc doc' : StoreDocument) (calls calls' : List (Call × Instant))
    (row : Row) (hcell : doc.cell row = doc'.cell row)
    (hcalls : calls.filter (about row) = calls'.filter (about row)) :
    (Runs.history call doc calls).filter (fun e => about row e.1) =
      (Runs.history call doc' calls').filter (fun e => about row e.1) ∧
    (Runs.final call doc calls).cell row = (Runs.final call doc' calls').cell row := by
  obtain ⟨hhist, hfinal⟩ := history_about calls hcell
  obtain ⟨hhist', hfinal'⟩ := history_about calls' (rfl : doc'.cell row = doc'.cell row)
  exact ⟨by rw [hhist, hcalls, hhist'], by rw [hfinal, hcalls, hfinal']⟩

end Histories

/-- A policy written and read, once among other calls in a store with a key
and once alone in a fresh one. -/
theorem rows_independent_policy :
    letI := Chrono.unasked
    let key : PreAuthKey := ⟨⟨5⟩, ⟨1⟩, "tskey", "", true, false, false, none, []⟩
    let doc := { new with preauthKeys := [key] }
    let set : Call × Instant := (.mutate (.setPolicy ⟨1⟩ "accept"), 0)
    let get : Call × Instant := (.query (.getPolicy ⟨1⟩), 3)
    let calls : List (Call × Instant) := [set, (.mutate (.setPolicy ⟨2⟩ "deny"), 1),
      (.mutate (.consumePreauthKey ⟨5⟩), 2), get]
    (Runs.history call doc calls).filter (fun e => about (.policy ⟨1⟩) e.1) =
        (Runs.history call new [set, get]).filter (fun e => about (.policy ⟨1⟩) e.1) ∧
      (Runs.final call doc calls).cell (.policy ⟨1⟩) =
        (Runs.final call new [set, get]).cell (.policy ⟨1⟩) := by
  let _ := Chrono.unasked
  intro key doc set get calls
  exact rows_independent doc new calls [set, get] (.policy ⟨1⟩) rfl (by decide)

/-! ### The consumers of one key -/

/-- What a consume of `id` was told. -/
def answer (id : PreAuthKeyId) : Entry → Option Bool
  | ((.mutate (.consumePreauthKey id'), _), .consumed won) => if id' = id then some won else none
  | _ => none

/-- The answers to the consumes of `id`, oldest first. -/
def verdicts [Chrono] (id : PreAuthKeyId) (doc : StoreDocument) (calls : List (Call × Instant)) :
    List Bool :=
  (Runs.history call doc calls).reverse.filterMap (answer id)

section Verdicts

variable [Chrono] {doc : StoreDocument} {id : PreAuthKeyId} {now now' : Instant}
  {calls : List (Call × Instant)} {x : Call × Instant}

/-- Expiry does not go back while the clock does not. -/
theorem Redeemable.earlier {key : PreAuthKey} (hle : now ≤ now') (h : Redeemable now' key) :
    Redeemable now key := by
  refine ⟨?_, h.2⟩
  have hexp := (preauthKeyExpired_eq_false_iff now' key).mp h.1
  refine (preauthKeyExpired_eq_false_iff now key).mpr (hexp.imp_right ?_)
  rintro ⟨ts, expiry, hts, hparse, hlt⟩
  exact ⟨ts, expiry, hts, hparse, lt_of_le_of_lt hle hlt⟩

/-- From the time `now` on, every consume of `id` is refused. -/
def Refused (id : PreAuthKeyId) (now : Instant) (doc : StoreDocument) : Prop :=
  ∀ key ∈ Keyed.get PreAuthKey.id id doc.preauthKeys, ¬ Redeemable now key

/-- A key is refused exactly if the consume returns false. -/
theorem refused_iff : Refused id now doc ↔ (consumePreauthKey now id doc).1 = false :=
  (consumePreauthKey_fst_eq_false now id doc).symm

/-- Without a write of the key, a refusal stays. -/
theorem Refused.call (h : Refused id now doc) (hx : x.1.writes id = none) :
    Refused id now (call doc x).2 := by
  intro key hkey hred
  rw [getKey_call, hx, Option.none_or] at hkey
  obtain ⟨key', hkey', rfl⟩ := Option.map_eq_some_iff.mp hkey
  apply h key' hkey'
  rcases hwin : isWin id (x, (MemoryStore.call doc x).1) with - | -
  · rwa [hwin] at hred
  · rw [hwin] at hred
    obtain ⟨hexp, hr⟩ := redeemable_redeem.mp hred
    exact ⟨hexp, Or.inl hr⟩

variable (doc id x) in
/-- A call answers at most one consumer of `id`, as `consume_preauth_key`
does on the document it finds. -/
theorem answer_call : answer id (x, (call doc x).1) = none ∨
    x.1.writes id = none ∧
      answer id (x, (call doc x).1) = some (consumePreauthKey x.2 id doc).1 := by
  obtain ⟨c, now⟩ := x
  cases c with
  | query q => exact Or.inl rfl
  | mutate m =>
      cases m with
      | consumePreauthKey id' =>
          by_cases hid : id' = id
          · subst hid
            exact Or.inr ⟨rfl, if_pos rfl⟩
          · exact Or.inl (if_neg hid)
      | _ => exact Or.inl rfl

/-- The verdict of the first call, if it is about the key, comes first. -/
theorem verdicts_cons : verdicts id doc (x :: calls) =
    (answer id (x, (call doc x).1)).toList ++ verdicts id (call doc x).2 calls := by
  rw [verdicts, Runs.history_cons, List.reverse_append, List.filterMap_append]
  refine congrArg (· ++ _) ?_
  rcases e : answer id (x, (call doc x).1) with - | won <;> simp [e]

/-- From a refusal on there are only refusals. -/
theorem Refused.verdicts (h : Refused id now doc) (hw : ∀ x ∈ calls, x.1.writes id = none)
    (hle : ∀ x ∈ calls, now ≤ x.2) :
    ∃ n, Oxiscale.verdicts id doc calls = List.replicate n false := by
  induction calls generalizing doc with
  | nil => exact ⟨0, rfl⟩
  | cons x calls ih =>
      rw [List.forall_mem_cons] at hw hle
      obtain ⟨n, hn⟩ := ih (h.call hw.1) hw.2 hle.2
      rw [verdicts_cons, hn]
      rcases answer_call doc id x with hnone | ⟨-, hsome⟩
      · exact ⟨n, by rw [hnone]; rfl⟩
      · have hlater : Refused id x.2 doc := fun key hkey hred =>
          h key hkey (Redeemable.earlier hle.1 hred)
        exact ⟨n + 1, by rw [hsome, refused_iff.mp hlater]; rfl⟩

variable (doc) in
/-- The accepted consumers come first. -/
theorem verdicts_eq (hw : ∀ x ∈ calls, x.1.writes id = none)
    (hclock : (calls.map Prod.snd).Pairwise (· ≤ ·)) :
    ∃ k n, verdicts id doc calls = List.replicate k true ++ List.replicate n false := by
  induction calls generalizing doc with
  | nil => exact ⟨0, 0, rfl⟩
  | cons x calls ih =>
      rw [List.forall_mem_cons] at hw
      rw [List.map_cons, List.pairwise_cons] at hclock
      obtain ⟨k, n, hrest⟩ := ih (call doc x).2 hw.2 hclock.2
      rw [verdicts_cons]
      rcases answer_call doc id x with hnone | ⟨-, hsome⟩
      · exact ⟨k, n, by rw [hnone, hrest]; rfl⟩
      · rw [hsome]
        rcases hwon : (consumePreauthKey x.2 id doc).1 with - | -
        · -- refused: the rest is refused
          have hle : ∀ y ∈ calls, x.2 ≤ y.2 := fun y hy =>
            hclock.1 y.2 (List.mem_map_of_mem hy)
          have hrefused : Refused id x.2 doc := refused_iff.mpr hwon
          obtain ⟨n', hn'⟩ := (hrefused.call hw.1).verdicts hw.2 hle
          exact ⟨0, n' + 1, by rw [hn']; rfl⟩
        · exact ⟨k + 1, n, by rw [hrest]; rfl⟩

/-- The accepted consumers are the winners of the history. -/
theorem count_verdicts :
    (verdicts id doc calls).count true = (Runs.history call doc calls).countP (isWin id) := by
  rw [verdicts, List.count, List.countP_filterMap, List.countP_reverse]
  apply List.countP_congr
  rintro ⟨⟨c, now⟩, r⟩ -
  cases c with
  | query q => exact Iff.rfl
  | mutate m =>
      cases m with
      | consumePreauthKey id' =>
          cases r with
          | consumed won => by_cases hid : id' = id <;> cases won <;> simp [answer, isWin, hid]
          | _ => exact Iff.rfl
      | _ => exact Iff.rfl

/-- **A refusal is final.**  While a key is not written and the clock does not
go back, the consumers of the key are first accepted and then refused,
whatever calls come between them; and a key that does not serve many times
accepts at most one. -/
theorem accepted_then_refused (doc : StoreDocument) (id : PreAuthKeyId)
    (calls : List (Call × Instant)) (hw : ∀ x ∈ calls, x.1.writes id = none)
    (hclock : (calls.map Prod.snd).Pairwise (· ≤ ·)) :
    ∃ k n, verdicts id doc calls = List.replicate k true ++ List.replicate n false ∧
      ∀ key, Keyed.get PreAuthKey.id id doc.preauthKeys = some key → key.reusable = false →
        k ≤ 1 := by
  obtain ⟨k, n, hv⟩ := verdicts_eq doc hw hclock
  refine ⟨k, n, hv, fun key hget hr => ?_⟩
  have hk : (verdicts id doc calls).count true = k := by
    rw [hv, List.count_append, List.count_replicate_self, List.count_replicate]
    simp
  rw [← hk, count_verdicts]
  exact wins_le_one calls hw hget hr

end Verdicts

/-- A single-use key and two consumers with another call between them. -/
theorem accepted_then_refused_two_consumers :
    letI := Chrono.unasked
    let key : PreAuthKey := ⟨⟨5⟩, ⟨1⟩, "tskey", "", false, false, false, none, []⟩
    let doc := { new with preauthKeys := [key] }
    let calls : List (Call × Instant) := [(.mutate (.consumePreauthKey ⟨5⟩), 0),
      (.mutate (.deleteNode ⟨5⟩), 1), (.mutate (.consumePreauthKey ⟨5⟩), 1)]
    verdicts ⟨5⟩ doc calls = [true, false] ∧ ∃ k n, k ≤ 1 ∧
      verdicts ⟨5⟩ doc calls = List.replicate k true ++ List.replicate n false := by
  let _ := Chrono.unasked
  intro key doc calls
  obtain ⟨k, n, hv, hk⟩ := accepted_then_refused doc ⟨5⟩ calls (by decide) (by decide)
  exact ⟨rfl, k, n, hk key rfl rfl, hv⟩

end Oxiscale

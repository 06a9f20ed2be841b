/-
Oxiscale/Tenancy.lean

Networks that share one store.

A record is found by its id alone, whichever network it belongs to, and the
network it carries decides who sees it.  So a network that upserts a record
under an id of another one takes that record away (`upsert_takes_over`).

The networks are isolated in the runs in which each names its own records
(`Issued.Own`) and upserts no id that is another one's at that moment
(`Issued.Free`).  The invariant `Tenant` relates the whole run to the run of
one network alone: the second has exactly the records of that network in the
first.
-/
import Oxiscale.Ordered

namespace Oxiscale

open MemoryStore

/-! ### Mutations issued by networks -/

/-- A mutation with the network that issues it and the clock reading it
takes. -/
structure Issued where
  network : NetworkId
  mutation : Mutation
  now : Instant

def issue [Chrono] (doc : StoreDocument) (x : Issued) : Reply × StoreDocument :=
  mutate x.now doc x.mutation

/-- An upserted record and a policy carry the issuing network, and what is
deleted or consumed belongs to it. -/
def Issued.Own (doc : StoreDocument) (x : Issued) : Prop :=
  match x.mutation with
  | .upsertNetwork _ => True
  | .upsertUser user => user.networkId = x.network
  | .upsertNode node => node.networkId = x.network
  | .deleteNode id => ∃ node ∈ doc.nodes, node.id = id ∧ node.networkId = x.network
  | .upsertPreauthKey key => key.networkId = x.network
  | .consumePreauthKey id => ∃ key ∈ doc.preauthKeys, key.id = id ∧ key.networkId = x.network
  | .setPolicy network _ => network = x.network

/-- The id of an upserted record is not the id of another network's record. -/
def Issued.Free (doc : StoreDocument) (x : Issued) : Prop :=
  match x.mutation with
  | .upsertUser user => ∀ u ∈ doc.users, u.id = user.id → u.networkId = x.network
  | .upsertNode node => ∀ n ∈ doc.nodes, n.id = node.id → n.networkId = x.network
  | .upsertPreauthKey key => ∀ k ∈ doc.preauthKeys, k.id = key.id → k.networkId = x.network
  | _ => True

/-- What a network reads is the same in two documents. -/
structure SameView (network : NetworkId) (doc doc' : StoreDocument) : Prop where
  users : listUsers network doc = listUsers network doc'
  nodes : listNodes network doc = listNodes network doc'
  preauthKeys : listPreauthKeys network doc = listPreauthKeys network doc'
  policy : getPolicy network doc = getPolicy network doc'

/-! ### One network alone -/

/-- The second document has the records of the network in the first one, and
no others. -/
structure Tenant (network : NetworkId) (doc own : StoreDocument) : Prop where
  distinct : doc.IdsDistinct
  users : own.users = listUsers network doc
  nodes : own.nodes = listNodes network doc
  preauthKeys : own.preauthKeys = listPreauthKeys network doc
  policy : getPolicy network own = getPolicy network doc

namespace Tenant

variable {network : NetworkId} {doc own : StoreDocument}

theorem new (network : NetworkId) : Tenant network MemoryStore.new MemoryStore.new where
  distinct := Ordered.new.idsDistinct
  users := rfl
  nodes := rfl
  preauthKeys := rfl
  policy := rfl

theorem sameView (h : Tenant network doc own) : SameView network doc own where
  users := by
    show listUsers network doc = own.users.filter _
    rw [h.users, listUsers, List.filter_filter]
    simp
  nodes := by
    show listNodes network doc = own.nodes.filter _
    rw [h.nodes, listNodes, List.filter_filter]
    simp
  preauthKeys := by
    show listPreauthKeys network doc = own.preauthKeys.filter _
    rw [h.preauthKeys, listPreauthKeys, List.filter_filter]
    simp
  policy := h.policy.symm

variable [Chrono] {x : Issued}

/-- A consume of a key of the network, in both stores. -/
theorem consume (h : Tenant network doc own) (now : Instant) {id : PreAuthKeyId}
    (hall : ∀ k ∈ doc.preauthKeys, k.id = id → k.networkId = network) :
    Tenant network (consumePreauthKey now id doc).2 (consumePreauthKey now id own).2 := by
  have hdistinct := h.distinct.mutate now (.consumePreauthKey id)
  -- every record under the id is one of the network, so both find the same
  have hget : Keyed.get PreAuthKey.id id own.preauthKeys =
      Keyed.get PreAuthKey.id id doc.preauthKeys := by
    rw [h.preauthKeys]
    exact Keyed.get_filter fun k hk hid => decide_eq_true (hall k hk hid)
  have hfst := consumePreauthKey_fst_congr now id own hget
  refine ⟨hdistinct, ?_, ?_, ?_, ?_⟩
  all_goals rw [consumePreauthKey_snd now id doc, consumePreauthKey_snd now id own, hfst]
  · exact h.users
  · exact h.nodes
  · rcases (consumePreauthKey now id doc).1 with - | -
    · exact h.preauthKeys
    · show Keyed.modify PreAuthKey.id id redeem own.preauthKeys =
        (Keyed.modify PreAuthKey.id id redeem doc.preauthKeys).filter _
      rw [h.preauthKeys]
      refine (Keyed.filter_modify ?_ ?_).symm
      · exact fun k hk hid => decide_eq_true (hall k hk hid)
      · intro k hk hid
        rw [redeem_networkId]
        exact decide_eq_true (hall k hk hid)
  · exact h.policy

/-- A mutation of the network itself does the same to both documents. -/
theorem kept (h : Tenant network doc own) (hown : x.Own doc) (hfree : x.Free doc)
    (hx : x.network = network) : Tenant network (issue doc x).2 (issue own x).2 := by
  obtain ⟨issuer, m, now⟩ := x
  obtain rfl : issuer = network := hx
  have hdistinct := h.distinct.mutate now m
  have hyes : ∀ {net : NetworkId}, net = issuer → decide (net = issuer) = true :=
    fun hnet => decide_eq_true hnet
  -- an id of the network may be replaced, and then both documents replace it
  cases m with
  | upsertNetwork net => exact ⟨hdistinct, h.users, h.nodes, h.preauthKeys, h.policy⟩
  | upsertUser user =>
      refine ⟨hdistinct, ?_, h.nodes, h.preauthKeys, h.policy⟩
      show Keyed.put User.id user own.users = (Keyed.put User.id user doc.users).filter _
      rw [h.users]
      exact (Keyed.filter_put (a := user) (hyes hown)
        fun u hu hid => hyes (hfree u hu hid)).symm
  | upsertNode node =>
      refine ⟨hdistinct, h.users, ?_, h.preauthKeys, h.policy⟩
      show Keyed.put Node.id node own.nodes = (Keyed.put Node.id node doc.nodes).filter _
      rw [h.nodes]
      exact (Keyed.filter_put (a := node) (hyes hown)
        fun n hn hid => hyes (hfree n hn hid)).symm
  | deleteNode id =>
      refine ⟨hdistinct, h.users, ?_, h.preauthKeys, h.policy⟩
      show Keyed.erase Node.id id own.nodes = (Keyed.erase Node.id id doc.nodes).filter _
      rw [h.nodes]
      exact Keyed.filter_erase.symm
  | upsertPreauthKey key =>
      refine ⟨hdistinct, h.users, h.nodes, ?_, h.policy⟩
      show Keyed.put PreAuthKey.id key own.preauthKeys =
        (Keyed.put PreAuthKey.id key doc.preauthKeys).filter _
      rw [h.preauthKeys]
      exact (Keyed.filter_put (a := key) (hyes hown)
        fun k hk hid => hyes (hfree k hk hid)).symm
  | consumePreauthKey id =>
      obtain ⟨key, hkey, hid, hnet⟩ := hown
      exact h.consume now (Keyed.forall_key h.distinct.preauthKeys hkey hid hnet)
  | setPolicy net policy =>
      obtain rfl : net = _ := hown
      refine ⟨hdistinct, h.users, h.nodes, h.preauthKeys, ?_⟩
      show (own.policies.insert net policy).lookup net = (doc.policies.insert net policy).lookup net
      rw [Finmap.lookup_insert, Finmap.lookup_insert]

/-- A mutation of another network changes no record of this one. -/
theorem dropped (h : Tenant network doc own) (hown : x.Own doc) (hfree : x.Free doc)
    (hx : x.network ≠ network) : Tenant network (issue doc x).2 own := by
  obtain ⟨other, m, now⟩ := x
  have hdistinct := h.distinct.mutate now m
  have hnot : ∀ {net : NetworkId}, net = other → decide (net = network) = false := by
    rintro _ rfl
    exact decide_eq_false hx
  -- what stands under the id is another network's, before and after
  cases m with
  | upsertNetwork net => exact ⟨hdistinct, h.users, h.nodes, h.preauthKeys, h.policy⟩
  | upsertUser user =>
      refine ⟨hdistinct, ?_, h.nodes, h.preauthKeys, h.policy⟩
      rw [h.users]
      exact (Keyed.filter_put_of_not (a := user) (hnot hown)
        fun u hu hid => hnot (hfree u hu hid)).symm
  | upsertNode node =>
      refine ⟨hdistinct, h.users, ?_, h.preauthKeys, h.policy⟩
      rw [h.nodes]
      exact (Keyed.filter_put_of_not (a := node) (hnot hown)
        fun n hn hid => hnot (hfree n hn hid)).symm
  | deleteNode id =>
      obtain ⟨node, hnode, hid, hnet⟩ := hown
      have hall := Keyed.forall_key h.distinct.nodes hnode hid
        (P := fun n => n.networkId = other) hnet
      refine ⟨hdistinct, h.users, ?_, h.preauthKeys, h.policy⟩
      rw [h.nodes]
      exact (Keyed.filter_erase_of_not fun n hn hid => hnot (hall n hn hid)).symm
  | upsertPreauthKey key =>
      refine ⟨hdistinct, h.users, h.nodes, ?_, h.policy⟩
      rw [h.preauthKeys]
      exact (Keyed.filter_put_of_not (a := key) (hnot hown)
        fun k hk hid => hnot (hfree k hk hid)).symm
  | consumePreauthKey id =>
      obtain ⟨key, hkey, hid, hnet⟩ := hown
      have hall := Keyed.forall_key h.distinct.preauthKeys hkey hid
        (P := fun k => k.networkId = other) hnet
      show Tenant network (consumePreauthKey now id doc).2 own
      have hsnd := consumePreauthKey_snd now id doc
      refine ⟨hdistinct, ?_, ?_, ?_, ?_⟩
      all_goals rw [hsnd]
      · exact h.users
      · exact h.nodes
      · rw [h.preauthKeys]
        rcases (consumePreauthKey now id doc).1 with - | -
        · rfl
        · refine (Keyed.filter_modify_of_not ?_ ?_).symm
          · exact fun k hk hid => hnot (hall k hk hid)
          · intro k hk hid
            rw [redeem_networkId]
            exact hnot (hall k hk hid)
      · exact h.policy
  | setPolicy net policy =>
      refine ⟨hdistinct, h.users, h.nodes, h.preauthKeys, ?_⟩
      have hne : network ≠ net := fun heq => hx (hown.symm.trans heq.symm)
      exact h.policy.trans (Finmap.lookup_insert_of_ne _ hne).symm

end Tenant

/-! ### Every run -/

section Runs

/-- A network upserts a node under the id of another network's node, which is
gone from that network's list. -/
theorem upsert_takes_over :
    letI := Chrono.unasked
    ¬ ∀ xs : List Issued, Runs.Allowed issue Issued.Own MemoryStore.new xs →
      ∀ network, SameView network (Runs.final issue MemoryStore.new xs)
        (Runs.final issue MemoryStore.new (xs.filter fun x => x.network = network)) := by
  let _ := Chrono.unasked
  intro h
  let node (net : NetworkId) : Node := ⟨⟨7⟩, net, ⟨1⟩, "mkey", "nodekey", "discokey", none, none, []⟩
  have hview := h [⟨⟨1⟩, .upsertNode (node ⟨1⟩), 0⟩, ⟨⟨2⟩, .upsertNode (node ⟨2⟩), 0⟩]
    ⟨rfl, rfl, trivial⟩ ⟨1⟩
  have hnodes : ([] : List Node) = [node ⟨1⟩] := hview.nodes
  cases hnodes

/-- **Networks are isolated** in the runs in which each names its own records
and upserts no id of another one's record: what a network reads at the end is
what it reads when the others make no calls. -/
theorem networks_isolated [Chrono] (xs : List Issued)
    (hok : Runs.Allowed issue (fun doc x => x.Own doc ∧ x.Free doc) MemoryStore.new xs)
    (network : NetworkId) : SameView network (Runs.final issue MemoryStore.new xs)
      (Runs.final issue MemoryStore.new (xs.filter fun x => x.network = network)) := by
  have htenant : Tenant network (Runs.final issue MemoryStore.new xs)
      (Runs.final issue MemoryStore.new (xs.filter fun x => x.network = network)) :=
    Runs.final_purge _
      (fun doc own x h hx hk => h.kept hx.1 hx.2 (of_decide_eq_true hk))
      (fun doc own x h hx hk => h.dropped hx.1 hx.2 (of_decide_eq_false hk))
      (Tenant.new network) hok
  exact htenant.sameView

/-- Two networks with a node each, one of which is deleted. -/
theorem networks_isolated_two_nodes :
    letI := Chrono.unasked
    let node (id : UInt64) (net : NetworkId) : Node :=
      ⟨⟨id⟩, net, ⟨1⟩, "mkey", "nodekey", "discokey", none, none, []⟩
    let xs : List Issued := [⟨⟨1⟩, .upsertNode (node 7 ⟨1⟩), 0⟩, ⟨⟨2⟩, .upsertNode (node 8 ⟨2⟩), 0⟩,
      ⟨⟨2⟩, .deleteNode ⟨8⟩, 0⟩]
    SameView ⟨1⟩ (Runs.final issue MemoryStore.new xs)
      (Runs.final issue MemoryStore.new (xs.filter fun x => x.network = ⟨1⟩)) := by
  let _ := Chrono.unasked
  intro node xs
  have hown : (⟨⟨2⟩, .deleteNode ⟨8⟩, 0⟩ : Issued).Own
      { MemoryStore.new with nodes := [node 7 ⟨1⟩, node 8 ⟨2⟩] } :=
    ⟨node 8 ⟨2⟩, by simp, rfl, rfl⟩
  refine networks_isolated xs ⟨⟨rfl, ?_⟩, ⟨rfl, ?_⟩, ⟨hown, trivial⟩, trivial⟩ ⟨1⟩
  · intro n hn
    cases hn
  · intro n hn hid
    obtain rfl : n = node 7 ⟨1⟩ := List.mem_singleton.mp hn
    exact absurd hid (by decide)

end Runs

end Oxiscale

/-
Oxiscale/Ordered.lean

`MemoryStore` as an ordered keyed store.

The five aggregates of a document are four vectors and a map.  What they are
for is said by the history of calls alone: a table of records by id in which
an id keeps the place of its first insertion since it was last deleted, and
a map of policies.  `networkEvent`, `userEvent`, `nodeEvent` and
`preauthKeyEvent` read from a call and its reply what it does to a table, and
`lastPolicy` reads the policies.

`Ordered.call` is the simulation step, and the history rule carries it over
every sequence of calls.  `call_frame` says what a call leaves alone.
-/
import Oxiscale.Memory

namespace Oxiscale

/-! ### What a call does to each aggregate -/

/-- A call, the clock reading it took, and its reply. -/
abbrev Entry := (Call × Instant) × Reply

def networkEvent : Entry → Option (Keyed.Event Network NetworkId)
  | ((.mutate (.upsertNetwork net), _), _) => some (.put net)
  | _ => none

def userEvent : Entry → Option (Keyed.Event User UserId)
  | ((.mutate (.upsertUser user), _), _) => some (.put user)
  | _ => none

def nodeEvent : Entry → Option (Keyed.Event Node NodeId)
  | ((.mutate (.upsertNode node), _), _) => some (.put node)
  | ((.mutate (.deleteNode id), _), _) => some (.erase id)
  | _ => none

/-- A winning consume marks a single-use key as used; a losing one does
nothing. -/
def preauthKeyEvent : Entry → Option (Keyed.Event PreAuthKey PreAuthKeyId)
  | ((.mutate (.upsertPreauthKey key), _), _) => some (.put key)
  | ((.mutate (.consumePreauthKey id), _), .consumed true) =>
    some (.modify id MemoryStore.redeem)
  | _ => none

/-- The policy last set for a network (newest call first). -/
def lastPolicy (network : NetworkId) : List Entry → Option String
  | [] => none
  | ((.mutate (.setPolicy net policy), _), _) :: h =>
    if net = network then some policy else lastPolicy network h
  | _ :: h => lastPolicy network h

/-! ### The simulation -/

/-- In each aggregate no two records share an id. -/
structure StoreDocument.IdsDistinct (doc : StoreDocument) : Prop where
  networks : (doc.networks.map Network.id).Nodup
  users : (doc.users.map User.id).Nodup
  nodes : (doc.nodes.map Node.id).Nodup
  preauthKeys : (doc.preauthKeys.map PreAuthKey.id).Nodup

/-- **Step lemma**, for any document. -/
theorem StoreDocument.IdsDistinct.mutate [Chrono] {doc : StoreDocument} (h : doc.IdsDistinct)
    (now : Instant) (m : Mutation) : (MemoryStore.mutate now doc m).2.IdsDistinct := by
  cases m with
  | upsertNetwork net => exact ⟨Keyed.nodup_put h.networks, h.users, h.nodes, h.preauthKeys⟩
  | upsertUser user => exact ⟨h.networks, Keyed.nodup_put h.users, h.nodes, h.preauthKeys⟩
  | upsertNode node => exact ⟨h.networks, h.users, Keyed.nodup_put h.nodes, h.preauthKeys⟩
  | deleteNode id => exact ⟨h.networks, h.users, Keyed.nodup_erase h.nodes, h.preauthKeys⟩
  | upsertPreauthKey key => exact ⟨h.networks, h.users, h.nodes, Keyed.nodup_put h.preauthKeys⟩
  | consumePreauthKey id =>
      show (MemoryStore.consumePreauthKey now id doc).2.IdsDistinct
      rw [MemoryStore.consumePreauthKey_snd]
      refine ⟨h.networks, h.users, h.nodes, ?_⟩
      dsimp only
      split
      · exact Keyed.nodup_modify h.preauthKeys MemoryStore.redeem_id_of_get
      · exact h.preauthKeys
  | setPolicy network policy => exact ⟨h.networks, h.users, h.nodes, h.preauthKeys⟩

/-- The document holds what the history left in each aggregate. -/
structure Ordered (doc : StoreDocument) (h : List Entry) : Prop where
  networks : Keyed.Represents Network.id (h.filterMap networkEvent) doc.networks
  users : Keyed.Represents User.id (h.filterMap userEvent) doc.users
  nodes : Keyed.Represents Node.id (h.filterMap nodeEvent) doc.nodes
  preauthKeys : Keyed.Represents PreAuthKey.id (h.filterMap preauthKeyEvent) doc.preauthKeys
  policies : ∀ network, doc.policies.lookup network = lastPolicy network h

namespace Ordered

variable {doc : StoreDocument} {h : List Entry}

theorem idsDistinct (hd : Ordered doc h) : doc.IdsDistinct :=
  ⟨hd.networks.nodup, hd.users.nodup, hd.nodes.nodup, hd.preauthKeys.nodup⟩

theorem new : Ordered MemoryStore.new [] :=
  ⟨Keyed.Represents.nil, Keyed.Represents.nil, Keyed.Represents.nil, Keyed.Represents.nil,
    fun _ => Finmap.lookup_empty _⟩

/-- A consume rewrites its key in place. -/
theorem consume [Chrono] (hd : Ordered doc h) (now : Instant) (id : PreAuthKeyId) :
    Ordered (MemoryStore.consumePreauthKey now id doc).2
      (((.mutate (.consumePreauthKey id), now),
        .consumed (MemoryStore.consumePreauthKey now id doc).1) :: h) := by
  rw [MemoryStore.consumePreauthKey_snd]
  rcases (MemoryStore.consumePreauthKey now id doc).1 with - | -
  · exact ⟨hd.networks, hd.users, hd.nodes, hd.preauthKeys, hd.policies⟩
  · exact ⟨hd.networks, hd.users, hd.nodes,
      hd.preauthKeys.modify MemoryStore.redeem_id_of_get, hd.policies⟩

theorem setPolicy (hd : Ordered doc h) (now : Instant) (network : NetworkId) (policy : String)
    (r : Reply) : Ordered (MemoryStore.setPolicy network policy doc)
      (((.mutate (.setPolicy network policy), now), r) :: h) := by
  refine ⟨hd.networks, hd.users, hd.nodes, hd.preauthKeys, fun net => ?_⟩
  rcases eq_or_ne net network with rfl | hne
  · rw [lastPolicy, if_pos rfl]
    exact Finmap.lookup_insert _
  · rw [lastPolicy, if_neg hne.symm, ← hd.policies]
    exact Finmap.lookup_insert_of_ne _ hne

variable [Chrono]

/-- One call extends the history by itself. -/
theorem call (hd : Ordered doc h) (x : Call × Instant) :
    Ordered (MemoryStore.call doc x).2 ((x, (MemoryStore.call doc x).1) :: h) := by
  obtain ⟨c, now⟩ := x
  cases c with
  | query q => exact ⟨hd.networks, hd.users, hd.nodes, hd.preauthKeys, hd.policies⟩
  | mutate m =>
      cases m with
      | upsertNetwork net =>
          exact ⟨hd.networks.put, hd.users, hd.nodes, hd.preauthKeys, hd.policies⟩
      | upsertUser user =>
          exact ⟨hd.networks, hd.users.put, hd.nodes, hd.preauthKeys, hd.policies⟩
      | upsertNode node =>
          exact ⟨hd.networks, hd.users, hd.nodes.put, hd.preauthKeys, hd.policies⟩
      | deleteNode id =>
          exact ⟨hd.networks, hd.users, hd.nodes.erase, hd.preauthKeys, hd.policies⟩
      | upsertPreauthKey key =>
          exact ⟨hd.networks, hd.users, hd.nodes, hd.preauthKeys.put, hd.policies⟩
      | consumePreauthKey id => exact hd.consume now id
      | setPolicy network policy => exact hd.setPolicy now network policy _

/-- **Run.**  From an empty store every history keeps it. -/
theorem run (calls : List (Call × Instant)) :
    Ordered (Runs.final MemoryStore.call MemoryStore.new calls)
      (Runs.history MemoryStore.call MemoryStore.new calls) :=
  Runs.history_invariant (fun _ _ x hd => hd.call x) new

end Ordered

/-! ### What a call leaves alone -/

/-- A row of the store. -/
inductive Row
  | network (id : NetworkId)
  | user (id : UserId)
  | node (id : NodeId)
  | preauthKey (id : PreAuthKeyId)
  | policy (network : NetworkId)
deriving DecidableEq

/-- The row a call may write. -/
def Call.target : Call → Option Row
  | .mutate (.upsertNetwork net) => some (.network net.id)
  | .mutate (.upsertUser user) => some (.user user.id)
  | .mutate (.upsertNode node) => some (.node node.id)
  | .mutate (.deleteNode id) => some (.node id)
  | .mutate (.upsertPreauthKey key) => some (.preauthKey key.id)
  | .mutate (.consumePreauthKey id) => some (.preauthKey id)
  | .mutate (.setPolicy network _) => some (.policy network)
  | .query _ => none

/-- Between two documents, everything but one row is the same, in content and
in order. -/
structure SameExcept (target : Option Row) (doc doc' : StoreDocument) : Prop where
  version : doc'.version = doc.version
  networks : doc'.networks.filter (fun n => target ≠ some (.network n.id)) =
    doc.networks.filter fun n => target ≠ some (.network n.id)
  users : doc'.users.filter (fun u => target ≠ some (.user u.id)) =
    doc.users.filter fun u => target ≠ some (.user u.id)
  nodes : doc'.nodes.filter (fun n => target ≠ some (.node n.id)) =
    doc.nodes.filter fun n => target ≠ some (.node n.id)
  preauthKeys : doc'.preauthKeys.filter (fun k => target ≠ some (.preauthKey k.id)) =
    doc.preauthKeys.filter fun k => target ≠ some (.preauthKey k.id)
  policies : ∀ network, target ≠ some (.policy network) →
    doc'.policies.lookup network = doc.policies.lookup network

theorem SameExcept.refl (target : Option Row) (doc : StoreDocument) :
    SameExcept target doc doc :=
  ⟨rfl, rfl, rfl, rfl, rfl, fun _ _ => rfl⟩

/-- Retaining the rows other than one is erasing its key. -/
theorem filter_row_congr {α κ : Type*} [DecidableEq κ] (row : κ → Row) (key : α → κ)
    (hrow : Function.Injective row) {k : κ} {l l' : List α}
    (h : Keyed.erase key k l' = Keyed.erase key k l) :
    l'.filter (fun a => some (row k) ≠ some (row (key a))) =
      l.filter fun a => some (row k) ≠ some (row (key a)) := by
  have herase : ∀ m : List α, m.filter (fun a => some (row k) ≠ some (row (key a))) =
      Keyed.erase key k m := by
    intro m
    refine List.filter_congr fun a _ => ?_
    simp [hrow.eq_iff, eq_comm]
  rw [herase, herase, h]

/-- **Step.**  A call leaves every other row alone. -/
theorem call_frame [Chrono] (doc : StoreDocument) (x : Call × Instant) :
    SameExcept x.1.target doc (MemoryStore.call doc x).2 := by
  obtain ⟨c, now⟩ := x
  cases c with
  | query q => exact SameExcept.refl _ _
  | mutate m =>
      -- the other lists are untouched; in its own list only the row of the target changes
      cases m with
      | upsertNetwork net =>
          refine ⟨rfl, ?_, rfl, rfl, rfl, fun _ _ => rfl⟩
          exact filter_row_congr Row.network Network.id (fun _ _ => Row.network.inj) Keyed.erase_put
      | upsertUser user =>
          refine ⟨rfl, rfl, ?_, rfl, rfl, fun _ _ => rfl⟩
          exact filter_row_congr Row.user User.id (fun _ _ => Row.user.inj) Keyed.erase_put
      | upsertNode node =>
          refine ⟨rfl, rfl, rfl, ?_, rfl, fun _ _ => rfl⟩
          exact filter_row_congr Row.node Node.id (fun _ _ => Row.node.inj) Keyed.erase_put
      | deleteNode id =>
          refine ⟨rfl, rfl, rfl, ?_, rfl, fun _ _ => rfl⟩
          exact filter_row_congr Row.node Node.id (fun _ _ => Row.node.inj) Keyed.erase_erase
      | upsertPreauthKey key =>
          refine ⟨rfl, rfl, rfl, rfl, ?_, fun _ _ => rfl⟩
          exact filter_row_congr Row.preauthKey PreAuthKey.id (fun _ _ => Row.preauthKey.inj) Keyed.erase_put
      | consumePreauthKey id =>
          have hsnd := MemoryStore.consumePreauthKey_snd now id doc
          show SameExcept _ doc (MemoryStore.consumePreauthKey now id doc).2
          rw [hsnd]
          refine ⟨rfl, rfl, rfl, rfl, ?_, fun _ _ => rfl⟩
          refine filter_row_congr Row.preauthKey PreAuthKey.id (fun _ _ => Row.preauthKey.inj) ?_
          split
          · exact Keyed.erase_modify MemoryStore.redeem_id_of_get
          · rfl
      | setPolicy network policy =>
          refine ⟨rfl, rfl, rfl, rfl, rfl, fun net hne => ?_⟩
          exact Finmap.lookup_insert_of_ne _ fun h => hne (by rw [h, Call.target])

/-! ### The ordered keyed store -/

/-- **`MemoryStore` is an ordered keyed store.**  After every sequence of
calls on a fresh store, ids are distinct, the lists are exactly the filtered
history in the order of insertion, `get_node` and `get_policy` are the last
written values, and a further call changes nothing but its own row. -/
theorem memoryStore_refines_history [Chrono] (calls : List (Call × Instant)) :
    let doc := Runs.final MemoryStore.call MemoryStore.new calls
    let h := Runs.history MemoryStore.call MemoryStore.new calls
    doc.IdsDistinct ∧
    Keyed.ListsExactly Network.id (h.filterMap networkEvent) (fun _ => true)
      (MemoryStore.listNetworks doc) ∧
    (∀ network, Keyed.ListsExactly User.id (h.filterMap userEvent)
      (fun u => u.networkId = network) (MemoryStore.listUsers network doc)) ∧
    (∀ network, Keyed.ListsExactly Node.id (h.filterMap nodeEvent)
      (fun n => n.networkId = network) (MemoryStore.listNodes network doc)) ∧
    (∀ network, Keyed.ListsExactly PreAuthKey.id (h.filterMap preauthKeyEvent)
      (fun k => k.networkId = network) (MemoryStore.listPreauthKeys network doc)) ∧
    (∀ id, MemoryStore.getNode id doc =
      Keyed.lastWritten Node.id id (h.filterMap nodeEvent)) ∧
    (∀ network, MemoryStore.getPolicy network doc = lastPolicy network h) ∧
    ∀ x, SameExcept x.1.target doc (MemoryStore.call doc x).2 := by
  intro doc h
  have hd : Ordered doc h := Ordered.run calls
  refine ⟨hd.idsDistinct, ?_, fun network => hd.users.filter _, fun network => hd.nodes.filter _,
    fun network => hd.preauthKeys.filter _, hd.nodes.get_eq, hd.policies, call_frame doc⟩
  have hall := hd.networks.filter fun _ => true
  rwa [List.filter_true] at hall

end Oxiscale

/-
Oxiscale/Memory.lean

`MemoryStore` (`store/memory.rs`): the document behind a lock.

Each call is one critical section of the lock, so a call is a function of
the document it finds, and an interleaving of any number of clients is a
sequence of calls.  No call of this backend can fail; the replies are what
the source wraps in `Ok`.

The clock of the process is read inside `consume_preauth_key`, after the
lock is taken, so every call carries its own reading `now`.  Parsing RFC
3339 is the date library's; it enters through the class `Chrono` and nothing
is assumed of it.
-/
import Oxiscale.Keyed
import Oxiscale.Runs
import Oxiscale.Types

namespace Oxiscale

/-- Nanoseconds since the Unix epoch. -/
abbrev Instant := ℤ

/-- The date library: `chrono::DateTime::parse_from_rfc3339`. -/
class Chrono where
  parseFromRfc3339 : String → Option Instant

/-- A date library for runs in which no record has an expiry, so that it is
never asked. -/
@[reducible] def Chrono.unasked : Chrono := ⟨fun _ => none⟩

namespace MemoryStore

/-- The document of a fresh store. -/
def new : StoreDocument where
  version := 1
  networks := []
  users := []
  nodes := []
  preauthKeys := []
  policies := ∅

/-! ### Reads -/

def listNetworks (doc : StoreDocument) : List Network := doc.networks

def listUsers (network : NetworkId) (doc : StoreDocument) : List User :=
  doc.users.filter fun u => u.networkId = network

def listNodes (network : NetworkId) (doc : StoreDocument) : List Node :=
  doc.nodes.filter fun n => n.networkId = network

/-- Ids are global: whatever the network. -/
def getNode (id : NodeId) (doc : StoreDocument) : Option Node :=
  Keyed.get Node.id id doc.nodes

def listPreauthKeys (network : NetworkId) (doc : StoreDocument) : List PreAuthKey :=
  doc.preauthKeys.filter fun k => k.networkId = network

def getPolicy (network : NetworkId) (doc : StoreDocument) : Option String :=
  doc.policies.lookup network

/-! ### Mutations -/

def upsertNetwork (net : Network) (doc : StoreDocument) : StoreDocument :=
  { doc with networks := Keyed.put Network.id net doc.networks }

def upsertUser (user : User) (doc : StoreDocument) : StoreDocument :=
  { doc with users := Keyed.put User.id user doc.users }

def upsertNode (node : Node) (doc : StoreDocument) : StoreDocument :=
  { doc with nodes := Keyed.put Node.id node doc.nodes }

/-- Nothing is reported of a node that was not there. -/
def deleteNode (id : NodeId) (doc : StoreDocument) : StoreDocument :=
  { doc with nodes := Keyed.erase Node.id id doc.nodes }

def upsertPreauthKey (key : PreAuthKey) (doc : StoreDocument) : StoreDocument :=
  { doc with preauthKeys := Keyed.put PreAuthKey.id key doc.preauthKeys }

def setPolicy (network : NetworkId) (policy : String) (doc : StoreDocument) : StoreDocument :=
  { doc with policies := doc.policies.insert network policy }

/-- A missing `expires_at` never expires; an unparseable one is treated as
expired. -/
def preauthKeyExpired [Chrono] (now : Instant) (key : PreAuthKey) : Bool :=
  match key.expiresAt with
  | none => false
  | some ts =>
    match Chrono.parseFromRfc3339 ts with
    | some expiry => expiry ≤ now
    | none => true

/-- `key.used = true`. -/
def markUsed (key : PreAuthKey) : PreAuthKey := { key with used := true }

/-- The checks come in this order: expired, reusable, used. -/
def consumePreauthKey [Chrono] (now : Instant) (id : PreAuthKeyId) (doc : StoreDocument) :
    Bool × StoreDocument :=
  match Keyed.get PreAuthKey.id id doc.preauthKeys with
  | none => (false, doc)
  | some key =>
    if preauthKeyExpired now key then (false, doc)
    else if key.reusable then (true, doc)
    else if key.used then (false, doc)
    else (true, { doc with preauthKeys := Keyed.modify PreAuthKey.id id markUsed doc.preauthKeys })

/-! ### The trait -/

def mutate [Chrono] (now : Instant) (doc : StoreDocument) : Mutation → Reply × StoreDocument
  | .upsertNetwork net => (.unit, upsertNetwork net doc)
  | .upsertUser user => (.unit, upsertUser user doc)
  | .upsertNode node => (.unit, upsertNode node doc)
  | .deleteNode id => (.unit, deleteNode id doc)
  | .upsertPreauthKey key => (.unit, upsertPreauthKey key doc)
  | .consumePreauthKey id =>
    let (won, doc') := consumePreauthKey now id doc
    (.consumed won, doc')
  | .setPolicy network policy => (.unit, setPolicy network policy doc)

def query (doc : StoreDocument) : Query → Reply
  | .listNetworks => .networks (listNetworks doc)
  | .listUsers network => .users (listUsers network doc)
  | .listNodes network => .nodes (listNodes network doc)
  | .getNode id => .node (getNode id doc)
  | .listPreauthKeys network => .preauthKeys (listPreauthKeys network doc)
  | .getPolicy network => .policy (getPolicy network doc)

/-- One call, with the clock reading it would take. -/
def call [Chrono] (doc : StoreDocument) : Call × Instant → Reply × StoreDocument
  | (.mutate m, now) => mutate now doc m
  | (.query q, _) => (query doc q, doc)

theorem getKey_upsert {id : PreAuthKeyId} {key : PreAuthKey} {doc : StoreDocument} :
    Keyed.get PreAuthKey.id id (upsertPreauthKey key doc).preauthKeys =
      if key.id = id then some key else Keyed.get PreAuthKey.id id doc.preauthKeys :=
  Keyed.get_put

/-! ### What consuming a key does -/

/-- What a winning call does to the record: a key that serves many times
stays as it is. -/
def redeem (key : PreAuthKey) : PreAuthKey := if key.reusable then key else markUsed key

@[simp] theorem redeem_networkId (key : PreAuthKey) : (redeem key).networkId = key.networkId := by
  unfold redeem
  split <;> rfl

@[simp] theorem redeem_id (key : PreAuthKey) : (redeem key).id = key.id := by
  unfold redeem
  split <;> rfl

theorem markUsed_id_of_get {id : PreAuthKeyId} {l : List PreAuthKey} :
    ∀ k ∈ Keyed.get PreAuthKey.id id l, (markUsed k).id = id :=
  fun k hk => Keyed.key_of_get (a := k) hk

theorem redeem_id_of_get {id : PreAuthKeyId} {l : List PreAuthKey} :
    ∀ k ∈ Keyed.get PreAuthKey.id id l, (redeem k).id = id :=
  fun k hk => (redeem_id k).trans (Keyed.key_of_get hk)

section Consume

variable [Chrono] (now : Instant) (id : PreAuthKeyId) (doc : StoreDocument)

/-- The key has not expired and either serves many times or has not served
yet. -/
def Redeemable (now : Instant) (key : PreAuthKey) : Prop :=
  preauthKeyExpired now key = false ∧ (key.reusable = true ∨ key.used = false)

/-- The expiry test passes exactly when `expires_at` is absent or parses to a
later instant. -/
theorem preauthKeyExpired_eq_false_iff (key : PreAuthKey) :
    preauthKeyExpired now key = false ↔ key.expiresAt = none ∨
      ∃ ts expiry, key.expiresAt = some ts ∧ Chrono.parseFromRfc3339 ts = some expiry ∧
        now < expiry := by
  rcases he : key.expiresAt with - | ts
  · simp [preauthKeyExpired, he]
  · rcases hp : Chrono.parseFromRfc3339 ts with - | expiry <;>
      simp [preauthKeyExpired, he, hp]

/-- Everything a consume call can do. -/
theorem consumePreauthKey_cases :
    (consumePreauthKey now id doc = (false, doc) ∧
      ∀ key ∈ Keyed.get PreAuthKey.id id doc.preauthKeys, ¬ Redeemable now key) ∨
    (∃ key, Keyed.get PreAuthKey.id id doc.preauthKeys = some key ∧ Redeemable now key ∧
      key.reusable = true ∧ consumePreauthKey now id doc = (true, doc)) ∨
    (∃ key, Keyed.get PreAuthKey.id id doc.preauthKeys = some key ∧ Redeemable now key ∧
      key.reusable = false ∧ key.used = false ∧
      consumePreauthKey now id doc = (true, { doc with
        preauthKeys := Keyed.modify PreAuthKey.id id markUsed doc.preauthKeys })) := by
  -- the checks of the source in turn: found, not expired, reusable, unused
  rcases hg : Keyed.get PreAuthKey.id id doc.preauthKeys with - | key
  · exact Or.inl ⟨by simp [consumePreauthKey, hg], by simp⟩
  · rcases hx : preauthKeyExpired now key with - | -
    · rcases hr : key.reusable with - | -
      · rcases hu : key.used with - | -
        · refine Or.inr (Or.inr ⟨key, rfl, ⟨hx, Or.inr hu⟩, hr, hu, ?_⟩)
          simp [consumePreauthKey, hg, hx, hr, hu]
        · refine Or.inl ⟨by simp [consumePreauthKey, hg, hx, hr, hu], ?_⟩
          simp [Redeemable, hr, hu]
      · refine Or.inr (Or.inl ⟨key, rfl, ⟨hx, Or.inl hr⟩, hr, ?_⟩)
        simp [consumePreauthKey, hg, hx, hr]
    · refine Or.inl ⟨by simp [consumePreauthKey, hg, hx], ?_⟩
      simp [Redeemable, hx]

/-- **A consume wins exactly where there is a key that can be redeemed.** -/
theorem consumePreauthKey_fst :
    (consumePreauthKey now id doc).1 = true ↔
      ∃ key, Keyed.get PreAuthKey.id id doc.preauthKeys = some key ∧ Redeemable now key := by
  rcases consumePreauthKey_cases now id doc with
    ⟨h, hno⟩ | ⟨key, hg, hred, -, h⟩ | ⟨key, hg, hred, -, -, h⟩
  · rw [h]
    simpa using fun key hg => hno key hg
  · rw [h]
    exact ⟨fun _ => ⟨key, hg, hred⟩, fun _ => rfl⟩
  · rw [h]
    exact ⟨fun _ => ⟨key, hg, hred⟩, fun _ => rfl⟩

/-- It loses exactly where there is none. -/
theorem consumePreauthKey_fst_eq_false :
    (consumePreauthKey now id doc).1 = false ↔
      ∀ key ∈ Keyed.get PreAuthKey.id id doc.preauthKeys, ¬ Redeemable now key := by
  rw [← Bool.not_eq_true, consumePreauthKey_fst]
  simp

/-- A consume call looks at nothing but the record under its id. -/
theorem consumePreauthKey_fst_congr {doc' : StoreDocument}
    (h : Keyed.get PreAuthKey.id id doc.preauthKeys = Keyed.get PreAuthKey.id id doc'.preauthKeys) :
    (consumePreauthKey now id doc).1 = (consumePreauthKey now id doc').1 := by
  rw [Bool.eq_iff_iff, consumePreauthKey_fst, consumePreauthKey_fst, h]

/-- A consume call writes nothing but the record it redeems. -/
theorem consumePreauthKey_snd :
    (consumePreauthKey now id doc).2 = { doc with
      preauthKeys := if (consumePreauthKey now id doc).1 = true
        then Keyed.modify PreAuthKey.id id redeem doc.preauthKeys
        else doc.preauthKeys } := by
  rcases consumePreauthKey_cases now id doc with
    ⟨h, -⟩ | ⟨key, hg, -, hr, h⟩ | ⟨key, hg, -, hr, -, h⟩
  · rw [h]
    rfl
  · have hsame : Keyed.modify PreAuthKey.id id redeem doc.preauthKeys = doc.preauthKeys := by
      rw [Keyed.modify_eq_self_iff, hg]
      simp [redeem, hr]
    rw [h, if_pos rfl, hsame]
  · have hsame : Keyed.modify PreAuthKey.id id redeem doc.preauthKeys =
        Keyed.modify PreAuthKey.id id markUsed doc.preauthKeys := by
      refine Keyed.modify_congr fun k hk => ?_
      obtain rfl : key = k := Option.some.inj (hg.symm.trans hk)
      simp [redeem, hr]
    rw [h, if_pos rfl, hsame]

end Consume

end MemoryStore

end Oxiscale

/-
Oxiscale/Types.lean

The data of the persistence port: the aggregates of `store/types.rs`, the
document of `store/document.rs`, the errors of `store/error.rs` and the
calls of the trait in `store/traits.rs`.

Ids are newtypes over 64-bit words, so two ids of different aggregates can
not be confused.  The policies are a `HashMap`, whose iteration order is
unspecified; a `Finmap` has none, and equality of documents is then equality
of the policies as a map.
-/
import Mathlib.Data.Finmap

namespace Oxiscale

/-! ### Ids and aggregates -/

structure NetworkId where
  val : UInt64
deriving DecidableEq

structure UserId where
  val : UInt64
deriving DecidableEq

structure NodeId where
  val : UInt64
deriving DecidableEq

structure PreAuthKeyId where
  val : UInt64
deriving DecidableEq

structure Network where
  id : NetworkId
  name : String
  serverHost : String
  ipv4Prefix : String
  ipv6Prefix : String
  noiseKeyId : String
  policy : Option String
  createdAt : String
deriving DecidableEq

structure User where
  id : UserId
  networkId : NetworkId
  loginName : String
  displayName : String
deriving DecidableEq

structure Node where
  id : NodeId
  networkId : NetworkId
  userId : UserId
  machineKey : String
  nodeKey : String
  discoKey : String
  ipv4 : Option String
  ipv6 : Option String
  tags : List String
deriving DecidableEq

/-- The source's `prefix` is `keyPrefix` here. -/
structure PreAuthKey where
  id : PreAuthKeyId
  networkId : NetworkId
  keyPrefix : String
  secretHash : String
  reusable : Bool
  ephemeral : Bool
  used : Bool
  expiresAt : Option String
  tags : List String
deriving DecidableEq

/-! ### The document -/

/-- A map without an order of its own. -/
abbrev Policies := Finmap fun _ : NetworkId => String

/-- The on-disk envelope, and the value behind the lock of a `MemoryStore`. -/
structure StoreDocument where
  version : UInt32
  networks : List Network
  users : List User
  nodes : List Node
  preauthKeys : List PreAuthKey
  policies : Policies
deriving DecidableEq

/-! ### Errors -/

/-- The kinds of I/O error the store tells apart: it branches on `NotFound`
and carries everything else along. -/
inductive IoError
  | notFound
  | other (message : String)
deriving DecidableEq

inductive StoreError
  | notImplemented
  | io (error : IoError)
  | serde (message : String)
deriving DecidableEq

/-! ### The calls of the trait -/

/-- The calls that change the store. -/
inductive Mutation
  | upsertNetwork (net : Network)
  | upsertUser (user : User)
  | upsertNode (node : Node)
  | deleteNode (id : NodeId)
  | upsertPreauthKey (key : PreAuthKey)
  | consumePreauthKey (id : PreAuthKeyId)
  | setPolicy (network : NetworkId) (policy : String)
deriving DecidableEq

/-- The calls that only read it. -/
inductive Query
  | listNetworks
  | listUsers (network : NetworkId)
  | listNodes (network : NetworkId)
  | getNode (id : NodeId)
  | listPreauthKeys (network : NetworkId)
  | getPolicy (network : NetworkId)
deriving DecidableEq

inductive Call
  | mutate (m : Mutation)
  | query (q : Query)
deriving DecidableEq

/-- What a call returns inside `Ok`. -/
inductive Reply
  | unit
  | consumed (won : Bool)
  | networks (l : List Network)
  | users (l : List User)
  | nodes (l : List Node)
  | node (n : Option Node)
  | preauthKeys (l : List PreAuthKey)
  | policy (p : Option String)
deriving DecidableEq

end Oxiscale

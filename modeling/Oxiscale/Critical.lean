/-
Oxiscale/Critical.lean

The critical sections of `MemoryStore`, turn by turn.

`Memory.lean` takes a call as one function of the document it finds.  In the
source it is a loop over a vector behind a `RwLock`: `find` looks at one
record after another, `collect` clones one record after another, `retain`
drops one record after another, and the checks of `consume_preauth_key` read
the record they have found one by one.  Here a call does one such turn at a
time, on the document as it is at that turn, and any other client may move in
between.

`reaches_call` says that the turns of a call, made one after another, end in
what the function does.  The section rules then give the whole system:
`memory_linearizable` for the clients of one store.
-/
import Oxiscale.Memory
import Oxiscale.Sections

namespace Oxiscale

namespace MemoryStore

/-! ### Turns -/

/-- Where a call is in its critical section. -/
inductive Cursor
  -- `find` looks at record `n` next, has stopped at it, has reached the end
  | seek (n : ℕ)
  | found (n : ℕ)
  | absent
  -- what `consume_preauth_key` knows of the record it has found
  | unexpired (n : ℕ)
  | single (n : ℕ)
  | unused (n : ℕ)
  -- `retain` looks at record `n` next
  | sift (n : ℕ)
  -- before the operation on the map of policies
  | entry
  -- the first `n` records are looked at, the chosen ones cloned
  | networks (n : ℕ) (chosen : List Network)
  | users (n : ℕ) (chosen : List User)
  | nodes (n : ℕ) (chosen : List Node)
  | preauthKeys (n : ℕ) (chosen : List PreAuthKey)
  -- the first `n` fields of the document are cloned
  | copy (n : ℕ) (copied : StoreDocument)
  | done (reply : Reply)

section Turns

variable {α K : Type} [DecidableEq K]

/-- A turn of `find`. -/
def seek (key : α → K) (k : K) (l : List α) (n : ℕ) : Cursor :=
  match l[n]? with
  | none => .absent
  | some a => if key a = k then .found n else .seek (n + 1)

/-- A turn of an upsert: find the record, then overwrite it or push. -/
def upsertTurn (key : α → K) (a : α) (l : List α) : Cursor → Option (List α × Cursor)
  | .seek n => some (l, seek key (key a) l n)
  | .found n => some (l.set n a, .done .unit)
  | .absent => some (l ++ [a], .done .unit)
  | _ => none

/-- A turn of `retain`, which looks at every record once and in order. -/
def siftTurn (key : α → K) (k : K) (l : List α) : Cursor → Option (List α × Cursor)
  | .sift n =>
    match l[n]? with
    | none => some (l, .done .unit)
    | some a => some (if key a = k then (l.eraseIdx n, .sift n) else (l, .sift (n + 1)))
  | _ => none

/-- A turn of `filter(..).cloned().collect()`. -/
def collectTurn (p : α → Bool) (l : List α) (next : ℕ → List α → Cursor)
    (reply : List α → Reply) (n : ℕ) (chosen : List α) : Cursor :=
  match l[n]? with
  | none => .done (reply chosen)
  | some a => next (n + 1) (if p a then chosen ++ [a] else chosen)

end Turns

/-- A turn of `consume_preauth_key`.  Each check is a turn of its own. -/
def consumeTurn [Chrono] (now : Instant) (id : PreAuthKeyId) (l : List PreAuthKey) :
    Cursor → Option (List PreAuthKey × Cursor)
  | .seek n => some (l, seek PreAuthKey.id id l n)
  | .absent => some (l, .done (.consumed false))
  | .found n => l[n]?.map fun key =>
    (l, if preauthKeyExpired now key then .done (.consumed false) else .unexpired n)
  | .unexpired n => l[n]?.map fun key =>
    (l, if key.reusable then .done (.consumed true) else .single n)
  | .single n => l[n]?.map fun key =>
    (l, if key.used then .done (.consumed false) else .unused n)
  | .unused n => l[n]?.map fun key => (l.set n (markUsed key), .done (.consumed true))
  | _ => none

/-- A turn under the write lock. -/
def mutateTurn [Chrono] (now : Instant) (doc : StoreDocument) :
    Mutation → Cursor → Option (StoreDocument × Cursor)
  | .upsertNetwork net, k => (upsertTurn Network.id net doc.networks k).map fun (l, k') =>
    ({ doc with networks := l }, k')
  | .upsertUser user, k => (upsertTurn User.id user doc.users k).map fun (l, k') =>
    ({ doc with users := l }, k')
  | .upsertNode node, k => (upsertTurn Node.id node doc.nodes k).map fun (l, k') =>
    ({ doc with nodes := l }, k')
  | .deleteNode id, k => (siftTurn Node.id id doc.nodes k).map fun (l, k') =>
    ({ doc with nodes := l }, k')
  | .upsertPreauthKey key, k => (upsertTurn PreAuthKey.id key doc.preauthKeys k).map fun (l, k') =>
    ({ doc with preauthKeys := l }, k')
  | .consumePreauthKey id, k => (consumeTurn now id doc.preauthKeys k).map fun (l, k') =>
    ({ doc with preauthKeys := l }, k')
  | .setPolicy network policy, .entry => some (setPolicy network policy doc, .done .unit)
  | .setPolicy _ _, _ => none

/-- A turn under the read lock. -/
def queryTurn (doc : StoreDocument) : Query → Cursor → Option Cursor
  | .listNetworks, .networks n chosen =>
    some (collectTurn (fun _ => true) doc.networks .networks .networks n chosen)
  | .listUsers network, .users n chosen =>
    some (collectTurn (fun u => u.networkId = network) doc.users .users .users n chosen)
  | .listNodes network, .nodes n chosen =>
    some (collectTurn (fun m => m.networkId = network) doc.nodes .nodes .nodes n chosen)
  | .getNode id, .seek n => some (seek Node.id id doc.nodes n)
  | .getNode _, .found n => some (.done (.node doc.nodes[n]?))
  | .getNode _, .absent => some (.done (.node none))
  | .listPreauthKeys network, .preauthKeys n chosen =>
    some (collectTurn (fun k => k.networkId = network) doc.preauthKeys .preauthKeys
      .preauthKeys n chosen)
  | .getPolicy network, .entry => some (.done (.policy (doc.policies.lookup network)))
  | _, _ => none

/-- A turn of `snapshot`: the document is cloned a field at a time. -/
def copyTurn (doc : StoreDocument) : Cursor → Option Cursor
  | .copy 0 d => some (.copy 1 { d with version := doc.version })
  | .copy 1 d => some (.copy 2 { d with networks := doc.networks })
  | .copy 2 d => some (.copy 3 { d with users := doc.users })
  | .copy 3 d => some (.copy 4 { d with nodes := doc.nodes })
  | .copy 4 d => some (.copy 5 { d with preauthKeys := doc.preauthKeys })
  | .copy 5 d => some (.copy 6 { d with policies := doc.policies })
  | _ => none

/-- Where a call begins. -/
def enter : Call → Cursor
  | .mutate (.deleteNode _) => .sift 0
  | .mutate (.setPolicy _ _) => .entry
  | .mutate _ => .seek 0
  | .query .listNetworks => .networks 0 []
  | .query (.listUsers _) => .users 0 []
  | .query (.listNodes _) => .nodes 0 []
  | .query (.getNode _) => .seek 0
  | .query (.listPreauthKeys _) => .preauthKeys 0 []
  | .query (.getPolicy _) => .entry

/-- A turn of a call, with the clock reading it would take. -/
def turn [Chrono] (x : Call × Instant) (doc : StoreDocument) (k : Cursor) :
    Option (StoreDocument × Cursor) :=
  match x.1 with
  | .mutate m => mutateTurn x.2 doc m k
  | .query q => (queryTurn doc q k).map fun k' => (doc, k')

/-! ### What the turns come to -/

/-- Any number of turns. -/
def Reaches {σ : Type} (t : σ → Cursor → Option (σ × Cursor)) : σ × Cursor → σ × Cursor → Prop :=
  Relation.ReflTransGen fun a b => t a.1 a.2 = some b

section Reaches

variable {σ α K : Type} [DecidableEq K] {t : σ → Cursor → Option (σ × Cursor)} {s : σ}
  {key : α → K} {k : K} {l : List α} {a : α} {n m : ℕ}

/-- One turn, and the others after it. -/
theorem Reaches.turn {b c : σ × Cursor} {j : Cursor} (h : t s j = some b) (hbc : Reaches t b c) :
    Reaches t (s, j) c :=
  Relation.ReflTransGen.head h hbc

theorem Reaches.last {b : σ × Cursor} {j : Cursor} (h : t s j = some b) : Reaches t (s, j) b :=
  .turn h .refl

/-- `find` passes the records with another key. -/
theorem reaches_seek (hturn : ∀ n, t s (.seek n) = some (s, seek key k l n)) (hn : n ≤ l.length)
    (hbefore : ∀ m < n, ∀ b ∈ l[m]?, key b ≠ k) : Reaches t (s, .seek 0) (s, .seek n) := by
  induction n with
  | zero => exact .refl
  | succ n ih =>
      have hn' : n < l.length := hn
      have hpass := ih hn'.le fun m hm => hbefore m (by omega)
      have hne : key l[n] ≠ k := hbefore n (by omega) _ (List.getElem?_eq_getElem hn')
      refine Relation.ReflTransGen.tail hpass ?_
      show t s (.seek n) = _
      rw [hturn, seek, List.getElem?_eq_getElem hn']
      simp only [if_neg hne]

/-- A search stops at the first record with the key. -/
theorem reaches_found (hturn : ∀ n, t s (.seek n) = some (s, seek key k l n))
    (hget : Keyed.get key k l = some a) :
    ∃ n, l[n]? = some a ∧ (∀ f, Keyed.modify key k f l = l.set n (f a)) ∧
      Reaches t (s, .seek 0) (s, .found n) := by
  obtain ⟨n, hn, hbefore, hmod⟩ := Keyed.exists_index hget
  have hlt : n < l.length := (List.getElem?_eq_some_iff.mp hn).1
  refine ⟨n, hn, hmod, Relation.ReflTransGen.tail (reaches_seek hturn hlt.le hbefore) ?_⟩
  show t s (.seek n) = _
  rw [hturn, seek, hn]
  simp only [if_pos (Keyed.key_of_get hget)]

/-- A search that finds nothing goes through the whole list. -/
theorem reaches_absent (hturn : ∀ n, t s (.seek n) = some (s, seek key k l n))
    (hget : Keyed.get key k l = none) : Reaches t (s, .seek 0) (s, .absent) := by
  have hbefore : ∀ m < l.length, ∀ b ∈ l[m]?, key b ≠ k := fun m _ b hb =>
    Keyed.get_eq_none_iff.mp hget b (List.mem_of_getElem? hb)
  refine Relation.ReflTransGen.tail (reaches_seek hturn le_rfl hbefore) ?_
  show t s (.seek l.length) = _
  rw [hturn, seek, List.getElem?_eq_none le_rfl]

/-- `collect` goes through the rest of the records. -/
theorem reaches_collect {p : α → Bool} (next : ℕ → List α → Cursor) (reply : List α → Reply)
    (hturn : ∀ n c, t s (next n c) = some (s, collectTurn p l next reply n c))
    (before after chosen : List α) (hl : l = before ++ after) :
    Reaches t (s, next before.length chosen) (s, .done (reply (chosen ++ after.filter p))) := by
  induction after generalizing before chosen with
  | nil =>
      refine .last ?_
      rw [hturn, collectTurn, hl, List.append_nil, List.getElem?_eq_none le_rfl]
      simp
  | cons a after ih =>
      have hnext := ih (before ++ [a]) (if p a then chosen ++ [a] else chosen) (by simp [hl])
      refine .turn (b := (s, next (before.length + 1) (if p a then chosen ++ [a] else chosen)))
        ?_ ?_
      · rw [hturn, collectTurn, hl]
        simp
      · rcases hp : p a with - | - <;> simpa [hp] using hnext

/-- **Upsert.**  The loop ends with the list that `Keyed.put` gives. -/
theorem reaches_upsert :
    Reaches (upsertTurn key a) (l, .seek 0) (Keyed.put key a l, .done .unit) := by
  rcases hget : Keyed.get key (key a) l with - | b
  · refine (reaches_absent (fun _ => rfl) hget).trans (Reaches.last ?_)
    show some (l ++ [a], Cursor.done .unit) = _
    rw [Keyed.put_of_none hget]
  · obtain ⟨n, -, hmod, hfound⟩ := reaches_found (t := upsertTurn key a) (fun _ => rfl) hget
    refine hfound.trans (Reaches.last ?_)
    show some (l.set n a, Cursor.done .unit) = _
    rw [Keyed.put_of_some hget, hmod]

/-- `retain` goes through the rest of the records. -/
theorem reaches_sift (key : α → K) (k : K) (before after : List α) :
    Reaches (siftTurn key k) (before ++ after, .sift before.length)
      (before ++ Keyed.erase key k after, .done .unit) := by
  induction after generalizing before with
  | nil =>
      refine .last ?_
      rw [siftTurn, List.append_nil, List.getElem?_eq_none le_rfl]
      simp
  | cons a after ih =>
      have hat : (before ++ a :: after)[before.length]? = some a := by simp
      by_cases ha : key a = k
      · refine .turn (b := (before ++ after, .sift before.length)) ?_ ?_
        · rw [siftTurn, hat]
          simp [ha, List.eraseIdx_append_of_length_le]
        · rw [Keyed.erase_cons, if_pos ha]
          exact ih before
      · refine .turn (b := (before ++ a :: after, .sift (before.length + 1))) ?_ ?_
        · rw [siftTurn, hat]
          simp [ha]
        · rw [Keyed.erase_cons, if_neg ha]
          simpa using ih (before ++ [a])

end Reaches

variable [Chrono] (doc : StoreDocument)

/-- **Consume.**  The loop ends with the keys and the reply of
`consumePreauthKey`. -/
theorem reaches_consume (now : Instant) (id : PreAuthKeyId) :
    Reaches (consumeTurn now id) (doc.preauthKeys, .seek 0)
      ((consumePreauthKey now id doc).2.preauthKeys,
        .done (.consumed (consumePreauthKey now id doc).1)) := by
  rcases hget : Keyed.get PreAuthKey.id id doc.preauthKeys with - | key
  · refine (reaches_absent (fun _ => rfl) hget).trans (Reaches.last ?_)
    simp [consumeTurn, consumePreauthKey, hget]
  · obtain ⟨n, hn, hmod, hfound⟩ := reaches_found (t := consumeTurn now id) (fun _ => rfl) hget
    -- the checks of the source in turn: expired, reusable, used
    rcases hx : preauthKeyExpired now key with - | -
    · refine hfound.trans (Reaches.turn (b := (doc.preauthKeys, .unexpired n)) ?_ ?_)
      · simp [consumeTurn, hn, hx]
      rcases hr : key.reusable with - | -
      · refine .turn (b := (doc.preauthKeys, .single n)) (by simp [consumeTurn, hn, hr]) ?_
        rcases hu : key.used with - | -
        · refine .turn (b := (doc.preauthKeys, .unused n)) (by simp [consumeTurn, hn, hu])
            (.last ?_)
          simp [consumeTurn, consumePreauthKey, hget, hn, hx, hr, hu, hmod]
        · exact .last (by simp [consumeTurn, consumePreauthKey, hget, hn, hx, hr, hu])
      · exact .last (by simp [consumeTurn, consumePreauthKey, hget, hn, hx, hr])
    · exact hfound.trans (Reaches.last (by simp [consumeTurn, consumePreauthKey, hget, hn, hx]))

omit [Chrono] in
/-- A table is a field of the document, and its turns are turns of the
document. -/
theorem Reaches.table {α : Type} {tab : List α → Cursor → Option (List α × Cursor)}
    {t : StoreDocument → Cursor → Option (StoreDocument × Cursor)} {a b : List α × Cursor}
    (h : Reaches tab a b) (put : List α → StoreDocument)
    (hturn : ∀ l k, t (put l) k = (tab l k).map fun (l', k') => (put l', k')) :
    Reaches t (put a.1, a.2) (put b.1, b.2) := by
  induction h using Relation.ReflTransGen.head_induction_on with
  | refl => exact .refl
  | @head a c hac _ ih =>
      have hac' : tab a.1 a.2 = some c := hac
      refine .turn (b := (put c.1, c.2)) ?_ ih
      rw [hturn, hac']
      rfl

/-- The turns of a call end in what the call does. -/
theorem reaches_call (x : Call × Instant) :
    Reaches (turn x) (doc, enter x.1) ((call doc x).2, .done (call doc x).1) := by
  obtain ⟨c, now⟩ := x
  cases c with
  | mutate m =>
      cases m with
      | upsertNetwork net =>
          exact (reaches_upsert (l := doc.networks) (a := net)).table
            (fun l => { doc with networks := l }) fun _ _ => rfl
      | upsertUser user =>
          exact (reaches_upsert (l := doc.users) (a := user)).table
            (fun l => { doc with users := l }) fun _ _ => rfl
      | upsertNode node =>
          exact (reaches_upsert (l := doc.nodes) (a := node)).table
            (fun l => { doc with nodes := l }) fun _ _ => rfl
      | deleteNode id =>
          exact (reaches_sift Node.id id [] doc.nodes).table
            (fun l => { doc with nodes := l }) fun _ _ => rfl
      | upsertPreauthKey key =>
          exact (reaches_upsert (l := doc.preauthKeys) (a := key)).table
            (fun l => { doc with preauthKeys := l }) fun _ _ => rfl
      | consumePreauthKey id =>
          have hsnd : (consumePreauthKey now id doc).2 =
              { doc with preauthKeys := (consumePreauthKey now id doc).2.preauthKeys } := by
            rw [consumePreauthKey_snd]
          have hdoc : call doc (.mutate (.consumePreauthKey id), now) =
              (.consumed (consumePreauthKey now id doc).1,
                { doc with preauthKeys := (consumePreauthKey now id doc).2.preauthKeys }) :=
            Prod.ext rfl hsnd
          rw [hdoc]
          exact (reaches_consume doc now id).table
            (fun l => { doc with preauthKeys := l }) fun _ _ => rfl
      | setPolicy network policy => exact .last rfl
  | query q =>
      cases q with
      | listNetworks =>
          have h : Reaches (turn (.query .listNetworks, now)) (doc, .networks 0 [])
              (doc, .done (.networks ([] ++ doc.networks.filter fun _ => true))) :=
            reaches_collect .networks .networks (fun _ _ => rfl) [] doc.networks [] rfl
          rwa [List.filter_true] at h
      | listUsers network =>
          exact reaches_collect .users .users (fun _ _ => rfl) [] doc.users [] rfl
      | listNodes network =>
          exact reaches_collect .nodes .nodes (fun _ _ => rfl) [] doc.nodes [] rfl
      | getNode id =>
          rcases hget : Keyed.get Node.id id doc.nodes with - | node
          · refine (reaches_absent (t := turn (.query (.getNode id), now)) (s := doc)
              (fun _ => rfl) hget).trans (Reaches.last ?_)
            show some (doc, Cursor.done (.node none)) = some (doc, .done (.node (getNode id doc)))
            rw [getNode, hget]
          · obtain ⟨n, hn, -, hfound⟩ := reaches_found (t := turn (.query (.getNode id), now))
              (s := doc) (fun _ => rfl) hget
            refine hfound.trans (Reaches.last ?_)
            show some (doc, Cursor.done (.node doc.nodes[n]?)) =
              some (doc, .done (.node (getNode id doc)))
            rw [getNode, hget, hn]
      | listPreauthKeys network =>
          exact reaches_collect .preauthKeys .preauthKeys (fun _ _ => rfl) [] doc.preauthKeys [] rfl
      | getPolicy network => exact .last rfl

omit [Chrono] in
/-- The turns of a snapshot end in a copy of the document. -/
theorem reaches_copy (d : StoreDocument) :
    Reaches (fun doc k => (copyTurn doc k).map fun k' => (doc, k'))
      (doc, .copy 0 d) (doc, .copy 6 doc) :=
  .turn rfl (.turn rfl (.turn rfl (.turn rfl (.turn rfl (.last rfl)))))

variable {doc}

/-- A query leaves the document as it is at every turn. -/
theorem turn_query {x : Call × Instant} {k : Cursor} {b : StoreDocument × Cursor} {q : Query}
    (hx : x.1 = .query q) (h : turn x doc k = some b) : b.1 = doc := by
  simp only [turn, hx] at h
  obtain ⟨k', -, rfl⟩ := Option.map_eq_some_iff.mp h
  rfl

/-- A call that has its reply takes no more turns. -/
theorem turn_done {x : Call × Instant} {reply : Reply} : turn x doc (.done reply) = none := by
  obtain ⟨m | q, now⟩ := x
  · cases m <;> rfl
  · cases q <;> rfl

end MemoryStore

/-! ### The clients of a store -/

section Clients

variable {T : Type} [DecidableEq T]

/-- A store with the replies given so far, and the calls in the order in which
they were answered. -/
structure Served (T : Type) where
  doc : StoreDocument
  reply : T → Option Reply
  log : List T

namespace Served

def start (doc : StoreDocument) : Served T where
  doc := doc
  reply _ := none
  log := []

def answer (i : T) (reply : Reply) (s : Served T) : Served T :=
  { s with reply := Function.update s.reply i (some reply), log := s.log ++ [i] }

end Served

variable [Chrono] (calls : T → Call × Instant)

/-- A call made in one piece. -/
def serve (s : Served T) (i : T) : Option (Served T) :=
  match s.reply i with
  | some _ => none
  | none =>
    let (reply, doc) := MemoryStore.call s.doc (calls i)
    some ({ s with doc := doc }.answer i reply)

/-- How a call takes the lock. -/
def lockKind : Call → Sections.Kind
  | .mutate _ => .write
  | .query _ => .read

/-- The calls of any number of clients on one store, each a section of its
lock. -/
def clients : Sections.System (Served T) StoreDocument T T MemoryStore.Cursor where
  step := serve calls
  get s := s.doc
  set doc s := { s with doc := doc }
  who i := i
  kind i := some (lockKind (calls i).1)
  init s i :=
    match s.reply i with
    | some _ => none
    | none => some (MemoryStore.enter (calls i).1)
  tick i doc k := MemoryStore.turn (calls i) doc k
  commit i k s :=
    match k with
    | .done reply => s.answer i reply
    | _ => s

variable {calls}

/-- A client is served once, with the whole of its call. -/
theorem serve_eq_some_iff {s t : Served T} {i : T} : serve calls s i = some t ↔
    s.reply i = none ∧ t = Served.answer i (MemoryStore.call s.doc (calls i)).1
      { s with doc := (MemoryStore.call s.doc (calls i)).2 } := by
  rcases hreply : s.reply i with - | r <;> simp [serve, hreply, eq_comm]

theorem clients_lawful : (clients calls).Lawful where
  get_set _ _ := rfl
  set_get _ := rfl
  set_set _ _ _ := rfl
  plain _ _ _ h := by cases h
  init_set _ _ _ := rfl
  other s t i j hne h := by
    obtain ⟨-, rfl⟩ := serve_eq_some_iff.mp h
    have hreply : (Served.answer i (MemoryStore.call s.doc (calls i)).1
        { s with doc := (MemoryStore.call s.doc (calls i)).2 }).reply j = s.reply j :=
      Function.update_of_ne (Ne.symm hne) _ _
    show (match Served.reply _ j with | some _ => none | none => _) = _
    rw [hreply]
    rfl
  get_commit i k s := by cases k <;> rfl
  read i doc k b hkind h := by
    rcases hx : (calls i).1 with m | q
    · simp [clients, hx, lockKind] at hkind
    · exact MemoryStore.turn_query hx h
  ready s i t _ h := by
    obtain ⟨hreply, -⟩ := serve_eq_some_iff.mp h
    simp [clients, hreply]
  runs s i k _ hinit := by
    rcases hreply : s.reply i with - | r
    · obtain rfl : MemoryStore.enter (calls i).1 = k := by simpa [clients, hreply] using hinit
      refine ⟨_, _, MemoryStore.reaches_call s.doc (calls i), MemoryStore.turn_done, ?_⟩
      show serve calls s i = _
      rw [serve, hreply]
      rfl
    · simp [clients, hreply] at hinit

variable (calls) in
/-- The calls were answered one at a time, in the order of the log. -/
structure InOrder (doc : StoreDocument) (s : Served T) : Prop where
  nodup : s.log.Nodup
  doc_eq : s.doc = Runs.final MemoryStore.call doc (s.log.map calls)
  replies : s.log.map s.reply = (Runs.outputs MemoryStore.call doc (s.log.map calls)).map some
  unanswered : ∀ i, i ∉ s.log → s.reply i = none

omit [DecidableEq T] in
theorem InOrder.start (doc : StoreDocument) : InOrder calls doc (Served.start doc) where
  nodup := List.nodup_nil
  doc_eq := rfl
  replies := rfl
  unanswered _ _ := rfl

theorem InOrder.serve {doc : StoreDocument} {s t : Served T} {i : T} (h : InOrder calls doc s)
    (hserve : serve calls s i = some t) : InOrder calls doc t := by
  obtain ⟨hreply, rfl⟩ := serve_eq_some_iff.mp hserve
  have hnot : i ∉ s.log := by
    intro hi
    have hmem : s.reply i ∈ s.log.map s.reply := List.mem_map_of_mem hi
    rw [h.replies, hreply] at hmem
    simp at hmem
  refine ⟨?_, ?_, ?_, ?_⟩
  · exact h.nodup.append (List.nodup_singleton i) (by simpa using hnot)
  · show (MemoryStore.call s.doc (calls i)).2 = _
    rw [Served.answer, List.map_append, List.map_singleton, Runs.final_snoc, ← h.doc_eq]
  · have hold : s.log.map (Function.update s.reply i
        (some (MemoryStore.call s.doc (calls i)).1)) = s.log.map s.reply := by
      refine List.map_congr_left fun j hj => Function.update_of_ne ?_ _ _
      rintro rfl
      exact hnot hj
    simp only [Served.answer, List.map_append, List.map_singleton, Runs.outputs_append, hold,
      h.replies, ← h.doc_eq, Function.update_self]
    rfl
  · intro j hj
    have hj' : j ∉ s.log ∧ j ≠ i := by simpa [Served.answer] using hj
    show Function.update s.reply i _ j = none
    rw [Function.update_of_ne hj'.2]
    exact h.unanswered j hj'.1

theorem log_of_serve {s t : Served T} {l : List T}
    (hrun : Runs.exec (serve calls) s l = some t) : t.log = s.log ++ l := by
  induction l generalizing s with
  | nil =>
      obtain rfl := Option.some.inj hrun
      simp
  | cons i l ih =>
      obtain ⟨r, hr, hrest⟩ := Runs.exec_cons_some.mp hrun
      obtain ⟨-, rfl⟩ := serve_eq_some_iff.mp hr
      rw [ih hrest]
      simp [Served.answer]

/-- **One store, any number of clients, turn by turn.**  However the turns of
the calls interleave, the calls were made one at a time in the order in which
they left the lock: each reply is the one a call gives there, and while no
writer is inside the document is the one after these calls.  A call that is
inside the lock can always be finished without anyone else. -/
theorem memory_linearizable (doc : StoreDocument) (xs : List (Sections.Move T))
    (f : Sections.Fine (Served T) T MemoryStore.Cursor)
    (hrun : Runs.exec (clients calls).fine ⟨Served.start doc, []⟩ xs = some f) :
    let l := xs.filterMap Sections.Move.commits
    l.Nodup ∧
    l.map f.state.reply = (Runs.outputs MemoryStore.call doc (l.map calls)).map some ∧
    (∀ i, i ∉ l → f.state.reply i = none) ∧
    ((∀ h ∈ f.holders, lockKind (calls h.1).1 = .read) →
      f.state.doc = Runs.final MemoryStore.call doc (l.map calls)) ∧
    ∃ more s, Runs.exec (clients calls).fine f more = some ⟨s, []⟩ ∧
      ∀ m ∈ more, ∃ i ∈ f.holders.map Prod.fst, m.within = some i := by
  intro l
  obtain ⟨s, hs, hM⟩ := Sections.System.fine_refines clients_lawful
    (.start clients_lawful (Served.start doc)) hrun
  have hlog : s.log = l := log_of_serve (s := Served.start doc) hs
  have hok : Runs.Guarded (clients calls).step (fun _ _ => True) (Served.start doc) l :=
    .of_forall fun _ _ => trivial
  have horder : InOrder calls doc s := Runs.exec_invariant
    (fun _ _ _ h _ hserve => h.serve hserve) (.start doc) hok hs
  -- the replies are no part of what is behind the lock
  have hreply : f.state.reply = s.reply := by
    rw [hM.state]
    rfl
  refine ⟨hlog ▸ horder.nodup, ?_, ?_, ?_, Sections.System.drain clients_lawful hM⟩
  · rw [hreply, ← hlog]
    exact horder.replies
  · rw [hreply, ← hlog]
    exact horder.unanswered
  · intro hreaders
    have hstate : f.state = s := hM.eq_of_quiet clients_lawful fun h hh =>
      congrArg some (hreaders h hh)
    rw [hstate, ← hlog]
    exact horder.doc_eq

end Clients

/-- A list is taken while its reader and another one are inside; the user is
pushed after both have left. -/
theorem memory_linearizable_three_calls :
    letI := Chrono.unasked
    let ada : User := ⟨⟨1⟩, ⟨1⟩, "ada", ""⟩
    let calls : Fin 3 → Call × Instant
      | 0 => (.query (.listUsers ⟨1⟩), 0)
      | 1 => (.mutate (.upsertUser ada), 0)
      | 2 => (.query (.getNode ⟨1⟩), 0)
    ∃ f, Runs.exec (clients calls).fine ⟨Served.start MemoryStore.new, []⟩
        [.enter 0, .enter 2, .tick 2, .tick 0, .tick 2, .leave 2, .leave 0,
          .enter 1, .tick 1, .tick 1, .leave 1] = some f ∧
      [2, 0, 1].map f.state.reply =
        [some (.node none), some (.users []), some .unit] ∧
      f.state.doc = { MemoryStore.new with users := [ada] } := by
  let _ := Chrono.unasked
  intro ada calls
  let xs : List (Sections.Move (Fin 3)) := [.enter 0, .enter 2, .tick 2, .tick 0, .tick 2,
    .leave 2, .leave 0, .enter 1, .tick 1, .tick 1, .leave 1]
  obtain ⟨f, hrun⟩ : ∃ f, Runs.exec (clients calls).fine ⟨Served.start MemoryStore.new, []⟩ xs =
      some f ∧ f.holders = [] := ⟨_, rfl, rfl⟩
  obtain ⟨-, hreplies, -, hdoc, -⟩ := memory_linearizable MemoryStore.new xs f hrun.1
  refine ⟨f, hrun.1, hreplies, hdoc fun h hh => ?_⟩
  rw [hrun.2] at hh
  cases hh

end Oxiscale

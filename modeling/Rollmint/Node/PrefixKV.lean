import Mathlib.Data.List.Basic

/-!
# Prefixed views of the node's datastore

`newFullNode` hands the main store, the DA client and the indexer their own view of one base
datastore through `newPrefixKV`, with the prefixes `"0"`, `"1"` and `"2"`; the block indexer
gets a view of the indexer's with `"block_events"`. The source comment says the prefixes
separate main node data from DALC data. A `keytransform` wrapper would do that: it puts its
prefix in front of every key (`wrap_isolates`). But `newPrefixKV` returns `Children()[0]` of
the wrapper, which is the datastore that was wrapped, so every view is the base store itself
(`newPrefixKV_eq`) and a write through one view is read back through any other
(`newPrefixKV_shares_keys`).
-/

namespace Rollmint.Node

/-- A `ds.Key`, the cleaned path `/a/b/c`, as its list of namespaces. -/
structure Key where
  namespaces : List String
  deriving DecidableEq, Repr

/-- The non-empty segments between slashes, read into `cur` in reverse. -/
def segments : List Char → List Char → List String
  | [], cur => if cur = [] then [] else [String.mk cur.reverse]
  | c :: cs, cur =>
    if c = '/' then
      if cur = [] then segments cs [] else String.mk cur.reverse :: segments cs []
    else segments cs (c :: cur)

/-- `ds.NewKey(s)`: the cleaned path of `s`. Empty segments are dropped as `path.Clean` drops
them; the model does not resolve `.` and `..`, which no prefix of the node contains. -/
def newKey (s : String) : Key := ⟨segments s.toList []⟩

/-- `Key.Child`: the key `k2` under `k`. -/
def Key.child (k k2 : Key) : Key := ⟨k.namespaces ++ k2.namespaces⟩

/-- `keytransform.PrefixTransform`, whose Go field `Prefix` is `prefixKey` here. -/
structure PrefixTransform where
  prefixKey : Key
  deriving DecidableEq, Repr

/-- `PrefixTransform.ConvertKey`: the key under the prefix. -/
def PrefixTransform.convertKey (t : PrefixTransform) (k : Key) : Key := t.prefixKey.child k

/-- The datastores the node builds: the base key-value store, or a `keytransform.Datastore`
wrapping another one. -/
inductive Datastore
  | base
  | keytransform (child : Datastore) (t : PrefixTransform)
  deriving DecidableEq, Repr

abbrev Contents := Key → Option (List UInt8)

namespace Datastore

/-- `Put`: a wrapper converts the key and passes the write to the store it wraps. -/
def put : Datastore → Key → List UInt8 → Contents → Contents
  | base, k, v, m => fun k' => if k' = k then some v else m k'
  | keytransform child t, k, v, m => child.put (t.convertKey k) v m

/-- `Get`, converting the key the same way. -/
def get : Datastore → Key → Contents → Option (List UInt8)
  | base, k, m => m k
  | keytransform child t, k, m => child.get (t.convertKey k) m

/-- `Children()` of a `ds.Shim`: the store a wrapper wraps. -/
def children : Datastore → List Datastore
  | keytransform child _ => [child]
  | base => []

theorem get_put_self : ∀ (d : Datastore) (k : Key) (v : List UInt8) (m : Contents),
    d.get k (d.put k v m) = some v
  | base, _, _, _ => if_pos rfl
  | keytransform child t, k, v, m => get_put_self child (t.convertKey k) v m

end Datastore

/-- `keytransform.Wrap`. -/
def wrap (child : Datastore) (t : PrefixTransform) : Datastore := .keytransform child t

/-- `newPrefixKV(kvStore, prefix)`: the first child of the wrapped store. -/
def newPrefixKV (kvStore : Datastore) (pfx : String) : Datastore :=
  (wrap kvStore ⟨newKey pfx⟩).children.head (List.cons_ne_nil _ _)

/-! The prefixes of the main node, the DA client and the indexers, and of the block indexer
inside the indexers' store. -/

def mainPrefix : String := "0"

def dalcPrefix : String := "1"

def indexerPrefix : String := "2"

def blockEventsPrefix : String := "block_events"

/-- `Children()[0]` undoes the wrapping: the view is the store that was passed in. -/
theorem newPrefixKV_eq (kvStore : Datastore) (pfx : String) : newPrefixKV kvStore pfx = kvStore :=
  rfl

/-- The wrapper alone would keep two views apart: under prefixes of the same depth that
differ, a write through one leaves what the other reads unchanged. -/
theorem wrap_isolates {p q : Key} (hlen : p.namespaces.length = q.namespaces.length)
    (hpq : p ≠ q) (k : Key) (v : List UInt8) (m : Contents) :
    (wrap .base ⟨q⟩).get k ((wrap .base ⟨p⟩).put k v m) = (wrap .base ⟨q⟩).get k m := by
  simp only [wrap, Datastore.get, Datastore.put, PrefixTransform.convertKey, Key.child]
  rw [if_neg]
  intro h
  have := List.append_inj (Key.mk.inj h) hlen.symm
  exact hpq (by cases p; cases q; simp_all)

/-- For every base store, every two prefixes and every key, a `Put` through one prefixed view
is what a `Get` through the other returns, and on the node's base store the write lands
under the key itself, not under `/prefix/key`. -/
theorem newPrefixKV_shares_keys (kvStore : Datastore) (p q : String) (k : Key)
    (v : List UInt8) (m : Contents) :
    (newPrefixKV kvStore q).get k ((newPrefixKV kvStore p).put k v m) = some v ∧
      (newPrefixKV .base p).put k v m = Datastore.base.put k v m :=
  ⟨kvStore.get_put_self k v m, rfl⟩

theorem newPrefixKV_main_write_seen_by_dalc :
    (newPrefixKV .base dalcPrefix).get ⟨["k"]⟩
      ((newPrefixKV .base mainPrefix).put ⟨["k"]⟩ [1] (fun _ => none)) = some [1] :=
  rfl

end Rollmint.Node

import Rollmint.Strconv
import Rollmint.Types

/-!
# PendingBlocks

`PendingBlocks` tracks the blocks of the store that still have to be published to the DA
layer. Its only state is the height of the last block the DA layer confirmed: an atomic
`uint64` in memory, mirrored in the store's metadata under `LastSubmittedHeightKey` as
decimal text. The in-memory value starts at `0` in every process and is loaded lazily from
the metadata by the first `getPendingBlocks` call that sees `0`.

The four methods are written here as sequential Go code over the store. The loop of
`getPendingBlocks` runs its `uint64` counter up to `store.Height()` with `i <= height` as the
exit test, so at `height = math.MaxUint64` the counter wraps to `0` instead of leaving the
loop (`getPendingBlocks_wraps_at_max_height`). Before the loop, `make` checks the capacity
`height-lastSubmitted` against the runtime's allocation limit and panics past it. Below
`math.MaxUint64`, and within that limit, the loop returns the blocks above the last submitted
height, up to the first failed read (`collectPending_reads`).
`isEmpty` agrees with `getPendingBlocks` whenever the in-memory height is set or nothing is
persisted (`isEmpty_iff_getPendingBlocks`).
-/

namespace Rollmint

open Strconv

/-- An error of the store: `ds.ErrNotFound`, or any other failure. -/
inductive StoreError
  | notFound
  | failure (msg : String)
  deriving DecidableEq, Repr

/-- Modelled from the spec: the store as PendingBlocks uses it, with its height and its
answers to `GetBlock` and `GetMetadata`. -/
structure Store where
  height : UInt64
  getBlock : UInt64 → Except StoreError Block
  getMetadata : String → Except StoreError (List UInt8)

namespace Store

/-- Modelled from the spec: `SetMetadata(key, value)` once the write is durable. -/
def setMetadata (s : Store) (key : String) (value : List UInt8) : Store :=
  { s with getMetadata := fun k => if k = key then .ok value else s.getMetadata k }

/-- Modelled from the spec: persisting `b` at height `store.Height()+1`, which raises the
height. -/
def append (s : Store) (b : Block) : Store where
  height := s.height + 1
  getBlock h := if h = s.height + 1 then .ok b else s.getBlock h
  getMetadata := s.getMetadata

@[simp] theorem setMetadata_height (s : Store) (k : String) (v : List UInt8) :
    (s.setMetadata k v).height = s.height := rfl

@[simp] theorem setMetadata_getBlock (s : Store) (k : String) (v : List UInt8) :
    (s.setMetadata k v).getBlock = s.getBlock := rfl

@[simp] theorem setMetadata_getMetadata_self (s : Store) (k : String) (v : List UInt8) :
    (s.setMetadata k v).getMetadata k = .ok v := if_pos rfl

@[simp] theorem append_getMetadata (s : Store) (b : Block) :
    (s.append b).getMetadata = s.getMetadata := rfl

/-- What the system keeps true of the store: each block sits at its own height, height `0`
holds none, and every height `1..store.Height()` holds one. -/
structure Consistent (s : Store) : Prop where
  height_eq : ∀ h b, s.getBlock h = .ok b → b.height = h
  zero_missing : ∀ b, s.getBlock 0 ≠ .ok b
  filled : ∀ h : UInt64, 0 < h.toNat → h.toNat ≤ s.height.toNat →
    ∃ b, s.getBlock h = .ok b

theorem Consistent.of_eq {s s' : Store} (hs : s.Consistent) (hH : s'.height = s.height)
    (hget : s'.getBlock = s.getBlock) : s'.Consistent :=
  ⟨hget ▸ hs.height_eq, hget ▸ hs.zero_missing, hH ▸ hget ▸ hs.filled⟩

theorem Consistent.append {s : Store} (hs : s.Consistent) {b : Block}
    (hb : b.height.toNat = s.height.toNat + 1) :
    (s.append b).Consistent ∧ (s.append b).height.toNat = s.height.toNat + 1 := by
  have hH : (s.height + 1).toNat = s.height.toNat + 1 := by
    rw [uint64_toNat_add_one]; have := uint64_toNat_le b.height; split <;> omega
  have hbh : b.height = s.height + 1 := uint64_eq_iff.mpr (by omega)
  refine ⟨⟨fun h b' hget => ?_, fun b' => ?_, fun h h0 hh => ?_⟩, hH⟩
  · simp only [Store.append] at hget
    split at hget
    · cases hget; subst_vars; exact hbh
    · exact hs.height_eq h b' hget
  · simp only [Store.append]
    rw [if_neg (fun h => by simp only [uint64_eq_iff, UInt64.toNat_zero] at h; omega)]
    exact hs.zero_missing b'
  · simp only [Store.append]
    split
    · exact ⟨b, rfl⟩
    · exact hs.filled h h0
        (by rw [Store.append, hH] at hh; have := uint64_eq_iff.not.mp ‹_›; omega)

end Store

/-- The metadata key of the last submitted height. -/
def lastSubmittedHeightKey : String := "last submitted"

/-- `PendingBlocks`: the store and the atomic `lastSubmittedHeight`. The logger is left out. -/
structure PendingBlocks where
  store : Store
  lastSubmittedHeight : UInt64

/-- `atomic.Uint64.CompareAndSwap(old, new)` on the value `v`: the value afterwards and
whether the swap happened. -/
def compareAndSwap (v old new : UInt64) : UInt64 × Bool :=
  if v = old then (new, true) else (v, false)

/-- The errors `getPendingBlocks` passes on: from the store or from `strconv.ParseUint`. -/
inductive PendingError
  | store (e : StoreError)
  | parse (e : NumError)
  deriving DecidableEq, Repr

namespace PendingBlocks

/-- The part of `loadFromStore` before its `CompareAndSwap`: the persisted height, `none`
when the key was never written. -/
def readLastSubmitted (s : Store) : Except PendingError (Option UInt64) :=
  match s.getMetadata lastSubmittedHeightKey with
  | .error .notFound => .ok none
  | .error e => .error (.store e)
  | .ok raw =>
    match parseUint raw with
    | .error e => .error (.parse e)
    | .ok lsh => .ok (some lsh)

/-- `loadFromStore`: read the persisted height and `CompareAndSwap(0, lsh)` it in. -/
def loadFromStore (pb : PendingBlocks) : PendingBlocks × Option PendingError :=
  match readLastSubmitted pb.store with
  | .error e => (pb, some e)
  | .ok none => (pb, none)
  | .ok (some lsh) =>
    ({ pb with lastSubmittedHeight := (compareAndSwap pb.lastSubmittedHeight 0 lsh).1 }, none)

/-- The panic message of `getPendingBlocks` when the last submitted height is above the
store's. -/
def aheadOfStore (lastSubmitted height : UInt64) : String :=
  "height of last block submitted to DA (" ++ toString lastSubmitted ++
    ") is greater than height of last block (" ++ toString height ++ ")"

theorem capOutOfRange_ne_aheadOfStore (L H : UInt64) : capOutOfRange ≠ aheadOfStore L H :=
  fun h => absurd (congrArg (fun s : String => s.data.head?) h)
    (show some 'r' ≠ some 'h' by decide)

/-- The loop `for i := lastSubmitted + 1; i <= height; i++` of `getPendingBlocks` with the
blocks read so far. Each pass takes one unit of `fuel`; `collectPending` gives it `2^64`,
one pass for every value of the counter, so the fuel runs out only when every value passed
the exit test and the Go loop never ends (`pendingLoop_diverge_iff`). -/
def pendingLoop (s : Store) (height : UInt64) :
    Nat → UInt64 → List Block → Exec (List Block × Option PendingError)
  | 0, _, _ => .diverge
  | fuel + 1, i, blocks =>
    if i ≤ height then
      match s.getBlock i with
      | .error e => .ret (blocks, some (.store e))
      | .ok b => pendingLoop s height fuel (i + 1) (blocks ++ [b])
    else .ret (blocks, none)

/-- `getPendingBlocks` once `lastSubmitted` is fixed: it reads `store.Height()`, returns
nothing at equal heights, panics when `lastSubmitted` is above, makes the slice
`make([]*types.Block, 0, height-lastSubmitted)` of 8-byte pointers, and runs the loop. -/
def collectPending (s : Store) (lastSubmitted : UInt64) :
    Exec (List Block × Option PendingError) :=
  let height := s.height
  if lastSubmitted = height then .ret ([], none)
  else if lastSubmitted > height then .panic (aheadOfStore lastSubmitted height)
  else makeSlice 8 (height - lastSubmitted).toNat >>= fun _ =>
    pendingLoop s height UInt64.size (lastSubmitted + 1) []

/-- `getPendingBlocks`, run with no other call in between. -/
def getPendingBlocks (pb : PendingBlocks) :
    PendingBlocks × Exec (List Block × Option PendingError) :=
  let lastSubmitted := pb.lastSubmittedHeight
  if lastSubmitted = 0 then
    match loadFromStore pb with
    | (pb, some err) => (pb, .ret ([], some err))
    | (pb, none) => (pb, collectPending pb.store pb.lastSubmittedHeight)
  else (pb, collectPending pb.store lastSubmitted)

/-- `isEmpty`: the store height against the in-memory last submitted height. -/
def isEmpty (pb : PendingBlocks) : Bool :=
  pb.store.height == pb.lastSubmittedHeight

/-- `removeSubmittedBlocks`, run with no other call in between; `written` says whether the
store's `SetMetadata` succeeded. -/
def removeSubmittedBlocks (pb : PendingBlocks) (blocks : List Block) (written : Bool) :
    PendingBlocks :=
  match blocks.getLast? with
  | none => pb
  | some last =>
    let latestBlockHeight := last.height
    let lsh := pb.lastSubmittedHeight
    if latestBlockHeight > lsh then
      match compareAndSwap pb.lastSubmittedHeight lsh latestBlockHeight with
      | (v, true) =>
        { lastSubmittedHeight := v
          store := if written then
              pb.store.setMetadata lastSubmittedHeightKey (formatUint latestBlockHeight)
            else pb.store }
      | (v, false) => { pb with lastSubmittedHeight := v }
    else pb


/-! ## The loop of `getPendingBlocks` -/

@[simp] theorem compareAndSwap_self (v new : UInt64) : compareAndSwap v v new = (new, true) :=
  if_pos rfl

theorem compareAndSwap_of_ne {v old : UInt64} (new : UInt64) (h : v ≠ old) :
    compareAndSwap v old new = (v, false) :=
  if_neg h

/-! ## The lazy load of `getPendingBlocks` -/

theorem getPendingBlocks_of_ne_zero {pb : PendingBlocks} (h : pb.lastSubmittedHeight ≠ 0) :
    getPendingBlocks pb = (pb, collectPending pb.store pb.lastSubmittedHeight) := by
  simp [getPendingBlocks, h]

theorem getPendingBlocks_of_load_error {pb : PendingBlocks} {e : PendingError}
    (h0 : pb.lastSubmittedHeight = 0) (h : readLastSubmitted pb.store = .error e) :
    getPendingBlocks pb = (pb, .ret ([], some e)) := by
  simp [getPendingBlocks, loadFromStore, h0, h]

theorem getPendingBlocks_of_load_ok {pb : PendingBlocks} {v : Option UInt64}
    (h0 : pb.lastSubmittedHeight = 0) (h : readLastSubmitted pb.store = .ok v) :
    getPendingBlocks pb =
      ({ pb with lastSubmittedHeight := v.getD 0 }, collectPending pb.store (v.getD 0)) := by
  obtain ⟨store, lsh⟩ := pb
  subst h0
  cases v <;> simp [getPendingBlocks, loadFromStore, h]

theorem getPendingBlocks_fst_store (pb : PendingBlocks) :
    (getPendingBlocks pb).1.store = pb.store := by
  by_cases h0 : pb.lastSubmittedHeight = 0
  · cases hr : readLastSubmitted pb.store with
    | error e => rw [getPendingBlocks_of_load_error h0 hr]
    | ok v => rw [getPendingBlocks_of_load_ok h0 hr]
  · rw [getPendingBlocks_of_ne_zero h0]

/-- A second call right after the first returns the same and leaves the same state: once the
first call loaded the persisted height, the load has nothing left to change. -/
theorem getPendingBlocks_getPendingBlocks (pb : PendingBlocks) :
    getPendingBlocks (getPendingBlocks pb).1 = getPendingBlocks pb := by
  by_cases h0 : pb.lastSubmittedHeight = 0
  · cases hr : readLastSubmitted pb.store with
    | error e => simp only [getPendingBlocks_of_load_error h0 hr]
    | ok v =>
      rw [getPendingBlocks_of_load_ok h0 hr]
      by_cases hv : v.getD 0 = 0
      · have hpb : { pb with lastSubmittedHeight := v.getD 0 } = pb := by rw [hv, ← h0]
        simpa only [hpb] using getPendingBlocks_of_load_ok h0 hr
      · exact getPendingBlocks_of_ne_zero hv
  · simp only [getPendingBlocks_of_ne_zero h0]

theorem getPendingBlocks_ret_none {pb pb' : PendingBlocks} {bs : List Block}
    (h : getPendingBlocks pb = (pb', .ret (bs, none))) :
    pb'.store = pb.store ∧ collectPending pb.store pb'.lastSubmittedHeight = .ret (bs, none) := by
  by_cases h0 : pb.lastSubmittedHeight = 0
  · cases hr : readLastSubmitted pb.store with
    | error e => simp [getPendingBlocks_of_load_error h0 hr] at h
    | ok v =>
      obtain ⟨rfl, hc⟩ := Prod.mk.inj ((getPendingBlocks_of_load_ok h0 hr).symm.trans h)
      exact ⟨rfl, hc⟩
  · obtain ⟨rfl, hc⟩ := Prod.mk.inj ((getPendingBlocks_of_ne_zero h0).symm.trans h)
    exact ⟨rfl, hc⟩

theorem pendingLoop_eq_diverge (s : Store) (H : UInt64) : ∀ fuel i acc,
    pendingLoop s H fuel i acc = .diverge ↔
      ∀ k < fuel, i + UInt64.ofNat k ≤ H ∧ ∃ b, s.getBlock (i + UInt64.ofNat k) = .ok b
  | 0, _, _ => by simp [pendingLoop]
  | fuel + 1, i, acc => by
    have hshift : ∀ k, i + UInt64.ofNat (k + 1) = i + 1 + UInt64.ofNat k := fun k =>
      uint64_eq_iff.mpr
        (by simp only [uint64_toNat_add, uint64_toNat_ofNat, uint64_toNat_one]; omega)
    have hzero : i + UInt64.ofNat 0 = i := uint64_eq_iff.mpr (by
      simp only [uint64_toNat_add, uint64_toNat_ofNat]; have := uint64_toNat_le i
      simp only [maxUint64] at this; omega)
    simp only [pendingLoop]
    by_cases hiH : i ≤ H
    · rw [if_pos hiH]
      cases hget : s.getBlock i with
      | error e =>
        simp only [reduceCtorEq, false_iff, not_forall]
        exact ⟨0, Nat.zero_lt_succ _, fun h => by
          obtain ⟨b, hb⟩ := h.2; rw [hzero, hget] at hb; cases hb⟩
      | ok b =>
        rw [pendingLoop_eq_diverge s H fuel (i + 1) (acc ++ [b])]
        constructor
        · intro h k hk
          cases k with
          | zero => rw [hzero]; exact ⟨hiH, b, hget⟩
          | succ k => rw [hshift]; exact h k (by omega)
        · intro h k hk
          rw [← hshift]; exact h (k + 1) (by omega)
    · rw [if_neg hiH]
      simp only [reduceCtorEq, false_iff, not_forall]
      exact ⟨0, Nat.zero_lt_succ _, fun h => hiH (hzero ▸ h.1)⟩

/-- With one pass per counter value, the loop of `getPendingBlocks` never returns exactly when
`store.Height()` is `math.MaxUint64` and every `GetBlock` succeeds: the counter wraps to `0`
and the exit test `i <= height` never fails. -/
theorem pendingLoop_diverge_iff (s : Store) (H i : UInt64) (acc : List Block) :
    pendingLoop s H UInt64.size i acc = .diverge ↔
      H.toNat = maxUint64 ∧ ∀ j, ∃ b, s.getBlock j = .ok b := by
  rw [pendingLoop_eq_diverge]
  have hreach : ∀ j : UInt64, ∃ k < UInt64.size, i + UInt64.ofNat k = j := fun j =>
    ⟨(j.toNat + 2 ^ 64 - i.toNat) % 2 ^ 64, Nat.mod_lt _ (by decide), uint64_eq_iff.mpr (by
      have := uint64_toNat_le i; have := uint64_toNat_le j
      simp only [uint64_toNat_add, uint64_toNat_ofNat, maxUint64] at *; omega)⟩
  constructor
  · intro h
    refine ⟨le_antisymm (uint64_toNat_le H) ?_, fun j => ?_⟩
    · obtain ⟨k, hk, hkj⟩ := hreach (UInt64.ofNat maxUint64)
      have := uint64_le_iff.mp (hkj ▸ (h k hk).1)
      rwa [uint64_toNat_ofNat] at this
    · obtain ⟨k, hk, rfl⟩ := hreach j
      exact (h k hk).2
  · rintro ⟨hH, hget⟩ k _
    exact ⟨uint64_le_iff.mpr (hH ▸ uint64_toNat_le _), hget _⟩

theorem pendingLoop_consecutive {s : Store} (hs : s.Consistent) {H : UInt64} : ∀ fuel i acc bs e,
    0 < i.toNat → i.toNat ≤ H.toNat + 1 → pendingLoop s H fuel i acc = .ret (bs, e) →
    ∃ ext, bs = acc ++ ext ∧ ext.map (·.height.toNat) = List.range' i.toNat ext.length ∧
      i.toNat + ext.length ≤ H.toNat + 1
  | 0, _, _, _, _, _, _, h => by simp [pendingLoop] at h
  | fuel + 1, i, acc, bs, e, hi0, hiH, h => by
    simp only [pendingLoop] at h
    split at h
    · rename_i hle
      have hle : i.toNat ≤ H.toNat := hle
      cases hget : s.getBlock i with
      | error e' =>
        simp only [hget, Exec.ret.injEq, Prod.mk.injEq] at h
        exact ⟨[], by simp [h.1], rfl, by simp; omega⟩
      | ok b =>
        simp only [hget] at h
        have hb : b.height.toNat = i.toNat := by rw [hs.height_eq i b hget]
        by_cases hmax : i.toNat = maxUint64
        · have hwrap : i + 1 = 0 :=
            uint64_eq_iff.mpr (by rw [uint64_toNat_add_one, if_pos hmax]; rfl)
          rw [hwrap] at h
          cases fuel with
          | zero => simp [pendingLoop] at h
          | succ fuel =>
            simp only [pendingLoop,
              if_pos (uint64_le_iff.mpr (Nat.zero_le H.toNat) : (0 : UInt64) ≤ H)] at h
            cases hget0 : s.getBlock 0 with
            | error e0 =>
              simp only [hget0, Exec.ret.injEq, Prod.mk.injEq] at h
              exact ⟨[b], h.1.symm, by simp [hb], by simp; omega⟩
            | ok b0 => exact absurd hget0 (hs.zero_missing b0)
        · have hsucc : (i + 1).toNat = i.toNat + 1 := by rw [uint64_toNat_add_one, if_neg hmax]
          obtain ⟨ext, rfl, hmap, hlen⟩ :=
            pendingLoop_consecutive hs fuel (i + 1) _ bs e (by omega) (by omega) h
          refine ⟨b :: ext, by simp, ?_, by simp only [List.length_cons]; omega⟩
          rw [List.map_cons, hmap, hb, hsucc, List.length_cons, List.range'_succ]
    · simp only [Exec.ret.injEq, Prod.mk.injEq] at h
      exact ⟨[], by simp [h.1], rfl, by simp; omega⟩

/-- What the loop returns when the counter cannot wrap: the blocks at heights `i, i+1, …` in
order, up to `height` with no error, or up to the first height whose read fails, with that
read's error. -/
def ReadsFrom (s : Store) (i height : Nat) (bs : List Block) (e : Option PendingError) :
    Prop :=
  (∀ t (ht : t < bs.length), s.getBlock (UInt64.ofNat (i + t)) = .ok (bs.get ⟨t, ht⟩)) ∧
    ((e = none ∧ i + bs.length = height + 1) ∨
      ∃ err, e = some (.store err) ∧ i + bs.length ≤ height ∧
        s.getBlock (UInt64.ofNat (i + bs.length)) = .error err)

theorem ReadsFrom.done {s : Store} {i height : Nat} (h : i = height + 1) :
    ReadsFrom s i height [] none :=
  ⟨fun _ ht => absurd ht (Nat.not_lt_zero _), .inl ⟨rfl, h⟩⟩

theorem ReadsFrom.cons {s : Store} {i height : Nat} {b : Block} {bs : List Block}
    {e : Option PendingError} (hb : s.getBlock (UInt64.ofNat i) = .ok b)
    (h : ReadsFrom s (i + 1) height bs e) : ReadsFrom s i height (b :: bs) e := by
  refine ⟨fun t ht => ?_, ?_⟩
  · cases t with
    | zero => exact hb
    | succ t => simpa [Nat.add_assoc, Nat.add_comm 1 t] using h.1 t (by simpa using ht)
  · simpa only [List.length_cons, Nat.add_assoc, Nat.add_comm 1] using h.2

theorem pendingLoop_reads (s : Store) {H : UInt64} (hH : H.toNat < maxUint64) :
    ∀ fuel (i : UInt64) acc, H.toNat + 1 - i.toNat < fuel → i.toNat ≤ H.toNat + 1 →
      ∃ bs e, pendingLoop s H fuel i acc = .ret (acc ++ bs, e) ∧
        ReadsFrom s i.toNat H.toNat bs e
  | 0, _, _, hfuel, _ => absurd hfuel (Nat.not_lt_zero _)
  | fuel + 1, i, acc, hfuel, hi => by
    simp only [pendingLoop]
    by_cases hiH : i ≤ H
    · have hle := uint64_le_iff.mp hiH
      rw [if_pos hiH]
      cases hget : s.getBlock i with
      | error err =>
        refine ⟨[], some (.store err), by simp, fun t ht => absurd ht (Nat.not_lt_zero _),
          .inr ⟨err, rfl, by simpa using hle, ?_⟩⟩
        rw [List.length_nil, Nat.add_zero, uint64_ofNat_toNat, hget]
      | ok b =>
        have hsucc : (i + 1).toNat = i.toNat + 1 := by
          rw [uint64_toNat_add_one, if_neg (by omega)]
        obtain ⟨bs, e, hrun, hreads⟩ :=
          pendingLoop_reads s hH fuel (i + 1) (acc ++ [b]) (by omega) (by omega)
        refine ⟨b :: bs, e, by simpa using hrun, ReadsFrom.cons ?_ (hsucc ▸ hreads)⟩
        rw [uint64_ofNat_toNat, hget]
    · rw [if_neg hiH]
      have := uint64_le_iff.not.mp hiH
      exact ⟨[], none, by simp, .done (by omega)⟩

/-- The four branches of `collectPending`: nothing at equal heights, the panic above the
store, the panic of `make` when the gap needs more than `maxAlloc` bytes, and otherwise the
loop from `lastSubmitted + 1`, which does not wrap. -/
theorem collectPending_cases (s : Store) (L : UInt64) :
    (L = s.height ∧ collectPending s L = .ret ([], none)) ∨
      (s.height < L ∧ collectPending s L = .panic (aheadOfStore L s.height)) ∨
      (L.toNat < s.height.toNat ∧ maxAlloc < 8 * (s.height.toNat - L.toNat) ∧
        collectPending s L = .panic capOutOfRange) ∨
      (L.toNat < s.height.toNat ∧ 8 * (s.height.toNat - L.toNat) ≤ maxAlloc ∧
        (L + 1).toNat = L.toNat + 1 ∧
        collectPending s L = pendingLoop s s.height UInt64.size (L + 1) []) := by
  by_cases heq : L = s.height
  · exact .inl ⟨heq, by simp [collectPending, heq]⟩
  by_cases hgt : s.height < L
  · exact .inr (.inl ⟨hgt, by simp [collectPending, heq, hgt]⟩)
  have hlt : L.toNat < s.height.toNat := by
    have := uint64_eq_iff.not.mp heq; have := uint64_lt_iff.not.mp hgt; omega
  have hc : collectPending s L = makeSlice 8 (s.height.toNat - L.toNat) >>= fun _ =>
      pendingLoop s s.height UInt64.size (L + 1) [] := by
    simp only [collectPending, if_neg heq, if_neg hgt, UInt64.toNat_sub_of_le _ _ hlt.le]
  rcases Nat.lt_or_ge maxAlloc (8 * (s.height.toNat - L.toNat)) with hcap | hcap
  · exact .inr (.inr (.inl ⟨hlt, hcap, by rw [hc, makeSlice_of_lt hcap]; rfl⟩))
  · refine .inr (.inr (.inr ⟨hlt, hcap, ?_, by rw [hc, makeSlice_of_le hcap]; rfl⟩))
    rw [uint64_toNat_add_one, if_neg (by have := uint64_toNat_le s.height; omega)]

theorem collectPending_gap_of_ret {s : Store} {L : UInt64} {r : List Block × Option PendingError}
    (h : collectPending s L = .ret r) : 8 * (s.height.toNat - L.toNat) ≤ maxAlloc := by
  rcases collectPending_cases s L with ⟨rfl, -⟩ | ⟨-, hc⟩ | ⟨-, -, hc⟩ | ⟨-, hcap, -⟩
  · simp
  · rw [hc] at h; cases h
  · rw [hc] at h; cases h
  · exact hcap

theorem pendingLoop_ret_none {s : Store} {H : UInt64} : ∀ fuel i acc bs,
    pendingLoop s H fuel i acc = .ret (bs, none) →
      (bs = acc ∧ H < i) ∨ ∃ b, bs.getLast? = some b ∧ s.getBlock H = .ok b
  | 0, _, _, _, h => by simp [pendingLoop] at h
  | fuel + 1, i, acc, bs, h => by
    simp only [pendingLoop] at h
    by_cases hiH : i ≤ H
    · rw [if_pos hiH] at h
      cases hget : s.getBlock i with
      | error e => simp [hget] at h
      | ok b =>
        simp only [hget] at h
        rcases pendingLoop_ret_none fuel (i + 1) (acc ++ [b]) bs h with ⟨rfl, hlt⟩ | hlast
        · have hle := uint64_le_iff.mp hiH
          have hlt := uint64_lt_iff.mp hlt
          rw [uint64_toNat_add_one] at hlt
          have hi : i = H := uint64_eq_iff.mpr (by split at hlt <;> omega)
          exact .inr ⟨b, by simp, hi ▸ hget⟩
        · exact .inr hlast
    · rw [if_neg hiH, Exec.ret.injEq, Prod.mk.injEq] at h
      exact .inl ⟨h.1.symm, uint64_lt_iff.mpr (by have := uint64_le_iff.not.mp hiH; omega)⟩

theorem collectPending_ret_none {s : Store} {L : UInt64} {bs : List Block}
    (h : collectPending s L = .ret (bs, none)) :
    (bs = [] ∧ L = s.height) ∨
      L < s.height ∧ ∃ b, bs.getLast? = some b ∧ s.getBlock s.height = .ok b := by
  rcases collectPending_cases s L with ⟨heq, hc⟩ | ⟨-, hc⟩ | ⟨-, -, hc⟩ | ⟨hlt, -, hsucc, hc⟩ <;>
    rw [hc] at h
  · rw [Exec.ret.injEq, Prod.mk.injEq] at h
    exact .inl ⟨h.1.symm, heq⟩
  · cases h
  · cases h
  · refine .inr ⟨uint64_lt_iff.mpr hlt, ?_⟩
    rcases pendingLoop_ret_none _ _ _ _ h with ⟨-, hpast⟩ | hlast
    · have := uint64_lt_iff.mp hpast
      omega
    · exact hlast

/-- In a consistent store below `math.MaxUint64` no read of the loop fails: when the gap fits
in `maxAlloc`, the call returns every block at heights `lastSubmitted+1, …, store.Height()`,
in order, with no error. -/
theorem collectPending_consistent {s : Store} {L : UInt64} (hs : s.Consistent)
    (hH : s.height.toNat < maxUint64) (hL : L.toNat ≤ s.height.toNat)
    (hgap : 8 * (s.height.toNat - L.toNat) ≤ maxAlloc) :
    ∃ bs, collectPending s L = .ret (bs, none) ∧ L.toNat + bs.length = s.height.toNat ∧
      ∀ t (ht : t < bs.length),
        s.getBlock (UInt64.ofNat (L.toNat + 1 + t)) = .ok (bs.get ⟨t, ht⟩) := by
  rcases collectPending_cases s L with ⟨heq, hc⟩ | ⟨hgt, -⟩ | ⟨-, hcap, -⟩ | ⟨hlt, -, hsucc, hc⟩
  · exact ⟨[], hc, by simp [heq], fun t ht => absurd ht (Nat.not_lt_zero _)⟩
  · exact absurd hL (by have := uint64_lt_iff.mp hgt; omega)
  · omega
  · have hH' : s.height.toNat < 2 ^ 64 - 1 := hH
    obtain ⟨bs, e, hrun, hread, hend⟩ :=
      pendingLoop_reads s hH UInt64.size (L + 1) [] (by show _ < 2 ^ 64; omega) (by omega)
    rw [hsucc] at hread hend
    rcases hend with ⟨rfl, hlen⟩ | ⟨err, -, hle, herr⟩
    · exact ⟨bs, by simpa [hc] using hrun, by omega, hread⟩
    · obtain ⟨b, hb⟩ := hs.filled (UInt64.ofNat (L.toNat + 1 + bs.length))
        (by rw [uint64_toNat_ofNat]; omega) (by rw [uint64_toNat_ofNat]; omega)
      rw [hb] at herr
      cases herr

theorem pendingLoop_mem_read {s : Store} {H : UInt64} : ∀ fuel i acc bs e,
    pendingLoop s H fuel i acc = .ret (bs, e) → ∀ b ∈ bs, b ∈ acc ∨ ∃ j, s.getBlock j = .ok b
  | 0, _, _, _, _, h => by simp [pendingLoop] at h
  | fuel + 1, i, acc, bs, e, h => by
    simp only [pendingLoop] at h
    by_cases hiH : i ≤ H
    · rw [if_pos hiH] at h
      cases hget : s.getBlock i with
      | error e' =>
        simp only [hget, Exec.ret.injEq, Prod.mk.injEq] at h
        exact fun b hb => .inl (h.1 ▸ hb)
      | ok b' =>
        simp only [hget] at h
        intro b hb
        rcases pendingLoop_mem_read fuel (i + 1) (acc ++ [b']) bs e h b hb with hb | hb
        · rcases List.mem_append.mp hb with hb | hb
          · exact .inl hb
          · exact .inr ⟨i, List.mem_singleton.mp hb ▸ hget⟩
        · exact .inr hb
    · rw [if_neg hiH, Exec.ret.injEq, Prod.mk.injEq] at h
      exact fun b hb => .inl (h.1 ▸ hb)

theorem collectPending_stored {s : Store} {L : UInt64} {bs : List Block}
    {e : Option PendingError} (hs : s.Consistent) (h : collectPending s L = .ret (bs, e)) :
    ∀ b ∈ bs, s.getBlock b.height = .ok b := by
  rcases collectPending_cases s L with ⟨-, hc⟩ | ⟨-, hc⟩ | ⟨-, -, hc⟩ | ⟨-, -, -, hc⟩ <;>
    rw [hc] at h
  · rw [Exec.ret.injEq, Prod.mk.injEq] at h
    simp [← h.1]
  · cases h
  · cases h
  · intro b hb
    rcases pendingLoop_mem_read _ _ _ _ _ h b hb with hb | ⟨j, hj⟩
    · cases hb
    · rwa [hs.height_eq j b hj]

/-- `isEmpty` is the fast path of `getPendingBlocks`: once the in-memory height is set, or when
nothing is persisted, it holds exactly when the call would return no block and no error. -/
theorem isEmpty_iff_getPendingBlocks (pb : PendingBlocks)
    (hload : pb.lastSubmittedHeight ≠ 0 ∨ readLastSubmitted pb.store = .ok none) :
    isEmpty pb = true ↔ (getPendingBlocks pb).2 = .ret ([], none) := by
  have hget : (getPendingBlocks pb).2 = collectPending pb.store pb.lastSubmittedHeight := by
    by_cases h0 : pb.lastSubmittedHeight = 0
    · rw [getPendingBlocks_of_load_ok h0 (hload.resolve_left (not_not.mpr h0)), h0]; rfl
    · rw [getPendingBlocks_of_ne_zero h0]
  rw [hget, isEmpty, beq_iff_eq]
  constructor
  · intro h
    simp [collectPending, h]
  · intro h
    rcases collectPending_ret_none h with ⟨-, hL⟩ | ⟨-, b, hb, -⟩
    · exact hL.symm
    · cases hb

theorem isEmpty_iff_getPendingBlocks_two_blocks :
    let pb : PendingBlocks :=
      ⟨⟨2, fun h => if h = 0 then .error .notFound else .ok ⟨⟨h⟩⟩, fun _ => .error .notFound⟩, 1⟩
    (isEmpty pb = true ↔ (getPendingBlocks pb).2 = .ret ([], none)) :=
  isEmpty_iff_getPendingBlocks _ (.inl (by decide))

/-- At `store.Height() = math.MaxUint64` the loop wraps. With one block left to submit, at that
height, and nothing at height `0`, the counter wraps to `0` after that block, so the call
returns it together with the not-found error of `GetBlock(0)`. -/
theorem getPendingBlocks_wraps_at_max_height :
    let b : Block := ⟨⟨18446744073709551615⟩⟩
    let s : Store :=
      { height := 18446744073709551615
        getBlock := fun h => if h = 18446744073709551615 then .ok b else .error .notFound
        getMetadata := fun _ => .error .notFound }
    (getPendingBlocks ⟨s, 18446744073709551614⟩).2 = .ret ([b], some (.store .notFound)) := by
  decide

end PendingBlocks

end Rollmint

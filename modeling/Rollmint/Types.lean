import Rollmint.Runtime
import Rollmint.Merkle

/-!
# Blocks and transactions

The block type keeps what the modelled code reads of it: the header height. Transactions
are byte strings, and `toTxsWithISRs` pairs each of them with the intermediate state roots
before and after it, with a `BeginBlock` entry in front and an `EndBlock` entry at the end.

The loop of `ToTxsWithISRs` assigns `txsWithISRs[i]` into a slice made with
`make([]pb.TxWithISRs, 0, size)`, whose length is zero. The first assignment is therefore out
of range whenever the length check passes (`toTxsWithISRs_panics`).

`Txs.Proof(i)` builds the Merkle tree of `crypto/merkle` over the transaction hashes and
returns the proof of `txs[i]` in it. For every list and every index in range, the proof
verifies against the root (`proof_verifies`), and the root it carries commits to the whole
list when the hash separates the inputs hashed for two lists (`proof_rootHash_binding`).
-/

namespace Rollmint

/-- `types.Header`, with the one field the modelled code reads: `Height`. -/
structure Header where
  height : UInt64
  deriving DecidableEq, Repr

/-- `types.Block`, with its `Header`; the modelled code reads neither `Data` nor
`LastCommit`. -/
structure Block where
  header : Header
  deriving DecidableEq, Repr

/-- Modelled from the spec: `Block.Height()`, the height recorded in the header. -/
def Block.height (b : Block) : UInt64 := b.header.height

abbrev Tx := List UInt8

abbrev Txs := List Tx

/-- The state roots between transactions, needed for fraud proofs. -/
structure IntermediateStateRoots where
  rawRootsList : List (List UInt8)
  deriving DecidableEq, Repr

/-- `pb.TxWithISRs`: a transaction between its pre- and post-state roots; `tx = none` is Go's
`nil`, used for the `BeginBlock` and `EndBlock` entries. -/
structure TxWithISRs where
  preIsr : List UInt8
  tx : Option Tx
  postIsr : List UInt8
  deriving DecidableEq, Repr

namespace Txs

/-- The closure `getTx` of `ToTxsWithISRs`: `nil` at both ends, `txs[i]` otherwise. -/
def getTx (txs : Txs) (i size : Nat) : Exec (Option Tx) :=
  if i = 0 ∨ i = size - 1 then .ret none else some <$> sliceGet txs i

/-- The loop `for i := 0; i < size; i++` of `ToTxsWithISRs`; `n` iterations are left. -/
def fillTxsWithISRs (txs : Txs) (roots : List (List UInt8)) (size : Nat) :
    Nat → Nat → List TxWithISRs → Exec (List TxWithISRs)
  | 0, _, acc => .ret acc
  | n + 1, i, acc => do
    let preIsr ← sliceGet roots i
    let tx ← getTx txs i size
    let postIsr ← sliceGet roots (i + 1)
    let acc ← sliceSet acc i ⟨preIsr, tx, postIsr⟩
    fillTxsWithISRs txs roots size n (i + 1) acc

/-- The error text of a wrong ISR list length. -/
def invalidISRLength (len expected : Nat) : String :=
  "invalid length of ISR list: " ++ toString len ++ ", expected length: " ++ toString expected

/-- `Txs.ToTxsWithISRs`. The slice starts with length zero, as `make(.., 0, size)` makes it. -/
def toTxsWithISRs (txs : Txs) (intermediateStateRoots : IntermediateStateRoots) :
    Exec (Except String (List TxWithISRs)) :=
  let expectedISRListLength := txs.length + 3
  let roots := intermediateStateRoots.rawRootsList
  if roots.length ≠ expectedISRListLength then
    .ret (.error (invalidISRLength roots.length expectedISRListLength))
  else
    let size := expectedISRListLength - 1
    Except.ok <$> fillTxsWithISRs txs roots size size 0 []

theorem toTxsWithISRs_of_length_ne {txs : Txs} {r : IntermediateStateRoots}
    (h : r.rawRootsList.length ≠ txs.length + 3) :
    toTxsWithISRs txs r = .ret (.error (invalidISRLength r.rawRootsList.length (txs.length + 3))) :=
  if_pos h

/-- Whenever the ISR list has the expected length, the first assignment into the empty slice
panics, so no list is ever returned. -/
theorem toTxsWithISRs_panics (txs : Txs) (r : IntermediateStateRoots)
    (h : r.rawRootsList.length = txs.length + 3) :
    toTxsWithISRs txs r = .panic (indexOutOfRange 0 0) := by
  have h0 : 0 < r.rawRootsList.length := by omega
  have h1 : 1 < r.rawRootsList.length := by omega
  simp only [toTxsWithISRs, h, ne_eq, not_true_eq_false, if_false, Nat.add_sub_cancel,
    fillTxsWithISRs, sliceGet_of_lt h0, sliceGet_of_lt h1, getTx, true_or, if_true,
    Exec.ret_bind, sliceSet, List.length_nil, Nat.lt_irrefl, Exec.panic_bind, Exec.map_panic]

theorem toTxsWithISRs_panics_on_empty_block :
    ([] : List (List UInt8)).length + 3 = 3 ∧
      toTxsWithISRs [] ⟨[[], [], []]⟩ = .panic (indexOutOfRange 0 0) :=
  ⟨rfl, toTxsWithISRs_panics [] ⟨[[], [], []]⟩ rfl⟩

end Txs

/-! ## Merkle proofs of transactions -/

/-- `Tx.Hash`: `tmhash.Sum(tx)`, with `tmhash.Sum` as `sum`. -/
def Tx.hash (sum : List UInt8 → List UInt8) (tx : Tx) : List UInt8 := sum tx

/-- `TxProof`: the proof that `data` is in the tree whose root is `rootHash`. -/
structure TxProof where
  rootHash : List UInt8
  data : Tx
  proof : Merkle.Proof
  deriving DecidableEq, Repr

namespace Txs

/-- `Txs.Proof(i)`. `txs[i]` and `*proofs[i]` panic when `i` is out of range; Go's `int`
index is a `Nat` here. -/
def proof (sum : List UInt8 → List UInt8) (txs : Txs) (i : Nat) : Exec TxProof :=
  let bzs := txs.map (Tx.hash sum)
  let rootAndProofs := Merkle.proofsFromByteSlices sum bzs
  do
    let data ← sliceGet txs i
    let proof ← sliceGet rootAndProofs.2 i
    pure ⟨rootAndProofs.1, data, proof⟩

/-- `Txs.Proof(i)` panics for an index out of range. Otherwise it returns `txs[i]`, the root
that `HashFromByteSlices` computes over the transaction hashes, and a proof of index `i` among
`len(txs)` leaves that `Proof.Verify` accepts for the hash of `txs[i]` against that root. -/
theorem proof_verifies (sum : List UInt8 → List UInt8) (txs : Txs) (i : Nat) :
    (txs.length ≤ i → proof sum txs i = .panic (indexOutOfRange i txs.length)) ∧
      ∀ hi : i < txs.length, ∃ p : Merkle.Proof,
        proof sum txs i =
          .ret ⟨Merkle.hashFromByteSlices sum (txs.map (Tx.hash sum)), txs[i], p⟩ ∧
        p.total = txs.length ∧ p.index = i ∧
        p.verify sum (Merkle.hashFromByteSlices sum (txs.map (Tx.hash sum)))
          (Tx.hash sum txs[i]) = .ok () := by
  refine ⟨fun hle => by simp only [proof, sliceGet_of_le hle, Exec.panic_bind], fun hi => ?_⟩
  have hi' : i < (txs.map (Tx.hash sum)).length := by simpa using hi
  obtain ⟨hroot, p, hp, htotal, hindex, hverify⟩ :=
    Merkle.proofsFromByteSlices_verify sum _ i hi'
  refine ⟨p, ?_, by simpa using htotal, hindex, by simpa using hverify⟩
  simp only [proof, sliceGet, List.getElem?_eq_getElem hi, Exec.ret_bind, hp, hroot, Exec.pure_eq]

theorem proof_rootHash {sum : List UInt8 → List UInt8} {txs : Txs} {i : Nat} {p : TxProof}
    (h : proof sum txs i = .ret p) :
    p.rootHash = Merkle.hashFromByteSlices sum (txs.map (Tx.hash sum)) := by
  simp only [proof] at h
  rcases Nat.lt_or_ge i txs.length with hi | hi
  · rw [sliceGet_of_lt hi, Exec.ret_bind] at h
    rcases Nat.lt_or_ge i (Merkle.proofsFromByteSlices sum (txs.map (Tx.hash sum))).2.length
      with hj | hj
    · rw [sliceGet_of_lt hj, Exec.ret_bind, Exec.pure_eq, Exec.ret.injEq] at h
      rw [← h, Merkle.proofsFromByteSlices_fst]
    · rw [sliceGet_of_le hj, Exec.panic_bind] at h
      cases h
  · rw [sliceGet_of_le hi, Exec.panic_bind] at h
    cases h

/-- The inputs `Txs.Proof` passes to `tmhash.Sum`: each transaction, for its hash, then those
of the tree over the hashes. -/
def hashInputs (sum : List UInt8 → List UInt8) (txs : Txs) : List (List UInt8) :=
  txs ++ Merkle.hashInputs sum (txs.map (Tx.hash sum))

theorem map_hash_inj {sum : List UInt8 → List UInt8} :
    ∀ txs txs' : Txs, (∀ x ∈ txs, ∀ y ∈ txs', sum x = sum y → x = y) →
      txs.map (Tx.hash sum) = txs'.map (Tx.hash sum) → txs = txs'
  | [], [], _, _ => rfl
  | [], _ :: _, _, h => by simp at h
  | _ :: _, [], _, h => by simp at h
  | a :: as, b :: bs, hinj, h => by
    simp only [List.map_cons, List.cons.injEq] at h
    rw [hinj a (List.mem_cons_self _ _) b (List.mem_cons_self _ _) h.1, map_hash_inj as bs
      (fun x hx y hy => hinj x (List.mem_cons_of_mem _ hx) y (List.mem_cons_of_mem _ hy)) h.2]

/-- The root a `TxProof` carries commits to the whole transaction list: proofs from two lists
carry the same root only if the lists are equal, when `tmhash.Sum` separates the inputs hashed
for the one list from those hashed for the other. -/
theorem proof_rootHash_binding {sum : List UInt8 → List UInt8}
    (hlen : ∀ x, (sum x).length = 32) {txs txs' : Txs} {i j : Nat} {p p' : TxProof}
    (hp : proof sum txs i = .ret p) (hp' : proof sum txs' j = .ret p')
    (hinj : ∀ x ∈ hashInputs sum txs, ∀ y ∈ hashInputs sum txs', sum x = sum y → x = y)
    (hroot : p.rootHash = p'.rootHash) : txs = txs' := by
  rw [proof_rootHash hp, proof_rootHash hp'] at hroot
  refine map_hash_inj txs txs'
    (fun x hx y hy => hinj x (List.mem_append_left _ hx) y (List.mem_append_left _ hy)) ?_
  exact Merkle.hashFromByteSlices_inj hlen _ _
    (fun x hx y hy => hinj x (List.mem_append_right _ hx) y (List.mem_append_right _ hy)) hroot

/-- One transaction, under a hash that pads or cuts its input to 32 bytes. -/
theorem proof_rootHash_binding_single_tx :
    let sum : List UInt8 → List UInt8 := fun y => (y ++ List.replicate 32 0).take 32
    (∀ x ∈ hashInputs sum [[1]], ∀ y ∈ hashInputs sum [[1]], sum x = sum y → x = y) ∧
      [[(1 : UInt8)]] = [[1]] := by
  intro sum
  have hinj : ∀ x ∈ hashInputs sum [[1]], ∀ y ∈ hashInputs sum [[1]], sum x = sum y → x = y := by
    simp only [hashInputs, List.map, Tx.hash, Merkle.hashInputs.eq_2]; decide
  have hlen : ∀ y, (sum y).length = 32 := fun y => by simp [sum]
  have hp : proof sum [[1]] 0 = .ret ⟨Merkle.leafHash sum (sum [1]), [1],
      ⟨1, 0, Merkle.leafHash sum (sum [1]), []⟩⟩ := by
    simp [proof, sliceGet, Merkle.proofsFromByteSlices, Merkle.trailsFromByteSlices.eq_2,
      Tx.hash]
  exact ⟨hinj, @proof_rootHash_binding sum hlen [[1]] [[1]] 0 0 _ _ hp hp hinj rfl⟩

end Txs

end Rollmint

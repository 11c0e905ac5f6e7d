import Mathlib.Data.Nat.Log
import Mathlib.Algebra.Group.Nat.Basic

/-!
# Simple Merkle trees: tendermint's `crypto/merkle`

`Txs.Proof` proves that a transaction is in a block with the Merkle tree of tendermint's
`crypto/merkle` package, built over the transaction hashes. This module models that package
after its Go source (`hash.go`, `tree.go`, `proof.go`, `proof_node.go`), with `tmhash.Sum` as
a parameter `sum`. A leaf hashes as `sum(0x00 ‖ leaf)` and an inner node as
`sum(0x01 ‖ left ‖ right)`, and a tree of `n ≥ 2` leaves splits after the largest power of two
below `n` (RFC 6962).

`ProofsFromByteSlices` builds one proof per leaf, and `Proof.Verify` checks a proof against a
root. Every proof it builds verifies against the root that `HashFromByteSlices` computes
(`proofsFromByteSlices_verify`). Conversely, for any `sum` with 32-byte outputs that maps no
other input to the digest of an input of the tree (`hashInputs`), a proof that verifies is for
the leaf at its index (`verify_binding`).
-/

namespace Rollmint.Merkle

section Hashing

variable (sum : List UInt8 → List UInt8)

/-- `leafHash`: `tmhash.Sum(0x00 ‖ leaf)`. -/
def leafHash (leaf : List UInt8) : List UInt8 := sum (0 :: leaf)

/-- `innerHash`: `tmhash.Sum(0x01 ‖ left ‖ right)`. -/
def innerHash (left right : List UInt8) : List UInt8 := sum (1 :: (left ++ right))

/-- `emptyHash`: `tmhash.Sum([]byte{})`. -/
def emptyHash : List UInt8 := sum []

end Hashing

/-- `getSplitPoint`: the largest power of two below `length`, which Go computes as
`1 << (bits.Len(length) - 1)`, halved when it equals `length`. Go panics for `length < 1`,
which no caller passes. -/
def getSplitPoint (length : Nat) : Nat :=
  let k := 2 ^ Nat.log2 length
  if k = length then k / 2 else k

theorem getSplitPoint_bounds {n : Nat} (h : 2 ≤ n) :
    0 < getSplitPoint n ∧ getSplitPoint n < n := by
  have hle : 2 ^ Nat.log2 n ≤ n := by
    rw [Nat.log2_eq_log_two]; exact Nat.pow_log_le_self 2 (by omega)
  have hpos : 0 < 2 ^ Nat.log2 n := Nat.pos_pow_of_pos _ (by decide)
  simp only [getSplitPoint]
  split
  · rename_i heq
    have hm : 1 ≤ Nat.log2 n := by
      by_contra hz
      rw [show Nat.log2 n = 0 by omega] at heq
      omega
    have : 2 ^ Nat.log2 n = 2 * 2 ^ (Nat.log2 n - 1) := by
      rw [← Nat.pow_succ', Nat.succ_eq_add_one, Nat.sub_add_cancel hm]
    omega
  · omega

section Tree

variable (sum : List UInt8 → List UInt8)

/-- `HashFromByteSlices`: the root hash of the tree over `items`, in order. -/
def hashFromByteSlices : List (List UInt8) → List UInt8
  | [] => emptyHash sum
  | [item] => leafHash sum item
  | items@(_ :: _ :: _) =>
    innerHash sum (hashFromByteSlices (items.take (getSplitPoint items.length)))
      (hashFromByteSlices (items.drop (getSplitPoint items.length)))
termination_by items => items.length
decreasing_by
  all_goals
    simp_wf
    rename_i h
    have := getSplitPoint_bounds (n := items.length) (by simp [h])
    simp only [h, List.length_cons] at this ⊢
    omega

/-- `trailsFromByteSlices`, with each trail flattened by `FlattenAunts`: for every leaf, its
leaf hash and the hashes of the sibling subtrees on its path to the root, from the bottom up;
and the root hash. Go links `ProofNode`s by `Parent`, `Left` and `Right` pointers, and
`FlattenAunts` collects the `Left` or `Right` sibling of each node on the way up. -/
def trailsFromByteSlices :
    List (List UInt8) → List (List UInt8 × List (List UInt8)) × List UInt8
  | [] => ([], emptyHash sum)
  | [item] => ([(leafHash sum item, [])], leafHash sum item)
  | items@(_ :: _ :: _) =>
    let lefts := trailsFromByteSlices (items.take (getSplitPoint items.length))
    let rights := trailsFromByteSlices (items.drop (getSplitPoint items.length))
    (lefts.1.map (fun t => (t.1, t.2 ++ [rights.2])) ++
        rights.1.map (fun t => (t.1, t.2 ++ [lefts.2])),
      innerHash sum lefts.2 rights.2)
termination_by items => items.length
decreasing_by
  all_goals
    simp_wf
    rename_i h
    have := getSplitPoint_bounds (n := items.length) (by simp [h])
    simp only [h, List.length_cons] at this ⊢
    omega

end Tree

/-- `merkle.Proof`; `Total` and `Index` are `int64`. -/
structure Proof where
  total : Int
  index : Int
  leafHash : List UInt8
  aunts : List (List UInt8)
  deriving DecidableEq, Repr

/-- The errors of `Proof.Verify`, by their text: "proof total must be positive", "proof index
cannot be negative", "invalid leaf hash: wanted %X got %X" and "invalid root hash: wanted %X
got %X". -/
inductive VerifyError
  | totalNegative
  | indexNegative
  | invalidLeafHash (wanted got : List UInt8)
  | invalidRootHash (wanted got : List UInt8)
  deriving DecidableEq, Repr

section Proofs

variable (sum : List UInt8 → List UInt8)

/-- `ProofsFromByteSlices`: the root hash and one proof per leaf. -/
def proofsFromByteSlices (items : List (List UInt8)) : List UInt8 × List Proof :=
  ((trailsFromByteSlices sum items).2,
    (trailsFromByteSlices sum items).1.mapIdx fun i t => ⟨items.length, i, t.1, t.2⟩)

/-- `computeHashFromAunts`: the root that a leaf hash and its aunts give for leaf `index` of a
tree of `total` leaves; `none` is Go's `nil`. The last aunt is the sibling at the top. -/
def computeHashFromAunts (index total : Int) (leafHash : List UInt8)
    (innerHashes : List (List UInt8)) : Option (List UInt8) :=
  if index ≥ total ∨ index < 0 ∨ total ≤ 0 then none
  else if total = 1 then if innerHashes = [] then some leafHash else none
  else if h : innerHashes = [] then none
  else
    let numLeft : Int := getSplitPoint total.toNat
    if index < numLeft then
      (computeHashFromAunts index numLeft leafHash innerHashes.dropLast).map
        (innerHash sum · (innerHashes.getLast h))
    else
      (computeHashFromAunts (index - numLeft) (total - numLeft) leafHash
        innerHashes.dropLast).map (innerHash sum (innerHashes.getLast h))
termination_by innerHashes.length
decreasing_by
  all_goals
    simp_wf
    have := List.length_pos.mpr h
    omega

/-- `Proof.ComputeRootHash`. -/
def Proof.computeRootHash (sp : Proof) : Option (List UInt8) :=
  computeHashFromAunts sum sp.index sp.total sp.leafHash sp.aunts

/-- `Proof.Verify`. `bytes.Equal` treats the `nil` of a failed computation as empty. -/
def Proof.verify (sp : Proof) (rootHash leaf : List UInt8) : Except VerifyError Unit :=
  let lh := Merkle.leafHash sum leaf
  if sp.total < 0 then .error .totalNegative
  else if sp.index < 0 then .error .indexNegative
  else if sp.leafHash ≠ lh then .error (.invalidLeafHash lh sp.leafHash)
  else if (sp.computeRootHash sum).getD [] ≠ rootHash then
    .error (.invalidRootHash rootHash ((sp.computeRootHash sum).getD []))
  else .ok ()

theorem Proof.verify_eq_ok {sp : Proof} {rootHash leaf : List UInt8} :
    sp.verify sum rootHash leaf = .ok () ↔
      0 ≤ sp.total ∧ 0 ≤ sp.index ∧ sp.leafHash = Merkle.leafHash sum leaf ∧
        (sp.computeRootHash sum).getD [] = rootHash := by
  simp only [Proof.verify]
  split_ifs <;> simp_all

/-! ## Completeness -/

theorem computeHashFromAunts_one (lh : List UInt8) (aunts : List (List UInt8)) :
    computeHashFromAunts sum 0 1 lh aunts = if aunts = [] then some lh else none := by
  rw [computeHashFromAunts]; simp

theorem computeHashFromAunts_split {n i : Nat} (hn : 2 ≤ n) (hi : i < n) (lh : List UInt8)
    (aunts : List (List UInt8)) (last : List UInt8) :
    computeHashFromAunts sum i n lh (aunts ++ [last]) =
      if i < getSplitPoint n then
        (computeHashFromAunts sum i (getSplitPoint n) lh aunts).map (innerHash sum · last)
      else
        (computeHashFromAunts sum (i - getSplitPoint n : Nat) (n - getSplitPoint n : Nat) lh
          aunts).map (innerHash sum last) := by
  have hk := getSplitPoint_bounds hn
  rw [computeHashFromAunts, if_neg (by omega), if_neg (by omega),
    dif_neg (List.append_ne_nil_of_right_ne_nil _ (List.cons_ne_nil _ _))]
  simp only [Int.toNat_ofNat, List.dropLast_concat, List.getLast_concat, Int.ofNat_lt]
  by_cases hik : i < getSplitPoint n
  · simp only [hik, if_true]
  · simp only [hik, if_false, Int.ofNat_sub (by omega : getSplitPoint n ≤ i),
      Int.ofNat_sub (by omega : getSplitPoint n ≤ n)]

theorem trailsFromByteSlices_root (items : List (List UInt8)) :
    (trailsFromByteSlices sum items).2 = hashFromByteSlices sum items := by
  induction items using hashFromByteSlices.induct sum with
  | case1 => simp [trailsFromByteSlices, hashFromByteSlices]
  | case2 item => simp [trailsFromByteSlices, hashFromByteSlices]
  | case3 a b rest ihL ihR =>
    rw [trailsFromByteSlices, hashFromByteSlices, ← ihL, ← ihR]

@[simp] theorem proofsFromByteSlices_fst (items : List (List UInt8)) :
    (proofsFromByteSlices sum items).1 = hashFromByteSlices sum items :=
  trailsFromByteSlices_root sum items

theorem trailsFromByteSlices_length (items : List (List UInt8)) :
    (trailsFromByteSlices sum items).1.length = items.length := by
  induction items using hashFromByteSlices.induct sum with
  | case1 => simp [trailsFromByteSlices]
  | case2 item => simp [trailsFromByteSlices]
  | case3 a b rest ihL ihR =>
    have := getSplitPoint_bounds (n := (a :: b :: rest).length) (by simp)
    rw [trailsFromByteSlices]
    simp only [List.length_append, List.length_map, ihL, ihR, List.length_take,
      List.length_drop]
    omega

theorem trailsFromByteSlices_verify (items : List (List UInt8)) :
    ∀ i (hi : i < items.length), ∃ t, (trailsFromByteSlices sum items).1[i]? = some t ∧
      t.1 = leafHash sum items[i] ∧
      computeHashFromAunts sum i items.length t.1 t.2 = some (hashFromByteSlices sum items) := by
  induction items using hashFromByteSlices.induct sum with
  | case1 => intro i hi; simp at hi
  | case2 item =>
    intro i hi
    obtain rfl : i = 0 := by simpa using hi
    refine ⟨(leafHash sum item, []), by simp [trailsFromByteSlices], rfl, ?_⟩
    simp [computeHashFromAunts_one, hashFromByteSlices]
  | case3 a b rest ihL ihR =>
    intro i hi
    have hn : 2 ≤ (a :: b :: rest).length := by simp
    have hk := getSplitPoint_bounds hn
    rw [trailsFromByteSlices.eq_3, hashFromByteSlices.eq_3]
    simp only [trailsFromByteSlices_root]
    have hsplit := computeHashFromAunts_split sum hn hi
    generalize a :: b :: rest = items at *
    generalize getSplitPoint items.length = k at *
    have hL : (items.take k).length = k := by simp; omega
    have hR : (items.drop k).length = items.length - k := by simp
    by_cases hik : i < k
    · obtain ⟨t, ht, hleaf, hcomp⟩ := ihL i (by omega)
      refine ⟨(t.1, t.2 ++ [hashFromByteSlices sum (items.drop k)]), ?_, ?_, ?_⟩
      · rw [List.getElem?_append_left (by simp [trailsFromByteSlices_length]; omega),
          List.getElem?_map, ht]
        rfl
      · simp [hleaf, List.getElem_take]
      · rw [hL] at hcomp
        simp only [hsplit, if_pos hik, hcomp, Option.map_some']
    · obtain ⟨t, ht, hleaf, hcomp⟩ := ihR (i - k) (by omega)
      refine ⟨(t.1, t.2 ++ [hashFromByteSlices sum (items.take k)]), ?_, ?_, ?_⟩
      · rw [List.getElem?_append_right (by simp [trailsFromByteSlices_length]; omega),
          List.length_map, trailsFromByteSlices_length, hL, List.getElem?_map, ht]
        rfl
      · simp only [hleaf, List.getElem_drop, Nat.add_sub_cancel' (by omega : k ≤ i)]
      · rw [hR] at hcomp
        simp only [hsplit, if_neg hik, hcomp, Option.map_some']

/-- Every proof that `ProofsFromByteSlices` builds verifies its own leaf against the root. -/
theorem proofsFromByteSlices_verify (items : List (List UInt8)) (i : Nat)
    (hi : i < items.length) :
    (proofsFromByteSlices sum items).1 = hashFromByteSlices sum items ∧
      ∃ p, (proofsFromByteSlices sum items).2[i]? = some p ∧ p.total = items.length ∧
        p.index = i ∧ p.verify sum (hashFromByteSlices sum items) items[i] = .ok () := by
  obtain ⟨t, ht, hleaf, hcomp⟩ := trailsFromByteSlices_verify sum items i hi
  refine ⟨trailsFromByteSlices_root sum items, ⟨items.length, i, t.1, t.2⟩, ?_, rfl, rfl, ?_⟩
  · simp [proofsFromByteSlices, List.getElem?_mapIdx, ht]
  · exact (Proof.verify_eq_ok sum).mpr ⟨Int.ofNat_nonneg _, Int.ofNat_nonneg _, hleaf,
      by simp only [Proof.computeRootHash, hcomp, Option.getD_some]⟩

/-! ## Binding

A hash with 32-byte digests has collisions, so binding is stated over the inputs that the tree
actually hashes (`hashInputs`): the proof is about a `sum` that maps no other input to the
digest of one of them. -/

section Inputs

variable (sum : List UInt8 → List UInt8)

/-- The inputs `HashFromByteSlices` passes to `sum` for the tree over `items`: those of the two
subtrees, then that of the root. -/
def hashInputs : List (List UInt8) → List (List UInt8)
  | [] => [[]]
  | [item] => [0 :: item]
  | items@(_ :: _ :: _) =>
    hashInputs (items.take (getSplitPoint items.length)) ++
      hashInputs (items.drop (getSplitPoint items.length)) ++
      [1 :: (hashFromByteSlices sum (items.take (getSplitPoint items.length)) ++
        hashFromByteSlices sum (items.drop (getSplitPoint items.length)))]
termination_by items => items.length
decreasing_by
  all_goals
    simp_wf
    rename_i h
    have := getSplitPoint_bounds (n := items.length) (by simp [h])
    simp only [h, List.length_cons] at this ⊢
    omega

theorem hashInputs_cons_cons_sub (a b : List UInt8) (rest : List (List UInt8)) :
    hashInputs sum ((a :: b :: rest).take (getSplitPoint (a :: b :: rest).length)) ⊆
        hashInputs sum (a :: b :: rest) ∧
      hashInputs sum ((a :: b :: rest).drop (getSplitPoint (a :: b :: rest).length)) ⊆
        hashInputs sum (a :: b :: rest) ∧
      1 :: (hashFromByteSlices sum
          ((a :: b :: rest).take (getSplitPoint (a :: b :: rest).length)) ++
        hashFromByteSlices sum ((a :: b :: rest).drop (getSplitPoint (a :: b :: rest).length))) ∈
        hashInputs sum (a :: b :: rest) := by
  rw [hashInputs.eq_3]
  exact ⟨fun _ hx => List.mem_append_left _ (List.mem_append_left _ hx),
    fun _ hx => List.mem_append_left _ (List.mem_append_right _ hx),
    List.mem_append_right _ (List.mem_singleton_self _)⟩

end Inputs

theorem innerInput_inj {l r l' r' : List UInt8}
    (hside : l.length = l'.length ∨ r.length = r'.length)
    (h : (1 : UInt8) :: (l ++ r) = 1 :: (l' ++ r')) : l = l' ∧ r = r' :=
  hside.elim (List.append_inj (List.cons.inj h).2) (List.append_inj' (List.cons.inj h).2)

section FixedLength

variable {sum} (hlen : ∀ x, (sum x).length = 32)
include hlen

theorem hashFromByteSlices_length (items : List (List UInt8)) :
    (hashFromByteSlices sum items).length = 32 := by
  match items with
  | [] => rw [hashFromByteSlices.eq_1]; exact hlen _
  | [_] => rw [hashFromByteSlices.eq_2]; exact hlen _
  | _ :: _ :: _ => rw [hashFromByteSlices.eq_3]; exact hlen _

/-- The root commits to the whole list: two lists have the same root only if they are equal,
when `sum` separates the inputs of the one tree from those of the other. The prefixes `0x00`
and `0x01` and the empty input keep an empty tree, a leaf and an inner node apart. -/
theorem hashFromByteSlices_inj (items : List (List UInt8)) :
    ∀ items', (∀ x ∈ hashInputs sum items, ∀ y ∈ hashInputs sum items', sum x = sum y → x = y) →
      hashFromByteSlices sum items = hashFromByteSlices sum items' → items = items' := by
  induction items using hashFromByteSlices.induct sum with
  | case1 =>
    rintro (_ | ⟨x, _ | ⟨y, rest'⟩⟩) hinj h
    case nil => rfl
    all_goals
      simp only [hashFromByteSlices.eq_1, hashFromByteSlices.eq_2, hashFromByteSlices.eq_3] at h
      exact absurd (hinj _ (by simp [hashInputs.eq_1]) _
        (by simp [hashInputs.eq_2, hashInputs.eq_3]) h) (by simp)
  | case2 item =>
    rintro (_ | ⟨x, _ | ⟨y, rest'⟩⟩) hinj h
    case cons.nil =>
      rw [hashFromByteSlices.eq_2, hashFromByteSlices.eq_2] at h
      rw [(List.cons.inj (hinj _ (by simp [hashInputs.eq_2]) _ (by simp [hashInputs.eq_2]) h)).2]
    all_goals
      simp only [hashFromByteSlices.eq_1, hashFromByteSlices.eq_2, hashFromByteSlices.eq_3] at h
      exact absurd (hinj _ (by simp [hashInputs.eq_2]) _
        (by simp [hashInputs.eq_1, hashInputs.eq_3]) h) (by simp)
  | case3 a b rest ihL ihR =>
    rintro (_ | ⟨a', _ | ⟨b', rest'⟩⟩) hinj h
    case cons.cons =>
      obtain ⟨hsubL, hsubR, hroot⟩ := hashInputs_cons_cons_sub sum a b rest
      obtain ⟨hsubL', hsubR', hroot'⟩ := hashInputs_cons_cons_sub sum a' b' rest'
      rw [hashFromByteSlices.eq_3, hashFromByteSlices.eq_3] at h
      obtain ⟨hl, hr⟩ := innerInput_inj
        (.inl (by rw [hashFromByteSlices_length hlen, hashFromByteSlices_length hlen]))
        (hinj _ hroot _ hroot' h)
      rw [← List.take_append_drop (getSplitPoint (a :: b :: rest).length) (a :: b :: rest),
        ihL _ (fun x hx y hy => hinj x (hsubL hx) y (hsubL' hy)) hl,
        ihR _ (fun x hx y hy => hinj x (hsubR hx) y (hsubR' hy)) hr, List.take_append_drop]
    all_goals
      simp only [hashFromByteSlices.eq_1, hashFromByteSlices.eq_2, hashFromByteSlices.eq_3] at h
      exact absurd (hinj _ (by simp [hashInputs.eq_3]) _
        (by simp [hashInputs.eq_1, hashInputs.eq_2]) h) (by simp)

end FixedLength

end Proofs

end Rollmint.Merkle

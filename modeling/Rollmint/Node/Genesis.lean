import Rollmint.Base64
import Mathlib.Data.PNat.Defs

/-!
# The chunked genesis document

`FullNode.GetGenesisChunks` serves the genesis document as JSON, in chunks of at most
`genesisChunkSize` bytes, each as base64 text. `initGenesisChunks` builds the chunks on the
first call and caches them in `genChunks`. A later call finds the cache non-`nil` and returns
it as it is. `json.Marshal` is outside the repository and is a parameter here.

The loop `for i := 0; i < len(data); i += genesisChunkSize` is `chunkLoop`, for any positive
chunk size. `Chunks` describes what it builds: the pieces of the document in order, every one
but the last of full size, and the last one not empty (`chunkLoop_chunks`). From a new node,
every call returns the same chunks, and they decode back to the document
(`getGenesisChunks_calls`). A failed `json.Marshal` and an empty encoding leave the cache
`nil`, so the next call marshals again.
-/

namespace Rollmint.Node

variable {G : Type}

/-- `genesisChunkSize`, 16 MiB. -/
def genesisChunkSize : ℕ+ := ⟨16 * 1024 * 1024, by decide⟩

/-- The part of `FullNode` that the genesis chunks use: the genesis document, with `none` for
`nil`, and the cache `genChunks`, with `none` for a `nil` slice. The other fields are left
out. -/
structure FullNode (G : Type) where
  genesis : Option G
  genChunks : Option (List String)

/-- The node that `newFullNode` builds, as far as the genesis chunks see it: the genesis
document it is given, and a `nil` cache. -/
def newFullNode (genesis : Option G) : FullNode G := { genesis, genChunks := none }

/-- `append(s, x)` on a slice that may be `nil`. The result never is. -/
def sliceAppend {α : Type} (s : Option (List α)) (x : α) : Option (List α) :=
  some (s.getD [] ++ [x])

/-- The loop of `initGenesisChunks` from offset `i`, for a chunk size `size`. The bytes
`data[i:end]`, with `end` clamped to `len(data)`, are appended to `genChunks` as base64. -/
def chunkLoop (size : ℕ+) (data : List UInt8) (genChunks : Option (List String)) (i : Nat) :
    Option (List String) :=
  if i < data.length then
    let stop := if i + size > data.length then data.length else i + size
    chunkLoop size data
      (sliceAppend genChunks (Base64.encodeToString ((data.take stop).drop i))) (i + size)
  else genChunks
termination_by data.length - i
decreasing_by have := size.pos; omega

/-- `FullNode.initGenesisChunks`, with `json.Marshal` as `marshal`: the node after the call,
and the error it returns. -/
def initGenesisChunks (marshal : G → Except String (List UInt8)) (n : FullNode G) :
    FullNode G × Option String :=
  match n.genChunks, n.genesis with
  | some _, _ => (n, none)
  | none, none => (n, none)
  | none, some genesis =>
    match marshal genesis with
    | .error err => (n, some err)
    | .ok data => ({ n with genChunks := chunkLoop genesisChunkSize data n.genChunks 0 }, none)

/-- `FullNode.GetGenesisChunks`: the node after the call, and the chunks or the error it
returns. -/
def getGenesisChunks (marshal : G → Except String (List UInt8)) (n : FullNode G) :
    FullNode G × Except String (Option (List String)) :=
  match initGenesisChunks marshal n with
  | (n', some err) => (n', .error err)
  | (n', none) => (n', .ok n'.genChunks)

/-- What `k` calls of `GetGenesisChunks`, one after another from node `n`, return. -/
def getGenesisChunksCalls (marshal : G → Except String (List UInt8)) :
    Nat → FullNode G → List (Except String (Option (List String)))
  | 0, _ => []
  | k + 1, n =>
    (getGenesisChunks marshal n).2 :: getGenesisChunksCalls marshal k (getGenesisChunks marshal n).1

/-! ## Chunks -/

/-- `parts` cut `data` into pieces of `size` bytes, in order, but for a last piece of between
one and `size` bytes. -/
inductive Chunks (size : Nat) : List UInt8 → List (List UInt8) → Prop
  | last {p : List UInt8} : 0 < p.length → p.length ≤ size → Chunks size p [p]
  | cons {p rest : List UInt8} {parts : List (List UInt8)} :
      p.length = size → Chunks size rest parts → Chunks size (p ++ rest) (p :: parts)

namespace Chunks

variable {size : Nat} {data : List UInt8} {parts : List (List UInt8)}

theorem flatten (h : Chunks size data parts) : parts.flatten = data := by
  induction h with
  | last => simp
  | cons _ _ ih => simp [ih]

theorem ne_nil (h : Chunks size data parts) : parts ≠ [] := by
  cases h <;> simp

theorem length_dropLast (h : Chunks size data parts) : ∀ p ∈ parts.dropLast, p.length = size := by
  induction h with
  | last => simp
  | cons hp hrest ih =>
    rw [List.dropLast_cons_of_ne_nil hrest.ne_nil]
    rintro q (_ | ⟨_, hq⟩)
    exacts [hp, ih q hq]

theorem getLast (h : Chunks size data parts) :
    ∃ last, parts.getLast? = some last ∧ 0 < last.length ∧ last.length ≤ size := by
  induction h with
  | last hpos hle => exact ⟨_, rfl, hpos, hle⟩
  | cons _ hrest ih =>
    obtain ⟨q, qs, hqs⟩ := List.exists_cons_of_ne_nil hrest.ne_nil
    rw [hqs, List.getLast?_cons_cons, ← hqs]
    exact ih

theorem length_eq (h : Chunks size data parts) :
    parts.length = (data.length + size - 1) / size := by
  induction h with
  | @last p hpos hle =>
    exact (Nat.div_eq_of_lt_le (k := 1) (by omega) (by omega)).symm
  | @cons p rest parts hp hrest ih =>
    obtain ⟨q, -, hq0, hqs⟩ := hrest.getLast
    rw [List.length_append, hp, List.length_cons, ih,
      show size + rest.length + size - 1 = rest.length + size - 1 + size by omega,
      Nat.add_div_right _ (by omega)]

end Chunks

/-! ## The chunk loop -/

theorem drop_take_append_drop (data : List UInt8) (i size : Nat) :
    (data.take (i + size)).drop i ++ data.drop (i + size) = data.drop i := by
  rw [List.drop_take, ← List.drop_drop, Nat.add_sub_cancel_left, List.take_append_drop]

theorem chunkLoop_chunks (size : ℕ+) (data : List UInt8) (acc : Option (List String)) (i : Nat)
    (hi : i < data.length) :
    ∃ parts, Chunks size (data.drop i) parts ∧
      chunkLoop size data acc i = some (acc.getD [] ++ parts.map Base64.encodeToString) := by
  induction acc, i using chunkLoop.induct size data with
  | case1 acc i _ stop ih =>
    have hstep : chunkLoop size data acc i = chunkLoop size data
        (sliceAppend acc (Base64.encodeToString ((data.take stop).drop i))) (i + size) := by
      rw [chunkLoop, if_pos hi]; rfl
    rw [hstep]
    by_cases hlast : data.length ≤ i + size
    · have hstop : stop = data.length := by simp only [stop]; split <;> omega
      refine ⟨[data.drop i], .last (by simp; omega) (by simp; omega), ?_⟩
      rw [chunkLoop, if_neg (by omega), hstop, List.take_length]
      simp [sliceAppend]
    · have hstop : stop = i + size := by simp only [stop]; split <;> omega
      obtain ⟨parts, hparts, hloop⟩ := ih (by omega)
      refine ⟨(data.take (i + size)).drop i :: parts, ?_, ?_⟩
      · rw [← drop_take_append_drop data i size]
        exact .cons (by simp; omega) hparts
      · rw [hloop, hstop]
        simp [sliceAppend]
  | case2 acc i hout => exact absurd hi hout

/-! ## Calls of `GetGenesisChunks` -/

theorem getGenesisChunks_cached (marshal : G → Except String (List UInt8)) {n : FullNode G}
    {chunks : List String} (h : n.genChunks = some chunks) :
    getGenesisChunks marshal n = (n, .ok (some chunks)) := by
  simp [getGenesisChunks, initGenesisChunks, h]

theorem getGenesisChunksCalls_cached (marshal : G → Except String (List UInt8)) {n : FullNode G}
    {chunks : List String} (h : n.genChunks = some chunks) :
    ∀ k, getGenesisChunksCalls marshal k n = List.replicate k (.ok (some chunks))
  | 0 => rfl
  | k + 1 => by
    rw [getGenesisChunksCalls, getGenesisChunks_cached marshal h,
      getGenesisChunksCalls_cached marshal h k, List.replicate_succ]

theorem getGenesisChunks_of_marshal_error (marshal : G → Except String (List UInt8))
    {n : FullNode G} {genesis : G} {err : String} (hnil : n.genChunks = none)
    (hg : n.genesis = some genesis) (herr : marshal genesis = .error err) :
    getGenesisChunks marshal n = (n, .error err) := by
  simp [getGenesisChunks, initGenesisChunks, hnil, hg, herr]

theorem getGenesisChunks_of_empty (marshal : G → Except String (List UInt8)) {n : FullNode G}
    {genesis : G} (hnil : n.genChunks = none) (hg : n.genesis = some genesis)
    (hempty : marshal genesis = .ok []) :
    getGenesisChunks marshal n = (n, .ok none) := by
  have hloop : chunkLoop genesisChunkSize [] none 0 = none := by rw [chunkLoop]; rfl
  obtain ⟨_, _⟩ := n
  subst hnil hg
  simp only [getGenesisChunks, initGenesisChunks, hempty, hloop]

theorem getGenesisChunks_new (marshal : G → Except String (List UInt8)) {genesis : G}
    {data : List UInt8} (hdata : marshal genesis = .ok data) (hne : data ≠ []) :
    ∃ parts, Chunks genesisChunkSize data parts ∧
      getGenesisChunks marshal (newFullNode (some genesis)) =
        (⟨some genesis, some (parts.map Base64.encodeToString)⟩,
          .ok (some (parts.map Base64.encodeToString))) := by
  obtain ⟨parts, hparts, hloop⟩ :=
    chunkLoop_chunks genesisChunkSize data none 0 (List.length_pos.mpr hne)
  refine ⟨parts, hparts, ?_⟩
  simp [getGenesisChunks, initGenesisChunks, newFullNode, hdata, hloop]

/-- Every call of `GetGenesisChunks` on a new node, for a genesis document whose JSON encoding
`data` is not empty, returns the same `⌈len(data) / genesisChunkSize⌉` base64 chunks. They
decode to pieces of `data` that make it up in order, all of `genesisChunkSize` bytes but the
last, which has between one and `genesisChunkSize`. -/
theorem getGenesisChunks_calls (marshal : G → Except String (List UInt8)) (genesis : G)
    (data : List UInt8) (hdata : marshal genesis = .ok data) (hne : data ≠ []) (k : Nat) :
    ∃ chunks : List String,
      getGenesisChunksCalls marshal (k + 1) (newFullNode (some genesis)) =
        List.replicate (k + 1) (.ok (some chunks)) ∧
      chunks.length = (data.length + (genesisChunkSize : Nat) - 1) / genesisChunkSize ∧
      ∃ parts : List (List UInt8), chunks.map Base64.decodeString = parts.map some ∧
        parts.flatten = data ∧ (∀ p ∈ parts.dropLast, p.length = genesisChunkSize) ∧
        ∃ last, parts.getLast? = some last ∧ 1 ≤ last.length ∧ last.length ≤ genesisChunkSize := by
  obtain ⟨parts, hparts, hfirst⟩ := getGenesisChunks_new marshal hdata hne
  refine ⟨parts.map Base64.encodeToString, ?_, by simp [hparts.length_eq], parts, ?_,
    hparts.flatten, hparts.length_dropLast, hparts.getLast⟩
  · rw [getGenesisChunksCalls, hfirst, getGenesisChunksCalls_cached marshal rfl k,
      List.replicate_succ]
  · simp [Function.comp_def, Base64.decodeString_encodeToString]

theorem getGenesisChunks_calls_empty_object :
    ∃ chunks : List String,
      getGenesisChunksCalls (fun _ : Unit => .ok [123, 125]) 2 (newFullNode (some ())) =
        List.replicate 2 (.ok (some chunks)) ∧ chunks.length = 1 :=
  let ⟨chunks, hcalls, hlen, _⟩ :=
    getGenesisChunks_calls (fun _ : Unit => .ok [123, 125]) () [123, 125] rfl (by decide) 1
  ⟨chunks, hcalls, hlen.trans (by decide)⟩

end Rollmint.Node

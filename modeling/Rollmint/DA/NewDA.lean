import Rollmint.Types
import Mathlib.Logic.Relation
import Mathlib.Data.List.Forall2

/-!
# The DA client over the `go-da` interface

`NewDA.SubmitBlocks` serializes the blocks, passes the blobs to `DA.Submit`, and reads the DA
height from the first eight bytes of the first returned ID. `NewDA.RetrieveBlocks` lists the
IDs at a DA height, fetches their blobs and decodes each one: a blob that `proto.Unmarshal`
rejects is skipped and leaves a `nil` entry, and one that `FromProto` rejects ends the call
with `StatusError`. The errors of `GetIDs` and `Get` are dropped.

`submitBlocks_outcome` and `retrieveBlocks_outcome` give every outcome of the two calls. For
a DA that returns one ID of at least eight bytes per blob, `SubmitBlocks` panics only on the
empty batch, at `ids[0]`. `RetrieveBlocks` never reports `StatusNotFound`.

The block codec and the DA layer live outside the repository, so both are parameters: a codec
is three fallible functions, a DA is a state with `Submit`, `GetIDs` and `Get`, and the DA
contract of the spec is a predicate on it (`DA.Contract`). Blocks submitted with success come
back from their DA height, next to each other and in order, provided every blob stored at that
height which parses as a protobuf block is one `FromProto` accepts
(`retrieveBlocks_after_submitBlocks`). Without the proviso, a foreign blob at the same height
makes the whole retrieval fail (`retrieveBlocks_fails_on_foreign_blob`).
-/

namespace Rollmint

/-- Modelled from the spec: `da.StatusCode`. -/
inductive StatusCode
  | success
  | notFound
  | error
  deriving DecidableEq, Repr

/-- Modelled from the spec: `da.BaseResult`, with Go's zero values as defaults. -/
structure BaseResult where
  code : StatusCode
  message : String := ""
  daHeight : UInt64 := 0
  deriving DecidableEq, Repr

/-- Modelled from the spec: `da.ResultSubmitBlocks`. -/
structure ResultSubmitBlocks where
  baseResult : BaseResult
  deriving DecidableEq, Repr

/-- Modelled from the spec: `da.ResultRetrieveBlocks`; `none` is a `nil` entry of `Blocks`. -/
structure ResultRetrieveBlocks (β : Type) where
  baseResult : BaseResult
  blocks : List (Option β) := []
  deriving DecidableEq, Repr

abbrev Blob := List UInt8

abbrev ID := List UInt8

/-- The block codec, outside the repository: `Block.MarshalBinary`, `proto.Unmarshal` into a
`pb.Block`, and `Block.FromProto`. -/
structure BlockCodec (β Pb : Type) where
  marshalBinary : β → Except String Blob
  unmarshal : Blob → Except String Pb
  fromProto : Pb → Except String β

/-- The `go-da` interface on a DA state `σ`. `Submit` either fails and changes nothing or
returns the IDs and the new state; its proofs are not read and left out. `GetIDs` and `Get`
return a result together with an error, both of which a Go caller may read. -/
structure DA (σ : Type) where
  submit : σ → List Blob → Except String (List ID × σ)
  getIDs : σ → UInt64 → List ID × Option String
  get : σ → List ID → List Blob × Option String

/-- `NewDA`; the logger is left out. -/
structure NewDA (σ : Type) where
  da : DA σ

namespace NewDA

variable {σ β Pb : Type}

/-- The loop of `SubmitBlocks` that fills `blobs[i]`; the first marshalling error ends it. -/
def marshalBlobs (codec : BlockCodec β Pb) : List β → Option (List Blob)
  | [] => some []
  | b :: bs =>
    match codec.marshalBinary b with
    | .error _ => none
    | .ok blob => (marshalBlobs codec bs).map (blob :: ·)

/-- `NewDA.SubmitBlocks`, with the DA state before and after. `ids[0]` and
`binary.LittleEndian.Uint64` panic on an empty list of IDs and on a short first ID. -/
def submitBlocks (n : NewDA σ) (codec : BlockCodec β Pb) (st : σ) (blocks : List β) :
    σ × Exec ResultSubmitBlocks :=
  match marshalBlobs codec blocks with
  | none => (st, .ret ⟨{ code := .error, message := "failed to serialize block" }⟩)
  | some blobs =>
    match n.da.submit st blobs with
    | .error err =>
      (st, .ret ⟨{ code := .error, message := "failed to submit blocks: " ++ err }⟩)
    | .ok (ids, st') =>
      (st', do
        let id ← sliceGet ids 0
        let daHeight ← littleEndianUint64 id
        pure ⟨{ code := .success, daHeight := daHeight }⟩)

/-- One pass of the loop of `RetrieveBlocks`: a blob that `proto.Unmarshal` rejects leaves a
`nil` entry, and a `FromProto` error ends the call with its text. -/
def decodeBlob (codec : BlockCodec β Pb) (blob : Blob) : Except String (Option β) :=
  match codec.unmarshal blob with
  | .error _ => .ok none
  | .ok pb => (codec.fromProto pb).map some

/-- The loop of `RetrieveBlocks` over the blobs, in the order `Get` returned them. -/
def decodeBlobs (codec : BlockCodec β Pb) : List Blob → Except String (List (Option β))
  | [] => .ok []
  | blob :: rest =>
    match decodeBlob codec blob with
    | .error e => .error e
    | .ok b => (decodeBlobs codec rest).map (b :: ·)

theorem decodeBlobs_cons_ok {codec : BlockCodec β Pb} {blob : Blob} {o : Option β}
    (h : decodeBlob codec blob = .ok o) (rest : List Blob) :
    decodeBlobs codec (blob :: rest) = (decodeBlobs codec rest).map (o :: ·) := by
  simp only [decodeBlobs, h]

/-- `NewDA.RetrieveBlocks`. The errors of `GetIDs` and `Get` fall into empty `if` bodies. -/
def retrieveBlocks (n : NewDA σ) (codec : BlockCodec β Pb) (st : σ) (dataLayerHeight : UInt64) :
    ResultRetrieveBlocks β :=
  let ids := (n.da.getIDs st dataLayerHeight).1
  let blobs := (n.da.get st ids).1
  match decodeBlobs codec blobs with
  | .error msg => { baseResult := { code := .error, message := msg } }
  | .ok blocks =>
    { baseResult := { code := .success, daHeight := dataLayerHeight }, blocks := blocks }

end NewDA

/-! ## The DA contract -/

namespace DA

variable {σ : Type}

/-- `ids` and their `blobs` are stored at DA height `h`: `GetIDs(h)` lists the IDs next to each
other and in order, and `Get` of that list returns the blobs at the same positions. -/
def StoredAt (da : DA σ) (st : σ) (h : UInt64) (ids : List ID) (blobs : List Blob) : Prop :=
  ∃ pre post preB postB, pre.length = preB.length ∧
    da.getIDs st h = (pre ++ ids ++ post, none) ∧
    da.get st (pre ++ ids ++ post) = (preB ++ blobs ++ postB, none)

/-- A successful `Submit`, by this client or another, takes the DA from `st` to `st'`. -/
def Submitted (da : DA σ) (st st' : σ) : Prop :=
  ∃ blobs ids, da.submit st blobs = .ok (ids, st')

/-- The DA contract of the spec: a successful `Submit` stores all its blobs at one height `h`
and returns one ID per blob, each starting with `h` in little-endian order; what is stored
stays stored. -/
structure Contract (da : DA σ) : Prop where
  submit : ∀ {st blobs ids st'}, da.submit st blobs = .ok (ids, st') →
    ∃ h, ids.length = blobs.length ∧ (∀ id ∈ ids, id.take 8 = putUint64 h) ∧
      da.StoredAt st' h ids blobs
  keep : ∀ {st st'}, da.Submitted st st' →
    ∀ {h ids blobs}, da.StoredAt st h ids blobs → da.StoredAt st' h ids blobs

theorem Contract.storedAt_of_run {da : DA σ} (hda : da.Contract) {st st' : σ}
    (hrun : Relation.ReflTransGen da.Submitted st st') {h : UInt64} {ids : List ID}
    {blobs : List Blob} (hs : da.StoredAt st h ids blobs) : da.StoredAt st' h ids blobs := by
  induction hrun with
  | refl => exact hs
  | tail _ hstep ih => exact hda.keep hstep ih

theorem Contract.ids_length {da : DA σ} (hda : da.Contract) {st : σ} {blobs : List Blob}
    {ids : List ID} {st' : σ} (hsub : da.submit st blobs = .ok (ids, st')) :
    ids.length = blobs.length ∧ ∀ id ∈ ids, 8 ≤ id.length := by
  obtain ⟨h, hlen, hfirst, -⟩ := hda.submit hsub
  refine ⟨hlen, fun id hid => ?_⟩
  have := congrArg List.length (hfirst id hid)
  simp only [List.length_take, length_putUint64] at this
  omega

end DA

/-- The codec assumption: `FromProto(proto.Unmarshal(b.MarshalBinary())) = b`. -/
def BlockCodec.RoundTrip {β Pb : Type} (codec : BlockCodec β Pb) : Prop :=
  ∀ b blob, codec.marshalBinary b = .ok blob →
    ∃ pb, codec.unmarshal blob = .ok pb ∧ codec.fromProto pb = .ok b

namespace NewDA

variable {σ β Pb : Type}

/-! ## Two concrete models -/

/-- The state of `commitmentDA`: the current DA height and every stored blob with its height, in
submission order. -/
structure CommitmentState where
  height : UInt64
  entries : List (UInt64 × Blob)

/-- A DA whose ID of a blob is its height followed by the blob itself, as a commitment:
`Submit` stores the blobs of a call at the current height, `GetIDs` lists what is stored at a
height, and `Get` drops the eight height bytes. -/
def commitmentDA : DA CommitmentState where
  submit st blobs := .ok (blobs.map (putUint64 st.height ++ ·),
    { st with entries := st.entries ++ blobs.map (st.height, ·) })
  getIDs st h := ((st.entries.filter (·.1 == h)).map fun e => putUint64 e.1 ++ e.2, none)
  get _ ids := (ids.map (·.drop 8), none)

theorem commitmentDA_getIDs_append (st : CommitmentState) (new : List (UInt64 × Blob))
    (h : UInt64) :
    (commitmentDA.getIDs { st with entries := st.entries ++ new } h).1 =
      (commitmentDA.getIDs st h).1 ++
        (new.filter (·.1 == h)).map fun e => putUint64 e.1 ++ e.2 := by
  simp [commitmentDA, List.filter_append]

theorem commitmentDA_contract : commitmentDA.Contract where
  submit {st blobs ids st'} h := by
    simp only [commitmentDA, Except.ok.injEq, Prod.mk.injEq] at h
    obtain ⟨rfl, rfl⟩ := h
    refine ⟨st.height, by simp, fun id hid => ?_, ?_⟩
    · obtain ⟨blob, -, rfl⟩ := List.mem_map.mp hid
      simp
    · refine ⟨(commitmentDA.getIDs st st.height).1, [],
        (commitmentDA.getIDs st st.height).1.map (·.drop 8), [], by simp, ?_, ?_⟩
      · refine Prod.ext ?_ rfl
        rw [commitmentDA_getIDs_append, List.filter_map]
        simp [Function.comp_def]
      · simp [commitmentDA, Function.comp_def]
  keep {st st'} hs {h ids blobs} hstored := by
    obtain ⟨new, newIds, hsub⟩ := hs
    simp only [commitmentDA, Except.ok.injEq, Prod.mk.injEq] at hsub
    obtain ⟨-, rfl⟩ := hsub
    obtain ⟨pre, post, preB, postB, hlen, hids, hget⟩ := hstored
    have hids' := congrArg Prod.fst hids
    have hget' := congrArg Prod.fst hget
    simp only [commitmentDA] at hget'
    let extra := ((new.map (st.height, ·)).filter (·.1 == h)).map fun e => putUint64 e.1 ++ e.2
    refine ⟨pre, post ++ extra, preB, postB ++ extra.map (·.drop 8), hlen, ?_, ?_⟩
    · refine Prod.ext ?_ rfl
      rw [commitmentDA_getIDs_append, hids']
      simp [extra]
    · simp only [commitmentDA, ← List.append_assoc, List.map_append, hget']

/-- A block codec whose encoding is the eight little-endian bytes of the height. Every byte
string parses, and `FromProto` accepts only eight bytes. -/
def heightCodec : BlockCodec Block (List UInt8) where
  marshalBinary b := .ok (putUint64 b.height)
  unmarshal blob := .ok blob
  fromProto pb :=
    if pb.length = 8 then .ok ⟨⟨UInt64.ofNat (littleEndianValue pb)⟩⟩
    else .error "invalid block"

theorem heightCodec_roundTrip : heightCodec.RoundTrip := by
  intro b blob h
  simp only [heightCodec, Except.ok.injEq] at h
  subst h
  refine ⟨_, rfl, ?_⟩
  simp only [heightCodec, length_putUint64, if_true, littleEndianValue_putUint64,
    uint64_ofNat_toNat]
  rfl

/-! ## Submission -/

theorem submitBlocks_success {n : NewDA σ} {codec : BlockCodec β Pb} {st st' : σ}
    {blocks : List β} {r : ResultSubmitBlocks} (h : n.submitBlocks codec st blocks = (st', .ret r))
    (hsucc : r.baseResult.code = .success) :
    ∃ blobs ids id, marshalBlobs codec blocks = some blobs ∧
      n.da.submit st blobs = .ok (ids, st') ∧
      ids.head? = some id ∧ littleEndianUint64 id = .ret r.baseResult.daHeight := by
  simp only [submitBlocks] at h
  split at h
  · cases h; cases hsucc
  · rename_i blobs hblobs
    split at h
    · cases h; cases hsucc
    · rename_i ids st₁ hsub
      simp only [Prod.mk.injEq] at h
      obtain ⟨rfl, h⟩ := h
      cases ids with
      | nil => simp [sliceGet, indexOutOfRange] at h
      | cons id rest =>
        refine ⟨blobs, id :: rest, id, hblobs, hsub, rfl, ?_⟩
        simp only [sliceGet, List.getElem?_cons_zero, Exec.ret_bind] at h
        cases hle : littleEndianUint64 id with
        | ret v => rw [hle] at h; cases h; rfl
        | panic msg => rw [hle] at h; cases h
        | diverge => rw [hle] at h; cases h

theorem marshalBlobs_eq_none_iff {codec : BlockCodec β Pb} {blocks : List β} :
    marshalBlobs codec blocks = none ↔ ∃ b ∈ blocks, ∃ e, codec.marshalBinary b = .error e := by
  induction blocks with
  | nil => simp [marshalBlobs]
  | cons b bs ih =>
    cases hb : codec.marshalBinary b with
    | error e => simp [marshalBlobs, hb]
    | ok blob => simp [marshalBlobs, hb, ih]

theorem marshalBlobs_eq_some_iff {codec : BlockCodec β Pb} {blocks : List β} {blobs : List Blob} :
    marshalBlobs codec blocks = some blobs ↔
      List.Forall₂ (fun b blob => codec.marshalBinary b = .ok blob) blocks blobs := by
  constructor
  · intro h
    induction blocks generalizing blobs with
    | nil => cases h; exact .nil
    | cons b bs ih =>
      cases hb : codec.marshalBinary b with
      | error e => simp [marshalBlobs, hb] at h
      | ok blob =>
        simp only [marshalBlobs, hb, Option.map_eq_some'] at h
        obtain ⟨blobs', hbs, rfl⟩ := h
        exact .cons hb (ih hbs)
  · intro h
    induction h with
    | nil => rfl
    | cons hb _ ih => simp only [marshalBlobs, hb, ih, Option.map_some']

/-- Every outcome of `SubmitBlocks`, for a DA whose `Submit` returns one ID per blob, each at
least eight bytes long. A block that fails to marshal ends the call before `Submit`, whatever
the DA. Otherwise `Submit` gets the marshalled blocks in input order, and its error is
reported. On success, a non-empty batch reports the height in the first eight bytes of the
first ID, and the empty batch gets no ID back and panics at `ids[0]`. -/
theorem submitBlocks_outcome (n : NewDA σ) (codec : BlockCodec β Pb)
    (hids : ∀ st blobs ids st', n.da.submit st blobs = .ok (ids, st') →
      ids.length = blobs.length ∧ ∀ id ∈ ids, 8 ≤ id.length)
    (st : σ) (blocks : List β) :
    ((∃ b ∈ blocks, ∃ e, codec.marshalBinary b = .error e) →
      ∀ n' : NewDA σ, n'.submitBlocks codec st blocks =
        (st, .ret ⟨{ code := .error, message := "failed to serialize block" }⟩)) ∧
    ∀ blobs, List.Forall₂ (fun b blob => codec.marshalBinary b = .ok blob) blocks blobs →
      (∀ err, n.da.submit st blobs = .error err → n.submitBlocks codec st blocks =
        (st, .ret ⟨{ code := .error, message := "failed to submit blocks: " ++ err }⟩)) ∧
      ∀ ids st', n.da.submit st blobs = .ok (ids, st') →
        (blocks = [] → n.submitBlocks codec st blocks = (st', .panic (indexOutOfRange 0 0))) ∧
        (blocks ≠ [] → ∃ id rest, ids = id :: rest ∧ n.submitBlocks codec st blocks =
          (st', .ret ⟨{ code := .success, daHeight := UInt64.ofNat (littleEndianValue (id.take 8)) }⟩))
    := by
  refine ⟨fun hbad n' => by simp only [submitBlocks, marshalBlobs_eq_none_iff.mpr hbad],
    fun blobs hblobs => ?_⟩
  have hm := marshalBlobs_eq_some_iff.mpr hblobs
  refine ⟨fun err herr => by simp only [submitBlocks, hm, herr], fun ids st' hsub => ?_⟩
  obtain ⟨hlen, hid⟩ := hids st blobs ids st' hsub
  have hcount : ids.length = blocks.length := hlen.trans hblobs.length_eq.symm
  refine ⟨fun hnil => ?_, fun hne => ?_⟩
  · subst hnil
    obtain rfl : ids = [] := List.eq_nil_of_length_eq_zero hcount
    simp [submitBlocks, hm, hsub, sliceGet]
  · obtain ⟨id, rest, rfl⟩ := List.exists_cons_of_length_pos
      (hcount ▸ List.length_pos.mpr hne)
    refine ⟨id, rest, rfl, ?_⟩
    simp [submitBlocks, hm, hsub, sliceGet, littleEndianUint64,
      hid id (List.mem_cons_self _ _)]

theorem submitBlocks_outcome_empty_batch :
    (∀ st blobs ids st', commitmentDA.submit st blobs = .ok (ids, st') →
      ids.length = blobs.length ∧ ∀ id ∈ ids, 8 ≤ id.length) ∧
    submitBlocks ⟨commitmentDA⟩ heightCodec ⟨1, []⟩ [] =
      (⟨1, []⟩, .panic (indexOutOfRange 0 0)) :=
  ⟨fun _ _ _ _ => commitmentDA_contract.ids_length,
    (((submitBlocks_outcome ⟨commitmentDA⟩ heightCodec
      (fun _ _ _ _ => commitmentDA_contract.ids_length) ⟨1, []⟩ []).2 [] .nil).2 [] _ rfl).1 rfl⟩

/-! ## Decoding -/

theorem decodeBlobs_append_of_ok (codec : BlockCodec β Pb) {xs : List Blob}
    {os : List (Option β)} (h : decodeBlobs codec xs = .ok os) (ys : List Blob) :
    decodeBlobs codec (xs ++ ys) = (decodeBlobs codec ys).map (os ++ ·) := by
  induction xs generalizing os with
  | nil => cases h; rw [List.nil_append]; cases decodeBlobs codec ys <;> rfl
  | cons x xs ih =>
    cases hx : decodeBlob codec x with
    | error e => simp [decodeBlobs, hx] at h
    | ok o =>
      rw [decodeBlobs_cons_ok hx] at h
      cases hxs : decodeBlobs codec xs <;> rw [hxs] at h <;> cases h
      rw [List.cons_append, decodeBlobs_cons_ok hx, ih hxs]
      cases decodeBlobs codec ys <;> rfl

/-- The entry that the loop of `RetrieveBlocks` leaves for one blob: `nil` when
`proto.Unmarshal` rejects it, and otherwise the block that `FromProto` makes of the proto. -/
def EntryOf (codec : BlockCodec β Pb) (blob : Blob) (o : Option β) : Prop :=
  (∃ e, codec.unmarshal blob = .error e) ∧ o = none ∨
    ∃ pb b, codec.unmarshal blob = .ok pb ∧ codec.fromProto pb = .ok b ∧ o = some b

theorem decodeBlob_eq_ok_iff {codec : BlockCodec β Pb} {blob : Blob} {o : Option β} :
    decodeBlob codec blob = .ok o ↔ EntryOf codec blob o := by
  unfold decodeBlob EntryOf
  cases codec.unmarshal blob with
  | error e => simp [eq_comm]
  | ok pb => cases hp : codec.fromProto pb <;> simp [Except.map, hp, eq_comm]

theorem decodeBlob_eq_error_iff {codec : BlockCodec β Pb} {blob : Blob} {e : String} :
    decodeBlob codec blob = .error e ↔
      ∃ pb, codec.unmarshal blob = .ok pb ∧ codec.fromProto pb = .error e := by
  unfold decodeBlob
  cases codec.unmarshal blob with
  | error e => simp
  | ok pb => cases hp : codec.fromProto pb <;> simp [Except.map, hp]

theorem decodeBlobs_outcome (codec : BlockCodec β Pb) (blobs : List Blob) :
    (∃ os, decodeBlobs codec blobs = .ok os ∧ List.Forall₂ (EntryOf codec) blobs os) ∨
      ∃ e, decodeBlobs codec blobs = .error e ∧
        ∃ blob ∈ blobs, ∃ pb, codec.unmarshal blob = .ok pb ∧ codec.fromProto pb = .error e := by
  induction blobs with
  | nil => exact .inl ⟨[], rfl, .nil⟩
  | cons blob rest ih =>
    cases hb : decodeBlob codec blob with
    | error e =>
      obtain ⟨pb, hpb, he⟩ := decodeBlob_eq_error_iff.mp hb
      exact .inr ⟨e, by simp only [decodeBlobs, hb], blob, List.mem_cons_self _ _, pb, hpb, he⟩
    | ok o =>
      rw [decodeBlobs_cons_ok hb]
      rcases ih with ⟨os, hos, hrel⟩ | ⟨e, he, bad, hbad, pb, hpb, hrej⟩
      · exact .inl ⟨o :: os, by rw [hos]; rfl, .cons (decodeBlob_eq_ok_iff.mp hb) hrel⟩
      · exact .inr ⟨e, by rw [he]; rfl, bad, List.mem_cons_of_mem _ hbad, pb, hpb, hrej⟩

theorem decodeBlobs_ok (codec : BlockCodec β Pb) (blobs : List Blob)
    (h : ∀ blob ∈ blobs, ∀ pb, codec.unmarshal blob = .ok pb → ∃ b, codec.fromProto pb = .ok b) :
    ∃ os, decodeBlobs codec blobs = .ok os := by
  rcases decodeBlobs_outcome codec blobs with ⟨os, hos, -⟩ | ⟨e, -, blob, hblob, pb, hpb, hrej⟩
  · exact ⟨os, hos⟩
  · obtain ⟨b, hb⟩ := h blob hblob pb hpb
    cases hrej.symm.trans hb

/-! ## What `RetrieveBlocks` returns -/

/-- Every outcome of `RetrieveBlocks(h)`. It reads the IDs and blobs that `GetIDs` and `Get`
return and never their errors, and it never reports `StatusNotFound`. It succeeds at height
`h` with one entry per blob, in the order `Get` returned them and `nil` for a blob that
`proto.Unmarshal` rejects, unless `FromProto` rejects a parsed blob, whose error it returns. -/
theorem retrieveBlocks_outcome (n : NewDA σ) (codec : BlockCodec β Pb) (st : σ) (h : UInt64) :
    (∃ os, List.Forall₂ (EntryOf codec) (n.da.get st (n.da.getIDs st h).1).1 os ∧
      n.retrieveBlocks codec st h =
        { baseResult := { code := .success, daHeight := h }, blocks := os }) ∨
    ∃ e, (∃ blob ∈ (n.da.get st (n.da.getIDs st h).1).1, ∃ pb,
        codec.unmarshal blob = .ok pb ∧ codec.fromProto pb = .error e) ∧
      n.retrieveBlocks codec st h = { baseResult := { code := .error, message := e } } := by
  rcases decodeBlobs_outcome codec (n.da.get st (n.da.getIDs st h).1).1 with
    ⟨os, hos, hrel⟩ | ⟨e, he, hbad⟩
  · exact .inl ⟨os, hrel, by simp only [retrieveBlocks, hos]⟩
  · exact .inr ⟨e, hbad, by simp only [retrieveBlocks, he]⟩

/-- `GetIDs` and `Get` fail, and `proto.Unmarshal` rejects the one blob they still return:
`RetrieveBlocks(5)` reads neither error and reports `StatusSuccess`, with a `nil` entry. -/
theorem retrieveBlocks_ignores_da_errors :
    retrieveBlocks ⟨⟨fun _ _ => .error "", fun _ _ => ([[0]], some "blob: not found"),
        fun _ _ => ([[7]], some "blob: not found")⟩⟩
      { heightCodec with unmarshal := fun _ => .error "unexpected EOF" } () 5 =
      { baseResult := { code := .success, daHeight := 5 }, blocks := [none] } := rfl

theorem decodeBlobs_marshalBlobs {codec : BlockCodec β Pb} (hcodec : codec.RoundTrip) :
    ∀ {blocks : List β} {blobs : List Blob}, marshalBlobs codec blocks = some blobs →
      decodeBlobs codec blobs = .ok (blocks.map some) := by
  intro blocks blobs h
  induction marshalBlobs_eq_some_iff.mp h with
  | nil => rfl
  | cons hb _ ih =>
    obtain ⟨pb, hun, hfrom⟩ := hcodec _ _ hb
    rw [decodeBlobs_cons_ok (decodeBlob_eq_ok_iff.mpr (.inr ⟨pb, _, hun, hfrom, rfl⟩)),
      ih (marshalBlobs_eq_some_iff.mpr ‹_›)]
    rfl

/-! ## The round trip -/

/-- Blocks that `SubmitBlocks` reports submitted at DA height `h` come back from
`RetrieveBlocks(h)`, after any further submissions, next to each other and in submission
order, provided every blob stored at `h` that parses as a protobuf block is accepted by
`FromProto`. -/
theorem retrieveBlocks_after_submitBlocks (n : NewDA σ) (codec : BlockCodec β Pb)
    (hcodec : codec.RoundTrip) (hda : n.da.Contract) {st st' st'' : σ} {blocks : List β}
    {r : ResultSubmitBlocks} (hsub : n.submitBlocks codec st blocks = (st', .ret r))
    (hsucc : r.baseResult.code = .success)
    (hrun : Relation.ReflTransGen n.da.Submitted st' st'')
    (hparsed : ∀ blob ∈ (n.da.get st'' (n.da.getIDs st'' r.baseResult.daHeight).1).1, ∀ pb,
      codec.unmarshal blob = .ok pb → ∃ b, codec.fromProto pb = .ok b) :
    (n.retrieveBlocks codec st'' r.baseResult.daHeight).baseResult.code = .success ∧
      (n.retrieveBlocks codec st'' r.baseResult.daHeight).baseResult.daHeight =
        r.baseResult.daHeight ∧
      blocks.map some <:+: (n.retrieveBlocks codec st'' r.baseResult.daHeight).blocks := by
  obtain ⟨blobs, ids, id, hblobs, hsubmit, hhead, hle⟩ := submitBlocks_success hsub hsucc
  obtain ⟨h, -, hfirst, hstored⟩ := hda.submit hsubmit
  have hheight : r.baseResult.daHeight = h := by
    rw [littleEndianUint64_of_take (hfirst id (List.mem_of_mem_head? hhead))] at hle
    cases hle; rfl
  obtain ⟨pre, post, preB, postB, -, hids, hget⟩ := hda.storedAt_of_run hrun hstored
  simp only [hheight, hids, hget] at hparsed
  obtain ⟨oPre, hPre⟩ := decodeBlobs_ok codec preB fun b hb =>
    hparsed b (List.mem_append_left _ (List.mem_append_left _ hb))
  obtain ⟨oPost, hPost⟩ := decodeBlobs_ok codec postB fun b hb =>
    hparsed b (List.mem_append_right _ hb)
  have hdecode : decodeBlobs codec (preB ++ blobs ++ postB) =
      .ok (oPre ++ blocks.map some ++ oPost) := by
    rw [List.append_assoc, decodeBlobs_append_of_ok codec hPre,
      decodeBlobs_append_of_ok codec (decodeBlobs_marshalBlobs hcodec hblobs), hPost]
    simp [Except.map, List.append_assoc]
  have hret : n.retrieveBlocks codec st'' h =
      { baseResult := { code := .success, daHeight := h },
        blocks := oPre ++ blocks.map some ++ oPost } := by
    simp only [retrieveBlocks, hids, hget, hdecode]
  rw [hheight, hret]
  exact ⟨rfl, rfl, oPre, oPost, rfl⟩

theorem retrieveBlocks_after_submitBlocks_own_blobs :
    (retrieveBlocks ⟨commitmentDA⟩ heightCodec (⟨1, [(1, putUint64 5)]⟩ : CommitmentState)
        1).baseResult.code = .success ∧
      (retrieveBlocks ⟨commitmentDA⟩ heightCodec (⟨1, [(1, putUint64 5)]⟩ : CommitmentState)
        1).baseResult.daHeight = 1 ∧
      [some (⟨⟨5⟩⟩ : Block)] <:+:
        (retrieveBlocks ⟨commitmentDA⟩ heightCodec
          (⟨1, [(1, putUint64 5)]⟩ : CommitmentState) 1).blocks :=
  @retrieveBlocks_after_submitBlocks _ _ _ ⟨commitmentDA⟩ heightCodec heightCodec_roundTrip
    commitmentDA_contract ⟨1, []⟩ _ _ [⟨⟨5⟩⟩] ⟨{ code := .success, daHeight := 1 }⟩
    rfl rfl .refl
    (by
      intro blob hblob pb hpb
      simp only [heightCodec, Except.ok.injEq] at hpb
      subst hpb
      simp [commitmentDA] at hblob
      subst hblob
      exact ⟨⟨⟨5⟩⟩, rfl⟩)


/-! ## A foreign blob at the same height -/

/-- A foreign three-byte blob already sits at DA height `1` when block `5` is submitted there.
`FromProto` rejects it, and `RetrieveBlocks(1)` fails as a whole, so the round trip does not
hold in every DA state. -/
theorem retrieveBlocks_fails_on_foreign_blob :
    ¬ ∀ (σ β Pb : Type) (n : NewDA σ) (codec : BlockCodec β Pb), codec.RoundTrip →
      n.da.Contract → ∀ (st st' st'' : σ) (blocks : List β) (r : ResultSubmitBlocks),
        blocks ≠ [] → n.submitBlocks codec st blocks = (st', .ret r) →
        r.baseResult.code = .success → Relation.ReflTransGen n.da.Submitted st' st'' →
        (n.retrieveBlocks codec st'' r.baseResult.daHeight).baseResult.code = .success ∧
          (blocks.map some).Sublist (n.retrieveBlocks codec st'' r.baseResult.daHeight).blocks := by
  intro h
  have := (h CommitmentState Block (List UInt8) ⟨commitmentDA⟩ heightCodec heightCodec_roundTrip
    commitmentDA_contract ⟨1, [(1, [1, 2, 3])]⟩ _ _ [⟨⟨5⟩⟩] _ (List.cons_ne_nil _ _) rfl
    rfl
    .refl).1
  revert this
  decide

end NewDA

end Rollmint

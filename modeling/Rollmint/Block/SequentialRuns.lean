import Rollmint.Block.ConcurrentRemove

/-!
# PendingBlocks with one call at a time

Here no two calls overlap: each step of the node is a store append, a whole
`getPendingBlocks` call, a whole `removeSubmittedBlocks` call on a prefix of a list handed out
in this process, or a restart. A ghost field records the last height a `SetMetadata` stored.
Every such step is a run of the interleaved system (`SeqStep.simulate`), so all that holds of
reachable worlds holds here.

The first `getPendingBlocks` after a restart swaps in exactly the last height stored, or
keeps `0` when none was, since `ParseUint` reads back what `FormatUint` wrote and the
`CompareAndSwap(0, x)` of `loadFromStore` meets `0`. When every write succeeds, the effective
height, the in-memory one or the persisted one while the former is `0`, never decreases across
restarts (`getPendingBlocks_loads_last_written`), and `getPendingBlocks` hands out exactly
the blocks above the last height stored (`getPendingBlocks_above_last_written`).
Removing exactly the blocks an error-free `getPendingBlocks` returned empties the queue
(`removeSubmittedBlocks_drains`).
-/

namespace Rollmint.PendingBlocks

open Strconv

/-- The height a `removeSubmittedBlocks` call stores under the key: the last height of its
argument, when its `CompareAndSwap` ran and its `SetMetadata` succeeded. -/
def storedHeight (pb : PendingBlocks) (blocks : List Block) (written : Bool) : Option UInt64 :=
  match removeEnter pb blocks with
  | some (.loaded latest _) => if written then some latest else none
  | _ => none

/-- A node whose calls run one at a time, and the last height stored under the key. -/
structure SeqWorld where
  world : World
  lastWritten : Option UInt64

def SeqWorld.init : SeqWorld := ⟨World.init, none⟩

/-- A step of the node when no two calls overlap. `writes` says which `SetMetadata` outcomes
occur. -/
inductive SeqStep (writes : Bool → Prop) : SeqWorld → SeqWorld → Prop
  | append {s b} : b.height.toNat = s.world.pb.store.height.toNat + 1 →
      SeqStep writes s
        { s with world := { s.world with pb := { s.world.pb with
            store := s.world.pb.store.append b } } }
  | get {s bs e} : (getPendingBlocks s.world.pb).2 = .ret (bs, e) →
      SeqStep writes s
        { s with world := { s.world with
            pb := (getPendingBlocks s.world.pb).1
            returned := bs :: s.world.returned } }
  | remove {s l blocks written} : l ∈ s.world.returned → blocks <+: l → writes written →
      SeqStep writes s
        ⟨{ s.world with
            pb := removeSubmittedBlocks s.world.pb blocks written
            acked := blocks :: s.world.acked },
          (storedHeight s.world.pb blocks written).or s.lastWritten⟩
  | restart (s) : SeqStep writes s { s with world := s.world.restart }

/-- The states some sequential run of a fresh node reaches. -/
def SeqReachable (writes : Bool → Prop) (s : SeqWorld) : Prop :=
  Relation.ReflTransGen (SeqStep writes) SeqWorld.init s

/-! ## Sequential steps are runs of the interleaved system -/

theorem LiveStep.solo {pb pb' : PendingBlocks} {c : Call} {next : Option Call} {ev : Event}
    (returned acked : List (List Block)) (h : CallStep pb c pb' next ev) :
    LiveStep ⟨pb, [c], returned, acked⟩
      ⟨pb', next.toList, ev.returnedLists ++ returned, acked⟩ := by
  simpa only [List.nil_append, List.append_nil] using
    @LiveStep.advance ⟨pb, [c], returned, acked⟩ [] [] c pb' next ev rfl h

theorem getPendingBlocks_run {pb : PendingBlocks} {returned acked : List (List Block)}
    {bs : List Block} {e : Option PendingError} (h : (getPendingBlocks pb).2 = .ret (bs, e)) :
    Relation.ReflTransGen LiveStep ⟨pb, [], returned, acked⟩
      ⟨(getPendingBlocks pb).1, [], bs :: returned, acked⟩ := by
  obtain ⟨store, lsh⟩ := pb
  have hcall := LiveStep.callGet ⟨⟨store, lsh⟩, [], returned, acked⟩
  by_cases h0 : lsh = 0
  · subst h0
    cases hr : readLastSubmitted store with
    | error err =>
      rw [getPendingBlocks_of_load_error rfl hr] at h ⊢
      cases h
      exact (Relation.ReflTransGen.single hcall).tail (LiveStep.solo _ _ (.loadFailed hr))
    | ok v =>
      rw [getPendingBlocks_of_load_ok rfl hr] at h ⊢
      have hcol := LiveStep.solo returned acked
        (@CallStep.collect ⟨store, v.getD 0⟩ _ _ _ h)
      cases v with
      | none =>
        exact (((Relation.ReflTransGen.single hcall).tail (LiveStep.solo _ _ (.loadAbsent hr))).tail
          (LiveStep.solo _ _ (.reload _))).tail hcol
      | some x =>
        have hswap := LiveStep.solo returned acked (.swap ⟨store, 0⟩ x)
        rw [compareAndSwap_self] at hswap
        exact ((((Relation.ReflTransGen.single hcall).tail
          (LiveStep.solo _ _ (.loadFound hr))).tail hswap).tail
          (LiveStep.solo _ _ (.reload _))).tail hcol
  · rw [getEnter, if_neg h0] at hcall
    rw [getPendingBlocks_of_ne_zero h0] at h ⊢
    exact (Relation.ReflTransGen.single hcall).tail (LiveStep.solo _ _ (.collect h))

theorem removeSubmittedBlocks_live_run {pb : PendingBlocks} {returned acked : List (List Block)}
    {l blocks : List Block} (hl : l ∈ returned) (hpre : blocks <+: l) (written : Bool) :
    Relation.ReflTransGen LiveStep ⟨pb, [], returned, acked⟩
      ⟨removeSubmittedBlocks pb blocks written, [], returned, blocks :: acked⟩ := by
  have hcall := @LiveStep.callRemove ⟨pb, [], returned, acked⟩ l blocks hl hpre
  cases h : removeEnter pb blocks with
  | none =>
    rw [h] at hcall
    rw [removeSubmittedBlocks_of_removeEnter_none h]
    exact .single hcall
  | some pc =>
    obtain ⟨latest, rfl, -, -⟩ := removeEnter_lastHeight h
    obtain ⟨pb₁, hcas, hwrite⟩ := removeSubmittedBlocks_steps h written
    rw [h] at hcall
    exact ((Relation.ReflTransGen.single hcall).tail (LiveStep.solo _ _ hcas)).tail
      (LiveStep.solo _ _ hwrite)

theorem SeqStep.simulate {writes : Bool → Prop} {s s' : SeqWorld} (h : SeqStep writes s s')
    (hs : s.world.calls = []) :
    Relation.ReflTransGen Step s.world s'.world ∧ s'.world.calls = [] := by
  obtain ⟨⟨pb, calls, returned, acked⟩, lastWritten⟩ := s
  obtain rfl : calls = [] := hs
  cases h with
  | append hb => exact ⟨.single (.live (.append hb)), rfl⟩
  | get h => exact ⟨(getPendingBlocks_run h).mono fun _ _ => Step.live, rfl⟩
  | remove hl hpre _ =>
    exact ⟨(removeSubmittedBlocks_live_run hl hpre _).mono fun _ _ => Step.live, rfl⟩
  | restart => exact ⟨.single (.restart _), rfl⟩

theorem SeqReachable.reachable {writes : Bool → Prop} {s : SeqWorld}
    (h : SeqReachable writes s) : Reachable s.world ∧ s.world.calls = [] := by
  induction h with
  | refl => exact ⟨.refl, rfl⟩
  | tail _ hs ih =>
    obtain ⟨hr, hc⟩ := ih
    obtain ⟨hrun, hc'⟩ := hs.simulate hc
    exact ⟨hr.trans hrun, hc'⟩

/-! ## The invariant of sequential runs -/

/-- The metadata a sequence of stores leaves: the decimal text of the last height, or none. -/
def metadataOf : Option UInt64 → Except StoreError (List UInt8)
  | none => .error .notFound
  | some v => .ok (formatUint v)

theorem readLastSubmitted_of_metadataOf {s : Store} {v : Option UInt64}
    (h : s.getMetadata lastSubmittedHeightKey = metadataOf v) : readLastSubmitted s = .ok v := by
  cases v <;> simp [readLastSubmitted, h, metadataOf, parseUint_formatUint]

theorem persistedHeight_of_metadataOf {s : Store} {v : Option UInt64}
    (h : s.getMetadata lastSubmittedHeightKey = metadataOf v) : persistedHeight s = v := by
  cases v <;> simp [persistedHeight, h, metadataOf, parseUint_formatUint, Except.toOption]

theorem getPendingBlocks_fst {pb : PendingBlocks} {v : Option UInt64}
    (h : pb.store.getMetadata lastSubmittedHeightKey = metadataOf v) :
    (getPendingBlocks pb).1 =
      if pb.lastSubmittedHeight = 0 then { pb with lastSubmittedHeight := v.getD 0 } else pb := by
  split
  · rw [getPendingBlocks_of_load_ok ‹_› (readLastSubmitted_of_metadataOf h)]
  · rw [getPendingBlocks_of_ne_zero ‹_›]

theorem removeSubmittedBlocks_stored (pb : PendingBlocks) (blocks : List Block)
    (written : Bool) :
    (removeSubmittedBlocks pb blocks written = pb ∧ storedHeight pb blocks written = none) ∨
    ∃ latest, pb.lastSubmittedHeight < latest ∧
      (removeSubmittedBlocks pb blocks written).lastSubmittedHeight = latest ∧
      (removeSubmittedBlocks pb blocks written).store =
        (if written then pb.store.setMetadata lastSubmittedHeightKey (formatUint latest)
          else pb.store) ∧
      storedHeight pb blocks written = if written then some latest else none := by
  cases h : removeEnter pb blocks with
  | none =>
    exact .inl ⟨removeSubmittedBlocks_of_removeEnter_none h written, by simp [storedHeight, h]⟩
  | some pc =>
    obtain ⟨latest, rfl, hlt, -⟩ := removeEnter_lastHeight h
    rw [removeSubmittedBlocks_of_removeEnter_some h]
    exact .inr ⟨latest, hlt, by cases written <;> rfl, by cases written <;> rfl,
      by simp [storedHeight, h]⟩

/-- The invariant of sequential runs: no call in flight, the metadata holds the last height
stored, the in-memory height is `0` until `getPendingBlocks` ran in this process, and from
then on it is at least the last height stored. -/
structure SeqInv (s : SeqWorld) : Prop where
  calls : s.world.calls = []
  metadata : s.world.pb.store.getMetadata lastSubmittedHeightKey = metadataOf s.lastWritten
  idle : s.world.returned = [] → s.world.pb.lastSubmittedHeight = 0
  written_le : s.world.returned ≠ [] →
    (s.lastWritten.getD 0).toNat ≤ s.world.pb.lastSubmittedHeight.toNat

theorem SeqInv.init : SeqInv SeqWorld.init :=
  ⟨rfl, rfl, fun _ => rfl, fun h => absurd rfl h⟩

theorem SeqInv.step {writes : Bool → Prop} {s s' : SeqWorld} (hi : SeqInv s)
    (h : SeqStep writes s s') : SeqInv s' := by
  cases h with
  | append => exact ⟨hi.calls, by simpa using hi.metadata, hi.idle, hi.written_le⟩
  | get _ =>
    rw [getPendingBlocks_fst hi.metadata]
    refine ⟨hi.calls, ?_, by simp, fun _ => ?_⟩ <;> split
    · exact hi.metadata
    · exact hi.metadata
    · exact le_rfl
    · exact hi.written_le fun h' => ‹¬_› (hi.idle h')
  | @remove l blocks written hl _ _ =>
    have hne : s.world.returned ≠ [] := List.ne_nil_of_mem hl
    rcases removeSubmittedBlocks_stored s.world.pb blocks written with
      ⟨hpb, hst⟩ | ⟨latest, hlt, hlsh, hstore, hst⟩
    · refine ⟨hi.calls, ?_, fun h' => absurd h' hne, fun _ => ?_⟩ <;>
        simp only [hpb, hst, Option.none_or]
      · exact hi.metadata
      · exact hi.written_le hne
    · have hle := hi.written_le hne
      have hlt' := uint64_lt_iff.mp hlt
      refine ⟨hi.calls, ?_, fun h' => absurd h' hne, fun _ => ?_⟩ <;>
        simp only [hlsh, hstore, hst] <;> cases written
      · exact hi.metadata
      · simp [metadataOf]
      · simp only [Bool.false_eq_true, if_false, Option.none_or]; omega
      · simp
  | restart => exact ⟨rfl, hi.metadata, fun _ => rfl, fun h' => absurd rfl h'⟩

theorem SeqReachable.inv {writes : Bool → Prop} {s : SeqWorld} (h : SeqReachable writes s) :
    SeqInv s := by
  induction h with
  | refl => exact SeqInv.init
  | tail _ hs ih => exact ih.step hs

theorem SeqStep.lastWritten_le {writes : Bool → Prop} {s s' : SeqWorld} (hi : SeqInv s)
    (h : SeqStep writes s s') : (s.lastWritten.getD 0).toNat ≤ (s'.lastWritten.getD 0).toNat := by
  cases h with
  | @remove l blocks written hl _ _ =>
    have hle := hi.written_le (List.ne_nil_of_mem hl)
    rcases removeSubmittedBlocks_stored s.world.pb blocks written with
      ⟨-, hst⟩ | ⟨latest, hlt, -, -, hst⟩
    · simp [hst]
    · have := uint64_lt_iff.mp hlt
      rw [hst]
      cases written
      · simp
      · simp only [if_true, Option.or_some, Option.getD_some]; omega
  | _ => exact le_rfl

/-! ## When every write succeeds -/

/-- The in-memory height, or the persisted one while the former is `0`. -/
def effectiveHeight (pb : PendingBlocks) : UInt64 :=
  if pb.lastSubmittedHeight = 0 then (persistedHeight pb.store).getD 0 else pb.lastSubmittedHeight

/-- With every write successful, a nonzero in-memory height is the last height stored. -/
def Mirrors (s : SeqWorld) : Prop :=
  s.world.pb.lastSubmittedHeight ≠ 0 → s.lastWritten = some s.world.pb.lastSubmittedHeight

theorem Mirrors.step {s s' : SeqWorld} (hi : SeqInv s) (hm : Mirrors s)
    (h : SeqStep (· = true) s s') : Mirrors s' := by
  cases h with
  | append => exact hm
  | get _ =>
    intro h0
    revert h0
    rw [getPendingBlocks_fst hi.metadata]
    split
    · cases hw : s.lastWritten <;> simp
    · exact hm
  | @remove l blocks written _ _ hw =>
    subst hw
    rcases removeSubmittedBlocks_stored s.world.pb blocks true with
      ⟨hpb, hst⟩ | ⟨latest, -, hlsh, -, hst⟩
    · simpa only [Mirrors, hpb, hst, Option.none_or] using hm
    · intro _
      simp only [hlsh, hst, if_true, Option.or_some]
  | restart => exact fun h0 => absurd rfl h0

theorem SeqReachable.mirrors {s : SeqWorld} (h : SeqReachable (· = true) s) : Mirrors s := by
  induction h with
  | refl => exact fun h0 => absurd rfl h0
  | tail hr hst ih => exact ih.step (SeqReachable.inv hr) hst

theorem SeqInv.effectiveHeight_eq {s : SeqWorld} (hi : SeqInv s) (hm : Mirrors s) :
    effectiveHeight s.world.pb = s.lastWritten.getD 0 := by
  unfold effectiveHeight
  split
  · rw [persistedHeight_of_metadataOf hi.metadata]
  · rw [hm ‹_›, Option.getD_some]

/-- Sequential runs through any number of restarts. Until `getPendingBlocks` runs after a
restart, the in-memory height is `0`, and that call sets it to the last height a
`SetMetadata` stored, or keeps `0` when none was stored. When every write succeeds, the
effective height never decreases. -/
theorem getPendingBlocks_loads_last_written :
    (∀ s, SeqReachable (fun _ => True) s → s.world.returned = [] →
      s.world.pb.lastSubmittedHeight = 0 ∧
        (getPendingBlocks s.world.pb).1.lastSubmittedHeight = s.lastWritten.getD 0) ∧
    (∀ s s', SeqReachable (· = true) s → Relation.ReflTransGen (SeqStep (· = true)) s s' →
      effectiveHeight s.world.pb ≤ effectiveHeight s'.world.pb) := by
  refine ⟨fun s hs hret => ?_, fun s s' hs hrun => ?_⟩
  · have hi := hs.inv
    have h0 := hi.idle hret
    rw [getPendingBlocks_fst hi.metadata, if_pos h0]
    exact ⟨h0, rfl⟩
  · have hlw : (s.lastWritten.getD 0).toNat ≤ (s'.lastWritten.getD 0).toNat := by
      induction hrun with
      | refl => exact le_rfl
      | tail hmid hst ih => exact ih.trans (hst.lastWritten_le (SeqReachable.inv (hs.trans hmid)))
    have hs' : SeqReachable (· = true) s' := hs.trans hrun
    rw [hs.inv.effectiveHeight_eq hs.mirrors, hs'.inv.effectiveHeight_eq hs'.mirrors]
    exact uint64_le_iff.mpr hlw

/-- A fresh node stores block `1`, hands it out, has it acknowledged with a successful write,
and restarts: the next call loads the height `1` it wrote. -/
theorem getPendingBlocks_loads_last_written_restarted :
    let s : SeqWorld := ⟨restartedWorld, some 1⟩
    SeqReachable (fun _ => True) s ∧ s.world.pb.lastSubmittedHeight = 0 ∧
      (getPendingBlocks s.world.pb).1.lastSubmittedHeight = s.lastWritten.getD 0 :=
  have hs : SeqReachable (fun _ => True) ⟨restartedWorld, some 1⟩ :=
    (((Relation.ReflTransGen.single (SeqStep.append (s := SeqWorld.init) (b := ⟨⟨1⟩⟩) rfl)).tail
      (@SeqStep.get _ _ [⟨⟨1⟩⟩] none (by decide))).tail
      (@SeqStep.remove _ _ [⟨⟨1⟩⟩] [⟨⟨1⟩⟩] true (List.mem_singleton_self _)
        (List.prefix_refl _) trivial)).tail
      (SeqStep.restart _)
  ⟨hs, getPendingBlocks_loads_last_written.1 _ hs rfl⟩

theorem SeqReachable.getPendingBlocks_snd {s : SeqWorld} (hs : SeqReachable (· = true) s) :
    (getPendingBlocks s.world.pb).2 = collectPending s.world.pb.store (s.lastWritten.getD 0) ∧
      (s.lastWritten.getD 0).toNat ≤ s.world.pb.store.height.toNat := by
  have hi := hs.inv
  refine ⟨?_, ?_⟩
  · by_cases h0 : s.world.pb.lastSubmittedHeight = 0
    · rw [getPendingBlocks_of_load_ok h0 (readLastSubmitted_of_metadataOf hi.metadata)]
    · rw [getPendingBlocks_of_ne_zero h0, hs.mirrors h0, Option.getD_some]
  · cases hlw : s.lastWritten with
    | none => exact Nat.zero_le _
    | some v =>
      exact (readLastSubmitted_settled hs.reachable.1.inv.persisted
        (readLastSubmitted_of_metadataOf (hlw ▸ hi.metadata))).1

/-- Submitting everything a call handed out empties the queue. When `getPendingBlocks` reports
no error, `removeSubmittedBlocks` of the blocks it returned moves the last submitted height to
`store.Height()`, whether or not its `SetMetadata` succeeds; then `isEmpty` holds and the next
`getPendingBlocks` returns no block and no error. -/
theorem removeSubmittedBlocks_drains {pb pb' : PendingBlocks} {bs : List Block}
    (hs : pb.store.Consistent) (hget : getPendingBlocks pb = (pb', .ret (bs, none)))
    (written : Bool) :
    (removeSubmittedBlocks pb' bs written).lastSubmittedHeight = pb.store.height ∧
      isEmpty (removeSubmittedBlocks pb' bs written) = true ∧
      (getPendingBlocks (removeSubmittedBlocks pb' bs written)).2 = .ret ([], none) := by
  obtain ⟨hstore, hcol⟩ := getPendingBlocks_ret_none hget
  rcases collectPending_ret_none hcol with ⟨rfl, hL⟩ | ⟨hlt, b, hlast, hb⟩
  · have hagain := congrArg Prod.snd (getPendingBlocks_getPendingBlocks pb)
    rw [hget] at hagain
    exact ⟨hL, by simp [removeSubmittedBlocks, isEmpty, hstore, hL], hagain⟩
  · have hbH : b.height = pb.store.height := hs.height_eq _ _ hb
    have hrm : (removeSubmittedBlocks pb' bs written).lastSubmittedHeight = pb.store.height ∧
        (removeSubmittedBlocks pb' bs written).store.height = pb.store.height := by
      cases written <;> simp [removeSubmittedBlocks, hlast, hbH, hlt, hstore]
    have hH0 : pb.store.height ≠ 0 := fun h0 => by
      have := uint64_lt_iff.mp hlt; rw [h0] at this; exact absurd this (Nat.not_lt_zero _)
    refine ⟨hrm.1, by simp [isEmpty, hrm.1, hrm.2], ?_⟩
    rw [getPendingBlocks_of_ne_zero (hrm.1 ▸ hH0), hrm.1]
    simp [collectPending, hrm.2]

theorem removeSubmittedBlocks_drains_one_block :
    let pb : PendingBlocks := ⟨World.init.pb.store.append ⟨⟨1⟩⟩, 0⟩
    (removeSubmittedBlocks pb [⟨⟨1⟩⟩] true).lastSubmittedHeight = pb.store.height ∧
      isEmpty (removeSubmittedBlocks pb [⟨⟨1⟩⟩] true) = true ∧
      (getPendingBlocks (removeSubmittedBlocks pb [⟨⟨1⟩⟩] true)).2 = .ret ([], none) :=
  removeSubmittedBlocks_drains (Inv.init.store.append (b := ⟨⟨1⟩⟩) rfl).1 rfl true

end Rollmint.PendingBlocks

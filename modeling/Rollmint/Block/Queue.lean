import Rollmint.Block.SequentialRuns

/-!
# What PendingBlocks is for: a queue of unconfirmed heights

Stated without the store, `PendingBlocks` keeps the heights of the blocks that are stored but
not yet confirmed by the DA layer: those above `submitted`, up to `height`. Reading the queue
shows these heights in order, confirming up to a height drops every height up to it, storing a
block adds the next height, and a restart changes none of it.

With calls one at a time and every `SetMetadata` successful, the model refines this queue.
`QueueOf` relates a sequential world to the queue it stands for: confirmed up to the last height
stored, and as high as the store. From every state of such a run, every step is a step of the
queue, and each list `getPendingBlocks` hands out shows the pending heights
(`SeqStep.simulate_queue`).
-/

namespace Rollmint.PendingBlocks

/-- The heights of the blocks: confirmed by the DA layer up to `submitted`, stored up to
`height`. -/
structure Queue where
  submitted : Nat
  height : Nat
  submitted_le : submitted ≤ height

namespace Queue

def empty : Queue := ⟨0, 0, le_rfl⟩

/-- The heights still to be confirmed, in order. -/
def pending (q : Queue) : List Nat := List.range' (q.submitted + 1) (q.height - q.submitted)

/-- Storing the next block. -/
def append (q : Queue) : Queue := ⟨q.submitted, q.height + 1, Nat.le_succ_of_le q.submitted_le⟩

/-- Confirming every height up to a stored one. -/
def ack (q : Queue) (upTo : Nat) (h : upTo ≤ q.height) : Queue :=
  ⟨max q.submitted upTo, q.height, max_le q.submitted_le h⟩

/-- A step of the queue, with what its user sees: the pending heights, when it is read. -/
inductive Step : Queue → Option (List Nat) → Queue → Prop
  | append (q : Queue) : Step q none q.append
  | read (q : Queue) : Step q (some q.pending) q
  | ack (q : Queue) (upTo : Nat) (h : upTo ≤ q.height) : Step q none (q.ack upTo h)
  | stutter (q : Queue) : Step q none q

end Queue

/-- The queue a sequential world stands for: confirmed up to the last height stored, and as
high as the store. -/
def QueueOf (s : SeqWorld) (q : Queue) : Prop :=
  q.submitted = (s.lastWritten.getD 0).toNat ∧ q.height = s.world.pb.store.height.toNat

theorem queueOf_init : QueueOf SeqWorld.init Queue.empty := ⟨rfl, rfl⟩

/-! ## The model's side of each step -/

theorem map_height_of_reads {s : Store} (hs : s.Consistent) {i : Nat} {bs : List Block}
    (hi : i + bs.length ≤ 2 ^ 64)
    (h : ∀ t (ht : t < bs.length), s.getBlock (UInt64.ofNat (i + t)) = .ok (bs.get ⟨t, ht⟩)) :
    bs.map (·.height.toNat) = List.range' i bs.length := by
  refine List.ext_getElem (by simp) fun t h1 _ => ?_
  have ht : t < bs.length := by simpa using h1
  have hb := hs.height_eq _ _ (h t ht)
  rw [List.get_eq_getElem] at hb
  rw [List.getElem_map, List.getElem_range', hb, uint64_toNat_ofNat, Nat.mod_eq_of_lt (by omega)]
  omega

/-- With every write successful and the store below `math.MaxUint64`, a call that returns
reports no error, and the heights of the blocks it returns are those above the last height
stored. -/
theorem SeqReachable.getPendingBlocks_heights {s : SeqWorld} (hs : SeqReachable (· = true) s)
    (hH : s.world.pb.store.height.toNat < maxUint64) {bs : List Block} {e : Option PendingError}
    (h : (getPendingBlocks s.world.pb).2 = .ret (bs, e)) :
    e = none ∧ bs.map (·.height.toNat) =
      List.range' ((s.lastWritten.getD 0).toNat + 1)
        (s.world.pb.store.height.toNat - (s.lastWritten.getD 0).toNat) := by
  have hH' : s.world.pb.store.height.toNat < 2 ^ 64 - 1 := hH
  obtain ⟨hget, hL⟩ := hs.getPendingBlocks_snd
  rw [hget] at h
  obtain ⟨bs', hc, hlen, hread⟩ :=
    collectPending_consistent hs.reachable.1.inv.store hH hL (collectPending_gap_of_ret h)
  rw [hc, Exec.ret.injEq, Prod.mk.injEq] at h
  obtain ⟨rfl, rfl⟩ := h
  refine ⟨rfl, ?_⟩
  rw [map_height_of_reads hs.reachable.1.inv.store (by omega) hread]
  congr 1
  omega

theorem SeqReachable.lastSubmittedHeight_eq {s : SeqWorld} (hs : SeqReachable (· = true) s)
    (hret : s.world.returned ≠ []) : s.world.pb.lastSubmittedHeight = s.lastWritten.getD 0 := by
  by_cases h0 : s.world.pb.lastSubmittedHeight = 0
  · have hle := hs.inv.written_le hret
    rw [h0, UInt64.toNat_zero] at hle
    rw [h0]
    exact (uint64_eq_iff.mpr (by rw [UInt64.toNat_zero]; omega)).symm
  · rw [hs.mirrors h0, Option.getD_some]

theorem storedHeight_or_getD {pb : PendingBlocks} {blocks : List Block} {lw : Option UInt64}
    (hlsh : pb.lastSubmittedHeight = lw.getD 0) :
    (((storedHeight pb blocks true).or lw).getD 0).toNat =
      max (lw.getD 0).toNat (lastHeight blocks) := by
  simp only [storedHeight, removeEnter, lastHeight]
  cases hlast : blocks.getLast? with
  | none => simp
  | some last =>
    by_cases hgt : last.height > pb.lastSubmittedHeight
    · have := uint64_lt_iff.mp hgt
      simp only [hgt, if_true, Option.or_some, Option.getD_some, Option.map_some']
      rw [hlsh] at this
      omega
    · have := uint64_lt_iff.not.mp hgt
      simp only [hgt, if_false, Option.none_or, Option.map_some', Option.getD_some]
      rw [hlsh] at this
      omega

theorem lastHeight_le {s : SeqWorld} (hs : SeqReachable (· = true) s) {l blocks : List Block}
    (hl : l ∈ s.world.returned) (hpre : blocks <+: l) :
    lastHeight blocks ≤ s.world.pb.store.height.toNat := by
  unfold lastHeight
  cases hlast : blocks.getLast? with
  | none => exact Nat.zero_le _
  | some last =>
    exact (hs.reachable.1.inv.returned l hl).height_le
      (hpre.subset (List.mem_of_getLast?_eq_some hlast))

/-! ## The simulation -/

/-- The model refines the queue. From every state of a sequential run with every write
successful, each step is a step of the queue the state stands for, to the queue the next state
stands for; and the list a `getPendingBlocks` step hands out shows what reading the queue
shows, the pending heights in order. -/
theorem SeqStep.simulate_queue {s s' : SeqWorld} {q : Queue} (hs : SeqReachable (· = true) s)
    (hq : QueueOf s q) (h : SeqStep (· = true) s s')
    (hH : s'.world.pb.store.height.toNat < maxUint64) :
    ∃ obs q', q.Step obs q' ∧ QueueOf s' q' ∧
      ∀ bs, s'.world.returned = bs :: s.world.returned → obs = some (bs.map (·.height.toNat)) := by
  cases h with
  | @append b hb =>
    refine ⟨none, q.append, .append q, ⟨hq.1, ?_⟩,
      fun bs h => absurd h.symm (List.cons_ne_self _ _)⟩
    show q.height + 1 = (s.world.pb.store.append b).height.toNat
    rw [hq.2, (hs.reachable.1.inv.store.append hb).2]
  | @get bs e hget =>
    have hstore := getPendingBlocks_fst_store s.world.pb
    obtain ⟨-, hmap⟩ := hs.getPendingBlocks_heights (hstore ▸ hH) hget
    refine ⟨some q.pending, q, .read q, ⟨hq.1, hq.2.trans (by rw [← hstore])⟩, fun bs' h => ?_⟩
    obtain rfl := (List.cons.inj h).1.symm
    rw [hmap, Queue.pending, hq.1, hq.2]
  | @remove l blocks written hl hpre hw =>
    subst hw
    have hlsh := hs.lastSubmittedHeight_eq (List.ne_nil_of_mem hl)
    refine ⟨none, q.ack (lastHeight blocks) (hq.2 ▸ lastHeight_le hs hl hpre),
      .ack q _ _, ⟨?_, ?_⟩, fun bs h => absurd h.symm (List.cons_ne_self _ _)⟩
    · show max q.submitted (lastHeight blocks) = _
      rw [storedHeight_or_getD hlsh, hq.1]
    · rcases removeSubmittedBlocks_stored s.world.pb blocks true with ⟨hpb, -⟩ | ⟨_, -, -, hst, -⟩
      · exact hq.2.trans (by rw [hpb])
      · exact hq.2.trans (by rw [hst, if_pos rfl, Store.setMetadata_height])
  | restart => exact ⟨none, q, .stutter q, hq, fun bs h => by cases h⟩

/-- A fresh node with block `1` stored hands it out: the queue is read. -/
theorem SeqStep.simulate_queue_get :
    let s : SeqWorld := ⟨{ World.init with pb := ⟨World.init.pb.store.append ⟨⟨1⟩⟩, 0⟩ }, none⟩
    let s' : SeqWorld := { s with world := { s.world with
      pb := (getPendingBlocks s.world.pb).1, returned := [[⟨⟨1⟩⟩]] } }
    ∃ obs q', Queue.Step ⟨0, 1, Nat.zero_le 1⟩ obs q' ∧ QueueOf s' q' ∧
      ∀ bs, s'.world.returned = bs :: s.world.returned → obs = some (bs.map (·.height.toNat)) :=
  SeqStep.simulate_queue (.single (SeqStep.append rfl)) ⟨rfl, rfl⟩
    (SeqStep.get (e := none) (by decide)) (by decide)

end Rollmint.PendingBlocks

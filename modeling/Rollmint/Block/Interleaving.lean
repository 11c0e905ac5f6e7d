import Rollmint.Block.PendingBlocks
import Mathlib.Logic.Relation

/-!
# PendingBlocks under interleaving

The block manager calls `getPendingBlocks` and `removeSubmittedBlocks` from its loops while
the store grows. Here every access to shared state is a step of its own: each `Load` and
`CompareAndSwap` of the atomic, and the metadata read and write. The reads of one
`getPendingBlocks` pass over the store, from `store.Height()` on, form one step: appends only
add heights above the one it read, so they cannot change what it reads. A world holds the
shared state, the calls in flight, and two ghost
records: the lists `getPendingBlocks` returned to its caller in this process, and every list
ever passed to `removeSubmittedBlocks`. A restart ends all calls and resets the in-memory
height to `0`. The store and its metadata survive it, and so does the record of acknowledged
lists; the caller's lists do not.

`Inv` holds in every reachable world. From it, every height up to the in-memory or the
persisted last submitted height was acknowledged (`reachable_acknowledged`). Both stay within
the store, and the in-memory one never decreases within a process, so the `aheadOfStore`
panic of `getPendingBlocks` is unreachable (`reachable_within_store`); the one panic left to it
is that of `make` for a gap past the runtime's allocation limit. Each list handed out in this
process is exactly the blocks the store holds at consecutive heights
(`reachable_returned_stored`).
-/

namespace Rollmint.PendingBlocks

open Strconv

/-- Where an in-flight `getPendingBlocks` call stands: having read `0`, it reads the persisted
height (`loading`), swaps it in (`swapping`) and loads the atomic again (`reloading`); with
`lastSubmitted` fixed it reads the store (`collecting`). -/
inductive GetPc
  | loading
  | swapping (lsh : UInt64)
  | reloading
  | collecting (lastSubmitted : UInt64)
  deriving DecidableEq, Repr

/-- Where an in-flight `removeSubmittedBlocks` call stands after its `Load` found a smaller
value: before its `CompareAndSwap` (`loaded`), or after a successful one, before
`SetMetadata` (`swapped`). -/
inductive RemovePc
  | loaded (latestBlockHeight lsh : UInt64)
  | swapped (latestBlockHeight : UInt64)
  deriving DecidableEq, Repr

/-- An in-flight call. -/
inductive Call
  | get (pc : GetPc)
  | remove (pc : RemovePc)
  deriving DecidableEq, Repr

/-- The first step of `getPendingBlocks`: `lastSubmittedHeight.Load()`. -/
def getEnter (pb : PendingBlocks) : GetPc :=
  if pb.lastSubmittedHeight = 0 then .loading else .collecting pb.lastSubmittedHeight

/-- The first step of `removeSubmittedBlocks`: the empty check and the `Load`. The call
returns at once (`none`) unless the last block is above the loaded value. -/
def removeEnter (pb : PendingBlocks) (blocks : List Block) : Option RemovePc :=
  match blocks.getLast? with
  | none => none
  | some last =>
    if last.height > pb.lastSubmittedHeight then
      some (.loaded last.height pb.lastSubmittedHeight)
    else none

/-- What one step of a call shows outside the shared state: the list a returning
`getPendingBlocks` hands its caller, the outcome of a `SetMetadata`, or nothing. -/
inductive Event
  | returned (blocks : List Block)
  | wrote (written : Bool)
  | internal
  deriving DecidableEq, Repr

def Event.returnedLists : Event → List (List Block)
  | .returned blocks => [blocks]
  | _ => []

/-- One atomic step of an in-flight call: the shared state after it, what is left of the call
(`none` once it returned), and what it shows outside. -/
inductive CallStep : PendingBlocks → Call → PendingBlocks → Option Call → Event → Prop
  | loadFailed {pb e} : readLastSubmitted pb.store = .error e →
      CallStep pb (.get .loading) pb none (.returned [])
  | loadAbsent {pb} : readLastSubmitted pb.store = .ok none →
      CallStep pb (.get .loading) pb (some (.get .reloading)) .internal
  | loadFound {pb lsh} : readLastSubmitted pb.store = .ok (some lsh) →
      CallStep pb (.get .loading) pb (some (.get (.swapping lsh))) .internal
  | swap (pb lsh) : CallStep pb (.get (.swapping lsh))
      { pb with lastSubmittedHeight := (compareAndSwap pb.lastSubmittedHeight 0 lsh).1 }
      (some (.get .reloading)) .internal
  | reload (pb) : CallStep pb (.get .reloading) pb
      (some (.get (.collecting pb.lastSubmittedHeight))) .internal
  | collect {pb L bs e} : collectPending pb.store L = .ret (bs, e) →
      CallStep pb (.get (.collecting L)) pb none (.returned bs)
  | cas (pb latest old) : CallStep pb (.remove (.loaded latest old))
      { pb with lastSubmittedHeight := (compareAndSwap pb.lastSubmittedHeight old latest).1 }
      (if (compareAndSwap pb.lastSubmittedHeight old latest).2 then
        some (.remove (.swapped latest)) else none) .internal
  | write (pb latest) (written : Bool) : CallStep pb (.remove (.swapped latest))
      (if written then
        { pb with store := pb.store.setMetadata lastSubmittedHeightKey (formatUint latest) }
      else pb) none (.wrote written)

/-- The shared state, the calls in flight, and the ghost records of the caller. -/
structure World where
  pb : PendingBlocks
  calls : List Call
  returned : List (List Block)
  acked : List (List Block)

def World.init : World where
  pb := ⟨⟨0, fun _ => .error .notFound, fun _ => .error .notFound⟩, 0⟩
  calls := []
  returned := []
  acked := []

/-- The effect of a restart: calls end, the caller's lists are gone, the atomic is `0`. -/
def World.restart (w : World) : World :=
  { w with pb := { w.pb with lastSubmittedHeight := 0 }, calls := [], returned := [] }

/-- A step within one process: the store gains the next block, a call starts, or an in-flight
call takes one atomic step. `removeSubmittedBlocks` is called with a prefix of a list that
`getPendingBlocks` returned in this process. -/
inductive LiveStep : World → World → Prop
  | append {w b} : b.height.toNat = w.pb.store.height.toNat + 1 →
      LiveStep w { w with pb := { w.pb with store := w.pb.store.append b } }
  | callGet (w) : LiveStep w { w with calls := .get (getEnter w.pb) :: w.calls }
  | callRemove {w l blocks} : l ∈ w.returned → blocks <+: l →
      LiveStep w { w with
        calls := (removeEnter w.pb blocks).toList.map .remove ++ w.calls
        acked := blocks :: w.acked }
  | advance {w pre post c pb' next ev} : w.calls = pre ++ c :: post →
      CallStep w.pb c pb' next ev →
      LiveStep w { w with
        pb := pb'
        calls := pre ++ next.toList ++ post
        returned := ev.returnedLists ++ w.returned }

inductive Step : World → World → Prop
  | live {w w'} : LiveStep w w' → Step w w'
  | restart (w) : Step w w.restart

def Reachable (w : World) : Prop := Relation.ReflTransGen Step World.init w

/-! ## The invariant -/

/-- Every height `1..v` is the height of a block in a list passed to `removeSubmittedBlocks`. -/
def AckedUpTo (acked : List (List Block)) (v : Nat) : Prop :=
  ∀ h, 0 < h → h ≤ v → ∃ l ∈ acked, ∃ b ∈ l, b.height.toNat = h

def Settled (acked : List (List Block)) (H : Nat) (v : UInt64) : Prop :=
  v.toNat ≤ H ∧ AckedUpTo acked v.toNat

/-- A list `getPendingBlocks` may hand out: the blocks at heights `L+1, …, L+n` of the store
for an acknowledged `L`. -/
def PendingRun (acked : List (List Block)) (H : Nat) (l : List Block) : Prop :=
  ∃ L, AckedUpTo acked L ∧ l.map (·.height.toNat) = List.range' (L + 1) l.length ∧
    L + l.length ≤ H

def PersistedSettled (acked : List (List Block)) (s : Store) : Prop :=
  s.getMetadata lastSubmittedHeightKey = .error .notFound ∨
    ∃ v, Settled acked s.height.toNat v ∧
      s.getMetadata lastSubmittedHeightKey = .ok (formatUint v)

/-- What an in-flight call carries: each height it will swap in, write or read from is settled,
and a pending `CompareAndSwap` raises the value its `Load` saw. -/
def CallInv (acked : List (List Block)) (H : Nat) : Call → Prop
  | .get (.swapping lsh) => Settled acked H lsh
  | .get (.collecting L) => Settled acked H L
  | .remove (.loaded latest old) => old < latest ∧ Settled acked H latest
  | .remove (.swapped latest) => Settled acked H latest
  | .get .loading | .get .reloading => True

/-- The invariant of reachable worlds. -/
structure Inv (w : World) : Prop where
  store : w.pb.store.Consistent
  lsh : Settled w.acked w.pb.store.height.toNat w.pb.lastSubmittedHeight
  persisted : PersistedSettled w.acked w.pb.store
  returned : ∀ l ∈ w.returned, PendingRun w.acked w.pb.store.height.toNat l
  calls : ∀ c ∈ w.calls, CallInv w.acked w.pb.store.height.toNat c

section Mono

variable {acked acked' : List (List Block)} {H H' : Nat}

theorem AckedUpTo.mono {v : Nat} (h : AckedUpTo acked v) (hsub : acked ⊆ acked') :
    AckedUpTo acked' v := fun k hk hkv =>
  let ⟨l, hl, hb⟩ := h k hk hkv
  ⟨l, hsub hl, hb⟩

theorem Settled.mono {v : UInt64} (h : Settled acked H v) (hsub : acked ⊆ acked')
    (hH : H ≤ H') : Settled acked' H' v :=
  ⟨h.1.trans hH, h.2.mono hsub⟩

theorem PendingRun.mono {l : List Block} (h : PendingRun acked H l) (hsub : acked ⊆ acked')
    (hH : H ≤ H') : PendingRun acked' H' l :=
  let ⟨L, hL, hmap, hlen⟩ := h
  ⟨L, hL.mono hsub, hmap, hlen.trans hH⟩

theorem CallInv.mono {c : Call} (h : CallInv acked H c) (hsub : acked ⊆ acked') (hH : H ≤ H') :
    CallInv acked' H' c := by
  match c, h with
  | .get (.swapping _), h => exact Settled.mono h hsub hH
  | .get (.collecting _), h => exact Settled.mono h hsub hH
  | .remove (.loaded _ _), h => exact ⟨h.1, Settled.mono h.2 hsub hH⟩
  | .remove (.swapped _), h => exact Settled.mono h hsub hH
  | .get .loading, _ | .get .reloading, _ => trivial

theorem PersistedSettled.mono {s s' : Store} (h : PersistedSettled acked s)
    (hsub : acked ⊆ acked') (hmeta : s'.getMetadata = s.getMetadata)
    (hH : s.height.toNat ≤ s'.height.toNat) : PersistedSettled acked' s' := by
  rw [PersistedSettled, hmeta]
  exact h.imp_right fun ⟨v, hv, hget⟩ => ⟨v, hv.mono hsub hH, hget⟩

end Mono

theorem Settled.zero (acked : List (List Block)) (H : Nat) : Settled acked H 0 :=
  ⟨Nat.zero_le _, fun _ h0 hle => absurd hle (by simp; omega)⟩

theorem PendingRun.nil (acked : List (List Block)) (H : Nat) : PendingRun acked H [] :=
  ⟨0, fun _ h0 hle => absurd hle (by omega), rfl, Nat.zero_le _⟩

theorem readLastSubmitted_settled {acked : List (List Block)} {s : Store} {x : UInt64}
    (hp : PersistedSettled acked s) (h : readLastSubmitted s = .ok (some x)) :
    Settled acked s.height.toNat x := by
  rcases hp with hnone | ⟨v, hv, hget⟩
  · simp [readLastSubmitted, hnone] at h
  · simp only [readLastSubmitted, hget, parseUint_formatUint, Except.ok.injEq,
      Option.some.injEq] at h
    exact h ▸ hv

theorem PendingRun.settled_of_mem {acked : List (List Block)} {H : Nat} {l blocks : List Block}
    (hl : PendingRun acked H l) (hpre : blocks <+: l) {b : Block} (hb : b ∈ blocks) :
    Settled (blocks :: acked) H b.height := by
  obtain ⟨L, hL, hmap, hlen⟩ := hl
  obtain ⟨t, rfl⟩ := hpre
  have hblocks : blocks.map (·.height.toNat) = List.range' (L + 1) blocks.length := by
    rw [List.map_append, List.length_append, Nat.add_comm blocks.length,
      ← List.range'_append_1] at hmap
    exact (List.append_inj hmap (by simp)).1
  have hmem :
      ∀ h, h ∈ List.range' (L + 1) blocks.length ↔ ∃ b ∈ blocks, b.height.toNat = h :=
    fun h => by rw [← hblocks, List.mem_map]
  have hbh := (List.mem_range'_1).mp ((hmem _).mpr ⟨b, hb, rfl⟩)
  refine ⟨by simp only [List.length_append] at hlen; omega, fun h h0 hle => ?_⟩
  by_cases hhL : h ≤ L
  · obtain ⟨l', hl', hb'⟩ := hL h h0 hhL
    exact ⟨l', List.mem_cons_of_mem _ hl', hb'⟩
  · obtain ⟨b', hb', hh⟩ := (hmem h).mp (List.mem_range'_1.mpr (by omega))
    exact ⟨blocks, List.mem_cons_self _ _, b', hb', hh⟩

theorem collectPending_run {acked : List (List Block)} {s : Store} {L : UInt64}
    {bs : List Block} {e : Option PendingError} (hs : s.Consistent)
    (hL : Settled acked s.height.toNat L) (h : collectPending s L = .ret (bs, e)) :
    PendingRun acked s.height.toNat bs := by
  rcases collectPending_cases s L with ⟨-, hc⟩ | ⟨hgt, -⟩ | ⟨-, -, hc⟩ | ⟨hlt, -, hsucc, hc⟩
  · rw [hc, Exec.ret.injEq, Prod.mk.injEq] at h
    exact h.1 ▸ PendingRun.nil acked _
  · exact absurd hL.1 (by have := uint64_lt_iff.mp hgt; omega)
  · rw [hc] at h; cases h
  · rw [hc] at h
    obtain ⟨ext, rfl, hmap, hlen⟩ :=
      pendingLoop_consecutive hs _ _ _ bs e (by omega) (by omega) h
    exact ⟨L.toNat, hL.2, by rw [hmap, hsucc], by omega⟩

theorem removeEnter_eq_some {pb : PendingBlocks} {blocks : List Block} {pc : RemovePc}
    (h : removeEnter pb blocks = some pc) :
    ∃ last, blocks.getLast? = some last ∧ pc = .loaded last.height pb.lastSubmittedHeight ∧
      pb.lastSubmittedHeight < last.height := by
  simp only [removeEnter] at h
  split at h
  · cases h
  · rename_i last hlast
    split at h
    · cases h; exact ⟨last, hlast, rfl, ‹_›⟩
    · cases h

/-! ## Preservation -/

theorem mem_of_mem_splice {c c₀ : Call} {pre post : List Call} {next : Option Call}
    (h : c ∈ pre ++ next.toList ++ post) : c ∈ pre ++ c₀ :: post ∨ c ∈ next := by
  simp only [List.mem_append, List.mem_cons, Option.mem_toList] at h ⊢
  tauto


theorem CallStep.preserves {pb pb' : PendingBlocks} {c : Call} {next : Option Call}
    {ev : Event} {acked : List (List Block)} (h : CallStep pb c pb' next ev)
    (hs : pb.store.Consistent)
    (hlsh : Settled acked pb.store.height.toNat pb.lastSubmittedHeight)
    (hp : PersistedSettled acked pb.store) (hc : CallInv acked pb.store.height.toNat c) :
    pb'.store.height = pb.store.height ∧ pb'.store.getBlock = pb.store.getBlock ∧
      Settled acked pb.store.height.toNat pb'.lastSubmittedHeight ∧
      PersistedSettled acked pb'.store ∧
      (∀ c' ∈ next, CallInv acked pb.store.height.toNat c') ∧
      (∀ l ∈ ev.returnedLists, PendingRun acked pb.store.height.toNat l) := by
  cases h with
  | loadFailed _ =>
    exact ⟨rfl, rfl, hlsh, hp, by simp,
      by simpa [Event.returnedLists] using PendingRun.nil acked _⟩
  | loadAbsent _ => exact ⟨rfl, rfl, hlsh, hp, by simp [CallInv], by simp [Event.returnedLists]⟩
  | loadFound hread =>
    exact ⟨rfl, rfl, hlsh, hp, by simpa [CallInv] using readLastSubmitted_settled hp hread,
      by simp [Event.returnedLists]⟩
  | swap =>
    refine ⟨rfl, rfl, ?_, hp, by simp [CallInv], by simp [Event.returnedLists]⟩
    simp only [compareAndSwap]
    split
    · exact hc
    · exact hlsh
  | reload =>
    exact ⟨rfl, rfl, hlsh, hp, by simpa [CallInv] using hlsh, by simp [Event.returnedLists]⟩
  | collect hcol =>
    exact ⟨rfl, rfl, hlsh, hp, by simp,
      by simpa [Event.returnedLists] using collectPending_run hs hc hcol⟩
  | cas =>
    refine ⟨rfl, rfl, ?_, hp, ?_, by simp [Event.returnedLists]⟩
    · simp only [compareAndSwap]
      split
      · exact hc.2
      · exact hlsh
    · simp only [compareAndSwap]
      split <;> simp [CallInv, hc.2]
  | write latest written =>
    cases written
    · exact ⟨rfl, rfl, hlsh, hp, by simp, by simp [Event.returnedLists]⟩
    · exact ⟨rfl, rfl, hlsh, .inr ⟨latest, hc, by simp⟩, by simp,
        by simp [Event.returnedLists]⟩

theorem Inv.init : Inv World.init where
  store := ⟨fun _ _ h => (by cases h), fun _ h => (by cases h),
    fun _ h0 hle => absurd hle (by simp [World.init]; omega)⟩
  lsh := Settled.zero _ _
  persisted := .inl rfl
  returned := by simp [World.init]
  calls := by simp [World.init]

theorem Inv.liveStep {w w' : World} (hw : Inv w) (h : LiveStep w w') : Inv w' := by
  cases h with
  | @append b hb =>
    obtain ⟨hs', hH⟩ := hw.store.append hb
    have hle : w.pb.store.height.toNat ≤ (w.pb.store.append b).height.toNat := by omega
    have hsub : w.acked ⊆ w.acked := List.Subset.refl _
    exact ⟨hs', hw.lsh.mono hsub hle, hw.persisted.mono hsub rfl hle,
      fun l hl => (hw.returned l hl).mono hsub hle, fun c hc => (hw.calls c hc).mono hsub hle⟩
  | callGet =>
    refine ⟨hw.store, hw.lsh, hw.persisted, hw.returned, fun c hc => ?_⟩
    rcases List.mem_cons.mp hc with rfl | hc
    · simp only [getEnter]
      split
      · trivial
      · exact hw.lsh
    · exact hw.calls c hc
  | @callRemove l blocks hl hpre =>
    have hsub : w.acked ⊆ blocks :: w.acked := fun _ h => List.mem_cons_of_mem _ h
    refine ⟨hw.store, hw.lsh.mono hsub le_rfl, hw.persisted.mono hsub rfl le_rfl,
      fun l hl => (hw.returned l hl).mono hsub le_rfl, fun c hc => ?_⟩
    rcases List.mem_append.mp hc with hc | hc
    · obtain ⟨pc, hpc, rfl⟩ := List.mem_map.mp hc
      obtain ⟨last, hlast, rfl, hlt⟩ := removeEnter_eq_some (Option.mem_toList.mp hpc)
      exact ⟨hlt, (hw.returned l hl).settled_of_mem hpre (List.mem_of_getLast?_eq_some hlast)⟩
    · exact (hw.calls c hc).mono hsub le_rfl
  | @advance pre post c pb' next ev hcalls hstep =>
    have hc := hw.calls c (hcalls ▸ List.mem_append_right _ (List.mem_cons_self _ _))
    obtain ⟨hH, hget, hlsh, hp, hnext, hr⟩ := hstep.preserves hw.store hw.lsh hw.persisted hc
    refine ⟨hw.store.of_eq hH hget, hH ▸ hlsh, hp, fun l hl => ?_, fun c' hc' => ?_⟩
    · rw [hH]
      rcases List.mem_append.mp hl with hl | hl
      · exact hr l hl
      · exact hw.returned l hl
    · rw [hH]
      exact (mem_of_mem_splice hc').elim (fun h' => hw.calls c' (hcalls ▸ h')) (hnext c')

theorem Inv.restart {w : World} (hw : Inv w) : Inv w.restart :=
  ⟨hw.store, Settled.zero _ _, hw.persisted, by simp [World.restart], by simp [World.restart]⟩

theorem Inv.step {w w' : World} (hw : Inv w) (h : Step w w') : Inv w' := by
  cases h with
  | live h => exact hw.liveStep h
  | restart => exact hw.restart

theorem Reachable.inv {w : World} (h : Reachable w) : Inv w := by
  induction h with
  | refl => exact Inv.init
  | tail _ hs ih => exact ih.step hs

/-! ## A run through a restart -/

/-- The world after a fresh node stored block `1`, handed it out, had it acknowledged with a
successful write, and restarted. -/
def restartedWorld : World where
  pb :=
    ⟨(World.init.pb.store.append ⟨⟨1⟩⟩).setMetadata lastSubmittedHeightKey (formatUint 1), 0⟩
  calls := []
  returned := []
  acked := [[⟨⟨1⟩⟩]]

theorem reachable_restarted : Reachable restartedWorld :=
  ((((((((Relation.ReflTransGen.single
    (Step.live (.append (w := World.init) (b := ⟨⟨1⟩⟩) rfl))).tail
    (.live (.callGet _))).tail
    (.live (@LiveStep.advance _ [] [] _ _ _ _ rfl (.loadAbsent rfl)))).tail
    (.live (@LiveStep.advance _ [] [] _ _ _ _ rfl (.reload _)))).tail
    (.live (@LiveStep.advance _ [] [] _ _ _ _ rfl
      (@CallStep.collect _ _ [⟨⟨1⟩⟩] none (by decide))))).tail
    (.live (@LiveStep.callRemove _ [⟨⟨1⟩⟩] [⟨⟨1⟩⟩] (List.mem_singleton_self _)
      (List.prefix_refl _)))).tail
    (.live (@LiveStep.advance _ [] [] _ _ _ _ rfl (.cas _ 1 0)))).tail
    (.live (@LiveStep.advance _ [] [] _ _ _ _ rfl (.write _ 1 true)))).tail
    (.restart _)

/-! ## At-least-once submission and the store bound -/

/-- At-least-once submission. In every reachable world, every height up to the in-memory last
submitted height, and up to the persisted one, is the height of a block in some list passed
to `removeSubmittedBlocks`; and each list `getPendingBlocks` handed out in this process starts
right above such a height and skips none. -/
theorem reachable_acknowledged {w : World} (hw : Reachable w) :
    AckedUpTo w.acked w.pb.lastSubmittedHeight.toNat ∧
      (∀ raw, w.pb.store.getMetadata lastSubmittedHeightKey = .ok raw →
        ∃ v, parseUint raw = .ok v ∧ AckedUpTo w.acked v.toNat) ∧
      (∀ l ∈ w.returned, ∃ L, AckedUpTo w.acked L ∧
        l.map (·.height.toNat) = List.range' (L + 1) l.length) := by
  have hi := hw.inv
  refine ⟨hi.lsh.2, fun raw hraw => ?_, fun l hl => ?_⟩
  · rcases hi.persisted with hnone | ⟨v, hv, hget⟩
    · rw [hnone] at hraw; cases hraw
    · rw [hget] at hraw; cases hraw
      exact ⟨v, parseUint_formatUint v, hv.2⟩
  · obtain ⟨L, hL, hmap, -⟩ := hi.returned l hl
    exact ⟨L, hL, hmap⟩

theorem reachable_acknowledged_restarted :
    Reachable restartedWorld ∧
      AckedUpTo restartedWorld.acked restartedWorld.pb.lastSubmittedHeight.toNat ∧
      (∀ raw, restartedWorld.pb.store.getMetadata lastSubmittedHeightKey = .ok raw →
        ∃ v, parseUint raw = .ok v ∧ AckedUpTo restartedWorld.acked v.toNat) ∧
      (∀ l ∈ restartedWorld.returned, ∃ L, AckedUpTo restartedWorld.acked L ∧
        l.map (·.height.toNat) = List.range' (L + 1) l.length) :=
  ⟨reachable_restarted, reachable_acknowledged reachable_restarted⟩

theorem LiveStep.lastSubmittedHeight_le {w w' : World} (hw : Inv w) (h : LiveStep w w') :
    w.pb.lastSubmittedHeight ≤ w'.pb.lastSubmittedHeight := by
  cases h with
  | advance hcalls hstep =>
    have hc := hw.calls _ (hcalls ▸ List.mem_append_right _ (List.mem_cons_self _ _))
    cases hstep with
    | swap =>
      show _ ≤ (compareAndSwap _ 0 _).1
      simp only [compareAndSwap]
      split
      · rename_i h0
        exact uint64_le_iff.mpr (by rw [h0, UInt64.toNat_zero]; exact Nat.zero_le _)
      · exact UInt64.le_refl _
    | cas =>
      show _ ≤ (compareAndSwap _ _ _).1
      simp only [compareAndSwap]
      split
      · rename_i hold
        exact uint64_le_iff.mpr (by rw [hold]; exact Nat.le_of_lt (uint64_lt_iff.mp hc.1))
      · exact UInt64.le_refl _
    | write _ written => cases written <;> exact UInt64.le_refl _
    | _ => exact UInt64.le_refl _
  | _ => exact UInt64.le_refl _

theorem pendingLoop_ne_panic (s : Store) (H : UInt64) (msg : String) :
    ∀ fuel i acc, pendingLoop s H fuel i acc ≠ .panic msg
  | 0, _, _ => by simp [pendingLoop]
  | fuel + 1, i, acc => by
    simp only [pendingLoop]
    split
    · split
      · simp
      · exact pendingLoop_ne_panic s H msg fuel _ _
    · simp

theorem collectPending_ne_aheadOfStore {s : Store} {L : UInt64} (hL : L.toNat ≤ s.height.toNat)
    (L' H' : UInt64) : collectPending s L ≠ .panic (aheadOfStore L' H') := by
  rcases collectPending_cases s L with ⟨-, hc⟩ | ⟨hgt, -⟩ | ⟨-, -, hc⟩ | ⟨-, -, -, hc⟩
  · rw [hc]; exact Exec.noConfusion
  · exact absurd hL (by have := uint64_lt_iff.mp hgt; omega)
  · rw [hc]; exact fun h => capOutOfRange_ne_aheadOfStore L' H' (Exec.panic.inj h)
  · rw [hc]; exact pendingLoop_ne_panic s _ _ _ _ _

theorem loadFromStore_settled {acked : List (List Block)} {pb : PendingBlocks}
    (hlsh : Settled acked pb.store.height.toNat pb.lastSubmittedHeight)
    (hp : PersistedSettled acked pb.store) :
    (loadFromStore pb).1.store = pb.store ∧
      Settled acked pb.store.height.toNat (loadFromStore pb).1.lastSubmittedHeight := by
  simp only [loadFromStore]
  split
  · exact ⟨rfl, hlsh⟩
  · exact ⟨rfl, hlsh⟩
  · refine ⟨rfl, ?_⟩
    simp only [compareAndSwap]
    split
    · exact readLastSubmitted_settled hp ‹_›
    · exact hlsh

theorem getPendingBlocks_ne_aheadOfStore {w : World} (hi : Inv w) (L' H' : UInt64) :
    (getPendingBlocks w.pb).2 ≠ .panic (aheadOfStore L' H') := by
  simp only [getPendingBlocks]
  split
  · obtain ⟨hstore, hset⟩ := loadFromStore_settled hi.lsh hi.persisted
    split
    · simp
    · rename_i pb' _ hload
      rw [hload] at hstore hset
      exact collectPending_ne_aheadOfStore (hstore ▸ hset.1) L' H'
  · exact collectPending_ne_aheadOfStore hi.lsh.1 L' H'

/-- Within one process the in-memory last submitted height never decreases; in every
reachable world it and the persisted height are at most `store.Height()`, so the
`aheadOfStore` panic of `getPendingBlocks` is unreachable, for a whole call and for a call in
flight alike. -/
theorem reachable_within_store {w : World} (hw : Reachable w) :
    (∀ w', Relation.ReflTransGen LiveStep w w' →
        w.pb.lastSubmittedHeight ≤ w'.pb.lastSubmittedHeight) ∧
      w.pb.lastSubmittedHeight ≤ w.pb.store.height ∧
      (∀ raw, w.pb.store.getMetadata lastSubmittedHeightKey = .ok raw →
        ∃ v, parseUint raw = .ok v ∧ v ≤ w.pb.store.height) ∧
      (∀ L' H', (getPendingBlocks w.pb).2 ≠ .panic (aheadOfStore L' H')) ∧
      (∀ L, Call.get (.collecting L) ∈ w.calls →
        ∀ L' H', collectPending w.pb.store L ≠ .panic (aheadOfStore L' H')) := by
  have hi := hw.inv
  refine ⟨fun w' hrun => ?_, hi.lsh.1, fun raw hraw => ?_, getPendingBlocks_ne_aheadOfStore hi,
    fun L hL => collectPending_ne_aheadOfStore (hi.calls _ hL).1⟩
  · induction hrun with
    | refl => exact UInt64.le_refl _
    | tail hmid hstep ih =>
      have hreach : Reachable _ := hw.trans (hmid.mono fun _ _ => Step.live)
      exact UInt64.le_trans ih (hstep.lastSubmittedHeight_le hreach.inv)
  · rcases hi.persisted with hnone | ⟨v, hv, hget⟩
    · rw [hnone] at hraw; cases hraw
    · rw [hget] at hraw; cases hraw
      exact ⟨v, parseUint_formatUint v, hv.1⟩

theorem reachable_within_store_restarted :
    Reachable restartedWorld ∧
      (∀ w', Relation.ReflTransGen LiveStep restartedWorld w' →
        restartedWorld.pb.lastSubmittedHeight ≤ w'.pb.lastSubmittedHeight) ∧
      restartedWorld.pb.lastSubmittedHeight ≤ restartedWorld.pb.store.height ∧
      (∀ raw, restartedWorld.pb.store.getMetadata lastSubmittedHeightKey = .ok raw →
        ∃ v, parseUint raw = .ok v ∧ v ≤ restartedWorld.pb.store.height) ∧
      (∀ L' H', (getPendingBlocks restartedWorld.pb).2 ≠ .panic (aheadOfStore L' H')) ∧
      (∀ L, Call.get (.collecting L) ∈ restartedWorld.calls →
        ∀ L' H', collectPending restartedWorld.pb.store L ≠ .panic (aheadOfStore L' H')) :=
  ⟨reachable_restarted, reachable_within_store reachable_restarted⟩

/-! ## `isEmpty` after a restart -/

/-- After a restart `isEmpty` and `getPendingBlocks` disagree. One block is handed out,
acknowledged and its height persisted, and then the node restarts. The in-memory height is `0`
again, so `isEmpty` compares the store height `1` with `0`, while `getPendingBlocks` loads the
persisted `1` and has nothing to return. -/
theorem isEmpty_after_restart :
    ∃ w, Reachable w ∧ isEmpty w.pb = false ∧ (getPendingBlocks w.pb).2 = .ret ([], none) :=
  ⟨restartedWorld, reachable_restarted, rfl, by decide⟩

/-! ## Handed-out blocks are the stored ones -/

/-- Every block of a list handed out in this process is the block the store holds at its
height. -/
def ReturnedStored (w : World) : Prop :=
  ∀ l ∈ w.returned, ∀ b ∈ l, w.pb.store.getBlock b.height = .ok b

theorem PendingRun.height_le {acked : List (List Block)} {H : Nat} {l : List Block}
    (hl : PendingRun acked H l) {b : Block} (hb : b ∈ l) : b.height.toNat ≤ H := by
  obtain ⟨L, -, hmap, hlen⟩ := hl
  have hmem : b.height.toNat ∈ List.range' (L + 1) l.length := hmap ▸ List.mem_map_of_mem _ hb
  have := List.mem_range'_1.mp hmem
  omega

theorem CallStep.returned_stored {pb pb' : PendingBlocks} {c : Call} {next : Option Call}
    {ev : Event} (h : CallStep pb c pb' next ev) (hs : pb.store.Consistent) :
    ∀ l ∈ ev.returnedLists, ∀ b ∈ l, pb.store.getBlock b.height = .ok b := by
  cases h with
  | collect hcol => simpa [Event.returnedLists] using collectPending_stored hs hcol
  | _ => simp [Event.returnedLists]

theorem ReturnedStored.liveStep {w w' : World} (hw : Inv w) (hr : ReturnedStored w)
    (h : LiveStep w w') : ReturnedStored w' := by
  cases h with
  | @append b hb =>
    intro l hl b' hb'
    have hle := (hw.returned l hl).height_le hb'
    have hne : b'.height ≠ w.pb.store.height + 1 := fun heq => by
      have := uint64_toNat_le b.height
      rw [uint64_eq_iff, uint64_toNat_add_one, if_neg (by omega)] at heq
      omega
    show (w.pb.store.append b).getBlock b'.height = .ok b'
    simp only [Store.append, if_neg hne]
    exact hr l hl b' hb'
  | callGet => exact hr
  | callRemove => exact hr
  | @advance pre post c pb' next ev hcalls hstep =>
    have hc := hw.calls c (hcalls ▸ List.mem_append_right _ (List.mem_cons_self _ _))
    obtain ⟨-, hget, -⟩ := hstep.preserves hw.store hw.lsh hw.persisted hc
    intro l hl b hb
    show pb'.store.getBlock b.height = .ok b
    rw [hget]
    rcases List.mem_append.mp hl with hl | hl
    · exact hstep.returned_stored hw.store l hl b hb
    · exact hr l hl b hb

theorem ReturnedStored.step {w w' : World} (hw : Inv w) (hr : ReturnedStored w)
    (h : Step w w') : ReturnedStored w' := by
  cases h with
  | live h => exact hr.liveStep hw h
  | restart => intro l hl; simp [World.restart] at hl

theorem Reachable.returnedStored {w : World} (h : Reachable w) : ReturnedStored w := by
  induction h with
  | refl => intro l hl; simp [World.init] at hl
  | tail hr hs ih => exact ih.step (Reachable.inv hr) hs

/-- Blocks are stored before they are submitted, and handed out in order of height. In every
reachable world each list `getPendingBlocks` handed out in this process is exactly the blocks
the store holds at heights `L+1, …, L+n`, all within the store, for a height `L` up to which
every height was acknowledged. -/
theorem reachable_returned_stored {w : World} (hw : Reachable w) :
    ∀ l ∈ w.returned, ∃ L, AckedUpTo w.acked L ∧ L + l.length ≤ w.pb.store.height.toNat ∧
      ∀ t (ht : t < l.length),
        w.pb.store.getBlock (UInt64.ofNat (L + 1 + t)) = .ok (l.get ⟨t, ht⟩) := by
  intro l hl
  obtain ⟨L, hL, hmap, hlen⟩ := hw.inv.returned l hl
  refine ⟨L, hL, hlen, fun t ht => ?_⟩
  have hheight : (l.get ⟨t, ht⟩).height.toNat = L + 1 + t := by
    have := List.getElem_of_eq hmap (by simpa using ht)
    rw [List.getElem_map, List.getElem_range'] at this
    simpa [Nat.add_comm] using this
  rw [← hheight, uint64_ofNat_toNat]
  exact hw.returnedStored l hl _ (List.get_mem l t ht)

def handedOutWorld : World where
  pb := ⟨World.init.pb.store.append ⟨⟨1⟩⟩, 0⟩
  calls := []
  returned := [[⟨⟨1⟩⟩]]
  acked := []

theorem reachable_handedOut : Reachable handedOutWorld :=
  ((((Relation.ReflTransGen.single
    (Step.live (.append (w := World.init) (b := ⟨⟨1⟩⟩) rfl))).tail
    (.live (.callGet _))).tail
    (.live (@LiveStep.advance _ [] [] _ _ _ _ rfl (.loadAbsent rfl)))).tail
    (.live (@LiveStep.advance _ [] [] _ _ _ _ rfl (.reload _)))).tail
    (.live (@LiveStep.advance _ [] [] _ _ _ _ rfl
      (@CallStep.collect _ _ [⟨⟨1⟩⟩] none (by decide))))

theorem reachable_returned_stored_handed_out :
    let l : List Block := [⟨⟨1⟩⟩]
    ∃ L, AckedUpTo handedOutWorld.acked L ∧
      L + l.length ≤ handedOutWorld.pb.store.height.toNat ∧
      ∀ t (ht : t < l.length),
        handedOutWorld.pb.store.getBlock (UInt64.ofNat (L + 1 + t)) = .ok (l.get ⟨t, ht⟩) :=
  reachable_returned_stored reachable_handedOut _ (List.mem_singleton_self _)

end Rollmint.PendingBlocks

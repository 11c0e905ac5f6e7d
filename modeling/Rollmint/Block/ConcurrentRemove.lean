import Rollmint.Block.Interleaving

/-!
# Concurrent `removeSubmittedBlocks` calls

`removeSubmittedBlocks` advances the atomic with one `Load` and one `CompareAndSwap`, and
writes the metadata after the swap, outside it. Here calls run on their own, in any
interleaving of these steps. A call whose swap fails, because another call moved the value
after its `Load`, returns without retrying: its advance is lost
(`removeSubmittedBlocks_lost_update`). Two successful calls can reach `SetMetadata` in the
opposite order of their swaps, so the persisted height can go down and end below the
in-memory one (`removeSubmittedBlocks_writes_out_of_order`).

What does hold: over every interleaving the value stays between its start and the largest
last height passed, and the persisted height never exceeds it; calls that do not overlap
reach the largest last height and, when their writes succeed, keep the mirror equal to it
(`removeSubmittedBlocks_within_calls`, `persisted_le_lastSubmittedHeight`).
-/

namespace Rollmint.PendingBlocks

open Strconv

/-- A step of concurrent `removeSubmittedBlocks` calls alone: a call starts with any argument,
or an in-flight one takes its next step. `writes` says which `SetMetadata` outcomes occur. -/
inductive RemoveStep (writes : Bool → Prop) : World → World → Prop
  | call (w) (blocks : List Block) : RemoveStep writes w { w with
      calls := (removeEnter w.pb blocks).toList.map .remove ++ w.calls
      acked := blocks :: w.acked }
  | advance {w pre post pc pb' next ev} : w.calls = pre ++ .remove pc :: post →
      CallStep w.pb (.remove pc) pb' next ev → (∀ b, ev = .wrote b → writes b) →
      RemoveStep writes w { w with pb := pb', calls := pre ++ next.toList ++ post }

/-- The height of the last block of an argument, `0` for an empty one. -/
def lastHeight (blocks : List Block) : Nat := (blocks.getLast?.map (·.height.toNat)).getD 0

/-- The largest of `v` and the last heights of `args`: `max(current, upTo)` over the calls. -/
def advancedTo (v : Nat) (args : List (List Block)) : Nat :=
  args.foldr (fun blocks m => max (lastHeight blocks) m) v

/-- The persisted height, when the metadata holds a decimal `uint64`. -/
def persistedHeight (s : Store) : Option UInt64 :=
  match s.getMetadata lastSubmittedHeightKey with
  | .ok raw => (parseUint raw).toOption
  | .error _ => none

@[simp] theorem persistedHeight_setMetadata (s : Store) (v : UInt64) :
    persistedHeight (s.setMetadata lastSubmittedHeightKey (formatUint v)) = some v := by
  simp [persistedHeight, parseUint_formatUint, Except.toOption]

theorem removeEnter_lastHeight {pb : PendingBlocks} {blocks : List Block} {pc : RemovePc}
    (h : removeEnter pb blocks = some pc) :
    ∃ latest, pc = .loaded latest pb.lastSubmittedHeight ∧
      pb.lastSubmittedHeight < latest ∧ lastHeight blocks = latest.toNat := by
  obtain ⟨last, hlast, rfl, hlt⟩ := removeEnter_eq_some h
  exact ⟨last.height, rfl, hlt, by simp [lastHeight, hlast]⟩

/-! ## Interleavings that lose or reorder an advance -/

/-- Two calls load `0`; the one acknowledging height `1` swaps first, so the swap of the one
acknowledging height `2` fails and is not retried. All calls have returned, and the value is
`1`, not `max(0, 1, 2)`. -/
theorem removeSubmittedBlocks_lost_update :
    ¬ ∀ w0 w, w0.calls = [] → Relation.ReflTransGen (RemoveStep fun _ => True) w0 w →
      w.calls = [] → ∃ args, w.acked = args ++ w0.acked ∧
        w.pb.lastSubmittedHeight.toNat = advancedTo w0.pb.lastSubmittedHeight.toNat args := by
  intro h
  have run := ((((Relation.ReflTransGen.single
    (@RemoveStep.call (fun _ => True) World.init [⟨⟨1⟩⟩])).tail
    (.call _ [⟨⟨1⟩⟩, ⟨⟨2⟩⟩])).tail
    (@RemoveStep.advance _ _ [.remove (.loaded 2 0)] [] _ _ _ _ rfl (.cas _ 1 0)
      (by simp))).tail
    (@RemoveStep.advance _ _ [] [.remove (.swapped 1)] _ _ _ _ rfl (.cas _ 2 0)
      (by simp))).tail
    (@RemoveStep.advance _ _ [] [] _ _ _ _ rfl (.write _ 1 true) (by simp))
  obtain ⟨args, hargs, hmax⟩ := h _ _ rfl run rfl
  simp only [World.init, List.append_nil] at hargs
  subst hargs
  revert hmax
  decide

/-- Two calls swap in `1` and then `2`, but their writes land in the other order: the
persisted height goes from `2` down to `1`, and once all calls have returned with every write
successful it is `1` while the in-memory value is `2`. -/
theorem removeSubmittedBlocks_writes_out_of_order :
    (¬ ∀ w0 w1 w2, w0.calls = [] → Relation.ReflTransGen (RemoveStep fun _ => True) w0 w1 →
      Relation.ReflTransGen (RemoveStep fun _ => True) w1 w2 → ∀ a b,
        persistedHeight w1.pb.store = some a → persistedHeight w2.pb.store = some b →
          a ≤ b) ∧
    (¬ ∀ w0 w, w0.calls = [] → Relation.ReflTransGen (RemoveStep (· = true)) w0 w →
      w.calls = [] → persistedHeight w.pb.store = some w.pb.lastSubmittedHeight) := by
  let mid : World :=
    { pb := { store := World.init.pb.store.setMetadata lastSubmittedHeightKey (formatUint 2),
              lastSubmittedHeight := 2 }
      calls := [.remove (.swapped 1)]
      returned := []
      acked := [[⟨⟨1⟩⟩, ⟨⟨2⟩⟩], [⟨⟨1⟩⟩]] }
  have first : ∀ writes : Bool → Prop, writes true →
      Relation.ReflTransGen (RemoveStep writes) World.init mid := fun writes hw =>
    ((((Relation.ReflTransGen.single (RemoveStep.call World.init [⟨⟨1⟩⟩])).tail
      (@RemoveStep.advance _ _ [] [] _ _ _ _ rfl (.cas _ 1 0) (by simp))).tail
      (.call _ [⟨⟨1⟩⟩, ⟨⟨2⟩⟩])).tail
      (@RemoveStep.advance _ _ [] [.remove (.swapped 1)] _ _ _ _ rfl (.cas _ 2 1)
        (by simp))).tail
      (@RemoveStep.advance _ _ [] [.remove (.swapped 1)] _ _ _ _ rfl (.write _ 2 true)
        (by simpa using hw))
  have last : ∀ writes : Bool → Prop, writes true → RemoveStep writes mid
      { mid with
        pb := { store := mid.pb.store.setMetadata lastSubmittedHeightKey (formatUint 1),
                lastSubmittedHeight := 2 }
        calls := [] } := fun writes hw =>
    @RemoveStep.advance _ mid [] [] _ _ _ _ rfl (.write _ 1 true) (by simpa using hw)
  refine ⟨fun h => ?_, fun h => ?_⟩
  · have := h _ _ _ rfl (first _ trivial) (.single (last _ trivial)) 2 1
      (persistedHeight_setMetadata _ 2) (persistedHeight_setMetadata _ 1)
    exact absurd this (by decide)
  · have := h _ _ rfl ((first (· = true) rfl).tail (last (· = true) rfl)) rfl
    rw [persistedHeight_setMetadata] at this
    exact absurd this (by decide)

/-! ## Calls one after another -/

theorem removeSubmittedBlocks_of_removeEnter_none {pb : PendingBlocks} {blocks : List Block}
    (h : removeEnter pb blocks = none) (written : Bool) :
    removeSubmittedBlocks pb blocks written = pb := by
  cases hlast : blocks.getLast? with
  | none => simp only [removeSubmittedBlocks, hlast]
  | some last =>
    by_cases hlt : last.height > pb.lastSubmittedHeight
    · simp [removeEnter, hlast, hlt] at h
    · simp only [removeSubmittedBlocks, hlast, if_neg hlt]

theorem removeSubmittedBlocks_of_removeEnter_some {pb : PendingBlocks} {blocks : List Block}
    {latest old : UInt64} (h : removeEnter pb blocks = some (.loaded latest old)) (written : Bool) :
    removeSubmittedBlocks pb blocks written =
      if written then
        { store := pb.store.setMetadata lastSubmittedHeightKey (formatUint latest)
          lastSubmittedHeight := latest }
      else { pb with lastSubmittedHeight := latest } := by
  cases hlast : blocks.getLast? with
  | none => simp [removeEnter, hlast] at h
  | some last =>
    by_cases hlt : last.height > pb.lastSubmittedHeight
    · simp only [removeEnter, hlast, if_pos hlt, Option.some.injEq, RemovePc.loaded.injEq] at h
      obtain ⟨rfl, rfl⟩ := h
      simp only [removeSubmittedBlocks, hlast, if_pos hlt, compareAndSwap_self]
      cases written <;> rfl
    · simp [removeEnter, hlast, hlt] at h

theorem removeSubmittedBlocks_steps {pb : PendingBlocks} {blocks : List Block}
    {latest old : UInt64} (h : removeEnter pb blocks = some (.loaded latest old)) (written : Bool) :
    ∃ pb₁, CallStep pb (.remove (.loaded latest old)) pb₁ (some (.remove (.swapped latest)))
        .internal ∧
      CallStep pb₁ (.remove (.swapped latest)) (removeSubmittedBlocks pb blocks written) none
        (.wrote written) := by
  obtain ⟨_, hpc, -, -⟩ := removeEnter_lastHeight h
  obtain ⟨rfl, rfl⟩ := RemovePc.loaded.inj hpc
  refine ⟨_, by simpa using CallStep.cas pb latest pb.lastSubmittedHeight, ?_⟩
  rw [removeSubmittedBlocks_of_removeEnter_some h]
  cases written <;> exact .write _ latest _

theorem removeSubmittedBlocks_run (w : World) (hw : w.calls = []) (blocks : List Block)
    (written : Bool) :
    Relation.ReflTransGen (RemoveStep (· = written)) w
      { w with pb := removeSubmittedBlocks w.pb blocks written, acked := blocks :: w.acked } := by
  obtain ⟨pb, calls, returned, acked⟩ := w
  obtain rfl : calls = [] := hw
  have hcall := @RemoveStep.call (· = written) ⟨pb, [], returned, acked⟩ blocks
  cases h : removeEnter pb blocks with
  | none =>
    rw [h] at hcall
    rw [removeSubmittedBlocks_of_removeEnter_none h]
    exact .single hcall
  | some pc =>
    obtain ⟨latest, rfl, -, -⟩ := removeEnter_lastHeight h
    obtain ⟨pb₁, hcas, hwrite⟩ := removeSubmittedBlocks_steps h written
    rw [h] at hcall
    exact ((Relation.ReflTransGen.single hcall).tail
      (@RemoveStep.advance _ _ [] [] _ _ _ _ rfl hcas (by simp))).tail
      (@RemoveStep.advance _ _ [] [] _ _ _ _ rfl hwrite (by simp))

theorem removeSubmittedBlocks_lastSubmittedHeight (pb : PendingBlocks) (blocks : List Block)
    (written : Bool) :
    (removeSubmittedBlocks pb blocks written).lastSubmittedHeight.toNat =
      max (lastHeight blocks) pb.lastSubmittedHeight.toNat := by
  cases h : removeEnter pb blocks with
  | none =>
    rw [removeSubmittedBlocks_of_removeEnter_none h]
    simp only [removeEnter] at h
    cases hlast : blocks.getLast? with
    | none => simp [lastHeight, hlast]
    | some last =>
      rw [hlast] at h
      have hle : ¬ pb.lastSubmittedHeight < last.height := fun hlt => by simp [hlt] at h
      have := uint64_lt_iff.not.mp hle
      simp only [lastHeight, hlast, Option.map_some', Option.getD_some]
      omega
  | some pc =>
    obtain ⟨latest, rfl, hlt, hlh⟩ := removeEnter_lastHeight h
    rw [removeSubmittedBlocks_of_removeEnter_some h, hlh]
    have := uint64_lt_iff.mp hlt
    cases written <;> simp <;> omega

theorem advancedTo_append (v : Nat) (xs ys : List (List Block)) :
    advancedTo v (xs ++ ys) = advancedTo (advancedTo v ys) xs :=
  List.foldr_append _ _ _ _

theorem le_advancedTo (v : Nat) (args : List (List Block)) : v ≤ advancedTo v args := by
  induction args with
  | nil => exact le_rfl
  | cons blocks args ih => exact ih.trans (le_max_right _ _)

theorem lastHeight_le_advancedTo {blocks : List Block} {args : List (List Block)}
    (h : blocks ∈ args) (v : Nat) : lastHeight blocks ≤ advancedTo v args := by
  induction args with
  | nil => cases h
  | cons b args ih =>
    rcases List.mem_cons.mp h with rfl | h
    · exact le_max_left _ _
    · exact (ih h).trans (le_max_right _ _)

theorem RemoveStep.mono {writes writes' : Bool → Prop} (hw : ∀ b, writes b → writes' b)
    {w w' : World} (h : RemoveStep writes w w') : RemoveStep writes' w w' := by
  cases h with
  | call => exact .call _ _
  | advance hcalls hstep hev => exact .advance hcalls hstep fun b hb => hw b (hev b hb)

/-- Calls made one after another, each with its argument and the outcome of its write. -/
def removeInSequence (w : World) (calls : List (List Block × Bool)) : World :=
  calls.foldl (fun w c =>
    { w with pb := removeSubmittedBlocks w.pb c.1 c.2, acked := c.1 :: w.acked }) w

theorem removeInSequence_run {writes : Bool → Prop} (calls : List (List Block × Bool))
    (hcalls : ∀ c ∈ calls, writes c.2) :
    ∀ w : World, w.calls = [] → Relation.ReflTransGen (RemoveStep writes) w
      (removeInSequence w calls) ∧ (removeInSequence w calls).calls = [] := by
  induction calls with
  | nil => exact fun w hw => ⟨.refl, hw⟩
  | cons c calls ih =>
    intro w hw
    have hc := hcalls c (List.mem_cons_self _ _)
    obtain ⟨hrun, hend⟩ := ih (fun c' hc' => hcalls c' (List.mem_cons_of_mem _ hc'))
      { w with pb := removeSubmittedBlocks w.pb c.1 c.2, acked := c.1 :: w.acked } hw
    refine ⟨.trans ?_ hrun, hend⟩
    exact (removeSubmittedBlocks_run w hw c.1 c.2).mono fun _ _ h => h.mono fun b hb => hb ▸ hc

theorem removeInSequence_acked (calls : List (List Block × Bool)) :
    ∀ w : World, (removeInSequence w calls).acked = (calls.map Prod.fst).reverse ++ w.acked := by
  induction calls with
  | nil => exact fun _ => rfl
  | cons c calls ih =>
    intro w
    rw [removeInSequence, List.foldl_cons, ← removeInSequence, ih]
    simp

theorem removeInSequence_lastSubmittedHeight (calls : List (List Block × Bool)) :
    ∀ w : World, (removeInSequence w calls).pb.lastSubmittedHeight.toNat =
      advancedTo w.pb.lastSubmittedHeight.toNat (calls.map Prod.fst).reverse := by
  induction calls with
  | nil => exact fun _ => rfl
  | cons c calls ih =>
    intro w
    rw [removeInSequence, List.foldl_cons, ← removeInSequence, ih, List.map_cons,
      List.reverse_cons, advancedTo_append, removeSubmittedBlocks_lastSubmittedHeight]
    rfl

/-! ## What one step of a call does -/

theorem CallStep.remove_cases {pb pb' : PendingBlocks} {pc : RemovePc} {next : Option Call}
    {ev : Event} (h : CallStep pb (.remove pc) pb' next ev) :
    (∃ latest old, pc = .loaded latest old ∧ ev = .internal ∧
      ((pb.lastSubmittedHeight = old ∧ pb' = { pb with lastSubmittedHeight := latest } ∧
          next = some (.remove (.swapped latest))) ∨
        (pb.lastSubmittedHeight ≠ old ∧ pb' = pb ∧ next = none))) ∨
    (∃ latest written, pc = .swapped latest ∧ ev = .wrote written ∧ next = none ∧
      pb' = { pb with store := if written then
        pb.store.setMetadata lastSubmittedHeightKey (formatUint latest) else pb.store }) := by
  cases h with
  | cas latest old =>
    refine .inl ⟨latest, old, rfl, rfl, ?_⟩
    by_cases hold : pb.lastSubmittedHeight = old
    · subst hold
      exact .inl ⟨rfl, by simp, by simp⟩
    · exact .inr ⟨hold, by simp [compareAndSwap_of_ne _ hold],
        by simp [compareAndSwap_of_ne _ hold]⟩
  | write latest written =>
    exact .inr ⟨latest, written, rfl, rfl, rfl, by cases written <;> rfl⟩

/-! ## Between the start and the largest last height -/

def IsLastOf (args : List (List Block)) (latest : UInt64) : Prop :=
  ∃ blocks ∈ args, lastHeight blocks = latest.toNat

theorem IsLastOf.cons {args : List (List Block)} {latest : UInt64} (h : IsLastOf args latest)
    (blocks : List Block) : IsLastOf (blocks :: args) latest :=
  let ⟨b, hb, he⟩ := h
  ⟨b, List.mem_cons_of_mem _ hb, he⟩

/-- What an in-flight call carries: the height it will swap in is a last height of an
argument, and its `Load` saw a smaller value. -/
def CallFromArgs (args : List (List Block)) : Call → Prop
  | .remove (.loaded latest old) => old < latest ∧ IsLastOf args latest
  | .remove (.swapped latest) => IsLastOf args latest
  | .get _ => False

theorem CallFromArgs.cons {args : List (List Block)} {c : Call} (h : CallFromArgs args c)
    (blocks : List Block) : CallFromArgs (blocks :: args) c := by
  match c, h with
  | .remove (.loaded _ _), h => exact ⟨h.1, IsLastOf.cons h.2 blocks⟩
  | .remove (.swapped _), h => exact IsLastOf.cons h blocks

/-- The invariant of concurrent calls started in `w0`, where `args` are the arguments passed
since: the value has not gone below its start, and it is its start or a last height of one
of `args`. -/
structure WithinCalls (w0 : World) (args : List (List Block)) (w : World) : Prop where
  acked : w.acked = args ++ w0.acked
  above : w0.pb.lastSubmittedHeight.toNat ≤ w.pb.lastSubmittedHeight.toNat
  source : w.pb.lastSubmittedHeight = w0.pb.lastSubmittedHeight ∨
    IsLastOf args w.pb.lastSubmittedHeight
  calls : ∀ c ∈ w.calls, CallFromArgs args c

theorem WithinCalls.step {writes : Bool → Prop} {w0 w w' : World} {args : List (List Block)}
    (hi : WithinCalls w0 args w) (h : RemoveStep writes w w') :
    ∃ args', WithinCalls w0 args' w' := by
  cases h with
  | call blocks =>
    refine ⟨blocks :: args, by simp [hi.acked], hi.above,
      hi.source.imp_right (·.cons blocks), fun c hc => ?_⟩
    rcases List.mem_append.mp hc with hc | hc
    · obtain ⟨pc, hpc, rfl⟩ := List.mem_map.mp hc
      obtain ⟨latest, rfl, hlt, hlast⟩ := removeEnter_lastHeight (Option.mem_toList.mp hpc)
      exact ⟨hlt, blocks, List.mem_cons_self _ _, hlast⟩
    · exact (hi.calls c hc).cons blocks
  | @advance pre post pc pb' next ev hcalls hstep _ =>
    have hc := hi.calls _ (hcalls ▸ List.mem_append_right _ (List.mem_cons_self _ _))
    have hrest : ∀ c ∈ pre ++ next.toList ++ post, c ∈ next ∨ CallFromArgs args c :=
      fun c h' => (mem_of_mem_splice h').elim (fun h'' => .inr (hi.calls c (hcalls ▸ h''))) .inl
    refine ⟨args, ?_⟩
    obtain ⟨latest, old, rfl, -, ⟨rfl, rfl, rfl⟩ | ⟨-, rfl, rfl⟩⟩ |
      ⟨latest, written, rfl, -, rfl, rfl⟩ := hstep.remove_cases
    · have hlt := uint64_lt_iff.mp hc.1
      refine ⟨hi.acked, by have := hi.above; dsimp only; omega, .inr hc.2, fun c h' => ?_⟩
      rcases hrest c h' with h' | h'
      · obtain rfl := Option.mem_some_iff.mp h'
        exact hc.2
      · exact h'
    · exact ⟨hi.acked, hi.above, hi.source, fun c h' => (hrest c h').elim (by simp) id⟩
    · exact ⟨hi.acked, hi.above, hi.source, fun c h' => (hrest c h').elim (by simp) id⟩

theorem WithinCalls.run {writes : Bool → Prop} {w0 w : World} (hw0 : w0.calls = [])
    (h : Relation.ReflTransGen (RemoveStep writes) w0 w) : ∃ args, WithinCalls w0 args w := by
  induction h with
  | refl => exact ⟨[], rfl, le_rfl, .inl rfl, by simp [hw0]⟩
  | tail _ hs ih =>
    obtain ⟨args, hi⟩ := ih
    exact hi.step hs

/-- What concurrent calls do guarantee. Over every interleaving, the value stays between its
start and the largest last height of the arguments passed, and it is its start or one of
those heights; calls that do not overlap reach the largest. -/
theorem removeSubmittedBlocks_within_calls :
    (∀ w0 w, w0.calls = [] → Relation.ReflTransGen (RemoveStep fun _ => True) w0 w →
      ∃ args, w.acked = args ++ w0.acked ∧
        w0.pb.lastSubmittedHeight.toNat ≤ w.pb.lastSubmittedHeight.toNat ∧
        w.pb.lastSubmittedHeight.toNat ≤ advancedTo w0.pb.lastSubmittedHeight.toNat args ∧
        (w.pb.lastSubmittedHeight = w0.pb.lastSubmittedHeight ∨
          ∃ blocks ∈ args, lastHeight blocks = w.pb.lastSubmittedHeight.toNat)) ∧
    (∀ w0 calls, w0.calls = [] →
      Relation.ReflTransGen (RemoveStep fun _ => True) w0 (removeInSequence w0 calls) ∧
      (removeInSequence w0 calls).calls = [] ∧
      (removeInSequence w0 calls).acked = (calls.map Prod.fst).reverse ++ w0.acked ∧
      (removeInSequence w0 calls).pb.lastSubmittedHeight.toNat =
        advancedTo w0.pb.lastSubmittedHeight.toNat (calls.map Prod.fst).reverse) := by
  refine ⟨fun w0 w hw0 hrun => ?_, fun w0 calls hw0 => ?_⟩
  · obtain ⟨args, hi⟩ := WithinCalls.run hw0 hrun
    refine ⟨args, hi.acked, hi.above, ?_, hi.source⟩
    rcases hi.source with heq | ⟨blocks, hb, hlast⟩
    · exact heq ▸ le_advancedTo _ args
    · exact hlast ▸ lastHeight_le_advancedTo hb _
  · obtain ⟨hrun, hend⟩ :=
      @removeInSequence_run (fun _ => True) calls (fun _ _ => trivial) w0 hw0
    exact ⟨hrun, hend, removeInSequence_acked calls w0,
      removeInSequence_lastSubmittedHeight calls w0⟩

/-! ## The persisted height stays below the in-memory one -/

/-- An in-flight call against the in-memory value `lsh`: a pending `CompareAndSwap` raises
the value its `Load` saw, and a pending `SetMetadata` writes at most `lsh`. -/
def WritesBelow (lsh : UInt64) : Call → Prop
  | .remove (.loaded latest old) => old < latest
  | .remove (.swapped latest) => latest ≤ lsh
  | .get _ => False

theorem WritesBelow.mono {lsh lsh' : UInt64} (hle : lsh ≤ lsh') {c : Call}
    (h : WritesBelow lsh c) : WritesBelow lsh' c := by
  match c, h with
  | .remove (.loaded _ _), h => exact h
  | .remove (.swapped _), h => exact UInt64.le_trans h hle

/-- The persisted height is at most the in-memory one, and so is every pending write. -/
structure PersistedBelow (w : World) : Prop where
  persisted : ∀ v, persistedHeight w.pb.store = some v → v ≤ w.pb.lastSubmittedHeight
  calls : ∀ c ∈ w.calls, WritesBelow w.pb.lastSubmittedHeight c

theorem PersistedBelow.step {writes : Bool → Prop} {w w' : World} (hi : PersistedBelow w)
    (h : RemoveStep writes w w') : PersistedBelow w' := by
  cases h with
  | call blocks =>
    refine ⟨hi.persisted, fun c hc => ?_⟩
    rcases List.mem_append.mp hc with hc | hc
    · obtain ⟨pc, hpc, rfl⟩ := List.mem_map.mp hc
      obtain ⟨latest, rfl, hlt, -⟩ := removeEnter_lastHeight (Option.mem_toList.mp hpc)
      exact hlt
    · exact hi.calls c hc
  | @advance pre post pc pb' next ev hcalls hstep _ =>
    have hc := hi.calls _ (hcalls ▸ List.mem_append_right _ (List.mem_cons_self _ _))
    have hrest : ∀ c ∈ pre ++ next.toList ++ post,
        c ∈ next ∨ WritesBelow w.pb.lastSubmittedHeight c :=
      fun c h' => (mem_of_mem_splice h').elim (fun h'' => .inr (hi.calls c (hcalls ▸ h''))) .inl
    obtain ⟨latest, old, rfl, -, ⟨rfl, rfl, rfl⟩ | ⟨-, rfl, rfl⟩⟩ |
      ⟨latest, written, rfl, -, rfl, rfl⟩ := hstep.remove_cases
    · have hle : w.pb.lastSubmittedHeight ≤ latest :=
        uint64_le_iff.mpr (Nat.le_of_lt (uint64_lt_iff.mp hc))
      refine ⟨fun v hv => UInt64.le_trans (hi.persisted v hv) hle, fun c h' => ?_⟩
      rcases hrest c h' with h' | h'
      · obtain rfl := Option.mem_some_iff.mp h'
        exact UInt64.le_refl _
      · exact h'.mono hle
    · exact ⟨hi.persisted, fun c h' => (hrest c h').elim (by simp) id⟩
    · refine ⟨fun v hv => ?_, fun c h' => (hrest c h').elim (by simp) id⟩
      cases written
      · exact hi.persisted v hv
      · simp only [if_true, persistedHeight_setMetadata, Option.some.injEq] at hv
        exact hv ▸ hc

def Mirrored (pb : PendingBlocks) : Prop :=
  persistedHeight pb.store = some pb.lastSubmittedHeight ∨
    (pb.lastSubmittedHeight = 0 ∧ persistedHeight pb.store = none)

theorem Mirrored.removeSubmittedBlocks {pb : PendingBlocks} (h : Mirrored pb)
    (blocks : List Block) : Mirrored (removeSubmittedBlocks pb blocks true) := by
  cases hpc : removeEnter pb blocks with
  | none => rwa [removeSubmittedBlocks_of_removeEnter_none hpc]
  | some pc =>
    obtain ⟨latest, rfl, -, -⟩ := removeEnter_lastHeight hpc
    rw [removeSubmittedBlocks_of_removeEnter_some hpc, if_pos rfl]
    exact .inl (persistedHeight_setMetadata _ _)

theorem removeInSequence_mirrored (calls : List (List Block × Bool))
    (hcalls : ∀ c ∈ calls, c.2 = true) :
    ∀ w : World, Mirrored w.pb → Mirrored (removeInSequence w calls).pb := by
  induction calls with
  | nil => exact fun _ h => h
  | cons c calls ih =>
    intro w h
    have hc := hcalls c (List.mem_cons_self _ _)
    rw [removeInSequence, List.foldl_cons, ← removeInSequence]
    refine ih (fun c' hc' => hcalls c' (List.mem_cons_of_mem _ hc')) _ ?_
    rw [hc]
    exact h.removeSubmittedBlocks c.1

/-- What does hold of the persisted height. Over every interleaving it stays at most the
in-memory value, if it was so at the start; calls that do not overlap and whose writes all
succeed keep it equal to the in-memory value, which does not decrease. -/
theorem persisted_le_lastSubmittedHeight :
    (∀ w0 w, w0.calls = [] →
      (∀ v, persistedHeight w0.pb.store = some v → v ≤ w0.pb.lastSubmittedHeight) →
      Relation.ReflTransGen (RemoveStep fun _ => True) w0 w →
      ∀ v, persistedHeight w.pb.store = some v → v ≤ w.pb.lastSubmittedHeight) ∧
    (∀ w0 calls, w0.calls = [] → Mirrored w0.pb → (∀ c ∈ calls, c.2 = true) →
      Relation.ReflTransGen (RemoveStep (· = true)) w0 (removeInSequence w0 calls) ∧
      (removeInSequence w0 calls).calls = [] ∧ Mirrored (removeInSequence w0 calls).pb ∧
      w0.pb.lastSubmittedHeight ≤ (removeInSequence w0 calls).pb.lastSubmittedHeight) := by
  refine ⟨fun w0 w hw0 hp0 hrun => ?_, fun w0 calls hw0 hm hcalls => ?_⟩
  · have hi : PersistedBelow w := by
      induction hrun with
      | refl => exact ⟨hp0, by simp [hw0]⟩
      | tail _ hs ih => exact ih.step hs
    exact hi.persisted
  · obtain ⟨hrun, hend⟩ := @removeInSequence_run (· = true) calls hcalls w0 hw0
    refine ⟨hrun, hend, removeInSequence_mirrored calls hcalls w0 hm, ?_⟩
    rw [uint64_le_iff, removeInSequence_lastSubmittedHeight]
    exact le_advancedTo _ _

end Rollmint.PendingBlocks

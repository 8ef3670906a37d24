import FineGrain.Proofs.Hook.Creation
import FineGrain.Proofs.World.Release
/-!
Giving up what has other owners, and disposing hooks. A disposed hook stops tracking, gives up what it
lists and runs the cleanup that it has kept.
-/

namespace FineGrain

open Act Hook

namespace World

variable {host : Host} {w w' w'' : World} {s h : Nat} {x : Signal} {y : HookSlot}
  {things rest : List Owned} {o : Owned}

/-- Parts in states and memos that have other owners. The queued commit of a state owns it too, but
goes away before long. -/
structure Spare (w : World) (things : List Owned) : Prop where
  effects : ∀ e, .effect e ∉ things
  signals : ∀ s x, .signal s ∈ things → w.signals.get? s = some x →
    things.count (.signal s) + (if x.dirty then 1 else 0) < x.clones
  memos : ∀ k z, .memo k ∈ things → w.memos.get? k = some z →
    things.count (.memo k) < z.owners

theorem Upheld.refl (w : World) : w.Upheld w :=
  .of_rest rfl (Nat.le_refl _) (fun _ => id) (fun _ _ => id) w.memos_refl fun _ => id

theorem Upheld.timing (hu : w.Upheld w') : w'.timing? = w.timing? := by
  funext e
  rw [timing?, hu.rest, timing?]

theorem Upheld.trans (hu : w.Upheld w') (hu' : w'.Upheld w'') : w.Upheld w'' where
  next := Nat.le_trans hu.next hu'.next
  present := fun s hs => hu'.present s (hu.present s hs)
  absent := fun s hs hn => by
    have hle := hu.next
    have hle' := hu'.next
    exact hu'.absent s (by omega) (hu.absent s (by omega) hn)
  memos := fun k => by
    obtain ⟨c, b, n, hk⟩ := hu.memos k
    obtain ⟨c', b', n', hk'⟩ := hu'.memos k
    exact ⟨c', b', n', by rw [hk', hk]; cases w.memos.get? k <;> rfl⟩
  effects := fun e he => hu'.effects e (hu.effects e he)
  hooks := fun h y hy => by
    obtain ⟨y', hy', hd'⟩ := hu'.hooks h y hy
    obtain ⟨y'', hy'', hd⟩ := hu.hooks h y' hy'
    exact ⟨y'', hy'', hd'.trans hd⟩
  rest := by
    rw [hu'.rest, hu.rest]
  queued := fun l hl => hu'.queued l (hu.queued l hl)
  observers := hu'.observers.trans hu.observers
  pending := hu'.pending.trans hu.pending
  flushQueued := hu'.flushQueued.trans hu.flushQueued
  sound := hu'.sound ∘ hu.sound
  edges := fun e he s => (hu'.edges e (hu.timing ▸ he) s).trans (hu.edges e he s)

/-! ### Giving up -/

theorem dropSignal_spare (hx : w.signals.get? s = some x)
    (hc : 1 + (if x.dirty then 1 else 0) < x.clones) :
    w.dropSignal s = { w with
      signals := w.signals.put s { x with clones := x.clones - 1 } } ∧
    w.Upheld (w.dropSignal s) := by
  have hdrop : w.dropSignal s = { w with
      signals := w.signals.put s { x with clones := x.clones - 1 } } := by
    simp only [dropSignal, hx]
    rw [if_neg (by split at hc <;> omega)]
  refine ⟨hdrop, ?_⟩
  rw [hdrop]
  -- One handle fewer is still enough for the commit of a dirty state, which holds one of its own.
  refine .of_rest rfl (Nat.le_refl _) (fun t ht => ?_) (fun t _ ht => ?_) w.memos_refl
    fun l hl => ⟨hl.nodup, fun t => ?_, fun t x' hx' => ?_⟩
  · rw [Store.get?_put]
    split
    · rfl
    · exact ht
  · rw [Store.get?_put]
    split
    · rename_i hts
      simp [hts, hx] at ht
    · exact ht
  · rw [Store.get?_put, hl.dirty]
    by_cases hts : t = s
    · simp [hts, hx]
    · simp [hts]
  · rw [Store.get?_put] at hx'
    split at hx'
    · obtain rfl := Option.some.inj hx'
      have hs := hl.steady s x hx
      refine ⟨hs.readers, hs.writing, ?_, fun hd => ⟨(hs.pending hd).1, ?_⟩, hs.clean⟩
      · have hc' : 1 < x.clones := by split at hc <;> omega
        exact Nat.sub_pos_of_lt hc'
      · have hd' : x.dirty = true := hd
        simp only [hd', if_true] at hc
        exact Nat.lt_sub_of_add_lt hc
    · exact hl.steady t x' hx'

theorem dropMemo_spare {k : Nat} {z : Memo} (hz : w.memos.get? k = some z) (ho : 1 < z.owners) :
    w.dropMemo k = ([], { w with
      memos := w.memos.put k { z with owners := z.owners - 1 } }) ∧
    w.Upheld (w.dropMemo k).2 := by
  have hdrop : w.dropMemo k = ([], { w with
      memos := w.memos.put k { z with owners := z.owners - 1 } }) := by
    simp only [dropMemo, hz]
    rw [if_neg (by omega)]
  refine ⟨hdrop, ?_⟩
  rw [hdrop]
  refine .of_rest rfl (Nat.le_refl _) (fun _ => id) (fun _ _ => id) (fun j => ?_)
    fun l hl => ⟨hl.nodup, hl.dirty, hl.steady⟩
  rw [Store.get?_put]
  split
  · rename_i hj
    exact ⟨z.cache, z.bound, z.owners - 1, by rw [hj, hz]; rfl⟩
  · exact w.memos_refl j

theorem Spare.tail (hs : w.Spare (o :: rest)) : w.Spare rest := by
  have hle (a : Owned) : rest.count a ≤ (o :: rest).count a := by
    rw [List.count_cons]
    omega
  have hmem {a : Owned} (ha : a ∈ rest) : a ∈ o :: rest := List.mem_cons_of_mem _ ha
  refine ⟨fun e he => hs.effects e (hmem he), fun s x hm hx => ?_, fun k z hm hz => ?_⟩
  · exact Nat.lt_of_le_of_lt (Nat.add_le_add_right (hle _) _) (hs.signals s x (hmem hm) hx)
  · exact Nat.lt_of_le_of_lt (hle _) (hs.memos k z (hmem hm) hz)

theorem Spare.dropSignal (hs : w.Spare (.signal s :: rest)) :
    w.Upheld (w.dropSignal s) ∧ (w.dropSignal s).Spare rest := by
  cases hx : w.signals.get? s with
  | none =>
    have hdrop : w.dropSignal s = w := by simp [World.dropSignal, hx]
    rw [hdrop]
    exact ⟨.refl w, hs.tail⟩
  | some x =>
    have hspare := hs.signals s x List.mem_cons_self hx
    rw [List.count_cons_self] at hspare
    obtain ⟨hdrop, hu⟩ := dropSignal_spare hx (by omega)
    refine ⟨hu, ?_⟩
    rw [hdrop]
    refine ⟨hs.tail.effects, fun t x' hm hx' => ?_, hs.tail.memos⟩
    rcases Store.of_put hx' with ⟨rfl, rfl⟩ | hx'
    · rw [Nat.add_right_comm] at hspare
      exact Nat.lt_sub_of_add_lt hspare
    · exact hs.tail.signals t x' hm hx'

theorem Spare.dropMemo {k : Nat} (hs : w.Spare (.memo k :: rest)) :
    (w.dropMemo k).1 = [] ∧ w.Upheld (w.dropMemo k).2 ∧ (w.dropMemo k).2.Spare rest := by
  cases hz : w.memos.get? k with
  | none =>
    have hdrop : w.dropMemo k = ([], w) := by simp [World.dropMemo, hz]
    rw [hdrop]
    exact ⟨rfl, .refl w, hs.tail⟩
  | some z =>
    have hspare := hs.memos k z List.mem_cons_self hz
    rw [List.count_cons_self] at hspare
    obtain ⟨hdrop, hu⟩ := dropMemo_spare hz (by omega)
    refine ⟨congrArg Prod.fst hdrop, hu, ?_⟩
    rw [hdrop]
    refine ⟨hs.tail.effects, hs.tail.signals, fun j z' hm hz' => ?_⟩
    rcases Store.of_put hz' with ⟨rfl, rfl⟩ | hz'
    · exact Nat.lt_sub_of_add_lt hspare
    · exact hs.tail.memos j z' hm hz'

theorem Spare.dropOne (hs : w.Spare (o :: rest)) (hp : w.probes = .empty) :
    (w.dropOne o).1 = [] ∧ w.Upheld (w.dropOne o).2 ∧ (w.dropOne o).2.Spare rest := by
  cases o with
  | signal s => exact ⟨rfl, hs.dropSignal⟩
  | memo k => exact hs.dropMemo
  | probe p =>
    have hdrop : w.dropProbe p = ([], w) := by
      simp [dropProbe, hp, Store.get?, Store.empty, Store.lookup]
    rw [World.dropOne, hdrop]
    exact ⟨rfl, .refl w, hs.tail⟩
  | effect e => exact absurd List.mem_cons_self (hs.effects e)

theorem Spare.giveUpSteps (hs : w.Spare things) (hp : w.probes = .empty) {n : Nat}
    (hn : things.length ≤ n) : w.Upheld (giveUpSteps n things w) := by
  induction things generalizing w n with
  | nil =>
    cases n <;> exact .refl w
  | cons o rest ih =>
    obtain ⟨n, rfl⟩ : ∃ k, n = k + 1 := ⟨n - 1, by simp only [List.length_cons] at hn; omega⟩
    obtain ⟨hnil, hu, hspare⟩ := hs.dropOne hp
    have hprobes : (w.dropOne o).2.probes = .empty := by
      rw [hu.rest]
      exact hp
    rw [World.giveUpSteps]
    have hrest := ih hspare hprobes (n := n) (by simpa using hn)
    rw [← List.nil_append rest, ← hnil] at hrest
    exact hu.trans hrest

theorem scope_dropOne (o : Owned) : (w.dropOne o).2.scope = w.scope := by
  cases o with
  | signal s =>
    simp only [dropOne, dropSignal]
    split
    · rfl
    · split <;> rfl
  | memo k =>
    simp only [dropOne, dropMemo]
    split
    · rfl
    · split <;> rfl
  | probe p =>
    simp only [dropOne, dropProbe]
    split
    · rfl
    · split <;> rfl
  | effect e =>
    simp only [dropOne, dropEffect]
    split <;> rfl

theorem scope_giveUpSteps (n : Nat) (things : List Owned) :
    (giveUpSteps n things w).scope = w.scope := by
  induction n generalizing w things with
  | zero => rfl
  | succ n ih =>
    cases things with
    | nil => rfl
    | cons o rest => rw [World.giveUpSteps, ih, scope_dropOne]

theorem Running.giveUpSteps (hw : w.Running host) (hs : w.Spare things) {n : Nat}
    (hn : things.length ≤ n) : (giveUpSteps n things w).Running host := by
  have hu := hs.giveUpSteps hw.orderly.idle.probes hn
  exact hw.upheld hu (hu.quiet (scope_giveUpSteps ..) hw.orderly.quiet)

/-! ### Hooks that stop tracking, and hooks without a cleanup -/

end World

/-- A hook that may have stopped tracking, and that may have given up its cleanup. -/
def HookSlot.muted (y : HookSlot) (off hushed : Bool) : HookSlot :=
  { y with
    disposed := y.disposed || off
    cleanup := if hushed then none else y.cleanup }

namespace World

variable {host : Host} {w w' : World} {h k : Nat} {y z : HookSlot} {c : Cleanup} {e : NodeId} {x : Effect}

/-- Hooks are what they were, but may have stopped tracking or given up their cleanup. -/
def Muted (w w' : World) : Prop :=
  ∀ k, ∃ off hushed, w'.hooks.get? k = (w.hooks.get? k).map (·.muted off hushed)

theorem Muted.exists_of (hm : w.Muted w') (hz : w'.hooks.get? k = some z) :
    ∃ y off hushed, w.hooks.get? k = some y ∧ z = y.muted off hushed := by
  obtain ⟨off, hushed, hk⟩ := hm k
  obtain ⟨y, hy, rfl⟩ := Option.map_eq_some_iff.1 (hk.symm.trans hz)
  exact ⟨y, off, hushed, hy, rfl⟩

theorem Muted.exists_kept (hm : w.Muted w') (hy : w.hooks.get? k = some y) :
    ∃ off hushed, w'.hooks.get? k = some (y.muted off hushed) := by
  obtain ⟨off, hushed, hk⟩ := hm k
  exact ⟨off, hushed, by rw [hk, hy]; rfl⟩

theorem Quiet.muted (hq : w.Quiet host) (hm : w.Muted w') (hmemos : w'.memos = w.memos)
    (hscope : w'.scope = w.scope) : w'.Quiet host := by
  refine ⟨fun k m body hk hb => ?_, fun k z hz => ?_, fun k z c hz hc => ?_⟩
  · rw [hmemos] at hk
    exact hscope ▸ hq.factories k m body hk hb
  · obtain ⟨y, off, hushed, hy, rfl⟩ := hm.exists_of hz
    exact hscope ▸ hq.bodies k y hy
  · obtain ⟨y, off, hushed, hy, rfl⟩ := hm.exists_of hz
    exact hscope ▸ hq.cleanups k y c hy hc

theorem Staffed.muted (hs : w.Staffed) (hm : w.Muted w') (hphases : w'.phases = w.phases)
    (htasks : w'.tasks = w.tasks) : w'.Staffed := by
  refine ⟨fun p k hk => ?_, fun k z hz hqueued => ?_, ?_, ?_, ?_⟩
  · rw [hphases] at hk
    obtain ⟨y, hy, hp, hqueued⟩ := hs.lanes p k hk
    obtain ⟨off, hushed, hz⟩ := hm.exists_kept hy
    exact ⟨_, hz, hp, hqueued⟩
  · obtain ⟨y, off, hushed, hy, rfl⟩ := hm.exists_of hz
    rw [hphases]
    exact hs.queued k y hy hqueued
  · rw [hphases]
    exact hs.nodup
  · rw [hphases]
    exact hs.busy
  · rw [hphases, htasks]
    exact hs.task

theorem Wired.running_muted (hw : w.Wired) (hm : w.Muted w') (hz : w'.hooks.get? k = some z) :
    z.running = false := by
  obtain ⟨y, off, hushed, hy, rfl⟩ := hm.exists_of hz
  exact hw.running k y hy

theorem Wired.cleanup_muted (hw : w.Wired) (hm : w.Muted w') (hz : w'.hooks.get? k = some z)
    (hc : z.cleanup = some c) : z.onCleanup = some c.body := by
  obtain ⟨y, off, hushed, hy, rfl⟩ := hm.exists_of hz
  refine hw.cleanup k y c hy ?_
  rw [HookSlot.muted] at hc
  split at hc
  · cases hc
  · exact hc

theorem Muted.dependencies (hm : w.Muted w') (hz : w'.hooks.get? k = some z) :
    ∃ y, w.hooks.get? k = some y ∧ z.dependencies = y.dependencies := by
  obtain ⟨y, off, hushed, hy, rfl⟩ := hm.exists_of hz
  exact ⟨y, hy, rfl⟩

/-- A world in which a hook no longer tracks. -/
def disposing (w : World) (h : Nat) (y : HookSlot) : World :=
  { w with
    hooks := w.hooks.modify h fun y => { y with disposed := true }
    effects := w.effects.erase y.effect
    graph := w.graph.removeNode y.effect }

section Disposing

theorem get?_disposing (k : Nat) : (w.disposing h y).hooks.get? k = if k = h then
    (w.hooks.get? k).map fun y => { y with disposed := true } else w.hooks.get? k :=
  Store.get?_modify ..

theorem muted_disposing : w.Muted (w.disposing h y) := by
  intro k
  refine ⟨decide (k = h), false, ?_⟩
  rw [get?_disposing]
  by_cases hk : k = h
  · simp [hk, HookSlot.muted]
  · simp [hk, HookSlot.muted]

theorem hook_disposing (hk : k ≠ h) : (w.disposing h y).hooks.get? k = w.hooks.get? k := by
  rw [get?_disposing, if_neg hk]

theorem live_of_disposing (hz : (w.disposing h y).hooks.get? k = some z) (hlive : z.disposed = false) :
    k ≠ h ∧ w.hooks.get? k = some z := by
  rw [get?_disposing] at hz
  split at hz
  · obtain ⟨z, -, rfl⟩ := Option.map_eq_some_iff.1 hz
    cases hlive
  · rename_i hk
    exact ⟨hk, hz⟩

theorem effect_disposing (e : NodeId) : (w.disposing h y).effects.get? e =
    if e = y.effect then none else w.effects.get? e :=
  Store.get?_erase ..

theorem of_effect_disposing (hx : (w.disposing h y).effects.get? e = some x) :
    e ≠ y.effect ∧ w.effects.get? e = some x := by
  rw [effect_disposing] at hx
  split at hx
  · cases hx
  · rename_i hne
    exact ⟨hne, hx⟩

theorem pending_disposing : (w.disposing h y).graph.pending = w.graph.pending := by
  simp [disposing]

theorem Wired.effect_ne (hw : w.Wired) (hz : w.hooks.get? k = some z) (hzlive : z.disposed = false)
    (hy : w.hooks.get? h = some y) (hlive : y.disposed = false) (hk : k ≠ h) : z.effect ≠ y.effect :=
  fun he => hk (hw.hook_unique hz hzlive hy hlive he)

theorem Idle.disposing (hi : w.Idle) : (w.disposing h y).Idle := by
  refine ⟨hi.calm, hi.probes, hi.sound.remove _, fun p hp => ?_, ?_⟩
  · exact hi.rest p (List.mem_filter.1 hp).1
  · simpa [World.disposing] using hi.observers

theorem Wired.disposing (hw : w.Wired) (hy : w.hooks.get? h = some y) (hlive : y.disposed = false) :
    (w.disposing h y).Wired := by
  refine ⟨hw.readers, fun k z hz => hw.running_muted muted_disposing hz,
    fun k z c hz hc => hw.cleanup_muted muted_disposing hz hc, fun e x hx => ?_, fun k z hz hzlive => ?_⟩
  · obtain ⟨hne, hx⟩ := of_effect_disposing hx
    refine (hw.effects e x hx).imp_right ?_
    rintro ⟨k, z, hcomp, ht, hz, he, hzlive⟩
    have hk : k ≠ h := by
      rintro rfl
      obtain rfl : y = z := by simpa [hy] using hz
      exact hne he.symm
    exact ⟨k, z, hcomp, ht, (hook_disposing hk).trans hz, he, hzlive⟩
  · obtain ⟨hk, hz⟩ := live_of_disposing hz hzlive
    obtain ⟨x, hx, hcomp, ht⟩ := hw.hooks k z hz hzlive
    have hne := hw.effect_ne hz hzlive hy hlive hk
    exact ⟨x, by rw [effect_disposing, if_neg hne, hx], hcomp, ht⟩

theorem Awaited.disposing (ha : w.Awaited) : (w.disposing h y).Awaited := by
  refine ⟨?_, ?_, fun e he x hx => ?_⟩
  · simpa [World.disposing] using ha.busy
  · simpa [World.disposing] using ha.task
  · rw [pending_disposing] at he
    exact ha.deferred e he x (of_effect_disposing hx).2

theorem Queues.disposing {t : Task} (hq : w.Queues t) : (w.disposing h y).Queues t := by
  cases t with
  | firstRun e => exact fun x hx => hq x (of_effect_disposing hx).2
  | body c => exact hq
  | _ => trivial

/-- The other hooks keep their edges: what they reach is a state, and so not the effect that goes away. -/
theorem Listening.disposing (hl : w.Listening z) (hs : w.Stocked) (hg : w.graph.Sound)
    (hz : w.hooks.get? k = some z) (hne : z.effect ≠ y.effect)
    (hy : (w.effects.get? y.effect).isSome) : (w.disposing h y).Listening z := by
  have hdeclared : (w.disposing h y).declared = w.declared := by
    funext d
    cases d <;> rfl
  intro s
  have hsub : z.effect ∈ (w.disposing h y).graph.subscribers s ↔
      s ≠ y.effect ∧ z.effect ∈ w.graph.subscribers s := by
    simp only [World.disposing, hg.subscribers_remove]
    split <;> simp_all
  have hreaches : (w.disposing h y).Reaches z.list s ↔ w.Reaches z.list s :=
    ⟨.congr hdeclared.symm, .congr hdeclared⟩
  rw [hsub, hreaches, ← hl s, and_iff_right_iff_imp]
  -- The effect that goes away is no state, so it is nothing that a list reaches.
  rintro hm rfl
  have hsome := hs.isSome_of_reaches (hs.hooks k z hz) ((hl _).1 hm)
  simp [hs.apart y.effect hy] at hsome

theorem Orderly.disposing (ho : w.Orderly host) (hs : w.Stocked) (hy : w.hooks.get? h = some y)
    (hlive : y.disposed = false) : (w.disposing h y).Orderly host := by
  obtain ⟨hnodup, hdirty, hsteady⟩ := ho.queued
  refine ⟨ho.idle.disposing, ho.quiet.muted muted_disposing rfl rfl, ho.wired.disposing hy hlive,
    ho.staffed.muted muted_disposing rfl rfl, ho.awaited.disposing, ⟨hnodup, hdirty, hsteady⟩,
    fun t ht => (ho.tasks t ht).disposing, fun k z hz hzlive => ?_⟩
  obtain ⟨hk, hz⟩ := live_of_disposing hz hzlive
  obtain ⟨x, hx, -⟩ := ho.wired.hooks h y hy hlive
  exact (ho.listening k z hz hzlive).imp_right fun hl => hl.disposing hs ho.idle.sound hz
    (ho.wired.effect_ne hz hzlive hy hlive hk) (Option.isSome_of_eq_some hx)

theorem Stocked.disposing (hs : w.Stocked) : (w.disposing h y).Stocked := by
  refine hs.retained ⟨Nat.le_refl _, fun _ => id, fun _ _ => id, w.memos_refl, fun e he => ?_,
    fun _ _ => muted_disposing.dependencies⟩ (fun e he => ?_) hs.firstRuns
  · rw [effect_disposing, he, ite_self]
  · rw [pending_disposing] at he
    exact hs.pending e he

theorem Running.disposing (hw : w.Running host) (hy : w.hooks.get? h = some y)
    (hlive : y.disposed = false) : (w.disposing h y).Running host :=
  ⟨hw.orderly.disposing hw.stocked hy hlive, hw.stocked.disposing⟩

end Disposing

/-- A world in which a hook has no cleanup any more. -/
def hushing (w : World) (h : Nat) : World :=
  { w with hooks := w.hooks.modify h fun y => { y with cleanup := none } }

section Hushing

theorem muted_hushing : w.Muted (w.hushing h) := by
  intro k
  refine ⟨false, decide (k = h), ?_⟩
  rw [hushing, Store.get?_modify]
  by_cases hk : k = h
  · simp [hk, HookSlot.muted]
  · simp [hk, HookSlot.muted]

theorem live_of_hushing (hz : (w.hushing h).hooks.get? k = some z) :
    ∃ y, w.hooks.get? k = some y ∧ z = { y with cleanup := z.cleanup } := by
  rw [hushing, Store.get?_modify] at hz
  split at hz
  · obtain ⟨y, hy, rfl⟩ := Option.map_eq_some_iff.1 hz
    exact ⟨y, hy, rfl⟩
  · exact ⟨z, hz, rfl⟩

theorem hook_hushing (hy : w.hooks.get? k = some y) :
    ∃ cleanup, (w.hushing h).hooks.get? k = some { y with cleanup := cleanup } := by
  rw [hushing, Store.get?_modify]
  split
  · exact ⟨none, by rw [hy]; rfl⟩
  · exact ⟨y.cleanup, hy⟩

theorem Wired.hushing (hw : w.Wired) : (w.hushing h).Wired := by
  refine ⟨hw.readers, fun k z hz => hw.running_muted muted_hushing hz,
    fun k z c hz hc => hw.cleanup_muted muted_hushing hz hc, fun e x hx => ?_, fun k z hz hlive => ?_⟩
  · refine (hw.effects e x hx).imp_right ?_
    rintro ⟨k, y, hcomp, ht, hy, he, hlive⟩
    obtain ⟨cleanup, hz⟩ := hook_hushing (h := h) hy
    exact ⟨k, _, hcomp, ht, hz, he, hlive⟩
  · obtain ⟨y, hy, hz'⟩ := live_of_hushing hz
    rw [hz'] at hlive ⊢
    exact hw.hooks k y hy hlive

theorem Orderly.hushing (ho : w.Orderly host) : (w.hushing h).Orderly host := by
  obtain ⟨hcalm, hprobes, hsound, hrest, hobservers⟩ := ho.idle
  obtain ⟨hnodup, hdirty, hsteady⟩ := ho.queued
  refine ⟨⟨hcalm, hprobes, hsound, hrest, hobservers⟩, ho.quiet.muted muted_hushing rfl rfl,
    ho.wired.hushing, ho.staffed.muted muted_hushing rfl rfl,
    ⟨ho.awaited.busy, ho.awaited.task, ho.awaited.deferred⟩, ⟨hnodup, hdirty, hsteady⟩,
    fun t ht => (ho.tasks t ht).congr rfl, fun k z hz hlive => ?_⟩
  obtain ⟨y, hy, hz'⟩ := live_of_hushing hz
  rw [hz'] at hlive ⊢
  refine (ho.listening k y hy hlive).imp_right fun hl => hl.congr ?_ rfl rfl fun _ => Iff.rfl
  funext d
  cases d <;> rfl

theorem Running.hushing (hw : w.Running host) (h : Nat) : (w.hushing h).Running host :=
  ⟨hw.orderly.hushing, hw.stocked.retained ⟨Nat.le_refl _, fun _ => id, fun _ _ => id, w.memos_refl,
    fun _ => id, fun _ _ => muted_hushing.dependencies⟩ hw.stocked.pending hw.stocked.firstRuns⟩

end Hushing

/-! ### Disposing -/

theorem Running.cleanup (hw : w.Running host) (hy : w.hooks.get? h = some y) :
    ∃ w', w.run (runCleanup host h) = (.ok ⟨⟩, w') ∧ w'.Running host := by
  cases hc : y.cleanup with
  | none => exact ⟨w, by simp [runCleanup, run_bind, hy, hc], hw⟩
  | some c =>
    have hw' := hw.hushing h
    have hi := hw'.orderly.idle
    have hbody := hw.orderly.wired.cleanup h y c hy hc
    obtain ⟨v, w', hrun, hl⟩ := hw.orderly.quiet.cleanups h y c.body hy hbody c.argument
      (w.hushing h) rfl hi.calm hi.probes
    refine ⟨w', ?_, ?_⟩
    · have hrun' : ({ w with
          hooks := w.hooks.modify h fun y => { y with cleanup := none } } : World).run
            (host.call c.body [c.argument]) = (.ok v, w') := hrun
      simp [runCleanup, modifyHook, run_bind, run_map, hy, hc, hrun']
    · obtain ⟨lines, refs, sources, rfl⟩ := hl
      rw [Graph.trackAll_unobserved (by simp [Graph.observer?, hi.observers])]
      have hq := hw'.orderly.quiet
      exact hw'.aside rfl (Nat.le_refl _) ⟨hq.factories, hq.bodies, hq.cleanups⟩

theorem length_list_le (hy : w.hooks.get? h = some y) : y.list.length ≤ w.ownedCount := by
  have hm := Store.mem_of_get? hy
  have hsub : y.list.Sublist (w.hooks.entries.flatMap fun e => e.2.dependencies.getD []) := by
    rw [List.flatMap_def]
    exact List.sublist_flatten_of_mem (List.mem_map.2 ⟨_, hm, rfl⟩)
  have hle := hsub.length_le
  rw [ownedCount]
  omega

theorem Running.dispose (hw : w.Running host) (hy : w.hooks.get? h = some y)
    (hlive : y.disposed = false) (hs : w.Spare (Dependency.allOwned y.list)) :
    ∃ w', w.run (disposeHook host h) = (.ok ⟨⟩, w') ∧ w'.Running host := by
  obtain ⟨x, hx, hcomp, _⟩ := hw.orderly.wired.hooks h y hy hlive
  let u : World := { w with hooks := w.hooks.modify h fun y => { y with disposed := true } }
  have hyu : u.hooks.get? h = some { y with disposed := true } := by
    simp [u, Store.get?_modify, hy]
  have hdrop : u.dropEffect y.effect = (Dependency.allOwned y.list, w.disposing h y) := by
    have hxu : u.effects.get? y.effect = some x := hx
    have howned : u.computationOwned x.computation = Dependency.allOwned y.list := by
      rw [hcomp, computationOwned, hyu]
      rfl
    simp only [dropEffect, hxu, howned]
    rfl
  have hgive : u.giveUp [.effect y.effect] =
      World.giveUpSteps (u.ownedCount + 1) (Dependency.allOwned y.list) (w.disposing h y) := by
    have hsteps : u.giveUp [.effect y.effect] =
        World.giveUpSteps (u.ownedCount + 1) ((u.dropOne (.effect y.effect)).1 ++ [])
          (u.dropOne (.effect y.effect)).2 := by
      rw [World.giveUp, List.length_singleton, Nat.add_comm 1]
      rfl
    rw [hsteps, List.append_nil, World.dropOne, hdrop]
  -- Every entry of the list that is given up is one of the owned things, which is what the fuel is
  -- counted by.
  have hfuel : (Dependency.allOwned y.list).length ≤ u.ownedCount + 1 := by
    have hle := length_allOwned y.list
    have hle' := length_list_le hyu
    have hlist : HookSlot.list { y with disposed := true } = y.list := rfl
    rw [hlist] at hle'
    omega
  have hspare : (w.disposing h y).Spare (Dependency.allOwned y.list) :=
    ⟨hs.effects, hs.signals, hs.memos⟩
  have hdisposing := hw.disposing hy hlive
  have hgiven := hdisposing.giveUpSteps hspare hfuel
  have hy' : (World.giveUpSteps (u.ownedCount + 1) (Dependency.allOwned y.list)
      (w.disposing h y)).hooks.get? h = some { y with disposed := true } := by
    rw [(hspare.giveUpSteps hdisposing.orderly.idle.probes hfuel).rest]
    exact hyu
  obtain ⟨w', hrun, hw'⟩ := hgiven.cleanup hy'
  rw [← hgive] at hrun
  refine ⟨w', ?_, hw'⟩
  simp only [disposeHook, run_bind, run_get, hy, hlive, Bool.false_eq_true, if_false, modifyHook,
    run_modify, disposeEffect, Act.giveUp]
  exact hrun

end World

end FineGrain

import FineGrain.Proofs.Hook.Stock
/-!
New states, memos and hooks, and new names and owners for them, keep a system orderly.
-/

namespace FineGrain

open Act Hook

namespace World

variable {host : Host} {w w' : World} {s h k : Nat} {v : Value} {x : Signal} {y : HookSlot}
  {factory : Factory} {ds : List Dependency} {l : List Nat} {e : NodeId}

theorem memos_refl (w : World) (k : Nat) : ∃ cache bound owners, w.memos.get? k =
    (w.memos.get? k).map fun x =>
      { x with cache := cache, bound := bound, owners := owners } := by
  cases h : w.memos.get? k with
  | none => exact ⟨none, false, 0, rfl⟩
  | some x => exact ⟨x.cache, x.bound, x.owners, rfl⟩

/-- The queues and the graph are left alone, and so are effects and hooks. -/
theorem Upheld.of_rest
    (hrest : w' = { w with
      log := w'.log
      refs := w'.refs
      memos := w'.memos
      signals := w'.signals
      dispatchers := w'.dispatchers
      providers := w'.providers
      names := w'.names
      handles := w'.handles
      next := w'.next })
    (hn : w.next ≤ w'.next)
    (hp : ∀ s, (w.signals.get? s).isSome → (w'.signals.get? s).isSome)
    (ha : ∀ s, s < w.next ∨ w'.next ≤ s → w.signals.get? s = none → w'.signals.get? s = none)
    (hm : ∀ k, ∃ cache bound owners, w'.memos.get? k = (w.memos.get? k).map fun x =>
      { x with cache := cache, bound := bound, owners := owners })
    (hq : ∀ l, w.Queued l → w'.Queued l) : w.Upheld w' where
  next := hn
  present := hp
  absent := ha
  memos := hm
  effects := fun e he => by
    rw [hrest]
    exact he
  hooks := fun h y hy => by
    rw [hrest] at hy
    exact ⟨y, hy, rfl⟩
  rest := by
    -- Two worlds are the same if they are so field by field.
    obtain ⟨graph, tasks, phases, providers, signals, effects, memos, hooks, refs, dispatchers,
      probes, handles, names, next, log⟩ := w'
    simp only [mk.injEq] at hrest ⊢
    simp [hrest]
  queued := hq
  observers := by rw [hrest]
  pending := by rw [hrest]
  flushQueued := by rw [hrest]
  sound := by
    rw [hrest]
    exact id
  edges := fun _ _ _ => by rw [hrest]

theorem Recomputed.upheld (hr : w.Recomputed w') : w.Upheld w' where
  next := Nat.le_of_eq (congrArg World.next hr.rest).symm
  present := fun s hs => by
    rw [hr.rest]
    exact hs
  absent := fun s _ hs => by
    rw [hr.rest]
    exact hs
  memos := fun k => by
    obtain ⟨cache, hk⟩ := hr.memos k
    cases hw : w.memos.get? k with
    | none => exact ⟨none, false, 0, by rw [hk, hw]; rfl⟩
    | some x => exact ⟨cache, x.bound, x.owners, by rw [hk, hw]; rfl⟩
  effects := fun e he => by
    rw [hr.rest]
    exact he
  hooks := fun h y hy => by
    rw [hr.rest] at hy
    exact ⟨y, hy, rfl⟩
  rest := by
    have hrest := hr.rest
    obtain ⟨graph, tasks, phases, providers, signals, effects, memos, hooks, refs, dispatchers,
      probes, handles, names, next, log⟩ := w'
    simp only [mk.injEq] at hrest ⊢
    simp [hrest]
  queued := fun l hl => by
    rw [hr.rest]
    exact ⟨hl.nodup, hl.dirty, hl.steady⟩
  observers := hr.observers
  pending := hr.pending
  flushQueued := hr.flushQueued
  sound := hr.sound
  edges := hr.edges

/-- A system is orderly and stocked. -/
structure Running (host : Host) (w : World) : Prop where
  orderly : w.Orderly host
  stocked : w.Stocked

theorem Running.upheld (hw : w.Running host) (hu : w.Upheld w') (hq : w'.Quiet host) :
    w'.Running host :=
  ⟨hw.orderly.upheld hu hq, hw.stocked.upheld hu⟩

theorem Upheld.quiet (hu : w.Upheld w') (hscope : w'.scope = w.scope) (hq : w.Quiet host) :
    w'.Quiet host := by
  have hhooks : w'.hooks = w.hooks := by rw [hu.rest]
  refine ⟨fun k z' body hz' hbody => ?_, fun h y hy => ?_, fun h y body hy => ?_⟩
  · obtain ⟨z, hz, hfactory, _⟩ := hu.memo hz'
    exact hscope ▸ hq.factories k z body hz (hfactory ▸ hbody)
  · exact hscope ▸ hq.bodies h y (hhooks ▸ hy)
  · exact hscope ▸ hq.cleanups h y body (hhooks ▸ hy)

theorem Stocked.adding (hs : w.Stocked) (v : Value) {n : Nat} (hn : w.next < n) :
    w.Upheld (w.adding w.next v n) := by
  have hnone := (hs.unused w.next (Nat.le_refl _)).1
  have hget (t : Nat) : (w.adding w.next v n).signals.get? t =
      if t = w.next then some ⟨v, 2, 0, false, false, none⟩ else w.signals.get? t :=
    Store.get?_put ..
  refine .of_rest rfl (Nat.le_of_lt hn) (fun t ht => ?_) (fun t ht hnone' => ?_) w.memos_refl
    fun l hl => hl.adding hnone v n
  · rw [hget]
    split <;> simp_all
  · have ht' : t < w.next ∨ n ≤ t := ht
    have hne : t ≠ w.next := by omega
    rw [hget, if_neg hne, hnone']

theorem Running.state (hw : w.Running host) (v : Value) :
    (w.run (newState v)).2.Running host := by
  have hu := hw.stocked.adding v (Nat.lt_succ_self _)
  have hrun : (w.run (newState v)).2 = w.adding w.next v (w.next + 1) := by
    simp [newState, newSignal, run_bind, run_map, World.adding]
  exact hrun ▸ hw.upheld hu (hu.quiet rfl hw.orderly.quiet)

/-- Names and numbers, refs, dispatchers, providers and records are of no account as long as the code
still looks only. -/
theorem Running.aside (hw : w.Running host)
    (hrest : w' = { w with
      log := w'.log
      refs := w'.refs
      dispatchers := w'.dispatchers
      providers := w'.providers
      names := w'.names
      handles := w'.handles
      next := w'.next })
    (hn : w.next ≤ w'.next) (hq : w'.Quiet host) : w'.Running host := by
  have hsignals : w'.signals = w.signals := by rw [hrest]
  have hmemos : w'.memos = w.memos := by rw [hrest]
  refine hw.upheld (.of_rest ?_ hn (fun s hs => hsignals ▸ hs) (fun s _ hs => hsignals ▸ hs)
    (fun k => hmemos ▸ w.memos_refl k) fun l hl => ?_) hq
  · obtain ⟨graph, tasks, phases, providers, signals, effects, memos, hooks, refs, dispatchers,
      probes, handles, names, next, log⟩ := w'
    simp only [mk.injEq] at hrest ⊢
    simp [hrest]
  · exact ⟨hl.nodup, hsignals ▸ hl.dirty, hsignals ▸ hl.steady⟩

theorem Running.reducer (hw : w.Running host) (v : Value) (reduce : Body) :
    (w.run (newReducer v reduce)).2.Running host := by
  have hu := hw.stocked.adding v (n := w.next + 2) (by omega)
  have hadd := hw.upheld hu (hu.quiet rfl hw.orderly.quiet)
  have hrun : (w.run (newReducer v reduce)).2 = { w.adding w.next v (w.next + 2) with
      dispatchers := w.dispatchers.put (w.next + 1) ⟨w.next, reduce, 1⟩ } := by
    simp [newReducer, newSignal, run_bind, run_map, World.adding]
  rw [hrun]
  have hq := hadd.orderly.quiet
  exact hadd.aside rfl (Nat.le_refl _) ⟨hq.factories, hq.bodies, hq.cleanups⟩

theorem Running.retain (hw : w.Running host) (o : Owned) : (w.retain o).Running host := by
  have hq := hw.orderly.quiet
  -- A further handle of a state or of a memo adds one to its count. There are no probes here, and
  -- effects are not counted.
  cases o with
  | signal s =>
    have hget (t : Nat) : (w.retain (.signal s)).signals.get? t = if t = s then
        (w.signals.get? t).map fun x => { x with clones := x.clones + 1 }
          else w.signals.get? t := Store.get?_modify ..
    refine hw.upheld (.of_rest rfl (Nat.le_refl _) (fun t ht => ?_) (fun t _ ht => ?_)
      w.memos_refl fun l hl => hl.retain_signal s) ⟨hq.factories, hq.bodies, hq.cleanups⟩
    · rw [hget]
      split <;> simp_all
    · rw [hget]
      split <;> simp_all
  | memo m =>
    have hu : w.Upheld (w.retain (.memo m)) := by
      refine .of_rest rfl (Nat.le_refl _) (fun _ => id) (fun _ _ => id) (fun k => ?_)
        fun l hl => ⟨hl.nodup, hl.dirty, hl.steady⟩
      obtain ⟨cache, bound, owners, hk⟩ := w.memos_refl k
      have hget : (w.retain (.memo m)).memos.get? k = if k = m then
          (w.memos.get? k).map fun x => { x with owners := x.owners + 1 }
            else w.memos.get? k := Store.get?_modify ..
      rw [hget]
      split
      · cases hm : w.memos.get? k with
        | none => exact ⟨none, false, 0, rfl⟩
        | some z => exact ⟨z.cache, z.bound, z.owners + 1, rfl⟩
      · exact ⟨cache, bound, owners, hk⟩
    exact hw.upheld hu (hu.quiet rfl hq)
  | probe p =>
    have hprobes : w.probes.modify p (fun x => { x with owners := x.owners + 1 }) = w.probes := by
      rw [hw.orderly.idle.probes]
      rfl
    simpa [World.retain, hprobes] using hw
  | effect e => exact hw

end World

end FineGrain

import FineGrain.Proofs.Hook.Creation
/-!
New memos and hooks. A memo is computed at once; a hook starts with a task of its own.
-/

namespace FineGrain

open Act Hook

namespace World

variable {host : Host} {w w' : World} {s h k : Nat} {x : Effect} {y : HookSlot} {z : Memo}
  {factory : Factory} {ds : List Dependency} {e : NodeId}

/-- A list of what is there reaches what it did, as long as what is there is declared as it was. -/
theorem Stocked.reaches (hs : w.Stocked)
    (hd : ∀ d, w.There d → w'.declared d = w.declared d) (hds : ∀ d ∈ ds, w.There d) :
    w'.Reaches ds s ↔ w.Reaches ds s := by
  constructor
  · intro hr
    induction hr with
    | state hm => exact .state hm
    | memo hm _ ih =>
      rw [hd _ (hds _ hm)] at ih
      exact .memo hm (ih hs.declared)
  · intro hr
    induction hr with
    | state hm => exact .state hm
    | memo hm _ ih =>
      refine .memo hm ?_
      rw [hd _ (hds _ hm)]
      exact ih hs.declared

theorem effect_declaring (hs : w.Stocked) (hx : w.effects.get? e = some x) :
    (w.declaring factory ds).effects.get? e = some x := by
  obtain ⟨-, -, hnone, -⟩ := hs.unused (w.next + 1) (Nat.le_succ _)
  have hne : e ≠ w.next + 1 := by
    rintro rfl
    rw [hnone] at hx
    cases hx
  rwa [World.declaring, Store.get?_put, if_neg hne]

theorem declared_declaring (hs : w.Stocked) {d : Dependency} (hd : w.There d) :
    (w.declaring factory ds).declared d = w.declared d := by
  cases d with
  | memo k =>
    have hne : k ≠ w.next := by
      rintro rfl
      simp [There, (hs.unused w.next (Nat.le_refl _)).2.1] at hd
    simp only [World.declared, World.declaring, Store.get?_put, if_neg hne]
  | _ => rfl

theorem There.declaring {d : Dependency} (hd : w.There d) : (w.declaring factory ds).There d := by
  refine hd.mono (fun _ => id) fun k hk => ?_
  rw [World.declaring, Store.get?_put]
  split
  · rfl
  · exact hk

theorem Stocked.declaring (hs : w.Stocked) (hds : ∀ d ∈ ds, w.There d) :
    (w.declaring factory ds).Stocked := by
  refine ⟨fun k hk => ?_, fun k z hz d hd => ?_, fun h y hy d hd => (hs.hooks h y hy d hd).declaring,
    fun e he => Nat.lt_add_right 2 (hs.pending e he),
    fun e he => Nat.lt_add_right 2 (hs.firstRuns e he), fun e he => ?_⟩
  · have hk : w.next + 2 ≤ k := hk
    obtain ⟨hsignal, hmemo, heffect, hhook⟩ := hs.unused k (by omega)
    have hne : k ≠ w.next := by omega
    have hne' : k ≠ w.next + 1 := by omega
    exact ⟨hsignal, by rwa [World.declaring, Store.get?_put, if_neg hne],
      by rwa [World.declaring, Store.get?_put, if_neg hne'], hhook⟩
  · rcases Store.of_put hz with ⟨-, rfl⟩ | hz
    · exact (hds d hd).declaring
    · exact (hs.memos k z hz d hd).declaring
  · obtain ⟨x, hx⟩ := Option.isSome_iff_exists.1 he
    rcases Store.of_put hx with ⟨rfl, -⟩ | hx
    · exact (hs.unused (w.next + 1) (Nat.le_succ _)).1
    · exact hs.apart e (Option.isSome_iff_exists.2 ⟨x, hx⟩)

theorem Quiet.declaring (hq : w.Quiet host)
    (hlooks : ∀ body, factory = .compute body → Looks w.scope (host.call body [])) :
    (w.declaring factory ds).Quiet host := by
  refine ⟨fun k z body hz hbody => ?_, hq.bodies, hq.cleanups⟩
  rcases Store.of_put hz with ⟨-, rfl⟩ | hz
  · exact hlooks body hbody
  · exact hq.factories k z body hz hbody

theorem Wired.declaring (hw : w.Wired) (hs : w.Stocked) : (w.declaring factory ds).Wired := by
  refine ⟨fun k z hz => ?_, hw.running, hw.cleanup, fun e x hx => ?_, fun h y hy hlive => ?_⟩
  · rcases Store.of_put hz with ⟨-, rfl⟩ | hz
    · rfl
    · exact hw.readers k z hz
  · rcases Store.of_put hx with ⟨-, rfl⟩ | hx
    · exact .inl ⟨⟨w.next, rfl⟩, rfl⟩
    · exact hw.effects e x hx
  · obtain ⟨x, hx, hcomp, ht⟩ := hw.hooks h y hy hlive
    exact ⟨x, effect_declaring hs hx, hcomp, ht⟩

theorem Orderly.declaring (ho : w.Orderly host) (hs : w.Stocked)
    (hlooks : ∀ body, factory = .compute body → Looks w.scope (host.call body [])) :
    (w.declaring factory ds).Orderly host := by
  -- the effect of a memo is a render effect, so it must not be one that waits already
  have hdeferred {e : NodeId} (hlt : e < w.next)
      (he : ∀ x, w.effects.get? e = some x → x.timing = .deferred) :
      ∀ x, (w.declaring factory ds).effects.get? e = some x → x.timing = .deferred := by
    intro x hx
    rcases Store.of_put hx with ⟨rfl, -⟩ | hx
    · exact absurd hlt (Nat.not_lt.2 (Nat.le_succ _))
    · exact he x hx
  obtain ⟨hlanes, hflags, hnodup, hbusy, hphases⟩ := ho.staffed
  obtain ⟨honce, hdirty, hsteady⟩ := ho.queued
  refine ⟨ho.idle.declaring, ho.quiet.declaring hlooks, ho.wired.declaring hs,
    ⟨hlanes, hflags, hnodup, hbusy, hphases⟩,
    ⟨ho.awaited.busy, ho.awaited.task, fun e he => hdeferred (hs.pending e he) (ho.awaited.deferred e he)⟩,
    ⟨honce, hdirty, hsteady⟩, fun t ht => ?_, fun h y hy hlive => ?_⟩
  · have hqueues := ho.tasks t ht
    cases t with
    | firstRun e => exact hdeferred (hs.firstRuns e ht) hqueues
    | body c => exact hqueues
    | _ => trivial
  · refine (ho.listening h y hy hlive).imp_right fun hl t => ?_
    rw [hs.reaches (fun d => declared_declaring hs) (hs.hooks h y hy)]
    exact hl t

theorem Running.declaring (hw : w.Running host)
    (hq : ∀ body, factory = .compute body → Looks w.scope (host.call body []))
    (hds : ∀ d ∈ ds, w.There d) : (w.declaring factory ds).Running host :=
  ⟨hw.orderly.declaring hw.stocked hq, hw.stocked.declaring hds⟩

theorem Running.bindMemo (hw : w.Running host) (hz : w.memos.get? k = some z) :
    ∃ w', w.run (bindMemo host k) = (.ok ⟨⟩, w') ∧ w'.Running host := by
  -- Binding a memo changes only its cache and its mark, which no part of the invariant reads.
  have hbound {u : World} (hu : u.Running host) (first : Cached) :
      { u with memos := u.memos.modify k fun z =>
        { z with cache := some first, bound := true } }.Running host := by
    refine hu.upheld (.of_rest rfl (Nat.le_refl _) (fun _ => id) (fun _ _ => id) (fun j => ?_)
      fun l hl => ⟨hl.nodup, hl.dirty, hl.steady⟩) ?_
    · rw [Store.get?_modify]
      split
      · cases hj : u.memos.get? j with
        | none => exact ⟨none, false, 0, rfl⟩
        | some z => exact ⟨some first, true, z.owners, rfl⟩
      · exact u.memos_refl j
    · have hq := hu.orderly.quiet
      refine ⟨fun j z' body hz' hbody => ?_, hq.bodies, hq.cleanups⟩
      rw [Store.get?_modify] at hz'
      split at hz'
      · obtain ⟨z, hz, rfl⟩ := Option.map_eq_some_iff.1 hz'
        exact hq.factories j z body hz hbody
      · exact hq.factories j z' body hz' hbody
  cases hcache : z.cache with
  | some first =>
    refine ⟨_, ?_, hbound hw first⟩
    simp [Act.bindMemo, memo, run_bind, hz, hcache, modifyMemo]
  | none =>
    have hi := hw.orderly.idle
    obtain ⟨first, u, hrun, hl⟩ := hw.orderly.quiet.run_produce hz (u := w) rfl hi.calm hi.probes
    have hrun' := hrun host fun _ _ _ _ _ => rfl
    have hhide : ({ w with graph := w.graph.hideObservers } : World) = w := by
      rw [Graph.hideObservers, ← hi.observers]
    obtain ⟨lines, refs, sources, rfl⟩ := hl
    rw [Graph.trackAll_unobserved (by simp [Graph.observer?, hi.observers])] at hrun'
    have hrestore : w.graph.restoreObservers w.graph.observers = w.graph := rfl
    have hu : ({ w with log := w.log ++ lines, refs := refs } : World).Running host :=
      hw.aside rfl (Nat.le_refl _) ⟨hw.orderly.quiet.factories, hw.orderly.quiet.bodies,
        hw.orderly.quiet.cleanups⟩
    refine ⟨_, ?_, hbound hu first⟩
    simp only [Act.bindMemo, memo, run_bind, run_get, run_pure, hz, Option.getD_some, hcache,
      untracked, run_onGraph, hhide, hrun', hrestore, modifyMemo, run_modify]

theorem Running.memo (hw : w.Running host)
    (hq : ∀ body, factory = .compute body → Looks w.scope (host.call body []))
    (hds : ∀ d ∈ ds, w.There d) :
    ∃ w', w.run (newMemo host factory ds) = (.ok w.next, w') ∧ w'.Running host := by
  have hu := hw.declaring hq hds
  have ht : (w.declaring factory ds).timing? (w.next + 1) = some .render := by
    simp [timing?, World.declaring, Store.get?_put]
  obtain ⟨w₁, hrun, hr⟩ :=
    run_recompute hu.orderly.idle hu.orderly.quiet hu.orderly.wired ht
  have hw₁ := hu.upheld hr.upheld (hr.quiet hu.orderly.quiet)
  obtain ⟨z, hz⟩ : ∃ z, w₁.memos.get? w.next = some z := by
    obtain ⟨cache, hk⟩ := hr.memos w.next
    exact ⟨_, by rw [hk]; simp [World.declaring, Store.get?_put]; rfl⟩
  obtain ⟨w', hbind, hw'⟩ := hw₁.bindMemo hz
  refine ⟨w', ?_, hw'⟩
  have hrun' := hrun host fun _ _ _ _ _ => rfl
  simp only [newMemo, newEffect, run_bind, run_fresh, run_modify, run_pure]
  rw [show ({ w with
      memos := w.memos.put w.next ⟨factory, none, false, ds, w.next + 1, 1, 0⟩
      effects := w.effects.put (w.next + 1) ⟨.memo w.next, .render, w.providers, false⟩
      next := w.next + 1 + 1 } : World) = w.declaring factory ds from rfl, hrun']
  simp only [hbind]

/-- A world in which a hook has been created. -/
def hooking (w : World) (phase : Phase) (body : Body) (onCleanup : Option Body)
    (ds : Option (List Dependency)) : World :=
  { w with
    hooks := w.hooks.put w.next
      ⟨phase, body, onCleanup, ds, w.next + 1, none, w.providers, false, false, false⟩
    effects := w.effects.put (w.next + 1) ⟨.hook w.next, .deferred, w.providers, false⟩
    tasks := w.tasks ++ [.firstRun (w.next + 1)]
    next := w.next + 2 }

section Hooking

variable {phase : Phase} {body : Body} {onCleanup : Option Body} {list : Option (List Dependency)}

theorem run_newHook : w.run (newHook host phase body onCleanup list) =
    (.ok w.next, w.hooking phase body onCleanup list) := by
  simp [newHook, newEffect, run_bind, run_map, hooking]

theorem hook_hooking (hs : w.Stocked) (hy : w.hooks.get? k = some y) :
    (w.hooking phase body onCleanup list).hooks.get? k = some y := by
  obtain ⟨-, -, -, hnone⟩ := hs.unused w.next (Nat.le_refl _)
  have hne : k ≠ w.next := by
    rintro rfl
    rw [hnone] at hy
    cases hy
  rwa [hooking, Store.get?_put, if_neg hne]

theorem effect_hooking (hs : w.Stocked) (hx : w.effects.get? e = some x) :
    (w.hooking phase body onCleanup list).effects.get? e = some x := by
  obtain ⟨-, -, hnone, -⟩ := hs.unused (w.next + 1) (Nat.le_succ _)
  have hne : e ≠ w.next + 1 := by
    rintro rfl
    rw [hnone] at hx
    cases hx
  rwa [hooking, Store.get?_put, if_neg hne]

theorem deferred_hooking (he : ∀ x, w.effects.get? e = some x → x.timing = .deferred) :
    ∀ x, (w.hooking phase body onCleanup list).effects.get? e = some x → x.timing = .deferred := by
  intro x hx
  rcases Store.of_put hx with ⟨-, rfl⟩ | hx
  · rfl
  · exact he x hx

theorem countP_hooking {p : Task → Bool} (hp : ∀ e, p (.firstRun e) = false) :
    (w.hooking phase body onCleanup list).tasks.countP p = w.tasks.countP p := by
  simp [hooking, hp]

theorem mem_tasks_hooking {t : Task} : t ∈ (w.hooking phase body onCleanup list).tasks ↔
    t ∈ w.tasks ∨ t = .firstRun (w.next + 1) := by
  simp [hooking]

theorem Idle.hooking (hi : w.Idle) : (w.hooking phase body onCleanup list).Idle := by
  refine ⟨hi.calm, hi.probes, hi.sound, fun p hp => ?_, hi.observers⟩
  rcases Store.mem_put hp with rfl | hp
  · rfl
  · exact hi.rest p hp

theorem Quiet.hooking (hq : w.Quiet host) (hbody : Looks w.scope (host.call body []))
    (hclean : ∀ c, onCleanup = some c → ∀ v, Looks w.scope (host.call c [v])) :
    (w.hooking phase body onCleanup list).Quiet host := by
  refine ⟨hq.factories, fun k y hy => ?_, fun k y c hy hc => ?_⟩
  · rcases Store.of_put hy with ⟨-, rfl⟩ | hy
    · exact hbody
    · exact hq.bodies k y hy
  · rcases Store.of_put hy with ⟨-, rfl⟩ | hy
    · exact hclean c hc
    · exact hq.cleanups k y c hy hc

theorem Wired.hooking (hw : w.Wired) (hs : w.Stocked) :
    (w.hooking phase body onCleanup list).Wired := by
  refine ⟨hw.readers, fun k y hy => ?_, fun k y c hy hc => ?_, fun e x hx => ?_,
    fun k y hy hlive => ?_⟩
  · rcases Store.of_put hy with ⟨-, rfl⟩ | hy
    · rfl
    · exact hw.running k y hy
  · rcases Store.of_put hy with ⟨-, rfl⟩ | hy
    · cases hc
    · exact hw.cleanup k y c hy hc
  · rcases Store.of_put hx with ⟨rfl, rfl⟩ | hx
    · exact .inr ⟨w.next, _, rfl, rfl, by rw [World.hooking, Store.get?_put, if_pos rfl], rfl, rfl⟩
    · refine (hw.effects e x hx).imp_right ?_
      rintro ⟨k, y, hcomp, ht, hy, he, hlive⟩
      exact ⟨k, y, hcomp, ht, hook_hooking hs hy, he, hlive⟩
  · rcases Store.of_put hy with ⟨rfl, rfl⟩ | hy
    · exact ⟨_, by rw [World.hooking, Store.get?_put, if_pos rfl], rfl, rfl⟩
    · obtain ⟨x, hx, hcomp, ht⟩ := hw.hooks k y hy hlive
      exact ⟨x, effect_hooking hs hx, hcomp, ht⟩

theorem Staffed.hooking (hstaff : w.Staffed) (hs : w.Stocked) :
    (w.hooking phase body onCleanup list).Staffed := by
  refine ⟨fun p k hk => ?_, fun k y hy hq => ?_, hstaff.nodup, hstaff.busy,
    (countP_hooking fun _ => rfl).trans hstaff.task⟩
  · obtain ⟨y, hy, hp, hq⟩ := hstaff.lanes p k hk
    exact ⟨y, hook_hooking hs hy, hp, hq⟩
  · rcases Store.of_put hy with ⟨-, rfl⟩ | hy
    · cases hq
    · exact hstaff.queued k y hy hq

theorem Awaited.hooking (ha : w.Awaited) : (w.hooking phase body onCleanup list).Awaited :=
  ⟨ha.busy, (countP_hooking fun _ => rfl).trans ha.task, fun e he => deferred_hooking (ha.deferred e he)⟩

theorem Queues.hooking {t : Task} (hq : w.Queues t) :
    (w.hooking phase body onCleanup list).Queues t := by
  cases t with
  | firstRun e => exact deferred_hooking hq
  | body c => exact hq
  | _ => trivial

theorem Orderly.hooking (ho : w.Orderly host) (hs : w.Stocked)
    (hbody : Looks w.scope (host.call body []))
    (hclean : ∀ c, onCleanup = some c → ∀ v, Looks w.scope (host.call c [v])) :
    (w.hooking phase body onCleanup list).Orderly host := by
  have hcommits : (w.hooking phase body onCleanup list).tasks.filterMap Task.commit? =
      w.tasks.filterMap Task.commit? := by
    simp [World.hooking, Task.commit?]
  obtain ⟨hnodup, hdirty, hsteady⟩ := ho.queued
  refine ⟨ho.idle.hooking, ho.quiet.hooking hbody hclean, ho.wired.hooking hs, ho.staffed.hooking hs,
    ho.awaited.hooking, hcommits ▸ ⟨hnodup, hdirty, hsteady⟩, fun t ht => ?_, fun k y hy hlive => ?_⟩
  · rcases mem_tasks_hooking.1 ht with ht | rfl
    · exact (ho.tasks t ht).hooking
    · exact deferred_hooking fun x hx => by
        rw [(hs.unused (w.next + 1) (Nat.le_succ _)).2.2.1] at hx
        cases hx
  · rcases Store.of_put hy with ⟨-, rfl⟩ | hy
    · exact .inl (mem_tasks_hooking.2 (.inr rfl))
    · refine (ho.listening k y hy hlive).imp (fun ht => mem_tasks_hooking.2 (.inl ht)) fun hl => ?_
      refine hl.congr ?_ rfl rfl fun _ => Iff.rfl
      funext d
      cases d <;> rfl

theorem Stocked.hooking (hs : w.Stocked) (hds : ∀ d ∈ list.getD [], w.There d) :
    (w.hooking phase body onCleanup list).Stocked := by
  refine ⟨fun k hk => ?_, hs.memos, fun k y hy d hd => ?_,
    fun e he => Nat.lt_add_right 2 (hs.pending e he), fun e he => ?_, fun e he => ?_⟩
  · have hk : w.next + 2 ≤ k := hk
    obtain ⟨hsignal, hmemo, heffect, hhook⟩ := hs.unused k (by omega)
    have hne : k ≠ w.next := by omega
    have hne' : k ≠ w.next + 1 := by omega
    exact ⟨hsignal, hmemo, by rwa [World.hooking, Store.get?_put, if_neg hne'],
      by rwa [World.hooking, Store.get?_put, if_neg hne]⟩
  · rcases Store.of_put hy with ⟨-, rfl⟩ | hy
    · exact (hds d hd).mono (fun _ => id) fun _ => id
    · exact (hs.hooks k y hy d hd).mono (fun _ => id) fun _ => id
  · rcases mem_tasks_hooking.1 he with he | he
    · exact Nat.lt_add_right 2 (hs.firstRuns e he)
    · obtain rfl := Task.firstRun.inj he
      exact Nat.lt_succ_self _
  · obtain ⟨x, hx⟩ := Option.isSome_iff_exists.1 he
    rcases Store.of_put hx with ⟨rfl, -⟩ | hx
    · exact (hs.unused (w.next + 1) (Nat.le_succ _)).1
    · exact hs.apart e (Option.isSome_iff_exists.2 ⟨x, hx⟩)

theorem Running.hook (hw : w.Running host) (hbody : Looks w.scope (host.call body []))
    (hclean : ∀ c, onCleanup = some c → ∀ v, Looks w.scope (host.call c [v]))
    (hds : ∀ d ∈ list.getD [], w.There d) :
    (w.run (newHook host phase body onCleanup list)).2.Running host := by
  rw [run_newHook]
  exact ⟨hw.orderly.hooking hw.stocked hbody hclean, hw.stocked.hooking hds⟩

end Hooking

end World

end FineGrain

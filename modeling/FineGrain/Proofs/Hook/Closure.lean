import FineGrain.Proofs.Course.Programs
import FineGrain.Proofs.Hook.Lanes
import FineGrain.Proofs.World.Closure
/-!
Dependency lists subscribe through their closure. Whoever observes is subscribed to the states that a list
reaches and to no others, and the effect of a hook reads exactly the states that its list reaches.
-/

namespace FineGrain

open Act

namespace World

variable {w : World} {ds calls : List Dependency} {seen : List DependencyKey}

theorem run_trackAll_visit {u : World} (h : w.Visit [] ds calls seen) (hfree : w.Readable ds)
    (hsignals : u.signals = w.signals)
    (hrun : u.run (trackAll ds) = u.run (forM calls trackOne)) :
    u.run (trackAll ds) = (.ok ⟨⟩, { u with
      graph := (calls.filterMap Dependency.state?).foldl Graph.track u.graph
      log := u.log ++ calls.filterMap u.trackLine? }) :=
  hrun.trans (run_forM_trackOne
    (fun s hs => by rw [hsignals]; exact hfree s (h.sound _ hs).2) u.graph u.log)

theorem graph_trackHook {u u' : World} {h : Nat} {y : HookSlot} (hy : u.hooks.get? h = some y)
    (hrun : u.run (trackAll (y.dependencies.getD [])) = (.ok ⟨⟩, u')) :
    ∃ u'', u.run (trackHook h) = (.ok ⟨⟩, u'') ∧ u''.graph = u'.graph := by
  have htrack : u.run (trackHook h) = u'.run (do
      if !y.queued then
        modifyHook h fun x => { x with queued := true }
        scheduleJob y.phase h) := by
    rw [trackHook, run_bind_ok u.run_get, hy]
    exact run_bind_ok hrun _
  rw [htrack]
  cases y.queued with
  | true => exact ⟨u', rfl, rfl⟩
  | false =>
    cases hq : u'.phases.flushQueued <;>
      simp [modifyHook, scheduleJob, run_bind, Hook.PhaseQueue.push_fst, hq]

theorem run_hook_effect (host : Host) {e h : Nat} {x : Effect} {y : HookSlot}
    (hx : w.effects.get? e = some x) (hr : x.running = false) (hcomp : x.computation = .hook h)
    (hy : w.hooks.get? h = some y) (hvisit : w.Visit [] (y.dependencies.getD []) calls seen)
    (hfree : w.Readable (y.dependencies.getD []))
    (hrun : ∀ u : World, u.probes = w.probes → u.memos = w.memos →
      u.run (trackAll (y.dependencies.getD [])) = u.run (forM calls trackOne)) :
    ∃ w', w.run (runEffect host e) = (.ok ⟨⟩, w') ∧ w'.graph =
      ((calls.filterMap Dependency.state?).foldl Graph.track
        ((w.graph.clearDependencies e).pushObserver e)).popObserver := by
  let u := w.starting e x.providers
  obtain ⟨u', htrack, hgraph⟩ := graph_trackHook (u := u) (h := h) hy
    (run_trackAll_visit (u := u) hvisit hfree rfl (hrun u rfl rfl))
  have hcompute : ({ w with
      effects := w.effects.modify e fun x => { x with running := true }
      graph := (w.graph.clearDependencies e).pushObserver e } : World).run
        (providing x.providers (compute host x.computation)) =
      (.ok ⟨⟩, { u' with providers := w.providers }) := by
    rw [hcomp]
    exact run_providing htrack
  refine ⟨{ u' with
    providers := w.providers
    graph := u'.graph.popObserver
    effects := u'.effects.modify e fun x => { x with running := false } }, ?_,
    congrArg Graph.popObserver hgraph⟩
  simp only [runEffect, run_bind, run_get, hx, hr, Bool.false_eq_true, if_false, modifyEffect,
    run_modify, run_onGraph, hcompute]

/-- Tracking a list visits its closure.

* `order`: what is tracked is what a visit comes to, depth first, and there is no other visit
* `run`: tracking the list is tracking these wrappers one after another
* `once`, `reached`: the keys that are reached are tracked, each once
* `wrappers`, `plain`: only wrappers that are reached are tracked, and plain entries contribute nothing
* `subscribed`: if the states that are reached can be read, whoever observes is subscribed to them, in
  addition to what was read before, and the probes that are reached record it
* `effect`: the effect of a hook with this list reads these states and no others once it has run -/
structure Tracks (w : World) (ds calls : List Dependency) : Prop where
  order : ∀ calls', (∃ seen, w.Visit [] ds calls' seen) ↔ calls' = calls
  run : w.run (trackAll ds) = w.run (forM calls trackOne)
  once : (calls.map w.keyOf).Nodup
  reached : ∀ key, some key ∈ calls.map w.keyOf ↔ ∃ d, w.Reachable ds d ∧ w.keyOf d = some key
  wrappers : ∀ d ∈ calls, w.Reachable ds d ∧ (w.keyOf d).isSome
  plain : w.run (trackAll (ds.filter fun d => (w.keyOf d).isSome)) = w.run (trackAll ds)
  subscribed : ∀ o, w.graph.observer? = some o → w.Readable ds → ∃ g, w.run (trackAll ds) =
      (.ok ⟨⟩, { w with graph := g, log := w.log ++ calls.filterMap w.trackLine? }) ∧
    (∀ s e, e ∈ g.subscribers s ↔ e ∈ w.graph.subscribers s ∨ e = o ∧ w.Reachable ds (.state s)) ∧
    ∀ s e, s ∈ g.dependencies e ↔ s ∈ w.graph.dependencies e ∨ e = o ∧ w.Reachable ds (.state s)
  effect : ∀ host e x h y, w.effects.get? e = some x → x.running = false → x.computation = .hook h →
    w.hooks.get? h = some y → y.dependencies.getD [] = ds → w.Readable ds →
    ∃ w', w.run (runEffect host e) = (.ok ⟨⟩, w') ∧
      (∀ s, s ∈ w'.graph.dependencies e ↔ w.Reachable ds (.state s)) ∧
      (w.graph.Sound → ∀ s, e ∈ w'.graph.subscribers s ↔ w.Reachable ds (.state s))

theorem exists_tracks (hsame : w.Agreeing ds) : ∃ calls, w.Tracks ds calls := by
  obtain ⟨calls, seen, hvisit, hrun⟩ := w.exists_calls ds
  refine ⟨calls, ?_⟩
  constructor
  case order =>
    intro calls'
    constructor
    · rintro ⟨seen', hvisit'⟩
      exact (hvisit.unique hvisit').1
    · rintro rfl
      exact ⟨seen, hvisit⟩
  case run => exact hrun w rfl rfl
  case once =>
    rw [hvisit.map_keyOf]
    exact hvisit.nodup_keys.map fun _ _ => Option.some.inj
  -- From left to right the search is sound, from right to left complete.
  case reached =>
    intro key
    constructor
    · intro hkey
      obtain ⟨d, hd, hkey⟩ := List.mem_map.1 hkey
      exact ⟨d, (hvisit.sound d hd).2, hkey⟩
    · rintro ⟨d, hd, hkey⟩
      obtain ⟨d', hd', hkey'⟩ := hvisit.complete hsame hd hkey
      exact List.mem_map.2 ⟨d', hd', hkey'⟩
  case wrappers => exact fun d hd => (hvisit.sound d hd).symm
  case plain =>
    obtain ⟨calls', seen', hvisit', hrun'⟩ := w.exists_calls (ds.filter fun d => (w.keyOf d).isSome)
    rw [hrun' w rfl rfl, hrun w rfl rfl, (hvisit.without_plain.unique hvisit').1]
  case subscribed =>
    intro o ho hfree
    refine ⟨_, run_trackAll_visit hvisit hfree rfl (hrun w rfl rfl), fun s e => ?_, fun s e => ?_⟩
    · rw [Graph.mem_subscribers_trackAll ho, hvisit.mem_states hsame]
    · rw [Graph.mem_dependencies_trackAll ho, hvisit.mem_states hsame]
  -- The effect has dropped its subscriptions before it reads its list, so only that list counts
  -- afterwards.
  case effect =>
    rintro host e x h y hx hr hcomp hy rfl hfree
    obtain ⟨w', hw', hgraph⟩ := run_hook_effect host hx hr hcomp hy hvisit hfree hrun
    refine ⟨w', hw', fun s => ?_, fun hsound s => ?_⟩
    · rw [hgraph, ← hvisit.mem_states hsame]
      exact Graph.mem_dependencies_afresh _ e s
    · rw [hgraph, ← hvisit.mem_states hsame]
      exact (hsound.mem_subscribers_afresh _ e s e).trans (by simp)

/-- Only probes can share a key, so it is enough to compare them. -/
theorem agreeing_of_probes (h : ∀ a ∈ w.probes.entries, ∀ b ∈ w.probes.entries, a.2.key = b.2.key →
      (a.2.dependencies.getD []).map w.keyOf = (b.2.dependencies.getD []).map w.keyOf)
    (ds : List Dependency) : w.Agreeing ds := by
  intro d d' _ _ hkey
  cases hd : w.keyOf d with
  | none =>
    have hnone {d : Dependency} (hd : w.keyOf d = none) : w.declared d = [] :=
      List.eq_nil_iff_forall_not_mem.2 fun _ hmem => by simpa [hd] using keyed_of_declared hmem
    rw [hnone hd, hnone (hkey ▸ hd)]
  | some key =>
    have hd' : w.keyOf d' = some key := hkey ▸ hd
    cases key with
    | signal s =>
      rw [keyOf_eq_signal.1 hd, keyOf_eq_signal.1 hd']
    | memo m =>
      have hmemo {d : Dependency} (hd : w.keyOf d = some (.memo m)) : d = .memo m := by
        cases d <;> simp_all [keyOf]
      rw [hmemo hd, hmemo hd']
    | shared k =>
      have hprobe {d : Dependency} (hd : w.keyOf d = some (.shared k)) : ∃ p x, d = .probe p ∧
          (p, x) ∈ w.probes.entries ∧ x.key = k ∧ w.declared d = x.dependencies.getD [] := by
        cases d with
        | probe p =>
          obtain ⟨x, hx, hk⟩ := Option.map_eq_some_iff.1 hd
          exact ⟨p, x, rfl, Store.mem_of_get? hx, by simpa using hk, by simp [declared, hx]⟩
        | _ => simp [keyOf] at hd
      obtain ⟨p, x, -, hx, hk, hdeclared⟩ := hprobe hd
      obtain ⟨p', x', -, hx', hk', hdeclared'⟩ := hprobe hd'
      rw [hdeclared, hdeclared']
      exact h _ hx _ hx' (hk.trans hk'.symm)

end World

/-- Tracking a dependency list ends, and it tracks every key that the list reaches once, depth first. -/
theorem tracking_visits_closure (w : World) (ds : List Dependency) (hsame : w.Agreeing ds) :
    ∃ calls, w.Tracks ds calls := World.exists_tracks hsame

/-- Two probes are declared with one another, and a third one has the key of the second: it is passed
over. -/
theorem tracking_visits_closure_cycle :
    let program : List Expr := [
      .create "s" (.state (.value (.integer 0))),
      .create "t" (.state (.value (.integer 0))),
      .create "p" (.probe 1),
      .create "q" (.probe 2),
      .create "r" (.probe 2),
      .create "m" (.memo [.named "t", .named "p"] (.value (.integer 1))),
      .on "p" "probe_deps" (.declareDependencies [.named "q", .plain (.integer 7), .named "m"]),
      .on "q" "probe_deps" (.declareDependencies [.named "s", .named "p"]),
      .on "r" "probe_deps" (.declareDependencies [.named "s", .named "p"])]
    let w := (World.empty.run (Program.perform (.ofDepth 20) program)).2
    let ds : List Dependency := [.plain (.integer 7), .probe 4, .probe 8, .probe 4, .memo 10]
    w.Agreeing ds ∧ (∃ calls, w.Tracks ds calls) ∧
      (w.run (trackAll ds)).2.log = ["track:p", "track:q"] := by
  intro program w ds
  have hsame : w.Agreeing ds := World.agreeing_of_probes (by decide +kernel) ds
  refine ⟨hsame, tracking_visits_closure w ds hsame, ?_⟩
  decide +kernel

end FineGrain

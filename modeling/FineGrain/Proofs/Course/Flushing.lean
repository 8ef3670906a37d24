import Mathlib
import FineGrain.Proofs.Course.Changing
import FineGrain.Proofs.Course.Subscriptions
import FineGrain.Proofs.Hook.Orderly
import FineGrain.Proofs.Program.Factory
/-!
Deferred effects run once for all the changes made in one task. As long as effects and updaters only look,
the next drain runs those effects whose last run has tracked a changed signal, in the order in which the
changes have first reached them, and each of their runs finds what was written last.
-/

namespace FineGrain

open Act

/-- Effects run one after another. Each of them is there and idle where its turn comes, every signal holds
what `σ` says, and the run only looks; so every signal holds that up to its end. -/
inductive Reruns (host : Host) (σ : Nat → Value) : World → List NodeId → World → Prop
  | done {w} : Reruns host σ w [] w
  | step {w u w' : World} {e x rest} : w.effects.get? e = some x → x.running = false →
      (∀ s, w.value s = σ s) →
      (w.starting e x.providers).run (compute host x.computation) = (.ok ⟨⟩, u) →
      (w.starting e x.providers).Looked u →
      Reruns host σ (w.finished u) rest w' → Reruns host σ w (e :: rest) w'

/-- What a call needs: its signal is there, its updater only looks, and the effects that it concerns are
deferred and only look. -/
structure Change.Fits (host : Host) (w : World) (change : Change) : Prop where
  there : (w.signals.get? change.signal).isSome
  updater : change.Looking host w.scope
  effects : ∀ e ∈ w.listeners change.signal, ∃ x, w.effects.get? e = some x ∧
    x.timing = .deferred ∧ Looks w.scope (compute host x.computation)

namespace World

variable {host : Host} {σ : Nat → Value} {w w' u : World} {e : NodeId} {x : Effect} {l : List NodeId}

/-- Nothing is under way, and nothing waits. -/
structure Resting (w : World) : Prop where
  tasks : w.tasks = []
  pending : w.graph.pending = []
  unqueued : w.graph.flushQueued = false
  observers : w.graph.observers = []
  effects : w.AtRest
  signals : w.Unborrowed
  probes : w.probes = .empty

theorem Unborrowed.calm (h : w.Unborrowed) : w.Calm := fun s x hx => (h s x hx).2

theorem finished_of_looked (h : (w.starting e x.providers).Looked u) :
    w.finished u = { w with
      log := (w.finished u).log, refs := (w.finished u).refs, graph := (w.finished u).graph } ∧
    (w.finished u).graph.pending = w.graph.pending ∧
    (w.finished u).graph.flushQueued = w.graph.flushQueued ∧
    (w.finished u).graph.observers = w.graph.observers := by
  obtain ⟨lines, refs, sources, rfl⟩ := h
  refine ⟨rfl, ?_, ?_, ?_⟩
  · simp [finished, starting, Graph.popObserver, Graph.pushObserver, Graph.pending_trackAll]
  · simp [finished, starting, Graph.popObserver, Graph.pushObserver, Graph.flushQueued_trackAll]
  · simp [finished, starting, Graph.popObserver, Graph.pushObserver, Graph.observers_trackAll]

end World

namespace Reruns

variable {host : Host} {σ : Nat → Value} {w w' u : World} {e : NodeId} {x : Effect} {l : List NodeId}

theorem rest (h : Reruns host σ w l w') :
    w' = { w with log := w'.log, refs := w'.refs, graph := w'.graph } ∧
    w'.graph.pending = w.graph.pending ∧ w'.graph.flushQueued = w.graph.flushQueued := by
  induction h with
  | done => exact ⟨rfl, rfl, rfl⟩
  | step _ _ _ _ hlooked _ ih =>
    obtain ⟨hrest, hpending, hqueued, -⟩ := World.finished_of_looked hlooked
    obtain ⟨ih, ihp, ihq⟩ := ih
    refine ⟨?_, ihp.trans hpending, ihq.trans hqueued⟩
    rw [ih, hrest]

theorem run (h : Reruns host σ w l w') (hw : w.AtRest) :
    w.run (runEffects host l) = (.ok ⟨⟩, w') := by
  induction h with
  | done => rfl
  | step hx _ _ hrun hlooked _ ih =>
    obtain ⟨_, _, _, rfl⟩ := hlooked
    rw [World.run_runEffects_cons (World.run_runEffect hw hx hrun rfl)]
    exact ih hw

theorem exists_of_looks (hw : w.AtRest) (hc : w.Calm) (hp : w.probes = .empty)
    (hl : ∀ e ∈ l, ∃ x, w.effects.get? e = some x ∧ Looks w.scope (compute host x.computation)) :
    ∃ w', Reruns host w.value w l w' := by
  induction l generalizing w with
  | nil => exact ⟨w, .done⟩
  | cons e rest ih =>
    obtain ⟨x, hx, hlooks⟩ := hl e List.mem_cons_self
    obtain ⟨v, u, hrun, hlooked⟩ := hlooks (w.starting e x.providers) rfl hc hp
    obtain ⟨hrest, -⟩ := World.finished_of_looked hlooked
    have hsignals : (w.finished u).signals = w.signals := by rw [hrest]
    have hprobes : (w.finished u).probes = w.probes := by rw [hrest]
    have hscope : (w.finished u).scope = w.scope := by rw [hrest]; rfl
    obtain ⟨w', hw'⟩ := ih (w := w.finished u) hw (by rw [World.Calm, hsignals]; exact hc)
      (hprobes.trans hp) (fun k hk => by rw [hscope]; exact hl k (List.mem_cons_of_mem _ hk))
    have hvalue : (w.finished u).value = w.value := by
      funext s
      rw [World.value, hsignals]
      rfl
    exact ⟨w', .step hx (hw _ (Store.mem_of_get? hx)) (fun _ => rfl) hrun hlooked (hvalue ▸ hw')⟩

end Reruns

namespace World

variable {host : Host} {w w' : World} {l : List NodeId} {writes : List (Nat × Value)}

theorem unloading_idle (ht : w.tasks = []) (hp : w.graph.pending = [])
    (hq : w.graph.flushQueued = false) : (w.beginning []).unloading = w := by
  have hgraph : w.graph.takePending.2 = w.graph := by
    rw [Graph.takePending, ← hp, ← hq]
  rw [unloading, beginning, hgraph, ← ht]

/-- A flush is the only task, if any effect waits. -/
structure FlushOnly (w : World) : Prop where
  tasks : w.tasks = if w.graph.pending.isEmpty then [] else [.flush]
  queued : w.graph.flushQueued = !w.graph.pending.isEmpty

theorem Changed.flushOnly (h : w.Changed w' l writes) (hw : w.Resting) :
    w'.graph.pending = l.eraseDups ∧ w'.graph.pending.Nodup ∧ w'.FlushOnly := by
  obtain ⟨u, hu, hgraph, htasks⟩ : ∃ u : World, w' = u.awaiting l ∧ u.graph = w.graph ∧ u.tasks = w.tasks :=
    ⟨_, h.rest, rfl, rfl⟩
  have hnone : u.graph.pending = [] := hgraph ▸ hw.pending
  have hunqueued : u.graph.flushQueued = false := hgraph ▸ hw.unqueued
  have hpending : w'.graph.pending = l.eraseDups := by
    rw [hu]
    exact pending_awaiting (hnone.trans List.eraseDups_nil.symm) l
  have hempty : w'.graph.pending.isEmpty = l.isEmpty := by
    rw [hpending]
    cases l <;> simp [List.eraseDups_cons]
  refine ⟨hpending, ?_, ?_, ?_⟩
  · rw [hu]
    exact nodup_pending_awaiting (hnone ▸ List.nodup_nil) l
  · rw [hempty, hu, tasks_awaiting_unqueued hunqueued, htasks, hw.tasks, List.nil_append]
  · rw [hempty, hu, flushQueued_awaiting hunqueued]

theorem FlushOnly.run_drain {σ : Nat → Value} (hf : w.FlushOnly) (hbound : 2 ≤ host.bound)
    (hw : w.AtRest) (h : Reruns host σ (w.beginning []).unloading w.graph.pending w') :
    w.run (drain host) = (.ok (if w.graph.pending.isEmpty then 0 else 1), w') := by
  obtain ⟨ht, hq⟩ := hf
  obtain ⟨n, hn⟩ := Nat.exists_eq_add_of_le' hbound
  rw [drain, hn]
  cases hpending : w.graph.pending with
  | nil =>
    rw [hpending] at ht hq h
    cases h
    rw [unloading_idle ht hpending hq]
    simp [drainSteps, run_bind, ht]
  | cons e rest =>
    rw [hpending] at ht
    have hflush : (w.beginning []).run (flush host) = (.ok ⟨⟩, w') := run_flush.trans (h.run hw)
    have hrest : w'.tasks = [] := by rw [h.rest.1]; rfl
    have htask : w.tasks = [.flush] := ht
    have hstep : w.run (drainSteps host (n + 2) 0) = w'.run (drainSteps host (n + 1) 1) := by
      rw [drainSteps, run_bind_ok w.run_get, htask]
      exact run_bind_ok hflush _
    rw [hstep]
    simp [drainSteps, run_bind, hrest]

end World

namespace Course

variable {c : Course} {host : Host} {changes : List Change}

/-- What comes of calls that change signals, and of the drain that follows.

* `calls`: the calls end, one after another, each with a value that it writes
* `values`: a signal holds what was written to it last
* `waiting`, `once`: the effects that the calls concern wait in the order in which they were first
  concerned, each once
* `exactly`: they are the live effects whose last run has tracked one of the signals
* `drain`, `reruns`: the drain runs one flush, if any effect waits, and with it these effects, in this
  order, each once; every run finds the values that were written last
* `settled`: nothing waits any more -/
structure Refreshed (c : Course) (host : Host) (changes : List Change) (writes : List (Nat × Value))
    (w₁ w₂ : World) : Prop where
  calls : c.world.run (changes.forM (Change.perform host)) = (.ok ⟨⟩, w₁) ∧
    Changes host c.world changes writes w₁
  values : ∀ s, (c.world.signals.get? s).isSome → w₁.value s = lastValue writes s (c.world.value s)
  waiting : w₁.graph.pending =
    (changes.flatMap fun change => c.world.listeners change.signal).eraseDups
  once : w₁.graph.pending.Nodup
  exactly : ∀ e, e ∈ w₁.graph.pending ↔ (c.world.effects.get? e).isSome ∧
    ∃ change ∈ changes, change.signal ∈ c.history.sources e
  drain : w₁.run (drain host) = (.ok (if w₁.graph.pending.isEmpty then 0 else 1), w₂)
  reruns : Reruns host w₁.value (w₁.beginning []).unloading w₁.graph.pending w₂
  settled : w₂.tasks = [] ∧ w₂.graph.pending = [] ∧ w₂.graph.flushQueued = false ∧
    w₂.signals = w₁.signals

theorem mem_listeners {e : NodeId} {s : Nat} : e ∈ c.world.listeners s ↔
    (c.world.effects.get? e).isSome ∧ s ∈ c.history.sources e := by
  rw [World.listeners, List.mem_filter, (exact c).subscribers, and_comm]
  rfl

theorem exists_refreshed (hc : c.world.Resting) (hbound : 2 ≤ host.bound)
    (hfits : ∀ change ∈ changes, change.Fits host c.world) :
    ∃ writes w₁ w₂, c.Refreshed host changes writes w₁ w₂ := by
  obtain ⟨writes, w₁, hchanges, hchanged⟩ := World.exists_changes hc.signals hc.probes hc.observers
    (fun change hm e he => by
      obtain ⟨x, hx, htiming, -⟩ := (hfits change hm).effects e he
      rw [World.timing?, hx, ← htiming]
      rfl)
    fun change hm => (hfits change hm).updater
  obtain ⟨hpending, hnodup, hflush⟩ := hchanged.flushOnly hc
  have hmem (e : NodeId) : e ∈ w₁.graph.pending ↔ ∃ change ∈ changes,
      e ∈ c.world.listeners change.signal := by
    rw [hpending, List.mem_eraseDups]
    exact List.mem_flatMap
  have hrest : w₁.AtRest := by
    rw [World.AtRest, hchanged.effects]
    exact hc.effects
  -- The changes leave the effects alone, so what they do is still code that only looks.
  have hlooks : ∀ e ∈ w₁.graph.pending, ∃ x, w₁.effects.get? e = some x ∧
      Looks w₁.scope (compute host x.computation) := fun e he => by
    obtain ⟨change, hm, he⟩ := (hmem e).1 he
    obtain ⟨x, hx, -, hlooks⟩ := (hfits change hm).effects e he
    exact ⟨x, hchanged.effects ▸ hx, hchanged.scope ▸ hlooks⟩
  obtain ⟨w₂, hreruns⟩ := Reruns.exists_of_looks (w := (w₁.beginning []).unloading) hrest
    (hchanged.unborrowed hc.signals).calm (hchanged.probes.trans hc.probes) hlooks
  obtain ⟨hafter, hpending₂, hqueued₂⟩ := hreruns.rest
  refine ⟨writes, w₁, w₂, ⟨⟨hchanges.run, hchanges⟩, fun s => hchanged.value, hpending, hnodup,
    fun e => ?_, hflush.run_drain hbound hrest hreruns, hreruns, ?_, hpending₂, hqueued₂, ?_⟩⟩
  · rw [hmem]
    simp only [mem_listeners]
    constructor
    · rintro ⟨change, hm, hlive, hread⟩
      exact ⟨hlive, change, hm, hread⟩
    · rintro ⟨hlive, change, hm, hread⟩
      exact ⟨change, hm, hlive, hread⟩
  · rw [hafter]
    rfl
  · rw [hafter]
    rfl

end Course

/-- At every point of every run of a program where nothing is under way and nothing waits, deferred effects
run once for all the changes of one task. -/
theorem deferred_effects_run_once (n : Nat) (program : List Expr) :
    (∃ d : Course, d.Of (.ofDepth n) program) ∧
      ∀ d : Course, d.Of (.ofDepth n) program → ∀ c ≤ d, c.world.Resting →
        ∀ host : Host, 2 ≤ host.bound →
          ∀ changes : List Change, (∀ change ∈ changes, change.Fits host c.world) →
            ∃ writes w₁ w₂, c.Refreshed host changes writes w₁ w₂ :=
  ⟨Course.exists_of n program, fun _ _ _ _ hrest _ hbound _ hfits =>
    Course.exists_refreshed hrest hbound hfits⟩

/-- Two effects share a signal. The one that was created last runs first, since a change has reached it
first. -/
theorem deferred_effects_run_once_shared :
    let other : Expr := .sequence [.log [.value (.string "other")], .on "t" "get" .get]
    let sum : Expr := .sequence [.log [.value (.string "sum")],
      .arithmetic .add (.on "s" "get" .get) (.on "t" "get" .get)]
    let program : List Expr := [
      .create "s" (.signal (.value (.integer 1))),
      .create "t" (.signal (.value (.integer 2))),
      .create "other" (.effect .deferred other),
      .create "sum" (.effect .deferred sum),
      .drain]
    let changes : List Change := [.set 0 (.integer 7),
      .update 2 (.arithmetic .add (.argument 0) (.value (.integer 1))), .set 0 (.integer 8)]
    ∃ d : Course, d.Of (.ofDepth 12) program ∧ d.world.Resting ∧
      ∃ writes w₁ w₂, d.Refreshed (.ofDepth 12) changes writes w₁ w₂ ∧ w₁.graph.pending = [6, 4] ∧
        w₂.log = ["other", "sum", "sum", "other"] := by
  intro other sum program changes
  -- What the proof needs of the world in which the program ends.
  obtain ⟨w, hw, hprobes, hs, ht, hother, hsum, ⟨htasks, hgraph, hnames, hlive, hlisteners⟩, heffects,
      hsignals, hkeys, hlog⟩ : ∃ w : World,
      (World.empty.run (Program.perform (.ofDepth 12) program)).2 = w ∧
      w.probes = .empty ∧
      w.handles.get? 1 = some ⟨.signal 0, 1⟩ ∧
      w.handles.get? 3 = some ⟨.signal 2, 1⟩ ∧
      w.effects.get? 4 = some ⟨.body other, .deferred, [], false⟩ ∧
      w.effects.get? 6 = some ⟨.body sum, .deferred, [], false⟩ ∧
      (w.tasks.isEmpty ∧
        (w.graph.pending = [] ∧ w.graph.flushQueued = false ∧ w.graph.observers = []) ∧
        (w.names.lookup "s" = some 1 ∧ w.names.lookup "t" = some 3) ∧
        ((w.signals.get? 0).isSome ∧ (w.signals.get? 2).isSome) ∧
        w.listeners 0 = [6] ∧ w.listeners 2 = [4, 6]) ∧
      w.AtRest ∧
      (∀ p ∈ w.signals.entries, p.2.readers = 0 ∧ p.2.writing = false) ∧
      (w.handles.entries.map (·.1)).Nodup ∧
      ((w.run (changes.forM (Change.perform (.ofDepth 12)))).2.run (drain (.ofDepth 12))).2.log =
        ["other", "sum", "sum", "other"] :=
    ⟨_, rfl, by cbv, by cbv, by cbv, by cbv, by cbv, by decide +kernel,
      by unfold World.AtRest; decide +kernel, by decide +kernel, by decide +kernel, by decide +kernel⟩
  obtain ⟨⟨d, hd⟩, hall⟩ := deferred_effects_run_once 12 program
  obtain rfl : d.world = w := hd.world.symm.trans hw
  have hrest : d.world.Resting := ⟨List.isEmpty_iff.1 htasks, hgraph.1, hgraph.2.1, hgraph.2.2, heffects,
    fun s x hx => hsignals _ (Store.mem_of_get? hx), hprobes⟩
  have hgets {name : String} {k n : Nat} (h : Bound d.world.scope name (.signal k)) :
      ReadsAs d.world.scope [] (.get (.state k) .answer)
        ((Host.ofDepth (n + 1)).call (.on name "get" .get) []) :=
    readsAs_get h fun _ _ => rfl
  have hs : Bound d.world.scope "s" (.signal 0) := ⟨hkeys, 1, 1, hnames.1, hs, by decide⟩
  have ht : Bound d.world.scope "t" (.signal 2) := ⟨hkeys, 3, 1, hnames.2, ht, by decide⟩
  have hlooks : ∀ e ∈ [4, 6], ∃ x, d.world.effects.get? e = some x ∧ x.timing = .deferred ∧
      Looks d.world.scope (compute (.ofDepth 12) x.computation) := by
    intro e he
    obtain rfl | rfl : e = 4 ∨ e = 6 := by simpa using he
    · exact ⟨_, hother, rfl, (readsAs_logging (n := 9) (hgets ht)).looks.bind fun _ => .pure _⟩
    · exact ⟨_, hsum, rfl, (readsAs_logging (n := 9)
        (readsAs_arithmetic (hgets hs) (hgets ht))).looks.bind fun _ => .pure _⟩
  have hfits : ∀ change ∈ changes, change.Fits (.ofDepth 12) d.world := by
    have hset (v : Value) : (Change.set 0 v).Fits (.ofDepth 12) d.world :=
      ⟨hlive.1, trivial, fun e he => hlooks e (by simp_all [Change.signal])⟩
    intro change hm
    obtain rfl | rfl | rfl : change = .set 0 (.integer 7) ∨ change = .update 2 _ ∨
        change = .set 0 (.integer 8) := by simpa [changes] using hm
    · exact hset _
    · exact ⟨hlive.2, fun v u _ _ _ => ⟨_, u, rfl, .refl u⟩,
        fun e he => hlooks e (by simp_all [Change.signal])⟩
    · exact hset _
  obtain ⟨writes, w₁, w₂, h⟩ := hall d hd d (le_refl d) hrest (.ofDepth 12) (by decide) changes hfits
  refine ⟨d, hd, hrest, writes, w₁, w₂, h, ?_, ?_⟩
  · rw [h.waiting]
    simp only [changes, List.flatMap_cons, List.flatMap_nil, Change.signal, hlisteners.1,
      hlisteners.2]
    decide
  · rw [h.calls.1, h.drain] at hlog
    exact hlog

/-- Two deferred effects read a signal, which is then changed. As soon as it is positive, the first one does
something more. -/
def Program.twoReaders (more : Expr) (change : Operation) : List Expr := [
  .create "s" (.signal (.value (.integer 0))),
  .create "t" (.signal (.value (.integer 0))),
  .create "first" (.effect .deferred (.sequence [.log [.value (.string "first")],
    .branch (.less (.value (.integer 0)) (.on "s" "get" .get)) more (.value .null)])),
  .create "second" (.effect .deferred (.sequence [.log [.value (.string "second")],
    .on "s" "get" .get, .on "t" "get" .get])),
  .drain,
  .on "s" "change" change,
  .drain]

/-- Bodies that write nothing may dispose, queue or create something, and so may updaters: then an effect
whose last run has tracked the signal does not run again, or runs twice. -/
theorem deferred_effects_disturbed :
    let one : Expr := .value (.integer 1)
    let disposing : Expr := .on "second" "dispose" .dispose
    let writing : Expr := .on "t" "set" (.set one)
    let logs (more : Expr) (change : Operation) : List (List String) :=
      (Program.run (Program.twoReaders more change)).map (·.log)
    let first := (World.empty.run (Program.perform (.ofDepth 20)
      ((Program.twoReaders disposing (.set one)).take 5))).2
    (first.tasks.isEmpty ∧ first.graph.pending = [] ∧ first.graph.subscribers 0 = [4, 6]) ∧
      logs disposing (.set one) = [[], [], [], [], ["first", "second"], [], ["first"]] ∧
      logs (.queue writing) (.set one) =
        [[], [], [], [], ["first", "second"], [], ["first", "second", "second"]] ∧
      logs (.create "third" (.effect .deferred writing)) (.set one) =
        [[], [], [], [], ["first", "second"], [], ["first", "second", "second"]] ∧
      logs (.value .null) (.update (.sequence [disposing, one])) =
        [[], [], [], [], ["first", "second"], [], ["first"]] := by
  decide +kernel

end FineGrain

import FineGrain.Proofs.Course.Effects
/-!
Executions, told step by step together with what each effect has read in its last run. There is a step
for the run of an effect that is idle and none for one that is running already, and nothing else may
depend on which effects are running. So an act that comes upon a running effect has no execution.
-/

namespace FineGrain

open Act

namespace Store

theorem lookup_map_values {α β : Type} (key : Nat) (f : α → β) (l : List (Nat × α)) :
    lookup key (l.map fun (k, a) => (k, f a)) = (lookup key l).map f := by
  induction l with
  | nil => rfl
  | cons p rest ih => by_cases hp : p.1 = key <;> simp [lookup, hp, ih]

end Store

def Effect.rested (x : Effect) : Effect := { x with running := false }

namespace World

/-- The world as it looks to whom the running effects are hidden. -/
def rested (w : World) : World :=
  { w with effects := ⟨w.effects.entries.map fun (e, x) => (e, x.rested)⟩ }

/-- The world when the computation of an effect is over. -/
def ending (w : World) (e : NodeId) (providers : List Provider) : World :=
  { w with
    graph := w.graph.popObserver
    effects := w.effects.modify e Effect.rested
    providers := providers }

theorem get?_rested (w : World) (e : NodeId) :
    w.rested.effects.get? e = (w.effects.get? e).map Effect.rested :=
  Store.lookup_map_values e Effect.rested w.effects.entries

end World

/-- An act concerns neither effects nor who reads what, in whatever world it runs. -/
structure Act.Apart {α : Type} (a : Act α) : Prop where
  effects : ∀ w : World, (w.run a).2.effects = w.effects
  nodes : ∀ w : World, (w.run a).2.graph.nodes = w.graph.nodes
  blind : ∀ w : World, w.rested.run a = ((w.run a).1, (w.run a).2.rested)

/-- A point of an execution: the world, and for each effect what it has read while it was the innermost
one that observes, and what it found there, since its last run began. -/
structure Stage where
  world : World
  reads : NodeId → List (Nat × Value)

namespace Stage

/-- Nothing has happened yet. -/
def start : Stage := ⟨.empty, fun _ => []⟩

/-- A signal is read for the effect that observes. -/
def tracking (s : Stage) (k : Nat) : Stage where
  world := { s.world with graph := s.world.graph.track k }
  reads e := if s.world.graph.observer? = some e then s.reads e ++ [(k, s.world.value k)] else s.reads e

/-- An effect starts afresh. -/
def starting (s : Stage) (e : NodeId) (providers : List Provider) : Stage where
  world := s.world.starting e providers
  reads o := if o = e then [] else s.reads o

end Stage

/-- `Plays s a v t`: executed at `s`, the act `a` answers `v` and leads to `t`, and no effect is asked to
run while it is running.

* `look`: the world is looked at, but not at which effects are running
* `create`: there is a new effect, which has not run yet
* `run`: an idle effect runs -/
inductive Plays : {α : Type} → Stage → Act α → α → Stage → Prop
  | bind {α β : Type} {s t u : Stage} {a : Act α} {f : α → Act β} {v : α} {x : β} :
      Plays s a v t → Plays t (f v) x u → Plays s (a >>= f) x u
  | look {α : Type} {s t : Stage} {k : World → Act α} {v : α} (blind : ∀ w, k w.rested = k w) :
      Plays s (k s.world) v t → Plays s (get >>= k) v t
  | apart {α : Type} {s : Stage} {a : Act α} {v : α} {w : World} (ha : a.Apart)
      (hrun : s.world.run a = (.ok v, w)) : Plays s a v ⟨w, s.reads⟩
  | track {s : Stage} (k : Nat) : Plays s (track k) ⟨⟩ (s.tracking k)
  | create {s : Stage} (e : NodeId) (timing : Timing) (computation : Computation) :
      Plays s (modify fun w =>
          { w with effects := w.effects.put e ⟨computation, timing, w.providers, false⟩ }) ⟨⟩
        ⟨{ s.world with
            effects := s.world.effects.put e ⟨computation, timing, s.world.providers, false⟩ },
          s.reads⟩
  | run {s t : Stage} {host : Host} {e : NodeId} {x : Effect} (present : s.world.effects.get? e = some x)
      (idle : x.running = false) :
      Plays (s.starting e x.providers) (compute host x.computation) ⟨⟩ t →
      Plays s (runEffect host e) ⟨⟩ ⟨t.world.ending e s.world.providers, t.reads⟩

/-- What can be reached from the start. -/
inductive Stage.Played : Stage → Prop
  | start : Played .start
  | act {α : Type} {s t : Stage} {a : Act α} {v : α} : Played s → Plays s a v t → Played t

namespace Plays

variable {α β : Type} {s t : Stage} {a : Act α} {v : α}

/-- An execution is what the library does. -/
theorem run_eq (h : Plays s a v t) : s.world.run a = (.ok v, t.world) := by
  induction h with
  | bind _ _ ih ih' => exact (World.run_bind_ok ih _).trans ih'
  | look _ _ ih => exact (World.run_bind_ok (World.run_get _) _).trans ih
  | apart _ hrun => exact hrun
  | track k => rfl
  | create e timing computation => rfl
  | run present idle _ ih =>
    exact (World.run_runEffect_starting _ present idle).trans (World.run_bind_ok ih _)

theorem pure (v : α) : Plays s (Pure.pure v) v s := .apart ⟨fun _ => rfl, fun _ => rfl, fun _ => rfl⟩ rfl

theorem ask {f : World → α} (blind : ∀ w, f w.rested = f w) :
    Plays s (do return f (← get)) (f s.world) s :=
  .look (fun w => by rw [blind]) (.pure _)

theorem change {g : World → World} (effects : ∀ w, (g w).effects = w.effects)
    (nodes : ∀ w, (g w).graph.nodes = w.graph.nodes) (blind : ∀ w, g w.rested = (g w).rested) :
    Plays s (modify g) ⟨⟩ ⟨g s.world, s.reads⟩ :=
  .apart ⟨effects, nodes, fun w => by rw [World.run_modify, World.run_modify, blind]⟩ rfl

theorem map {f : α → β} (h : Plays s a v t) : Plays s (f <$> a) (f v) t := by
  rw [map_eq_pure_bind]
  exact h.bind (.pure _)

end Plays

end FineGrain
